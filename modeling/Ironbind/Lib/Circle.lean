import Mathlib

/- Points on a circle: an increasing list over a linear order, read so that the
   first point follows the last. `Between a b x` says that `x` lies on the open arc
   from `a` to `b`, and `coverIndex` finds the arc that holds a given element by
   binary search. The search is the one of a standard library (`partitionPoint`): it
   may only be trusted on a list that its predicate cuts in two, which a sorted list
   is.

   `cover_between` is the point of it: an element that is no point lies between its
   covering point and the next, and `ne_of_cover` adds that no point does.
   `isChain_around` says that going on to the next point visits each point once and
   comes back. -/
namespace Circle

/-! Binary search. -/

section
variable {α : Type} (p : α → Bool) (l : List α)

/-- The search between `left` and `right`: what is left of `left` satisfies `p`, what is from `right` on
    does not. Each pass halves the distance, so the fuel need only reach it. -/
def partitionLoop : Nat → Nat → Nat → Nat
  | 0, left, _ => left
  | fuel + 1, left, right =>
    if left < right then
      let mid := left + (right - left) / 2
      match l[mid]? with
      | none => left
      | some a => if p a then partitionLoop fuel (mid + 1) right else partitionLoop fuel left mid
    else left

/-- The index of the first element that does not satisfy `p`. -/
def partitionPoint : Nat := partitionLoop p l l.length 0 l.length

variable {p l}

/-- `p` cuts the list at `k`. -/
def Cut (p : α → Bool) (l : List α) (k : Nat) : Prop :=
  k ≤ l.length ∧ ∀ i a, l[i]? = some a → (p a = true ↔ i < k)

theorem partitionLoop_eq {k : Nat} (hcut : Cut p l k) : ∀ (fuel left right : Nat), left ≤ k → k ≤ right →
    right ≤ l.length → right - left ≤ fuel → partitionLoop p l fuel left right = k
  | 0, left, right, hl, hr, _, hf => by
    show left = k
    omega
  | fuel + 1, left, right, hl, hr, hlen, hf => by
    rw [partitionLoop]
    by_cases hlt : left < right
    · rw [if_pos hlt]
      set mid := left + (right - left) / 2 with hmid
      have hm : mid < l.length := by omega
      have hget : l[mid]? = some l[mid] := List.getElem?_eq_getElem hm
      simp only [hget]
      have hp := hcut.2 mid l[mid] hget
      split
      · next h =>
        have hk : mid < k := hp.mp h
        exact partitionLoop_eq hcut fuel (mid + 1) right (by omega) hr hlen (by omega)
      · next h =>
        have hk : ¬ mid < k := fun h' => h (hp.mpr h')
        exact partitionLoop_eq hcut fuel left mid hl (by omega) (by omega) (by omega)
    · rw [if_neg hlt]; omega

/-- On a list that `p` cuts, the search finds the cut. -/
theorem partitionPoint_eq {k : Nat} (hcut : Cut p l k) : partitionPoint p l = k :=
  partitionLoop_eq hcut l.length 0 l.length (Nat.zero_le k) hcut.1 (Nat.le_refl _) (Nat.le_refl _)

/-- A list in which no element satisfying `p` stands behind one that does not is cut by `p`. -/
theorem exists_cut (h : l.Pairwise fun a b => p b = true → p a = true) : ∃ k, Cut p l k := by
  induction l with
  | nil => exact ⟨0, Nat.le_refl _, by simp⟩
  | cons a l ih =>
    rw [List.pairwise_cons] at h
    obtain ⟨k, hk, hcut⟩ := ih h.2
    by_cases ha : p a = true
    · refine ⟨k + 1, by simpa using hk, fun i b hb => ?_⟩
      cases i with
      | zero => simp only [List.getElem?_cons_zero, Option.some.injEq] at hb; subst hb; simp [ha]
      | succ i => rw [List.getElem?_cons_succ] at hb; rw [hcut i b hb]; omega
    · refine ⟨0, Nat.zero_le _, fun i b hb => ?_⟩
      have hb' : p b ≠ true := by
        cases i with
        | zero => simp only [List.getElem?_cons_zero, Option.some.injEq] at hb; exact hb ▸ ha
        | succ i =>
          rw [List.getElem?_cons_succ] at hb
          exact fun hp => ha (h.1 b (List.mem_of_getElem? hb) hp)
      simp [hb']

end

/-! Arcs. -/

section
variable {α : Type} [LinearOrder α]

/-- `x` lies on the open arc from `a` to `b`: between them, or past either end when the arc
    goes over the turn. The arc from a point to itself is everything else. -/
def Between (a b x : α) : Prop := if a < b then a < x ∧ x < b else a < x ∨ x < b

end

/-! Points, by a key. -/

section
variable {α β : Type} [LinearOrder α] {key : β → α} {l : List β}

theorem le_of_sorted (hl : l.Pairwise fun a b => key a ≤ key b) {i j : Nat} (hi : i < l.length) (hj : j < l.length)
    (hij : i ≤ j) : key l[i] ≤ key l[j] := by
  rcases Nat.lt_or_eq_of_le hij with hlt | rfl
  · exact List.pairwise_iff_getElem.mp hl i j hi hj hlt
  · exact le_refl _

/-- A sorted list is cut where an element belongs. -/
theorem exists_cut_lt (hl : l.Pairwise fun a b => key a ≤ key b) (x : α) :
    ∃ k, Cut (fun b => decide (key b < x)) l k :=
  exists_cut (hl.imp fun hab hb => by simpa using lt_of_le_of_lt hab (by simpa using hb))

/-- The index of the point whose arc covers `x`: the last point before it, or the last of all. -/
def coverIndex (key : β → α) (l : List β) (x : α) : Nat :=
  let position := partitionPoint (fun b => decide (key b < x)) l
  if position = 0 then l.length - 1 else position - 1

/-- **The covering arc.** Either it starts before `x` and ends at or behind it, and no point lies inside; or
    it goes over the turn from the last point to the first, and `x` stands on one side of all the points. -/
theorem cover_arc (hl : l.Pairwise fun a b => key a ≤ key b) (hne : l ≠ []) (x : α) :
    ∃ a b, l[coverIndex key l x]? = some a ∧ l[(coverIndex key l x + 1) % l.length]? = some b ∧
      ((key a < x ∧ x ≤ key b ∧ ∀ c ∈ l, key c ≤ key a ∨ key b ≤ key c) ∨
        ((∀ c ∈ l, key b ≤ key c ∧ key c ≤ key a) ∧ ((∀ c ∈ l, x ≤ key c) ∨ ∀ c ∈ l, key c < x))) := by
  have hpos : 0 < l.length := List.length_pos_of_ne_nil hne
  obtain ⟨k, hcut⟩ := exists_cut_lt hl x
  have hbefore : ∀ i (hi : i < l.length), i < k → key l[i] < x := fun i hi h => by
    simpa using (hcut.2 i _ (List.getElem?_eq_getElem hi)).mpr h
  have hbehind : ∀ i (hi : i < l.length), k ≤ i → x ≤ key l[i] := fun i hi h => not_lt.mp fun hlt => by
    have := (hcut.2 i _ (List.getElem?_eq_getElem hi)).mp (by simpa using hlt)
    omega
  have hidx : coverIndex key l x = if k = 0 then l.length - 1 else k - 1 := by
    unfold coverIndex; rw [partitionPoint_eq hcut]
  have hklen := hcut.1
  by_cases hend : k = 0 ∨ k = l.length
  · have hi : coverIndex key l x = l.length - 1 := by rw [hidx]; split <;> omega
    have hnext : (coverIndex key l x + 1) % l.length = 0 := by rw [hi, Nat.sub_add_cancel hpos, Nat.mod_self]
    refine ⟨l[l.length - 1], l[0], by rw [hi]; exact List.getElem?_eq_getElem _,
      by rw [hnext]; exact List.getElem?_eq_getElem _, .inr ⟨?_, ?_⟩⟩
    · intro c hc
      obtain ⟨j, hj, rfl⟩ := List.getElem_of_mem hc
      exact ⟨le_of_sorted hl hpos hj (Nat.zero_le j), le_of_sorted hl hj (by omega) (by omega)⟩
    · refine hend.imp (fun h0 c hc => ?_) fun hlen c hc => ?_ <;> obtain ⟨j, hj, rfl⟩ := List.getElem_of_mem hc
      · exact hbehind j hj (by omega)
      · exact hbefore j hj (by omega)
  · have hi : coverIndex key l x = k - 1 := hidx.trans (if_neg (by omega))
    have hnext : (coverIndex key l x + 1) % l.length = k := by rw [hi, Nat.mod_eq_of_lt (by omega)]; omega
    refine ⟨l[k - 1], l[k], by rw [hi]; exact List.getElem?_eq_getElem _,
      by rw [hnext]; exact List.getElem?_eq_getElem _, .inl ⟨hbefore _ _ (by omega), hbehind k _ (Nat.le_refl k), ?_⟩⟩
    intro c hc
    obtain ⟨j, hj, rfl⟩ := List.getElem_of_mem hc
    rcases Nat.lt_or_ge j k with h | h
    · exact .inl (le_of_sorted hl hj (by omega) (by omega))
    · exact .inr (le_of_sorted hl (by omega) hj h)

/-- **Covering.** An element that is the key of no point lies on the arc that covers it. -/
theorem cover_between (hl : l.Pairwise fun a b => key a ≤ key b) (hne : l ≠ []) {x : α} (hx : ∀ b ∈ l, key b ≠ x) :
    ∃ a b, l[coverIndex key l x]? = some a ∧ l[(coverIndex key l x + 1) % l.length]? = some b ∧
      Between (key a) (key b) x := by
  obtain ⟨a, b, ha, hb, harc⟩ := cover_arc hl hne x
  have hmem := List.mem_of_getElem? hb
  refine ⟨a, b, ha, hb, ?_⟩
  rcases harc with ⟨hax, hxb, _⟩ | ⟨hall, hside⟩
  · have hxb := lt_of_le_of_ne hxb (hx b hmem).symm
    rw [Between, if_pos (hax.trans hxb)]
    exact ⟨hax, hxb⟩
  · rw [Between, if_neg (not_lt.mpr (hall b hmem).2)]
    rcases hside with hside | hside
    · exact .inr (lt_of_le_of_ne (hside b hmem) (hx b hmem).symm)
    · exact .inl (hside a (List.mem_of_getElem? ha))

/-- No point lies on a covering arc. -/
theorem ne_of_cover (hl : l.Pairwise fun a b => key a ≤ key b) {x y : α} {a b : β}
    (ha : l[coverIndex key l x]? = some a) (hb : l[(coverIndex key l x + 1) % l.length]? = some b)
    (hy : Between (key a) (key b) y) : ∀ c ∈ l, key c ≠ y := by
  obtain ⟨a', b', ha', hb', harc⟩ := cover_arc hl (List.ne_nil_of_mem (List.mem_of_getElem? ha)) x
  obtain rfl := Option.some.inj (ha.symm.trans ha')
  obtain rfl := Option.some.inj (hb.symm.trans hb')
  rintro c hc rfl
  rcases harc with ⟨hax, hxb, hout⟩ | ⟨hall, _⟩
  · rw [Between, if_pos (hax.trans_le hxb)] at hy
    exact (hout c hc).elim (not_le.mpr hy.1) (not_le.mpr hy.2)
  · rw [Between, if_neg (not_lt.mpr ((hall c hc).1.trans (hall c hc).2))] at hy
    exact hy.elim (not_lt.mpr (hall c hc).2) (not_lt.mpr (hall c hc).1)

/-- **Going around.** If each point is followed by the next by index, then from any point on one comes
    through all the points behind it and all before it, and back to it. -/
theorem isChain_around {next : β → Option β} (hnext : ∀ i a, l[i]? = some a → next a = l[(i + 1) % l.length]?)
    {before after : List β} {a : β} (hl : l = before ++ a :: after) :
    List.IsChain (fun b c => next b = some c) (a :: after ++ before ++ [a]) := by
  have hlen : l.length = before.length + after.length + 1 := by rw [hl]; simp; omega
  have hrot : a :: after ++ before = l.rotate before.length := by rw [hl, List.rotate_append_length_eq]
  have hget : ∀ j, j ≤ l.length → (a :: after ++ before ++ [a])[j]? = l[(j + before.length) % l.length]? := by
    intro j hj
    rcases Nat.lt_or_eq_of_le hj with hj | rfl
    · rw [List.getElem?_append_left (by rw [hrot, List.length_rotate]; exact hj), hrot, List.getElem?_rotate hj]
    · -- the point itself once more, a full turn on
      have hmod : (l.length + before.length) % l.length = before.length := by
        rw [Nat.add_mod_left, Nat.mod_eq_of_lt (by omega)]
      rw [hmod, List.getElem?_append_right (by rw [hrot, List.length_rotate]), hrot, List.length_rotate, hl]
      simp
  rw [List.isChain_iff_getElem]
  intro j hj
  have hjlen : j < l.length := by
    simp only [List.length_append, List.length_cons, List.length_nil] at hj; omega
  have h1 := hget j (by omega)
  have h2 := hget (j + 1) hjlen
  rw [List.getElem?_eq_getElem (by omega)] at h1 h2
  rw [hnext _ _ h1.symm, h2, Nat.mod_add_mod]
  congr 2
  omega

end

end Circle
