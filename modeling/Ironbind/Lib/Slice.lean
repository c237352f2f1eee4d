import Ironbind.Lib.Text

/- Text cut at octet offsets, as a program slices a string it keeps in UTF-8. A cut is
   a cut only between two characters (`splitOctets_eq_some`): an offset past the end
   or inside a character gives nothing. -/
namespace Codec

/-- The text in front of an octet offset and behind it. -/
def splitOctets : Nat → Text → Option (Text × Text)
  | 0, s => some ([], s)
  | _ + 1, [] => none
  | n + 1, c :: s =>
    if c.utf8Size ≤ n + 1 then (splitOctets (n + 1 - c.utf8Size) s).map fun cut => (c :: cut.1, cut.2) else none

theorem splitOctets_append (b : Text) : ∀ a : Text, splitOctets (utf8 a).length (a ++ b) = some (a, b)
  | [] => by rw [utf8_nil, List.nil_append, List.length_nil, splitOctets]
  | c :: a => by
    have hpos := c.utf8Size_pos
    obtain ⟨n, hn⟩ : ∃ n, (utf8 (c :: a)).length = n + 1 := ⟨(utf8 (c :: a)).length - 1, by
      rw [utf8_length_cons]; omega⟩
    have hlen : n + 1 = c.utf8Size + (utf8 a).length := by rw [← hn, utf8_length_cons]
    have hrest : n + 1 - c.utf8Size = (utf8 a).length := by omega
    rw [hn, List.cons_append, splitOctets, if_pos (by omega), hrest, splitOctets_append b a]
    rfl

/-- A cut has the text it cuts on its two sides, and as many octets in front as it says. -/
theorem splitOctets_eq_some {n : Nat} {s a b : Text} :
    splitOctets n s = some (a, b) ↔ s = a ++ b ∧ (utf8 a).length = n := by
  constructor
  · intro h
    induction s generalizing n a with
    | nil =>
      cases n with
      | zero =>
        cases h
        exact ⟨rfl, rfl⟩
      | succ n => cases h
    | cons c s ih =>
      cases n with
      | zero =>
        cases h
        exact ⟨rfl, rfl⟩
      | succ n =>
        rw [splitOctets] at h
        split at h
        · next hle =>
          obtain ⟨cut, hcut, heq⟩ := Option.map_eq_some_iff.mp h
          cases heq
          obtain ⟨hs, hlen⟩ := ih hcut
          refine ⟨by rw [List.cons_append, ← hs], ?_⟩
          rw [utf8_length_cons]
          omega
        · cases h
  · intro h
    rw [h.1, ← h.2]
    exact splitOctets_append b a

/-- `&s[i..j]`. -/
def sliceOctets (s : Text) (i j : Nat) : Option Text :=
  if i ≤ j then do
    let (_, rest) ← splitOctets i s
    let (inner, _) ← splitOctets (j - i) rest
    pure inner
  else none

/-- The slice from a cut on has the octets behind it that it asks for, or there is no such slice. -/
theorem sliceOctets_eq (a s : Text) (n : Nat) :
    sliceOctets (a ++ s) (utf8 a).length ((utf8 a).length + n) = (splitOctets n s).map Prod.fst := by
  rw [sliceOctets, if_pos (Nat.le_add_right _ _), splitOctets_append, Nat.add_sub_cancel_left]
  cases h : splitOctets n s with
  | none => simp [h]
  | some cut => simp [h]

theorem sliceOctets_zero (s : Text) (n : Nat) : sliceOctets s 0 n = (splitOctets n s).map Prod.fst := by
  have := sliceOctets_eq [] s n
  rwa [utf8_nil, List.length_nil, Nat.zero_add, List.nil_append] at this

end Codec
