import Ironbind.ZoneFile

/- What the readers of numbers and addresses take off a text: none of it is a character
   that stands in no address (`NoAddress`), so that a text with such a character is no
   address (`parseWith_avoids`). -/
namespace Ironbind
open Codec

/-- What a reader takes off a text does not hold the character. -/
def Avoids {α : Type} (mark : Char) (read : Text → Option (α × Text)) : Prop :=
  ∀ s v rest, read s = some (v, rest) → ∃ front, s = front ++ rest ∧ mark ∉ front

/-- A character that stands in no address. -/
structure NoAddress (mark : Char) : Prop where
  hex : hexDigit mark = none
  dot : '.' ≠ mark
  colon : ':' ≠ mark

theorem noAddress_slash : NoAddress '\\' := ⟨rfl, by decide, by decide⟩
theorem noAddress_comma : NoAddress ',' := ⟨rfl, by decide, by decide⟩

namespace Avoids
variable {α β : Type} {mark : Char}

theorem readNumber (hmark : NoAddress mark) (radix maxDigits : Nat) (allow : Bool) :
    Avoids mark (Ironbind.readNumber radix maxDigits allow) := by
  intro s v rest h
  unfold Ironbind.readNumber at h
  dsimp only at h
  split at h
  · cases h
  split at h
  · cases h
  · cases h
    generalize hp : (fun c : Char => (((hexDigit c).map UInt8.toNat).filter (· < radix)).isSome) = p
    have hnot : p mark = false := by
      rw [← hp]
      simp [hmark.hex]
    refine ⟨s.takeWhile p, ?_, ?_⟩
    · exact (List.prefix_iff_eq_append.mp (List.takeWhile_prefix p)).symm
    · intro hm
      have := List.mem_takeWhile_imp hm
      rw [hnot] at this
      cases this

theorem readSeparator {separator : Char} (hs : separator ≠ mark) (first : Bool) {inner : Text → Option (α × Text)}
    (h : Avoids mark inner) : Avoids mark (Ironbind.readSeparator separator first inner) := by
  intro s v rest hr
  unfold Ironbind.readSeparator at hr
  split at hr
  · exact h s v rest hr
  · split at hr
    · next c s =>
      split at hr
      · next hc =>
        obtain ⟨front, rfl, hfront⟩ := h s v rest hr
        refine ⟨c :: front, rfl, ?_⟩
        intro hm
        obtain he | hm := List.mem_cons.mp hm
        · exact hs (hc.symm.trans he.symm)
        · exact hfront hm
      · cases hr
    · cases hr

theorem bind' {x : Text → Option (α × Text)} {f : α → Text → Option (β × Text)} (hx : Avoids mark x)
    (hf : ∀ a, Avoids mark (f a)) : Avoids mark fun s => (x s).bind fun out => f out.1 out.2 := by
  intro s v rest h
  obtain ⟨⟨a, s'⟩, ha, hrest⟩ := Option.bind_eq_some_iff.mp h
  obtain ⟨front, rfl, hfront⟩ := hx s a s' ha
  obtain ⟨front', rfl, hfront'⟩ := hf a s' v rest hrest
  exact ⟨front ++ front', by rw [List.append_assoc], fun hm => (List.mem_append.mp hm).elim hfront hfront'⟩

theorem pure' (a : α) : Avoids mark fun s => some (a, s) := by
  intro s v rest h
  cases h
  exact ⟨[], rfl, List.not_mem_nil⟩

theorem readOctet (hmark : NoAddress mark) : Avoids mark Ironbind.readOctet := by
  have h := (readNumber hmark 10 3 false).bind' (f := fun n s => if n ≤ 0xFF then some (UInt8.ofNat n, s) else none) (by
    intro n s v rest h
    dsimp only at h
    split at h
    · exact pure' _ s v rest h
    · cases h)
  exact h

theorem readIpv4 (hmark : NoAddress mark) : Avoids mark Ironbind.readIpv4 := by
  have hdot : ∀ first, Avoids mark (Ironbind.readSeparator '.' first Ironbind.readOctet) := fun first =>
    readSeparator hmark.dot first (readOctet hmark)
  exact (hdot true).bind' fun a => (hdot false).bind' fun b => (hdot false).bind' fun c => (hdot false).bind' fun d =>
    pure' [a, b, c, d]

theorem readGroups (hmark : NoAddress mark) :
    ∀ (room : Nat) (first : Bool) (s : Text), ∃ front, s = front ++ (Ironbind.readGroups room first s).2.2 ∧
    mark ∉ front
  | 0, _, s => ⟨[], rfl, List.not_mem_nil⟩
  | room + 1, first, s => by
    rw [Ironbind.readGroups]
    split
    · next octets s' h =>
      split at h
      · cases h
      · exact readSeparator hmark.colon first (readIpv4 hmark) s octets s' h
    · split
      · next group s' h =>
        obtain ⟨front, rfl, hfront⟩ := readSeparator hmark.colon first (readNumber hmark 16 4 true) s group s' h
        obtain ⟨front', hs, hfront'⟩ := readGroups hmark room false s'
        refine ⟨front ++ front', ?_, fun hm => (List.mem_append.mp hm).elim hfront hfront'⟩
        rw [List.append_assoc, ← hs]
      · exact ⟨[], rfl, List.not_mem_nil⟩

theorem readIpv6 (hmark : NoAddress mark) : Avoids mark Ironbind.readIpv6 := by
  intro s v rest h
  unfold Ironbind.readIpv6 at h
  obtain ⟨front, hs, hfront⟩ := readGroups hmark 8 true s
  dsimp only at h
  split at h
  · cases h
    exact ⟨front, hs, hfront⟩
  split at h
  · cases h
  split at h
  · next s' heq =>
    cases h
    obtain ⟨front', hs', hfront'⟩ := readGroups hmark (7 - (Ironbind.readGroups 8 true s).1.length / 2) true s'
    refine ⟨front ++ (':' :: ':' :: front'), ?_, ?_⟩
    · rw [List.append_assoc, List.cons_append, List.cons_append, ← hs', ← heq, ← hs]
    · intro hm
      obtain hm | hm := List.mem_append.mp hm
      · exact hfront hm
      · exact hfront' (by simpa [Ne.symm hmark.colon] using hm)
  · cases h

end Avoids

theorem parseWith_avoids {mark : Char} {read : Text → Option (Bytes × Text)} (hr : Avoids mark read) {t : Text}
    (ht : mark ∈ t) :
    parseWith read t = none := by
  unfold parseWith
  split
  · next octets h =>
    obtain ⟨front, rfl, hfront⟩ := hr t octets [] h
    rw [List.append_nil] at ht
    exact absurd ht hfront
  · rfl

end Ironbind
