import Ironbind.Lib.Text

/- Text with escapes. A backslash in front of a character that is no digit stands for
   that character, and in front of three digits for the octet they number. `Denotes` relates
   a text to the octets it stands for; one character, the text's delimiter, it has in
   escapes only. A text without a backslash stands for itself (`Denotes.eq_utf8`) and one
   with a backslash for fewer octets than it has (`Denotes.length_lt`). -/
namespace Codec

/-- The number of three digits. -/
def decimalOctet (d e f : Char) : Nat := (d.toNat - 48) * 100 + (e.toNat - 48) * 10 + (f.toNat - 48)

/-- The octets a text stands for. -/
inductive Denotes (stop : Char) : Text → Bytes → Prop where
  | nil : Denotes stop [] []
  | plain {c : Char} {t : Text} {b : Bytes} (hstop : c ≠ stop) (hslash : c ≠ '\\') (h : Denotes stop t b) :
      Denotes stop (c :: t) (String.utf8EncodeChar c ++ b)
  | escaped {c : Char} {t : Text} {b : Bytes} (hdigit : c.isDigit = false) (h : Denotes stop t b) :
      Denotes stop ('\\' :: c :: t) (String.utf8EncodeChar c ++ b)
  | octet {d e f : Char} {t : Text} {b : Bytes} (hd : d.isDigit = true) (he : e.isDigit = true) (hf : f.isDigit = true)
      (hle : decimalOctet d e f ≤ 255) (h : Denotes stop t b) :
      Denotes stop ('\\' :: d :: e :: f :: t) (UInt8.ofNat (decimalOctet d e f) :: b)

/-! Octets of ASCII characters. -/

theorem utf8EncodeChar_of_ascii {c : Char} (h : c.toNat < 128) : String.utf8EncodeChar c = [UInt8.ofNat c.toNat] := by
  have hle : c.val ≤ 127 := UInt32.le_iff_toNat_le.mpr (Nat.le_of_lt_succ h)
  rw [String.utf8EncodeChar_eq_singleton (Char.utf8Size_eq_one_iff.mpr hle)]
  rfl

/-- An octet of an ASCII character is no part of another character. -/
theorem char_of_octet {n : Nat} (hn : n < 128) {c : Char} (h : UInt8.ofNat n ∈ String.utf8EncodeChar c) : c.toNat = n := by
  have htoNat : (UInt8.ofNat n).toNat = n := by
    rw [UInt8.toNat_ofNat', Nat.mod_eq_of_lt (by omega)]
  by_cases hc : c.val ≤ 127
  · have hlt : c.toNat < 128 := Nat.lt_succ_of_le (UInt32.le_iff_toNat_le.mp hc)
    rw [utf8EncodeChar_of_ascii hlt, List.mem_singleton] at h
    have := congrArg UInt8.toNat h
    rw [htoNat, UInt8.toNat_ofNat', Nat.mod_eq_of_lt (by omega)] at this
    exact this.symm
  · have := UInt8.le_iff_toNat_le.mp (ge_of_mem_utf8EncodeChar hc _ h)
    rw [htoNat] at this
    exact absurd this (by simpa using hn)

theorem utf8EncodeChar_length_pos (c : Char) : 0 < (String.utf8EncodeChar c).length := by
  rw [String.length_utf8EncodeChar]
  exact c.utf8Size_pos

namespace Denotes
variable {stop : Char} {t : Text} {b : Bytes}

theorem eq_utf8 (h : Denotes stop t b) (hs : '\\' ∉ t) : b = utf8 t := by
  induction h with
  | nil => rfl
  | plain _ _ _ ih => rw [utf8_cons, ih fun hm => hs (List.mem_cons_of_mem _ hm)]
  | escaped _ _ _ => exact absurd List.mem_cons_self hs
  | octet _ _ _ _ _ _ => exact absurd List.mem_cons_self hs

theorem of_plain : ∀ {t : Text}, stop ∉ t → '\\' ∉ t → Denotes stop t (utf8 t)
  | [], _, _ => .nil
  | c :: t, hstop, hs => by
    rw [utf8_cons]
    refine .plain ?_ ?_ (of_plain (fun hm => hstop (List.mem_cons_of_mem c hm)) fun hm => hs (List.mem_cons_of_mem c hm))
    · exact fun he => hstop (he ▸ List.mem_cons_self)
    · exact fun he => hs (he ▸ List.mem_cons_self)

/-- Without an escape there is no delimiter. -/
theorem stop_not_mem (h : Denotes stop t b) (hs : '\\' ∉ t) : stop ∉ t := by
  induction h with
  | nil => exact List.not_mem_nil
  | plain hstop _ _ ih =>
    intro hm
    obtain he | hm := List.mem_cons.mp hm
    · exact hstop he.symm
    · exact ih (fun hm => hs (List.mem_cons_of_mem _ hm)) hm
  | escaped _ _ _ => exact absurd List.mem_cons_self hs
  | octet _ _ _ _ _ _ => exact absurd List.mem_cons_self hs

theorem utf8Size_slash : ('\\' : Char).utf8Size = 1 := by decide

theorem utf8Size_digit {c : Char} (h : c.isDigit = true) : c.utf8Size = 1 := by
  apply Char.utf8Size_eq_one_iff.mpr
  simp only [Char.isDigit, Bool.and_eq_true, decide_eq_true_eq] at h
  exact UInt32.le_trans h.2 (by decide)

theorem length_le (h : Denotes stop t b) : b.length ≤ (utf8 t).length := by
  induction h with
  | nil => exact Nat.le_refl 0
  | plain _ _ _ ih =>
    rw [utf8_length_cons, List.length_append, String.length_utf8EncodeChar]
    omega
  | escaped _ _ ih =>
    rw [utf8_length_cons, utf8_length_cons, List.length_append, String.length_utf8EncodeChar]
    omega
  | octet _ _ _ _ _ ih =>
    rw [utf8_length_cons, utf8Size_slash, List.length_cons]
    rw [utf8_length_cons, utf8_length_cons, utf8_length_cons]
    omega

/-- An escape is longer than what it stands for. -/
theorem length_lt (h : Denotes stop t b) (hs : '\\' ∈ t) : b.length < (utf8 t).length := by
  induction h with
  | nil => cases hs
  | @plain c t b _ hslash _ ih =>
    have := ih ((List.mem_cons.mp hs).resolve_left fun he => hslash he.symm)
    rw [utf8_length_cons, List.length_append, String.length_utf8EncodeChar]
    omega
  | escaped _ h _ =>
    have := h.length_le
    rw [utf8_length_cons, utf8_length_cons, utf8Size_slash, List.length_append, String.length_utf8EncodeChar]
    omega
  | @octet d e f t b hd he hf _ h _ =>
    have := h.length_le
    rw [utf8_length_cons, utf8_length_cons, utf8_length_cons, utf8_length_cons, utf8Size_slash, utf8Size_digit hd,
      utf8Size_digit he, utf8Size_digit hf, List.length_cons]
    omega

/-- An escape is at most four times as long as what it stands for. -/
theorem length_ge (h : Denotes stop t b) : (utf8 t).length ≤ 4 * b.length := by
  induction h with
  | nil => exact Nat.le_refl 0
  | plain _ _ _ ih =>
    rw [utf8_length_cons, List.length_append, String.length_utf8EncodeChar]
    omega
  | @escaped c t b _ _ ih =>
    have := c.utf8Size_pos
    rw [utf8_length_cons, utf8_length_cons, utf8Size_slash, List.length_append, String.length_utf8EncodeChar]
    omega
  | octet hd he hf _ _ ih =>
    rw [utf8_length_cons, utf8_length_cons, utf8_length_cons, utf8_length_cons, utf8Size_slash, utf8Size_digit hd,
      utf8Size_digit he, utf8Size_digit hf, List.length_cons]
    omega

/-- A delimiter in the text is among what it stands for. -/
theorem mem_of_stop (h : Denotes stop t b) (hdigit : stop.isDigit = false) (hslash : stop ≠ '\\') (hm : stop ∈ t) :
    ∀ x ∈ String.utf8EncodeChar stop, x ∈ b := by
  intro x hx
  induction h with
  | nil => cases hm
  | plain hstop _ _ ih =>
    have hm := (List.mem_cons.mp hm).resolve_left fun he => hstop he.symm
    exact List.mem_append_right _ (ih hm)
  | escaped _ _ ih =>
    have hm := (List.mem_cons.mp hm).resolve_left hslash
    obtain rfl | hm := List.mem_cons.mp hm
    · exact List.mem_append_left _ hx
    · exact List.mem_append_right _ (ih hm)
  | octet hd he hf _ _ ih =>
    have hne : ∀ {c : Char}, c.isDigit = true → stop ≠ c := by
      intro c hc he
      rw [he, hc] at hdigit
      cases hdigit
    have hm := (List.mem_cons.mp hm).resolve_left hslash
    have hm := (List.mem_cons.mp hm).resolve_left (hne hd)
    have hm := (List.mem_cons.mp hm).resolve_left (hne he)
    have hm := (List.mem_cons.mp hm).resolve_left (hne hf)
    exact List.mem_cons_of_mem _ (ih hm)

/-- A last character that is no digit is the last that the text stands for. -/
theorem last {w : Char} (h : Denotes stop t b) (hw : w.isDigit = false) (hlast : t.getLast? = some w) :
    ∃ front, b = front ++ String.utf8EncodeChar w := by
  induction h with
  | nil => cases hlast
  | @plain c t b _ _ h ih =>
    cases t with
    | nil =>
      cases h
      cases hlast
      exact ⟨[], by rw [List.append_nil]; rfl⟩
    | cons c' t =>
      obtain ⟨front, rfl⟩ := ih hlast
      exact ⟨String.utf8EncodeChar c ++ front, by rw [List.append_assoc]⟩
  | @escaped c t b _ h ih =>
    cases t with
    | nil =>
      cases h
      cases hlast
      exact ⟨[], by rw [List.append_nil]; rfl⟩
    | cons c' t =>
      obtain ⟨front, rfl⟩ := ih hlast
      exact ⟨String.utf8EncodeChar c ++ front, by rw [List.append_assoc]⟩
  | @octet d e f t b _ _ hf _ h ih =>
    cases t with
    | nil =>
      cases hlast
      have hfalse : f.isDigit = false := hw
      rw [hf] at hfalse
      cases hfalse
    | cons c' t =>
      obtain ⟨front, rfl⟩ := ih hlast
      exact ⟨_ :: front, rfl⟩

end Denotes

end Codec
