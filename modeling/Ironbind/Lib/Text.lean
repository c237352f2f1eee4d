import Ironbind.Lib.Codec

/- Text as sequences of Unicode scalar values, with the operations a program
   performs on it: UTF-8 in both directions, ASCII case folding, trimming a
   character off the end, and splitting at a character. Decoding undoes encoding
   (`fromUtf8_utf8`) and the other way round, so UTF-8 is injective both ways;
   folding the case of text folds the case of its octets. -/
namespace Codec

abbrev Text := List Char

def utf8 (s : Text) : Bytes := s.flatMap String.utf8EncodeChar

/-- Decoding, one character at a time; the fuel is the number of octets, and each
    character takes at least one. -/
def fromUtf8Loop : Nat → Bytes → Option Text
  | _, [] => some []
  | 0, _ :: _ => none
  | fuel + 1, b :: bs =>
    match (b :: bs).toByteArray.utf8DecodeChar? 0 with
    | none => none
    | some c => (fromUtf8Loop fuel ((b :: bs).drop c.utf8Size)).map (c :: ·)

/-- The text an octet string is the UTF-8 encoding of, if there is one. -/
def fromUtf8 (b : Bytes) : Option Text := fromUtf8Loop b.length b

@[simp] theorem utf8_nil : utf8 [] = [] := rfl
theorem utf8_cons (c : Char) (s : Text) : utf8 (c :: s) = String.utf8EncodeChar c ++ utf8 s := rfl
theorem utf8_append (s t : Text) : utf8 (s ++ t) = utf8 s ++ utf8 t := List.flatMap_append

theorem utf8_length_cons (c : Char) (s : Text) : (utf8 (c :: s)).length = c.utf8Size + (utf8 s).length := by
  rw [utf8_cons, List.length_append, String.length_utf8EncodeChar]

theorem utf8_length_pos {s : Text} (h : s ≠ []) : 0 < (utf8 s).length := by
  cases s with
  | nil => exact absurd rfl h
  | cons c s => rw [utf8_length_cons]; have := c.utf8Size_pos; omega

theorem utf8_eq_nil {s : Text} : utf8 s = [] ↔ s = [] := by
  constructor
  · intro h
    by_contra hs
    have := utf8_length_pos hs
    rw [h] at this
    exact absurd this (by decide)
  · rintro rfl; rfl

theorem fromUtf8Loop_utf8 (s : Text) : ∀ fuel, (utf8 s).length ≤ fuel → fromUtf8Loop fuel (utf8 s) = some s := by
  induction s with
  | nil => intro fuel _; cases fuel <;> rfl
  | cons c s ih =>
    intro fuel hf
    rw [utf8_length_cons] at hf
    have hpos := c.utf8Size_pos
    obtain ⟨fuel, rfl⟩ : ∃ n, fuel = n + 1 := ⟨fuel - 1, by omega⟩
    have hdec : (utf8 (c :: s)).toByteArray.utf8DecodeChar? 0 = some c := by
      rw [utf8_cons, List.toByteArray_append]
      exact ByteArray.utf8DecodeChar?_utf8EncodeChar_append
    have hdrop : (utf8 (c :: s)).drop c.utf8Size = utf8 s := by
      rw [utf8_cons, ← String.length_utf8EncodeChar, List.drop_left]
    obtain ⟨b, bs, hb⟩ : ∃ b bs, utf8 (c :: s) = b :: bs := by
      cases h : utf8 (c :: s) with
      | nil => exact absurd (utf8_eq_nil.mp h) (by simp)
      | cons b bs => exact ⟨b, bs, rfl⟩
    rw [hb] at hdec hdrop ⊢
    simp only [fromUtf8Loop, hdec, hdrop, ih fuel (by omega), Option.map_some]

/-- Decoding undoes encoding. -/
theorem fromUtf8_utf8 (s : Text) : fromUtf8 (utf8 s) = some s := fromUtf8Loop_utf8 s _ (Nat.le_refl _)

theorem utf8_injective {s t : Text} (h : utf8 s = utf8 t) : s = t := by
  have := fromUtf8_utf8 s
  rw [h, fromUtf8_utf8] at this
  exact (Option.some.inj this).symm

/-- Decoding accepts encodings only. -/
theorem fromUtf8Loop_sound : ∀ (fuel : Nat) {b : Bytes} {s : Text}, fromUtf8Loop fuel b = some s → utf8 s = b
  | 0, [], s, h => by cases h; rfl
  | fuel + 1, [], s, h => by cases h; rfl
  | fuel + 1, b :: bs, s, h => by
    simp only [fromUtf8Loop] at h
    cases hc : (b :: bs).toByteArray.utf8DecodeChar? 0 with
    | none => rw [hc] at h; cases h
    | some c =>
      rw [hc] at h
      obtain ⟨t, ht, rfl⟩ := Option.map_eq_some_iff.mp h
      obtain ⟨rest, hrest⟩ := ByteArray.exists_of_utf8DecodeChar?_eq_some hc
      have hbytes : b :: bs = String.utf8EncodeChar c ++ rest.data.toList := by
        have := congrArg (fun a => a.data.toList) hrest
        simpa using this
      have hdrop : (b :: bs).drop c.utf8Size = rest.data.toList := by
        rw [hbytes, ← String.length_utf8EncodeChar, List.drop_left]
      rw [utf8_cons, fromUtf8Loop_sound fuel ht, hdrop, hbytes]

theorem utf8_fromUtf8 {b : Bytes} {s : Text} (h : fromUtf8 b = some s) : utf8 s = b := fromUtf8Loop_sound _ h

/-! ASCII case. -/

theorem map_eq_self_iff {α : Type} {f : α → α} {l : List α} : l.map f = l ↔ ∀ a ∈ l, f a = a := by
  rw [show (∀ a ∈ l, f a = a) ↔ l.map f = l.map id from List.map_inj_left.symm, List.map_id]

def toAsciiLowercase (s : Text) : Text := s.map Char.toLower

@[simp] theorem toAsciiLowercase_nil : toAsciiLowercase [] = [] := rfl
theorem toAsciiLowercase_cons (c : Char) (s : Text) :
    toAsciiLowercase (c :: s) = c.toLower :: toAsciiLowercase s := rfl
theorem toAsciiLowercase_append (s t : Text) :
    toAsciiLowercase (s ++ t) = toAsciiLowercase s ++ toAsciiLowercase t := List.map_append

theorem toAsciiLowercase_idem (s : Text) : toAsciiLowercase (toAsciiLowercase s) = toAsciiLowercase s := by
  simp only [toAsciiLowercase, List.map_map]
  exact List.map_congr_left fun c _ => Char.toLower_toLower_eq_toLower c

theorem toAsciiLowercase_eq_nil {s : Text} : toAsciiLowercase s = [] ↔ s = [] := List.map_eq_nil_iff

theorem utf8_length_toLower (c : Char) : c.toLower.utf8Size = c.utf8Size := by
  by_cases h : c.isUpper
  · have hlow : c.toLower.isLower := by
      rw [Char.isLower_toLower_eq_isAlpha, Char.isAlpha, h]; rfl
    simp only [Char.isUpper, Char.isLower, Bool.and_eq_true, decide_eq_true_eq, UInt32.le_iff_toNat_le] at h hlow
    have h1 : c.val ≤ 127 := UInt32.le_iff_toNat_le.mpr (Nat.le_trans h.2 (by decide))
    have h2 : c.toLower.val ≤ 127 := UInt32.le_iff_toNat_le.mpr (Nat.le_trans hlow.2 (by decide))
    rw [Char.utf8Size_eq_one_iff.mpr h1, Char.utf8Size_eq_one_iff.mpr h2]
  · rw [Char.toLower_eq_of_not_isUpper h]

theorem utf8_length_lower (s : Text) : (utf8 (toAsciiLowercase s)).length = (utf8 s).length := by
  induction s with
  | nil => rfl
  | cons c s ih => rw [toAsciiLowercase_cons, utf8_length_cons, utf8_length_cons, ih, utf8_length_toLower]

/-- An octet, the upper-case ASCII letters as the lower-case ones. -/
def foldOctet (b : UInt8) : UInt8 := if 65 ≤ b ∧ b ≤ 90 then b + 32 else b

theorem le_or_of_le {a m : UInt8} (h : 128 ≤ m) : 128 ≤ a ||| m := by
  rw [UInt8.le_iff_toNat_le] at h ⊢
  rw [UInt8.toNat_or]
  exact Nat.le_trans h Nat.right_le_or

/-- Outside ASCII, every octet of a character is 128 or more. -/
theorem ge_of_mem_utf8EncodeChar {c : Char} (h : ¬ c.val ≤ 127) : ∀ b ∈ String.utf8EncodeChar c, 128 ≤ b := by
  have h1 : c.utf8Size ≠ 1 := fun e => h (Char.utf8Size_eq_one_iff.mp e)
  have hs : c.utf8Size = 2 ∨ c.utf8Size = 3 ∨ c.utf8Size = 4 := by
    have := c.utf8Size_pos
    have := c.utf8Size_le_four
    omega
  intro b hb
  rcases hs with hs | hs | hs
  · rw [String.utf8EncodeChar_eq_cons_cons hs] at hb
    simp only [List.mem_cons, List.not_mem_nil, or_false] at hb
    rcases hb with rfl | rfl <;> exact le_or_of_le (by decide)
  · rw [String.utf8EncodeChar_eq_cons_cons_cons hs] at hb
    simp only [List.mem_cons, List.not_mem_nil, or_false] at hb
    rcases hb with rfl | rfl | rfl <;> exact le_or_of_le (by decide)
  · rw [String.utf8EncodeChar_eq_cons_cons_cons_cons hs] at hb
    simp only [List.mem_cons, List.not_mem_nil, or_false] at hb
    rcases hb with rfl | rfl | rfl | rfl <;> exact le_or_of_le (by decide)

theorem foldOctet_eq_self {b : UInt8} (h : 128 ≤ b) : foldOctet b = b := by
  rw [foldOctet, if_neg]
  rw [UInt8.le_iff_toNat_le, UInt8.le_iff_toNat_le]
  rw [UInt8.le_iff_toNat_le] at h
  simp at h ⊢
  omega

theorem utf8EncodeChar_ascii : ∀ n : Fin 128,
    String.utf8EncodeChar (Char.ofNat n).toLower = (String.utf8EncodeChar (Char.ofNat n)).map foldOctet := by
  decide +kernel

/-- Folding a character folds its octets. -/
theorem utf8EncodeChar_toLower (c : Char) :
    String.utf8EncodeChar c.toLower = (String.utf8EncodeChar c).map foldOctet := by
  by_cases h : c.val ≤ 127
  · have hlt : c.toNat < 128 := by
      have hle : c.val.toNat ≤ 127 := UInt32.le_iff_toNat_le.mp h
      exact Nat.lt_succ_of_le hle
    have hc := utf8EncodeChar_ascii ⟨c.toNat, hlt⟩
    rwa [Char.ofNat_toNat] at hc
  · have hup : ¬ c.isUpper := by
      intro hu
      simp only [Char.isUpper, decide_eq_true_eq] at hu
      exact h (UInt32.le_trans hu.2 (by decide))
    have hself : (String.utf8EncodeChar c).map foldOctet = (String.utf8EncodeChar c).map id :=
      List.map_congr_left fun b hb => foldOctet_eq_self (ge_of_mem_utf8EncodeChar h b hb)
    rw [Char.toLower_eq_of_not_isUpper hup, hself, List.map_id]

theorem utf8_toAsciiLowercase (s : Text) : utf8 (toAsciiLowercase s) = (utf8 s).map foldOctet := by
  induction s with
  | nil => rfl
  | cons c s ih => rw [toAsciiLowercase_cons, utf8_cons, utf8_cons, List.map_append, ih, utf8EncodeChar_toLower]

/-- Folding ASCII case touches letters only. -/
theorem toLower_eq_iff_of_not_alpha {c d : Char} (h : d.isAlpha = false) : c.toLower = d ↔ c = d := by
  constructor
  · intro e
    by_cases hu : c.isUpper
    · have ha : c.toLower.isAlpha := by
        rw [Char.isAlpha_toLower_eq_isAlpha, Char.isAlpha, hu]; rfl
      rw [e, h] at ha
      exact absurd ha (by decide)
    · rwa [Char.toLower_eq_of_not_isUpper hu] at e
  · rintro rfl
    refine Char.toLower_eq_of_not_isUpper fun hu => ?_
    rw [Char.isAlpha, hu, Bool.true_or] at h
    exact absurd h (by decide)

/-- It does not change whether a text ends with a character that is no letter. -/
theorem toAsciiLowercase_getLast? {s : Text} {d : Char} (h : d.isAlpha = false) :
    (toAsciiLowercase s).getLast? = some d ↔ s.getLast? = some d := by
  rw [toAsciiLowercase, List.getLast?_map]
  cases s.getLast? with
  | none => exact iff_of_false (Option.some_ne_none d).symm (Option.some_ne_none d).symm
  | some c => rw [Option.map_some, Option.some_inj, Option.some_inj, toLower_eq_iff_of_not_alpha h]

/-! Trimming and splitting at a character. -/

/-- `s` without the copies of `c` it ends with. -/
def trimEndMatches (c : Char) (s : Text) : Text := s.rdropWhile (· == c)

/-- The nonempty stretches of `s` between copies of `c`. -/
def pieces (c : Char) (s : Text) : List Text := (s.splitOn c).filter (· ≠ [])

section
variable {c : Char}

@[simp] theorem trimEndMatches_nil : trimEndMatches c [] = [] := rfl

theorem trimEndMatches_concat_self (s : Text) : trimEndMatches c (s ++ [c]) = trimEndMatches c s := by
  simp [trimEndMatches]

theorem trimEndMatches_concat_ne {d : Char} (s : Text) (h : d ≠ c) : trimEndMatches c (s ++ [d]) = s ++ [d] := by
  simp [trimEndMatches, h]

/-- Text that does not end with `c` is left alone. -/
theorem trimEndMatches_eq_self {s : Text} (h : s.getLast? ≠ some c) : trimEndMatches c s = s := by
  cases s using List.reverseRecOn with
  | nil => rfl
  | append_singleton t d =>
    rw [List.getLast?_concat] at h
    exact trimEndMatches_concat_ne t fun e => h (by rw [e])

/-- What trimming removes is a run of `c`. -/
theorem trimEndMatches_spec (s : Text) : ∃ n, s = trimEndMatches c s ++ List.replicate n c := by
  induction s using List.reverseRecOn with
  | nil => exact ⟨0, rfl⟩
  | append_singleton s d ih =>
    by_cases hd : d = c
    · subst hd
      obtain ⟨n, hn⟩ := ih
      refine ⟨n + 1, ?_⟩
      rw [trimEndMatches_concat_self, List.replicate_succ', ← List.append_assoc, ← hn]
    · exact ⟨0, by rw [trimEndMatches_concat_ne s hd]; simp⟩

theorem trimEndMatches_getLast? (s : Text) : (trimEndMatches c s).getLast? ≠ some c := by
  induction s using List.reverseRecOn with
  | nil => simp
  | append_singleton s d ih =>
    by_cases hd : d = c
    · rw [hd, trimEndMatches_concat_self]; exact ih
    · rw [trimEndMatches_concat_ne s hd, List.getLast?_concat]; simpa using hd

/-- Text that does not end with `c` stays in front of what is trimmed. -/
theorem trimEndMatches_append {s : Text} (h : s.getLast? ≠ some c) (t : Text) :
    trimEndMatches c (s ++ t) = s ++ trimEndMatches c t := by
  induction t using List.reverseRecOn with
  | nil => rw [List.append_nil, trimEndMatches_nil, List.append_nil, trimEndMatches_eq_self h]
  | append_singleton t d ih =>
    rw [← List.append_assoc]
    by_cases hd : d = c
    · rw [hd, trimEndMatches_concat_self, trimEndMatches_concat_self, ih]
    · rw [trimEndMatches_concat_ne _ hd, trimEndMatches_concat_ne _ hd, List.append_assoc]

/-- A separator splits the pieces of what stands around it. -/
theorem pieces_append_cons (s t : Text) : pieces c (s ++ c :: t) = pieces c s ++ pieces c t := by
  unfold pieces
  rw [List.splitOn_append_cons_self, List.filter_append]

theorem pieces_replicate (n : Nat) : pieces c (List.replicate n c) = [] := by
  induction n with
  | zero => simp [pieces]
  | succ n ih => rw [List.replicate_succ, ← List.nil_append (c :: _), pieces_append_cons, ih]; simp [pieces]

theorem pieces_trimEndMatches (s : Text) : pieces c (trimEndMatches c s) = pieces c s := by
  obtain ⟨n, hn⟩ := trimEndMatches_spec (c := c) s
  cases n with
  | zero => rw [List.replicate_zero, List.append_nil] at hn; rw [← hn]
  | succ n =>
    conv_rhs => rw [hn]
    rw [List.replicate_succ, pieces_append_cons, pieces_replicate, List.append_nil]

theorem nil_mem_splitOn_replicate (n : Nat) : [] ∈ (List.replicate n c).splitOn c := by
  cases n with
  | zero => simp
  | succ n => rw [List.replicate_succ, ← List.nil_append (c :: _), List.splitOn_append_cons_self]; simp

/-- Text without an empty stretch does not end with the separator. -/
theorem trimEndMatches_eq_self_of_splitOn {s : Text} (h : [] ∉ s.splitOn c) : trimEndMatches c s = s := by
  obtain ⟨n, hn⟩ := trimEndMatches_spec (c := c) s
  cases n with
  | zero => rw [List.replicate_zero, List.append_nil] at hn; exact hn.symm
  | succ n =>
    rw [hn, List.replicate_succ, List.splitOn_append_cons_self] at h
    exact absurd (List.mem_append_right _ (nil_mem_splitOn_replicate n)) h

theorem not_mem_of_mem_splitOn {s p : Text} (h : p ∈ s.splitOn c) : c ∉ p := by
  induction s generalizing p with
  | nil =>
    rw [List.splitOn_nil, List.mem_singleton] at h
    rw [h]; exact List.not_mem_nil
  | cons d s ih =>
    rw [List.splitOn_cons_eq_if_modifyHead] at h
    split at h
    · rcases List.mem_cons.mp h with rfl | h
      · exact List.not_mem_nil
      · exact ih h
    · next hd =>
      obtain ⟨q, qs, hq⟩ := List.exists_cons_of_ne_nil (List.splitOn_ne_nil c s)
      rw [hq, List.modifyHead_cons] at h
      rcases List.mem_cons.mp h with rfl | h
      · intro hm
        rcases List.mem_cons.mp hm with e | hm
        · exact hd (by rw [e]; simp)
        · exact ih (by rw [hq]; exact List.mem_cons_self) hm
      · exact ih (by rw [hq]; exact List.mem_cons_of_mem _ h)

theorem not_mem_of_mem_pieces {s p : Text} (h : p ∈ pieces c s) : c ∉ p :=
  not_mem_of_mem_splitOn (List.mem_filter.mp h).1

theorem ne_nil_of_mem_pieces {s p : Text} (h : p ∈ pieces c s) : p ≠ [] := by
  simpa using (List.mem_filter.mp h).2

/-- Splitting undoes joining. -/
theorem pieces_intercalate {ls : List Text} (hc : ∀ l ∈ ls, c ∉ l) (hne : ∀ l ∈ ls, l ≠ []) :
    pieces c ([c].intercalate ls) = ls := by
  unfold pieces
  cases ls with
  | nil => simp
  | cons l ls =>
    rw [List.splitOn_intercalate c hc (by simp)]
    exact List.filter_eq_self.mpr fun p hp => by simpa using hne p hp

/-- Splitting at a character that is no letter commutes with folding case. -/
theorem splitOn_toAsciiLowercase (h : c.isAlpha = false) (s : Text) :
    (toAsciiLowercase s).splitOn c = (s.splitOn c).map toAsciiLowercase := by
  induction s with
  | nil => rfl
  | cons d s ih =>
    obtain ⟨q, qs, hq⟩ := List.exists_cons_of_ne_nil (List.splitOn_ne_nil c s)
    rw [toAsciiLowercase_cons, List.splitOn_cons_eq_if_modifyHead, List.splitOn_cons_eq_if_modifyHead, ih, hq]
    simp only [beq_iff_eq, toLower_eq_iff_of_not_alpha h]
    split <;> simp [toAsciiLowercase_cons]

theorem pieces_toAsciiLowercase (h : c.isAlpha = false) (s : Text) :
    pieces c (toAsciiLowercase s) = (pieces c s).map toAsciiLowercase := by
  unfold pieces
  rw [splitOn_toAsciiLowercase h, List.filter_map]
  congr 1
  apply List.filter_congr
  intro p _
  simp [Function.comp, toAsciiLowercase_eq_nil]

end

end Codec
