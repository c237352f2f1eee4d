import Ironbind.Proto

/- Names on the wire. A name's labels are the nonempty pieces of its text between
   dots (`labelsOf`); both encoders write them length-prefixed with a zero octet
   behind (`Builder.name_eq`, `canonicalName_eq`), and the parser reads them back
   in lower case wherever they stand in a packet (`name_decodes`). A pass of the
   parser moves forward or spends one of 20 jumps (`nameMeasure`), so `nameFuel`
   passes are never used up (`nameFuel_enough`). -/
namespace Ironbind
open Codec

/-- One pass of the name loop that succeeds meets the end of the name, a pointer or a label. -/
theorem nameLoop_ok {buf : Bytes} {fuel : Nat} {parts : List Text} {selfPos pos : Nat} {jumped : Bool} {jumps : Nat}
    {res : List Text} {stop : Nat}
    (h : Parser.nameLoop buf (fuel + 1) parts selfPos pos jumped jumps = (.ok res, stop)) :
    ∃ b, buf[pos]? = some b ∧
      ((b = 0 ∧ res = parts ∧ stop = if jumped then selfPos else pos + 1) ∨
        (b &&& 0xC0 = 0xC0 ∧ b ≠ 0 ∧ ∃ lo, buf[pos + 1]? = some lo ∧ jumps < 20 ∧
          Parser.nameLoop buf fuel parts (if jumped then selfPos else pos + 2) (((b &&& 0x3F).toNat <<< 8) |||
            lo.toNat) true
            (jumps + 1) = (.ok res, stop)) ∨
        (b &&& 0xC0 ≠ 0xC0 ∧ b ≠ 0 ∧ pos + 1 + b.toNat ≤ buf.length ∧
          Parser.nameLoop buf fuel (parts ++ [Parser.labelText ((buf.drop (pos + 1)).take b.toNat)]) selfPos
            (pos + 1 + b.toNat) jumped jumps = (.ok res, stop))) := by
  rw [Parser.nameLoop] at h
  cases hb : buf[pos]? with
  | none => rw [hb] at h; cases h
  | some b =>
    simp only [hb] at h
    refine ⟨b, rfl, ?_⟩
    split at h
    · next h0 => cases h; exact .inl ⟨h0, rfl, rfl⟩
    · next h0 =>
      split at h
      · next hp =>
        cases hlo : buf[pos + 1]? with
        | none => rw [hlo] at h; cases h
        | some lo =>
          simp only [hlo] at h
          split at h
          · cases h
          · next hjumps => exact .inr (.inl ⟨hp, h0, lo, rfl, by omega, h⟩)
      · next hp =>
        split at h
        · cases h
        · next hlen => exact .inr (.inr ⟨hp, h0, Nat.le_of_not_lt hlen, h⟩)

/-! Termination of the name parser. -/

/-- What a pass of the name loop spends: jumps left, then octets ahead. -/
def nameMeasure (buf : Bytes) (pos jumps : Nat) : Nat :=
  (20 - jumps) * (buf.length + 2) + (buf.length + 1 - pos)

/-- A pointer costs a jump, and the jump pays for any position it leads to. -/
theorem nameMeasure_jump {buf : Bytes} {pos jumps : Nat} (offset : Nat) (hj : jumps < 20) (hpos : pos < buf.length) :
    nameMeasure buf offset (jumps + 1) < nameMeasure buf pos jumps := by
  unfold nameMeasure
  have : (20 - jumps) * (buf.length + 2) = (20 - (jumps + 1)) * (buf.length + 2) + (buf.length + 2) := by
    rw [← Nat.succ_mul]; congr 1; omega
  omega

/-- `name` starts with fuel to spare, from any position. -/
theorem nameFuel_enough (buf : Bytes) (pos : Nat) : nameMeasure buf pos 0 < Parser.nameFuel buf := by
  unfold nameMeasure Parser.nameFuel; omega

/-! Labels. -/

/-- The labels of a name's text. -/
def labelsOf (name : Text) : List Text := pieces '.' name

/-- The labels, each behind its length octet. -/
def encodeLabels (ls : List Text) : Bytes := ls.flatMap Builder.label

/-- A label whose length octet is no terminator and no pointer. -/
def WireLabel (l : Text) : Prop := 0 < (utf8 l).length ∧ (utf8 l).length < 192

@[simp] theorem encodeLabels_nil : encodeLabels [] = [] := rfl
theorem encodeLabels_cons (l : Text) (ls : List Text) :
    encodeLabels (l :: ls) = Builder.label l ++ encodeLabels ls := rfl

theorem dot_not_alpha : ('.' : Char).isAlpha = false := by decide

theorem labelsOf_trim (s : Text) : labelsOf (trimEndMatches '.' s) = labelsOf s := pieces_trimEndMatches s

theorem labelsOf_append_dot (s t : Text) : labelsOf (s ++ '.' :: t) = labelsOf s ++ labelsOf t :=
  pieces_append_cons s t

theorem labelsOf_lower (s : Text) : labelsOf (toAsciiLowercase s) = (labelsOf s).map toAsciiLowercase :=
  pieces_toAsciiLowercase dot_not_alpha s

@[simp] theorem labelsOf_nil : labelsOf [] = [] := rfl
@[simp] theorem labelsOf_root : labelsOf ['.'] = [] := by decide

theorem dot_not_mem_of_mem_labelsOf {s l : Text} (h : l ∈ labelsOf s) : '.' ∉ l := not_mem_of_mem_pieces h
theorem ne_nil_of_mem_labelsOf {s l : Text} (h : l ∈ labelsOf s) : l ≠ [] := ne_nil_of_mem_pieces h

theorem encodeLabels_length_lower (ls : List Text) :
    (encodeLabels (ls.map toAsciiLowercase)).length = (encodeLabels ls).length := by
  induction ls with
  | nil => rfl
  | cons l ls ih =>
    rw [List.map_cons, encodeLabels_cons, encodeLabels_cons, List.length_append, List.length_append, ih,
      Builder.label, Builder.label, List.length_cons, List.length_cons, utf8_length_lower]

/-- Labels in lower case are written alike only when they were in lower case. -/
theorem encodeLabels_lower_eq_iff (ls : List Text) :
    encodeLabels (ls.map toAsciiLowercase) = encodeLabels ls ↔ ls.map toAsciiLowercase = ls := by
  constructor
  · intro e
    induction ls with
    | nil => rfl
    | cons l ls ih =>
      rw [List.map_cons, encodeLabels_cons, encodeLabels_cons] at e
      obtain ⟨hlabel, hrest⟩ := List.append_inj' e (encodeLabels_length_lower ls)
      rw [List.map_cons, ih hrest, utf8_injective (List.cons.inj hlabel).2]
  · intro e; rw [e]

/-- Skipping the empty labels while writing is writing the nonempty ones. -/
theorem flatMap_skip_empty (ls : List Text) :
    ls.flatMap (fun l => if l = [] then [] else Builder.label l) = encodeLabels (ls.filter (· ≠ [])) := by
  induction ls with
  | nil => rfl
  | cons l ls ih =>
    rw [List.flatMap_cons, ih]
    by_cases h : l = [] <;> simp [h, encodeLabels_cons]

/-- The builder writes a name's labels and a zero octet. -/
theorem Builder.name_eq (s : Text) : Builder.name s = encodeLabels (labelsOf s) ++ [0] := by
  unfold Builder.name
  split
  · next h => rcases h with rfl | rfl <;> rfl
  · rw [flatMap_skip_empty]
    show encodeLabels (labelsOf (trimEndMatches '.' s)) ++ [0] = _
    rw [labelsOf_trim]

/-- Text built by joining labels has those labels. -/
theorem toAsciiLowercase_intercalate : ∀ ls : List Text,
    toAsciiLowercase (['.'].intercalate ls) = ['.'].intercalate (ls.map toAsciiLowercase)
  | [] => rfl
  | [l] => by simp
  | l :: l' :: ls => by
    have hcons : ∀ (a b : Text) (rest : List Text),
        ['.'].intercalate (a :: b :: rest) = a ++ '.' :: ['.'].intercalate (b :: rest) := fun a b rest => by simp
    have ih := toAsciiLowercase_intercalate (l' :: ls)
    rw [List.map_cons] at ih
    rw [hcons, List.map_cons, List.map_cons, hcons, toAsciiLowercase_append, toAsciiLowercase_cons, ih]
    rfl

theorem labelsOf_joinLabels {ls : List Text} (hd : ∀ l ∈ ls, '.' ∉ l) (hn : ∀ l ∈ ls, l ≠ []) :
    labelsOf (Parser.joinLabels ls) = ls := by
  unfold Parser.joinLabels
  split
  · next h => rw [h]; exact labelsOf_root
  · exact pieces_intercalate hd hn

/-- The canonical encoder writes the labels in lower case. -/
theorem canonicalName_joinLabels {ls : List Text} (hd : ∀ l ∈ ls, '.' ∉ l) (hn : ∀ l ∈ ls, l ≠ []) :
    canonicalName (Parser.joinLabels ls) = encodeLabels (ls.map toAsciiLowercase) ++ [0] := by
  by_cases h : ls = []
  · rw [h]; decide
  · have hsplit : (toAsciiLowercase (['.'].intercalate ls)).splitOn '.' = ls.map toAsciiLowercase := by
      rw [splitOn_toAsciiLowercase dot_not_alpha, List.splitOn_intercalate '.' hd h]
    have hnil : [] ∉ (toAsciiLowercase (['.'].intercalate ls)).splitOn '.' := by
      rw [hsplit]
      intro hm
      obtain ⟨l, hl, e⟩ := List.mem_map.mp hm
      exact hn l hl (toAsciiLowercase_eq_nil.mp e)
    have hne : toAsciiLowercase (['.'].intercalate ls) ≠ [] := by
      intro e
      rw [e] at hnil
      exact hnil (by simp)
    simp only [canonicalName, Parser.joinLabels, if_neg h]
    rw [trimEndMatches_eq_self_of_splitOn hnil, if_neg hne, hsplit]
    rfl

/-! Decoding. -/

theorem length_octet_ne_zero {n : Nat} (h : 0 < n) (h' : n < 192) : UInt8.ofNat n ≠ 0 := by
  intro e
  have := congrArg UInt8.toNat e
  rw [UInt8.toNat_ofNat_of_lt' (show n < UInt8.size by unfold UInt8.size; omega)] at this
  exact absurd this (by simpa using Nat.ne_of_gt h)

theorem length_octet_no_pointer {n : Nat} (h' : n < 192) : UInt8.ofNat n &&& 0xC0 ≠ 0xC0 := by
  intro e
  have := congrArg UInt8.toNat e
  rw [UInt8.toNat_and, UInt8.toNat_ofNat_of_lt' (show n < UInt8.size by unfold UInt8.size; omega)] at this
  have hle := Nat.and_le_left (n := n) (m := (0xC0 : UInt8).toNat)
  rw [this] at hle
  exact absurd hle (by rw [show (0xC0 : UInt8).toNat = 192 from rfl]; omega)

theorem labelText_utf8 (l : Text) : Parser.labelText (utf8 l) = toAsciiLowercase l := by
  rw [Parser.labelText, fromUtf8_utf8]; rfl

/-- The name loop over an encoded name reads its labels and stops behind the zero octet. -/
theorem nameLoop_labels (post : Bytes) : ∀ (ls : List Text) (pre : Bytes) (fuel : Nat) (parts : List Text)
    (selfPos : Nat), (∀ l ∈ ls, WireLabel l) → ls.length < fuel →
    Parser.nameLoop (pre ++ (encodeLabels ls ++ 0 :: post)) fuel parts selfPos pre.length false 0 =
      (.ok (parts ++ ls.map toAsciiLowercase), pre.length + (encodeLabels ls).length + 1)
  | [], pre, fuel + 1, parts, selfPos, _, _ => by
    have h0 : (pre ++ (0 :: post))[pre.length]? = some 0 := by simp
    simp only [encodeLabels_nil, List.nil_append, Parser.nameLoop, h0]
    simp
  | l :: ls, pre, fuel + 1, parts, selfPos, hw, hf => by
    obtain ⟨hpos, hlt⟩ := hw l List.mem_cons_self
    set n := (utf8 l).length with hn
    set rest := encodeLabels ls ++ 0 :: post with hrest
    have hbuf : pre ++ (encodeLabels (l :: ls) ++ 0 :: post) = pre ++ (UInt8.ofNat n :: (utf8 l ++ rest)) := by
      rw [encodeLabels_cons, Builder.label, ← hn, hrest]; simp
    have hb : (pre ++ (UInt8.ofNat n :: (utf8 l ++ rest)))[pre.length]? = some (UInt8.ofNat n) := by simp
    have htoNat : (UInt8.ofNat n).toNat = n :=
      UInt8.toNat_ofNat_of_lt' (show n < UInt8.size by unfold UInt8.size; omega)
    have htake : ((pre ++ (UInt8.ofNat n :: (utf8 l ++ rest))).drop (pre.length + 1)).take n = utf8 l := by
      rw [← List.drop_drop, List.drop_left, List.drop_succ_cons, List.drop_zero, hn, List.take_left]
    have hlen : ¬ pre.length + 1 + n > (pre ++ (UInt8.ofNat n :: (utf8 l ++ rest))).length := by
      simp only [List.length_append, List.length_cons, ← hn]; omega
    rw [hbuf]
    simp only [Parser.nameLoop, hb, if_neg (length_octet_ne_zero hpos hlt), if_neg (length_octet_no_pointer hlt),
      htoNat, if_neg hlen, htake, labelText_utf8]
    have hassoc : pre ++ (UInt8.ofNat n :: (utf8 l ++ rest)) =
        (pre ++ (UInt8.ofNat n :: utf8 l)) ++ (encodeLabels ls ++ 0 :: post) := by simp [hrest]
    have hpre : pre.length + 1 + n = (pre ++ (UInt8.ofNat n :: utf8 l)).length := by
      simp only [List.length_append, List.length_cons, ← hn]; omega
    rw [hassoc, hpre, nameLoop_labels post ls _ fuel _ selfPos (fun l' h => hw l' (List.mem_cons_of_mem _ h))
      (by simp only [List.length_cons] at hf; omega)]
    simp [encodeLabels_cons, Builder.label, ← hn]
    omega

theorem encodeLabels_length_ge (ls : List Text) : ls.length ≤ (encodeLabels ls).length := by
  induction ls with
  | nil => exact Nat.le_refl _
  | cons l ls ih =>
    rw [encodeLabels_cons, List.length_append, Builder.label, List.length_cons, List.length_cons]; omega

/-- Wherever an encoded name stands, its labels are read back in lower case. -/
theorem nameParts_decodes {ls : List Text} (hw : ∀ l ∈ ls, WireLabel l) :
    Decodes Parser.nameParts (encodeLabels ls ++ [0]) (ls.map toAsciiLowercase) := by
  intro pre post
  have hbuf : pre ++ (encodeLabels ls ++ [0] ++ post) = pre ++ (encodeLabels ls ++ 0 :: post) := by simp
  have hfuel : ls.length < Parser.nameFuel (pre ++ (encodeLabels ls ++ 0 :: post)) := by
    have := encodeLabels_length_ge ls
    simp only [Parser.nameFuel, List.length_append, List.length_cons]; omega
  have hrun : Parser.nameParts (pre ++ (encodeLabels ls ++ 0 :: post)) pre.length =
      (.ok ([] ++ ls.map toAsciiLowercase), pre.length + (encodeLabels ls).length + 1) :=
    nameLoop_labels post ls pre _ [] pre.length hw hfuel
  rw [hbuf, hrun]
  simp [Nat.add_assoc]

/-- ... and joined by dots. -/
theorem name_decodes {ls : List Text} (hw : ∀ l ∈ ls, WireLabel l) :
    Decodes Parser.name (encodeLabels ls ++ [0]) (Parser.joinLabels (ls.map toAsciiLowercase)) :=
  (nameParts_decodes hw).map'

/-- A name's text as the parser gives it back. -/
def readName (name : Text) : Text := Parser.joinLabels ((labelsOf name).map toAsciiLowercase)

theorem builder_name_decodes {s : Text} (hw : ∀ l ∈ labelsOf s, WireLabel l) :
    Decodes Parser.name (Builder.name s) (readName s) := by
  rw [Builder.name_eq]
  exact name_decodes hw

theorem labelsOf_readName (s : Text) : labelsOf (readName s) = (labelsOf s).map toAsciiLowercase := by
  rw [← labelsOf_lower]
  unfold readName
  rw [← labelsOf_lower]
  exact labelsOf_joinLabels (fun _ => dot_not_mem_of_mem_labelsOf) fun _ => ne_nil_of_mem_labelsOf

theorem wireLabel_lower {ls : List Text} (hw : ∀ l ∈ ls, WireLabel l) : ∀ l ∈ ls.map toAsciiLowercase, WireLabel l := by
  intro l hl
  obtain ⟨l', hl', rfl⟩ := List.mem_map.mp hl
  rw [WireLabel, utf8_length_lower]
  exact hw l' hl'

/-- The parser's text for a name is written like the name exactly when its labels are in lower case. -/
theorem builder_readName_iff (s : Text) :
    Builder.name (readName s) = Builder.name s ↔ (labelsOf s).map toAsciiLowercase = labelsOf s := by
  rw [Builder.name_eq, Builder.name_eq, labelsOf_readName, List.append_left_inj]
  exact encodeLabels_lower_eq_iff _

end Ironbind
