import Ironbind.Lib.Base64
import Ironbind.NsecChain
import Ironbind.ZoneFields

/- The fields of a record line and what they stand for: names completed by the origin,
   TTLs with or without a unit, character-strings, digests in hexadecimal and keys in
   base64, and the data of each type the documentation names (`Data.Means`). The loader
   builds just that data of well-formed fields (`buildRdata_means`), save for three
   kinds: the target "@.", which it takes for "@"; a digest in more than one field, of
   which it reads the first; and the documented types that it does not build. -/
namespace Ironbind
open Codec

/-! Names. -/

/-- The labels of a field's name: "@" is the origin, and a name that does not end in a dot is relative
    to it. -/
def completed (t origin : Text) : List Text :=
  if t = ['@'] then labelsOf origin
  else if t.getLast? = some '.' then (labelsOf t).map toAsciiLowercase
  else (labelsOf t).map toAsciiLowercase ++ labelsOf origin

/-- A name field: "@", the root, or labels joined by dots, with a dot behind them or none. -/
inductive NameField : Text → Prop where
  | apex : NameField ['@']
  | root : NameField ['.']
  | relative {ls : List Text} : ls ≠ [] → (∀ l ∈ ls, IsLabel l) → NameField (['.'].intercalate ls)
  | absolute {ls : List Text} : ls ≠ [] → (∀ l ∈ ls, IsLabel l) → NameField (['.'].intercalate ls ++ ['.'])

def nameWire (t origin : Text) : Bytes := encodeLabels (completed t origin) ++ [0]

theorem labelsOf_ownerName {n origin : Text} (ho : toAsciiLowercase origin = origin) :
    zoneLabels (ownerName n origin) = completed n origin := by
  unfold ownerName completed
  split
  · rw [zoneLabels, ho]
  · split
    · rw [zoneLabels_lower, zoneLabels, labelsOf_lower, labelsOf_trim]
    · have hdot : Char.toLower '.' = '.' := rfl
      rw [zoneLabels, toAsciiLowercase_append, toAsciiLowercase_idem, toAsciiLowercase_cons, ho, hdot,
        labelsOf_append_dot, labelsOf_lower]

theorem intercalate_getLast? : ∀ {ls : List Text}, ls ≠ [] → (∀ l ∈ ls, IsLabel l) →
    (['.'].intercalate ls).getLast? ≠ some '.'
  | [l], _, h => by
    intro hlast
    rw [List.intercalate_singleton] at hlast
    exact (h l List.mem_cons_self).no_dot (List.mem_of_getLast? hlast)
  | l :: l' :: ls, _, h => by
    have hne : ['.'].intercalate (l' :: ls) ≠ [] := by
      intro hnil
      have := labelsOf_intercalate fun x hx => h x (List.mem_cons_of_mem l hx)
      rw [hnil] at this
      cases this
    rw [List.intercalate_cons_of_ne_nil (List.cons_ne_nil _ _), List.getLast?_append_of_ne_nil _ hne]
    exact intercalate_getLast? (List.cons_ne_nil _ _) fun x hx => h x (List.mem_cons_of_mem l hx)

/-- A field other than "@." is completed as it should be. -/
theorem labelsOf_fqdn {t origin : Text} (ht : NameField t) (hat : t ≠ ['@', '.']) :
    labelsOf (fqdn t origin) = completed t origin := by
  have hdot : trimEndMatches '.' t = ['@'] → t = ['@'] := by
    intro h
    cases ht with
    | apex => rfl
    | root => exact absurd h (by decide)
    | relative hne hls => rwa [trimEndMatches_eq_self (intercalate_getLast? hne hls)] at h
    | absolute hne hls =>
      rw [trimEndMatches_concat_self, trimEndMatches_eq_self (intercalate_getLast? hne hls)] at h
      exact absurd (by rw [h]; rfl) hat
  unfold fqdn completed
  dsimp only
  by_cases hapex : t = ['@']
  · rw [if_pos hapex, if_pos (by rw [hapex]; decide)]
  · rw [if_neg hapex, if_neg fun h => hapex (hdot h)]
    split
    · rw [labelsOf_lower, labelsOf_trim]
    · rw [labelsOf_append_dot, labelsOf_lower, labelsOf_trim]

theorem builderName_fqdn {t origin : Text} (ht : NameField t) (hat : t ≠ ['@', '.']) :
    Builder.name (fqdn t origin) = nameWire t origin := by
  rw [Builder.name_eq, labelsOf_fqdn ht hat, nameWire]

/-- Text whose labels are joined by single dots, with dots behind them or none, is encoded as its labels. -/
theorem canonicalName_eq {s : Text} (h : trimEndMatches '.' (toAsciiLowercase s) = [] ∨
    [] ∉ (trimEndMatches '.' (toAsciiLowercase s)).splitOn '.') :
    canonicalName s = encodeLabels (labelsOf (toAsciiLowercase s)) ++ [0] := by
  rw [canonicalName, ← labelsOf_trim, labelsOf, pieces]
  split
  · next hnil => rw [hnil]; rfl
  · next hne =>
    have hall : [] ∉ (trimEndMatches '.' (toAsciiLowercase s)).splitOn '.' := h.resolve_left hne
    have hfilter : ∀ l ∈ (trimEndMatches '.' (toAsciiLowercase s)).splitOn '.', decide (l ≠ []) = true := by
      intro l hl
      exact decide_eq_true fun hempty => hall (hempty ▸ hl)
    rw [List.filter_eq_self.mpr hfilter]
    rfl

theorem splitOn_labels {ls : List Text} (hne : ls ≠ []) (h : ∀ l ∈ ls, IsLabel l) :
    [] ∉ (['.'].intercalate ls).splitOn '.' := by
  rw [List.splitOn_intercalate '.' (fun l hl => (h l hl).no_dot) hne]
  exact fun hnil => (h [] hnil).ne_nil rfl

theorem splitOn_lower_labels {ls : List Text} (hne : ls ≠ []) (h : ∀ l ∈ ls, IsLabel l) :
    [] ∉ (toAsciiLowercase (['.'].intercalate ls)).splitOn '.' := by
  rw [splitOn_toAsciiLowercase dot_not_alpha]
  intro hnil
  obtain ⟨l, hl, hempty⟩ := List.mem_map.mp hnil
  exact splitOn_labels hne h (toAsciiLowercase_eq_nil.mp hempty ▸ hl)

/-- What is left of a completed name without the dots behind it has no empty label. -/
theorem splitOn_fqdn {t origin : Text} (ht : NameField t) (ho : Dotted origin) (hlow : toAsciiLowercase origin = origin) :
    trimEndMatches '.' (toAsciiLowercase (fqdn t origin)) = [] ∨
      [] ∉ (trimEndMatches '.' (toAsciiLowercase (fqdn t origin))).splitOn '.' := by
  have horigin : origin = [] ∨ [] ∉ origin.splitOn '.' := by
    obtain ⟨ls, hls, rfl⟩ := ho
    by_cases hne : ls = []
    · left; rw [hne]; rfl
    · exact .inr (splitOn_labels hne hls)
  have trimmed {s : Text} (h : [] ∉ s.splitOn '.') : [] ∉ (trimEndMatches '.' s).splitOn '.' := by
    rwa [trimEndMatches_eq_self_of_splitOn h]
  have apex : trimEndMatches '.' (toAsciiLowercase origin) = [] ∨
      [] ∉ (trimEndMatches '.' (toAsciiLowercase origin)).splitOn '.' := by
    rw [hlow]
    exact horigin.imp (fun h => by rw [h]; rfl) trimmed
  -- labels in front of the origin, or of a dot when the origin is the root
  have relative {s : Text} (h : [] ∉ s.splitOn '.') : [] ∉ (trimEndMatches '.' (s ++ '.' :: origin)).splitOn '.' := by
    rcases horigin with rfl | horigin
    · rw [trimEndMatches_concat_self]
      exact trimmed h
    · apply trimmed
      rw [List.splitOn_append_cons_self]
      exact fun hm => (List.mem_append.mp hm).elim h horigin
  unfold fqdn
  dsimp only
  split
  · exact apex
  · cases ht with
    | apex => contradiction
    | root => left; rfl
    | relative hne hls =>
      right
      rw [if_neg (intercalate_getLast? hne hls), trimEndMatches_eq_self (intercalate_getLast? hne hls),
        toAsciiLowercase_append, toAsciiLowercase_idem, toAsciiLowercase_cons, hlow]
      exact relative (splitOn_lower_labels hne hls)
    | absolute hne hls =>
      right
      rw [if_pos (List.getLast?_concat ..), toAsciiLowercase_idem, trimEndMatches_concat_self,
        trimEndMatches_eq_self (intercalate_getLast? hne hls)]
      exact trimmed (splitOn_lower_labels hne hls)

theorem map_lower_completed {t origin : Text} (hlow : toAsciiLowercase origin = origin) :
    (completed t origin).map toAsciiLowercase = completed t origin := by
  have horigin : (labelsOf origin).map toAsciiLowercase = labelsOf origin := by rw [← labelsOf_lower, hlow]
  have hidem : ∀ ls : List Text, (ls.map toAsciiLowercase).map toAsciiLowercase = ls.map toAsciiLowercase := by
    intro ls
    rw [List.map_map]
    exact List.map_congr_left fun l _ => toAsciiLowercase_idem l
  unfold completed
  split
  · exact horigin
  · split
    · exact hidem _
    · rw [List.map_append, hidem, horigin]

theorem encodeName_fqdn {t origin : Text} (ht : NameField t) (hat : t ≠ ['@', '.']) (ho : Dotted origin)
    (hlow : toAsciiLowercase origin = origin) : encodeName (fqdn t origin) = nameWire t origin := by
  rw [encodeName, canonicalName_eq (splitOn_fqdn ht ho hlow), labelsOf_lower, labelsOf_fqdn ht hat,
    map_lower_completed hlow, nameWire]

/-! Numbers and times. -/

/-- The digits of a number, without the plus sign that may stand in front of them. -/
def unsignedDigits (t : Text) : Text :=
  match t with
  | '+' :: rest => rest
  | s => s

theorem parseUnsigned_digits {max n : Nat} {t : Text} (h : parseUnsigned max t = some n) :
    unsignedDigits t ≠ [] ∧ (unsignedDigits t).all Char.isDigit := by
  have hif : parseUnsigned max t = if unsignedDigits t = [] ∨ !(unsignedDigits t).all Char.isDigit then none else _ := rfl
  rw [hif] at h
  by_cases hbad : unsignedDigits t = [] ∨ !(unsignedDigits t).all Char.isDigit
  · rw [if_pos hbad] at h
    cases h
  · rw [not_or] at hbad
    exact ⟨hbad.1, by simpa using hbad.2⟩

theorem unsignedDigits_eq (t : Text) : t = unsignedDigits t ∨ t = '+' :: unsignedDigits t := by
  unfold unsignedDigits
  split
  · exact .inr rfl
  · exact .inl rfl

/-- A number ends in a digit. -/
theorem getLast?_of_parseUnsigned {max n : Nat} {t : Text} (h : parseUnsigned max t = some n) :
    ∃ c, t.getLast? = some c ∧ c.isDigit := by
  obtain ⟨hne, hall⟩ := parseUnsigned_digits h
  have hlast : t.getLast? = (unsignedDigits t).getLast? := by
    rcases unsignedDigits_eq t with ht | ht
    · rw [← ht]
    · conv_lhs => rw [ht]
      exact List.getLast?_cons_of_ne_nil hne
  refine ⟨(unsignedDigits t).getLast hne, by rw [hlast, List.getLast?_eq_some_getLast hne], ?_⟩
  exact List.all_eq_true.mp hall _ (List.getLast_mem hne)

theorem ttlUnit_digit {c : Char} (h : c.isDigit) : ttlUnit c = none := by
  have hlow : c.toLower = c := by
    apply Char.toLower_eq_of_not_isUpper
    simp only [Char.isDigit, Char.isUpper, Bool.and_eq_true, decide_eq_true_eq, UInt32.le_iff_toNat_le] at h ⊢
    have h9 : ('9' : Char).val.toNat = 57 := rfl
    have hA : ('A' : Char).val.toNat = 65 := rfl
    omega
  unfold ttlUnit
  rw [hlow]
  split
  all_goals first | rfl | exact absurd h (by decide)

/-- A time: a number of seconds, or a number and a unit. -/
def TtlMeans (t : Text) (n : UInt32) : Prop :=
  parseU32 t = some n ∨ ∃ digits c unit v, t = digits ++ [c] ∧ ttlUnit c = some unit ∧ parseU32 digits = some v ∧
    n.toNat = v.toNat * unit.toNat

theorem parseU32_eq_some {t : Text} {n : UInt32} (h : parseU32 t = some n) :
    ∃ v, parseUnsigned 0xFFFFFFFF t = some v := by
  obtain ⟨v, hv, _⟩ := Option.map_eq_some_iff.mp h
  exact ⟨v, hv⟩

theorem ttlUnit_of_parseU32 {t : Text} {n : UInt32} (h : parseU32 t = some n) : t.getLast?.bind ttlUnit = none := by
  obtain ⟨v, hv⟩ := parseU32_eq_some h
  obtain ⟨c, hlast, hdigit⟩ := getLast?_of_parseUnsigned hv
  rw [hlast, Option.bind_some, ttlUnit_digit hdigit]

/-- What ends in a unit is no number. -/
theorem parseU32_of_ttlUnit {t : Text} (h : (t.getLast?.bind ttlUnit).isSome) : parseU32 t = none := by
  cases hp : parseU32 t with
  | none => rfl
  | some n => rw [ttlUnit_of_parseU32 hp] at h; cases h

theorem parseTtl_means {t : Text} {n : UInt32} (h : TtlMeans t n) : parseTtl t = n := by
  rcases h with h | ⟨digits, c, unit, v, rfl, hunit, hv, hn⟩
  · simp only [parseTtl, ttlUnit_of_parseU32 h, h, Option.getD_some, UInt32.mul_one]
  · simp only [parseTtl, List.getLast?_concat, Option.bind_some, hunit, List.dropLast_concat, hv, Option.getD_some]
    apply UInt32.toNat_inj.mp
    rw [UInt32.toNat_mul, ← hn, Nat.mod_eq_of_lt n.toNat_lt]

/-- A field that means a time is the TTL field. -/
theorem ttlField_means {t : Text} {n : UInt32} (defaultTtl : UInt32) (fields : List Text) (h : TtlMeans t n) :
    ttlField defaultTtl (t :: fields) = (n, fields) := by
  have hparse := parseTtl_means h
  rcases h with h | ⟨digits, c, unit, v, rfl, hunit, hv, hn⟩
  · simp only [ttlField, h]
  · have hsome : ((digits ++ [c]).getLast?.bind ttlUnit).isSome := by
      rw [List.getLast?_concat, Option.bind_some, hunit]
      rfl
    simp only [ttlField, parseU32_of_ttlUnit hsome, hsome, if_true, hparse]

/-! Character-strings, digests and keys. -/

/-- A character-string of at most 255 octets, in quotes or without. -/
inductive StringField : Text → Bytes → Prop where
  | bare {t : Text} : '"' ∉ t → t ≠ [] → (utf8 t).length ≤ 255 → StringField t (utf8 t)
  | quoted {body : Text} : '"' ∉ body → (utf8 body).length ≤ 255 → StringField ('"' :: (body ++ ['"'])) (utf8 body)

theorem txtField_string {t : Text} {b : Bytes} (h : StringField t b) : txtField t = UInt8.ofNat b.length :: b := by
  have chunk {text : Text} (hle : (utf8 text).length ≤ 255) :
      (if utf8 text = [] then [0] else txtChunks (utf8 text).length (utf8 text)) =
        UInt8.ofNat (utf8 text).length :: utf8 text := by
    cases hb : utf8 text with
    | nil => rfl
    | cons x rest =>
      rw [hb] at hle
      have hone : ∀ fuel, txtChunks fuel [] = [] := by intro fuel; cases fuel <;> rfl
      rw [if_neg (List.cons_ne_nil x rest), List.length_cons, txtChunks, if_neg (List.cons_ne_nil x rest)]
      dsimp only
      rw [List.take_of_length_le hle, List.drop_of_length_le hle, hone, List.append_nil]
      rfl
  cases h with
  | bare hno hne hle =>
    have hself : unquote t = t := by
      obtain ⟨c, rest, rfl⟩ := List.exists_cons_of_ne_nil hne
      unfold unquote
      split
      · next heq => exact absurd (List.cons.inj heq).1 fun hc => hno (hc ▸ List.mem_cons_self)
      · rfl
    rw [txtField, hself]
    exact chunk hle
  | @quoted body _ hle =>
    have hbody : unquote ('"' :: (body ++ ['"'])) = body := by
      rw [unquote, List.getLast?_concat, if_pos rfl, List.dropLast_concat]
    rw [txtField, hbody]
    exact chunk hle

/-- Octets in hexadecimal. -/
inductive HexOf : Text → Bytes → Prop where
  | nil : HexOf [] []
  | pair {hi lo : Char} {h l : UInt8} {t : Text} {b : Bytes} : hexDigit hi = some h → hexDigit lo = some l → HexOf t b →
      HexOf (hi :: lo :: t) ((h * 16 + l) :: b)

/-- A hexadecimal digit is one octet of text, and neither a blank nor a sign. -/
theorem hexDigit_ascii {c : Char} {v : UInt8} (h : hexDigit c = some v) : c.utf8Size = 1 ∧ c ≠ ' ' ∧ c ≠ '+' := by
  have hspace : hexDigit ' ' = none := by decide
  have hplus : hexDigit '+' = none := by decide
  refine ⟨?_, ?_, ?_⟩
  · apply Char.utf8Size_eq_one_iff.mpr
    have h9 : ('9' : Char).val.toNat = 57 := rfl
    have hf : ('f' : Char).val.toNat = 102 := rfl
    have hF : ('F' : Char).val.toNat = 70 := rfl
    have h127 : (127 : UInt32).toNat = 127 := rfl
    unfold hexDigit at h
    simp only [Char.le_def, UInt32.le_iff_toNat_le] at h ⊢
    split at h
    · omega
    · split at h
      · omega
      · split at h
        · omega
        · cases h
  · rintro rfl
    rw [hspace] at h
    cases h
  · rintro rfl
    rw [hplus] at h
    cases h

theorem hexDecodeField_of {t : Text} {b : Bytes} (h : HexOf t b) : hexDecodeField t = .ok (some b) := by
  have hplain : t.filter (· ≠ ' ') = t ∧ (utf8 t).length % 2 = 0 ∧ hexPairs t = .ok (some b) := by
    induction h with
    | nil => exact ⟨rfl, rfl, rfl⟩
    | @pair hi lo h l t b hh hl _ ih =>
      obtain ⟨hhi, hspace, hplus⟩ := hexDigit_ascii hh
      obtain ⟨hlo, hspace', -⟩ := hexDigit_ascii hl
      refine ⟨?_, ?_, ?_⟩
      · rw [List.filter_cons_of_pos (by simpa using hspace), List.filter_cons_of_pos (by simpa using hspace'), ih.1]
      · rw [utf8_length_cons, utf8_length_cons, hhi, hlo]
        have := ih.2.1
        omega
      · have hpair : hexPair hi lo = some (h * 16 + l) := by simp [hexPair, hl, hh, hplus]
        simp [hexPairs, hhi, hlo, hpair, ih.2.2, Except.map]
  rw [hexDecodeField]
  simp only [hplain.1, hplain.2.1, ne_eq, not_true_eq_false, if_false, hplain.2.2]

theorem hexPairs_length : ∀ {t : Text} {b : Bytes}, hexPairs t = .ok (some b) → 2 * b.length ≤ t.length
  | [], b, h => by cases h; exact Nat.zero_le _
  | [hi], b, h => by
    unfold hexPairs at h
    split at h
    · cases h
    · split at h <;> cases h
  | hi :: lo :: rest, b, h => by
    unfold hexPairs at h
    split at h
    · cases h
    · split at h
      · cases h
      · dsimp only at h
        split at h
        · cases h
        · split at h
          · cases h
          · cases hrest : hexPairs rest with
            | error e => rw [hrest] at h; cases h
            | ok o =>
              rw [hrest] at h
              cases o with
              | none => cases h
              | some bs =>
                cases h
                have := hexPairs_length hrest
                rw [List.length_cons, List.length_cons, List.length_cons]
                omega

/-- What is decoded has at most half as many octets as the text has characters. -/
theorem hexDecodeField_length {t : Text} {b : Bytes} (h : hexDecodeField t = .ok (some b)) : 2 * b.length ≤ t.length := by
  unfold hexDecodeField at h
  dsimp only at h
  split at h
  · cases h
  · exact Nat.le_trans (hexPairs_length h) (List.length_filter_le _ _)

/-! Keys in base64. -/

/-- The digits are read as the sextets they stand for. -/
theorem base64Value_digit : ∀ n < 64, base64Value (UInt8.ofNat (Base64.digit n).toNat) = some (UInt32.ofNat n) ∧
    UInt8.ofNat (Base64.digit n).toNat ≠ 61 := by decide

theorem utf8_digit {n : Nat} (h : n < 64) (t : Text) :
    utf8 (Base64.digit n :: t) = UInt8.ofNat (Base64.digit n).toNat :: utf8 t := by
  have hascii : (Base64.digit n).toNat ≤ 127 := by
    have := (Base64.digit_ascii n h).1
    omega
  rw [utf8_cons, String.utf8EncodeChar_eq_singleton (Char.utf8Size_eq_one_iff.mpr (UInt32.le_iff_toNat_le.mpr hascii))]
  rfl

/-- One group of four. -/
theorem base64Chunks_group {c0 c1 c2 c3 : UInt8} {a b c d : UInt32} (ha : base64Value c0 = some a)
    (hb : base64Value c1 = some b) (hc : base64Value c2 = some c) (hd : base64Value c3 = some d) (rest : Bytes) :
    base64Chunks (c0 :: c1 :: c2 :: c3 :: rest) = (base64Chunks rest).map fun out =>
      (Base64.joined a b c d >>> 16).toUInt8 :: (if c2 ≠ 61 then [(Base64.joined a b c d >>> 8).toUInt8] else []) ++
        (if c3 ≠ 61 then [(Base64.joined a b c d).toUInt8] else []) ++ out := by
  rw [base64Chunks, ha, hb, hc, hd]
  cases base64Chunks rest <;> rfl

theorem base64Chunks_text : ∀ b : Bytes, base64Chunks (utf8 (Base64.text b)) = some b
  | [] => rfl
  | [x] => by
    have hx := x.toNat_lt
    have ha : x.toNat / 4 < 64 := by omega
    have hb : x.toNat % 4 * 16 < 64 := by omega
    have hzero : (0 : Nat) < 64 := by decide
    obtain ⟨h16, -, -⟩ := Base64.joined_octets ha hb hzero hzero
    have hpad : utf8 ['=', '='] = [61, 61] := rfl
    rw [Base64.text, utf8_digit ha, utf8_digit hb, hpad,
      base64Chunks_group (base64Value_digit _ ha).1 (base64Value_digit _ hb).1 (c := 0) (d := 0) rfl rfl]
    have hfirst : UInt8.ofNat (x.toNat / 4 * 4 + x.toNat % 4 * 16 / 16) = x := by
      rw [show x.toNat / 4 * 4 + x.toNat % 4 * 16 / 16 = x.toNat by omega, UInt8.ofNat_toNat]
    simp only [base64Chunks, Option.map_some, ne_eq, not_true_eq_false, if_false, List.append_nil, Option.some.injEq]
    exact congrArg (· :: []) (h16.trans hfirst)
  | [x, y] => by
    have hx := x.toNat_lt
    have hy := y.toNat_lt
    have ha : x.toNat / 4 < 64 := by omega
    have hb : x.toNat % 4 * 16 + y.toNat / 16 < 64 := by omega
    have hc : y.toNat % 16 * 4 < 64 := by omega
    obtain ⟨h16, h8, -⟩ := Base64.joined_octets ha hb hc (show 0 < 64 by decide)
    have hpad : utf8 ['='] = [61] := rfl
    rw [Base64.text, utf8_digit ha, utf8_digit hb, utf8_digit hc, hpad,
      base64Chunks_group (base64Value_digit _ ha).1 (base64Value_digit _ hb).1 (base64Value_digit _ hc).1 (d := 0) rfl]
    have hfirst : UInt8.ofNat (x.toNat / 4 * 4 + (x.toNat % 4 * 16 + y.toNat / 16) / 16) = x := by
      rw [show x.toNat / 4 * 4 + (x.toNat % 4 * 16 + y.toNat / 16) / 16 = x.toNat by omega, UInt8.ofNat_toNat]
    have hsecond : UInt8.ofNat ((x.toNat % 4 * 16 + y.toNat / 16) % 16 * 16 + y.toNat % 16 * 4 / 4) = y := by
      rw [show (x.toNat % 4 * 16 + y.toNat / 16) % 16 * 16 + y.toNat % 16 * 4 / 4 = y.toNat by omega, UInt8.ofNat_toNat]
    simp only [base64Chunks, Option.map_some, ne_eq, (base64Value_digit _ hc).2, not_true_eq_false, not_false_eq_true,
      if_false, if_true, List.append_nil, Option.some.injEq]
    exact congrArg₂ (fun u v => u :: [v]) (h16.trans hfirst) (h8.trans hsecond)
  | x :: y :: z :: rest => by
    have hx := x.toNat_lt
    have hy := y.toNat_lt
    have hz := z.toNat_lt
    have ha : x.toNat / 4 < 64 := by omega
    have hb : x.toNat % 4 * 16 + y.toNat / 16 < 64 := by omega
    have hc : y.toNat % 16 * 4 + z.toNat / 64 < 64 := by omega
    have hd : z.toNat % 64 < 64 := by omega
    obtain ⟨h16, h8, h0⟩ := Base64.joined_octets ha hb hc hd
    rw [Base64.text, utf8_digit ha, utf8_digit hb, utf8_digit hc, utf8_digit hd,
      base64Chunks_group (base64Value_digit _ ha).1 (base64Value_digit _ hb).1 (base64Value_digit _ hc).1
        (base64Value_digit _ hd).1, base64Chunks_text rest]
    have hfirst : UInt8.ofNat (x.toNat / 4 * 4 + (x.toNat % 4 * 16 + y.toNat / 16) / 16) = x := by
      rw [show x.toNat / 4 * 4 + (x.toNat % 4 * 16 + y.toNat / 16) / 16 = x.toNat by omega, UInt8.ofNat_toNat]
    have hsecond : UInt8.ofNat ((x.toNat % 4 * 16 + y.toNat / 16) % 16 * 16 + (y.toNat % 16 * 4 + z.toNat / 64) / 4) =
        y := by
      rw [show (x.toNat % 4 * 16 + y.toNat / 16) % 16 * 16 + (y.toNat % 16 * 4 + z.toNat / 64) / 4 = y.toNat by omega,
        UInt8.ofNat_toNat]
    have hthird : UInt8.ofNat ((y.toNat % 16 * 4 + z.toNat / 64) % 4 * 64 + z.toNat % 64) = z := by
      rw [show (y.toNat % 16 * 4 + z.toNat / 64) % 4 * 64 + z.toNat % 64 = z.toNat by omega, UInt8.ofNat_toNat]
    simp only [Option.map_some, ne_eq, (base64Value_digit _ hc).2, (base64Value_digit _ hd).2, not_false_eq_true,
      if_true, h16, h8, h0, hfirst, hsecond, hthird]
    rfl

theorem digit_not_blank : ∀ n < 64, isWhitespace (Base64.digit n) = false := by decide

theorem text_not_blank : ∀ b : Bytes, ∀ c ∈ Base64.text b, isWhitespace c = false
  | [] => by simp [Base64.text]
  | [x] => by
    have hx := x.toNat_lt
    have ha := digit_not_blank (x.toNat / 4) (by omega)
    have hb := digit_not_blank (x.toNat % 4 * 16) (by omega)
    have hpad : isWhitespace '=' = false := rfl
    simp [Base64.text, ha, hb, hpad]
  | [x, y] => by
    have hx := x.toNat_lt
    have hy := y.toNat_lt
    have ha := digit_not_blank (x.toNat / 4) (by omega)
    have hb := digit_not_blank (x.toNat % 4 * 16 + y.toNat / 16) (by omega)
    have hc := digit_not_blank (y.toNat % 16 * 4) (by omega)
    have hpad : isWhitespace '=' = false := rfl
    simp [Base64.text, ha, hb, hc, hpad]
  | x :: y :: z :: rest => by
    have hx := x.toNat_lt
    have hy := y.toNat_lt
    have hz := z.toNat_lt
    have ha := digit_not_blank (x.toNat / 4) (by omega)
    have hb := digit_not_blank (x.toNat % 4 * 16 + y.toNat / 16) (by omega)
    have hc := digit_not_blank (y.toNat % 16 * 4 + z.toNat / 64) (by omega)
    have hd := digit_not_blank (z.toNat % 64) (by omega)
    have ih := text_not_blank rest
    simpa [Base64.text, ha, hb, hc, hd] using ih

theorem base64Decode_text (b : Bytes) : base64Decode (Base64.text b) = some b := by
  rw [base64Decode, List.filter_eq_self.mpr fun c hc => by rw [text_not_blank b c hc]; rfl, base64Chunks_text]

/-! Data. -/

/-- The data of a record as its fields spell it, by type. -/
inductive Data where
  | a (address : Text)
  | aaaa (address : Text)
  /-- NS, CNAME and PTR. -/
  | target (rtype : RType) (name : Text)
  | mx (preference exchange : Text)
  | soa (mname rname serial refresh retry expire minimum : Text)
  | txt (strings : List Text)
  | srv (priority weight port target : Text)
  | ds (keyTag algorithm digestType : Text) (digest : List Text)
  | dnskey (flags protocol algorithm : Text) (key : List Text)
  /-- A documented type that the loader does not build. -/
  | unbuilt (rtype : RType) (fields : List Text)

namespace Data

def rtype : Data → RType
  | a _ => .A
  | aaaa _ => .AAAA
  | target t _ => t
  | mx _ _ => .MX
  | soa _ _ _ _ _ _ _ => .SOA
  | txt _ => .TXT
  | srv _ _ _ _ => .SRV
  | ds _ _ _ _ => .DS
  | dnskey _ _ _ _ => .DNSKEY
  | unbuilt t _ => t

def fields : Data → List Text
  | a t | aaaa t | target _ t => [t]
  | mx p n => [p, n]
  | soa m r s t u v w => [m, r, s, t, u, v, w]
  | txt strings => strings
  | srv p w o n => [p, w, o, n]
  | ds k g d digest => k :: g :: d :: digest
  | dnskey f p g key => f :: p :: g :: key
  | unbuilt _ fields => fields

/-- The names among the fields. -/
def names : Data → List Text
  | target _ n | mx _ n | srv _ _ _ n => [n]
  | soa m r _ _ _ _ _ => [m, r]
  | _ => []

/-- The data on the wire that the fields stand for, names completed by the origin and in lower case. What the
    fields of a type that is not built stand for is left open. -/
def Means (origin : Text) : Data → Bytes → Prop
  | a t, b => parseWith readIpv4 t = some b
  | aaaa t, b => parseWith readIpv6 t = some b
  | target _ n, b => b = nameWire n origin
  | mx p n, b => ∃ preference, parseU16 p = some preference ∧ b = be16 preference ++ nameWire n origin
  | soa m r s t u v w, b => ∃ serial refresh retry expire minimum, parseU32 s = some serial ∧ TtlMeans t refresh ∧
      TtlMeans u retry ∧ TtlMeans v expire ∧ TtlMeans w minimum ∧ b = nameWire m origin ++ nameWire r origin ++
        be32 serial ++ be32 refresh ++ be32 retry ++ be32 expire ++ be32 minimum
  | txt strings, b => ∃ bodies, List.Forall₂ StringField strings bodies ∧
      b = bodies.flatMap fun body => UInt8.ofNat body.length :: body
  | srv p w o n, b => ∃ priority weight port, parseU16 p = some priority ∧ parseU16 w = some weight ∧
      parseU16 o = some port ∧ b = be16 priority ++ be16 weight ++ be16 port ++ nameWire n origin
  | ds k g d digest, b => ∃ keyTag algorithm digestType octets, parseU16 k = some keyTag ∧ parseU8 g = some algorithm ∧
      parseU8 d = some digestType ∧ HexOf digest.flatten octets ∧ b = be16 keyTag ++ [algorithm] ++ [digestType] ++ octets
  | dnskey f p g key, b => ∃ flags protocol algorithm octets, parseU16 f = some flags ∧ parseU8 p = some protocol ∧
      parseU8 g = some algorithm ∧ key.flatten = Base64.text octets ∧
        b = be16 flags ++ [protocol] ++ [algorithm] ++ octets
  | unbuilt _ _, _ => True

def unbuiltTypes : List RType := [.NAPTR, .RRSIG, .NSEC, .NSEC3, .NSEC3PARAM]

/-- Fields that stand for data, under any origin. -/
structure WellFormed (d : Data) : Prop where
  means : ∀ origin, ∃ b, d.Means origin b
  names : ∀ n ∈ d.names, NameField n
  fields : d.fields ≠ []
  target : ∀ t n, d = target t n → t = .NS ∨ t = .CNAME ∨ t = .PTR
  ds : ∀ k g t digest, d = ds k g t digest → digest ≠ []
  dnskey : ∀ f p g key, d = dnskey f p g key → key ≠ []
  unbuilt : ∀ t fields, d = unbuilt t fields → t ∈ unbuiltTypes

/-- What the loader reads as it stands: no target "@.", a digest in one field, and a type it builds. -/
structure Plain (d : Data) : Prop where
  targets : ∀ n ∈ d.names, n ≠ ['@', '.']
  digest : ∀ k g t digest, d = ds k g t digest → digest.length = 1
  built : d.rtype ∈ fileTypes

theorem txtFields_means {strings : List Text} {bodies : List Bytes} (h : List.Forall₂ StringField strings bodies) :
    strings.flatMap txtField = bodies.flatMap fun body => UInt8.ofNat body.length :: body := by
  induction h with
  | nil => rfl
  | cons h _ ih => rw [List.flatMap_cons, List.flatMap_cons, txtField_string h, ih]

/-- The loader builds the data that well-formed fields stand for. -/
theorem buildRdata_means {d : Data} (hwf : d.WellFormed) (hplain : d.Plain) {origin s : Text} (ho : Dotted origin)
    (hlow : toAsciiLowercase origin = origin) (hs : strToRtype s = d.rtype) {b : Bytes} (h : d.Means origin b) :
    buildRdata s d.fields origin = .ok (some b) := by
  have wire {n : Text} (hn : n ∈ d.names) : Builder.name (fqdn n origin) = nameWire n origin :=
    builderName_fqdn (hwf.names n hn) (hplain.targets n hn)
  unfold buildRdata
  rw [hs]
  cases d with
  | a t => exact congrArg Except.ok h
  | aaaa t => exact congrArg Except.ok h
  | target t n =>
    have hn : n ∈ (target t n).names := List.mem_singleton_self n
    have hname := encodeName_fqdn (hwf.names n hn) (hplain.targets n hn) ho hlow
    rcases hwf.target t n rfl with rfl | rfl | rfl <;> exact congrArg (fun b => Except.ok (some b)) (hname.trans h.symm)
  | mx p n =>
    obtain ⟨preference, hp, rfl⟩ := h
    have hwire := wire (List.mem_singleton_self n)
    simp [rtype, fields, mxRdata, hp, hwire, Builder.u16]
  | soa m r t u v w x =>
    obtain ⟨serial, refresh, retry, expire, minimum, hserial, hu, hv, hw, hx, rfl⟩ := h
    have hm := wire (n := m) List.mem_cons_self
    have hr := wire (n := r) (List.mem_cons_of_mem _ List.mem_cons_self)
    simp [rtype, fields, soaRdata, hserial, parseTtl_means hu, parseTtl_means hv, parseTtl_means hw, parseTtl_means hx,
      hm, hr, Builder.u32]
  | txt strings =>
    obtain ⟨bodies, hbodies, rfl⟩ := h
    exact congrArg (fun b => Except.ok (some b)) (txtFields_means hbodies)
  | srv p w o n =>
    obtain ⟨priority, weight, port, hp, hw, ho', rfl⟩ := h
    have hwire := wire (List.mem_singleton_self n)
    simp [rtype, fields, srvRdata, hp, hw, ho', hwire, Builder.u16]
  | ds k g t digest =>
    obtain ⟨keyTag, algorithm, digestType, octets, hk, hg, ht, hd, rfl⟩ := h
    obtain ⟨field, rfl⟩ := List.length_eq_one_iff.mp (hplain.digest k g t digest rfl)
    rw [List.flatten_singleton] at hd
    simp [rtype, fields, dsRdata, hk, hg, ht, hexDecodeField_of hd, Except.map, Builder.u16, Builder.u8, Builder.raw]
  | dnskey f p g key =>
    obtain ⟨flags, protocol, algorithm, octets, hf, hp, hg, hkey, rfl⟩ := h
    obtain ⟨k, keys, rfl⟩ := List.exists_cons_of_ne_nil (hwf.dnskey f p g key rfl)
    simp [rtype, fields, dnskeyRdata, hf, hp, hg, hkey, base64Decode_text, Builder.u16, Builder.u8, Builder.raw]
  | unbuilt t fields =>
    have hbuilt : t ∈ fileTypes := hplain.built
    have ht := hwf.unbuilt t fields rfl
    simp only [unbuiltTypes, List.mem_cons, List.not_mem_nil, or_false] at ht
    rcases ht with rfl | rfl | rfl | rfl | rfl <;> exact absurd hbuilt (by decide)

/-! The data that is not read. -/

/-- A name field, completed by the origin "x", fills as many octets as it should, and the right ones unless it is "@.". -/
theorem fqdn_wire {t : Text} (ht : NameField t) : (Builder.name (fqdn t ['x'])).length = (nameWire t ['x']).length ∧
    (Builder.name (fqdn t ['x']) = nameWire t ['x'] → t ≠ ['@', '.']) := by
  by_cases hat : t = ['@', '.']
  · subst hat
    exact ⟨by decide, fun h => absurd h (by decide)⟩
  · exact ⟨by rw [builderName_fqdn ht hat], fun _ => hat⟩

theorem length_of_hexOf {t : Text} {b : Bytes} (h : HexOf t b) : t.length = 2 * b.length := by
  induction h with
  | nil => rfl
  | pair _ _ _ ih => simp only [List.length_cons, ih]; omega

/-- Data of a type that is built is read right, in a file of the origin "x", only where it is plain. -/
theorem plain_of_buildRdata {d : Data} (hwf : d.WellFormed) (hbuilt : d.rtype ∈ fileTypes)
    (hfields : ∀ t ∈ d.fields, t ≠ []) {s : Text} (hs : strToRtype s = d.rtype) {b : Bytes}
    (h : buildRdata s d.fields ['x'] = .ok (some b)) (hm : d.Means ['x'] b) : d.Plain := by
  have wire {n : Text} (hn : n ∈ d.names) := fqdn_wire (hwf.names n hn)
  refine ⟨?_, ?_, hbuilt⟩
  · unfold buildRdata at h
    rw [hs] at h
    cases d with
    | target t n =>
      intro m hmem
      obtain rfl := List.mem_singleton.mp hmem
      rintro rfl
      have hname : b = encodeName (fqdn ['@', '.'] ['x']) := by
        rcases hwf.target t _ rfl with rfl | rfl | rfl <;> exact (Option.some.inj (Except.ok.inj h)).symm
      have hwire : b = nameWire ['@', '.'] ['x'] := hm
      rw [hname] at hwire
      exact absurd hwire (by decide)
    | mx p n =>
      intro m hmem
      obtain rfl := List.mem_singleton.mp hmem
      obtain ⟨preference, hp, rfl⟩ := hm
      simp only [rtype, fields, mxRdata, List.headD_cons, hp, Builder.u16, List.getElem?_cons_succ,
        List.getElem?_cons_zero, Except.ok.injEq, Option.some.injEq, List.append_cancel_left_eq] at h
      exact (wire hmem).2 h
    | srv p w o n =>
      intro m hmem
      obtain rfl := List.mem_singleton.mp hmem
      obtain ⟨priority, weight, port, hp, hw, ho, rfl⟩ := hm
      simp only [rtype, fields, srvRdata, hp, hw, ho, Builder.u16, Option.bind_eq_bind, Option.bind_some, Option.pure_def,
        Except.ok.injEq, Option.some.injEq, List.append_cancel_left_eq] at h
      exact (wire hmem).2 h
    | soa m r t u v w x =>
      obtain ⟨serial, refresh, retry, expire, minimum, hserial, hu, hv, hw, hx, rfl⟩ := hm
      simp only [rtype, fields, soaRdata, hserial, parseTtl_means hu, parseTtl_means hv, parseTtl_means hw,
        parseTtl_means hx, Builder.u32, Option.bind_eq_bind, Option.bind_some, Option.pure_def,
        Except.ok.injEq, Option.some.injEq, List.append_cancel_right_eq] at h
      have hmname := wire (n := m) List.mem_cons_self
      have hrname := wire (n := r) (List.mem_cons_of_mem _ List.mem_cons_self)
      obtain ⟨heq, heq'⟩ := List.append_inj h hmname.1
      intro n hn
      rcases List.mem_cons.mp hn with rfl | hn
      · exact hmname.2 heq
      · rw [List.mem_singleton.mp hn]
        exact hrname.2 heq'
    | _ => exact fun n hn => absurd hn List.not_mem_nil
  · rintro k g t digest rfl
    obtain ⟨keyTag, algorithm, digestType, octets, hk, hg, ht, hd, rfl⟩ := hm
    have hne := hwf.ds k g t digest rfl
    obtain _ | ⟨field, _ | ⟨field', rest⟩⟩ := digest
    · exact absurd rfl hne
    · rfl
    · -- the first field alone cannot spell all the octets
      unfold buildRdata at h
      rw [hs] at h
      simp only [rtype, fields, dsRdata, hk, hg, ht, Builder.u16, Builder.u8, Builder.raw] at h
      cases hread : hexDecodeField field with
      | error e => rw [hread] at h; cases h
      | ok read =>
        rw [hread] at h
        cases read with
        | none => cases h
        | some bs =>
          simp only [Except.map, Option.map_some, Except.ok.injEq, Option.some.injEq, List.append_cancel_left_eq] at h
          have hlen := hexDecodeField_length hread
          have hall := length_of_hexOf hd
          have hpos := List.length_pos_of_ne_nil (hfields field' (by simp [fields]))
          rw [h] at hlen
          simp only [List.flatten_cons, List.length_append] at hall
          omega

end Data

/-- The spelling of a type, in lower case. -/
def mnemonic : RType → Text
  | .A => ['a']
  | .AAAA => ['a', 'a', 'a', 'a']
  | .NS => ['n', 's']
  | .CNAME => ['c', 'n', 'a', 'm', 'e']
  | .SOA => ['s', 'o', 'a']
  | .PTR => ['p', 't', 'r']
  | .MX => ['m', 'x']
  | .TXT => ['t', 'x', 't']
  | .SRV => ['s', 'r', 'v']
  | .DS => ['d', 's']
  | .DNSKEY => ['d', 'n', 's', 'k', 'e', 'y']
  | .RRSIG => ['r', 'r', 's', 'i', 'g']
  | .NAPTR => ['n', 'a', 'p', 't', 'r']
  | .NSEC => ['n', 's', 'e', 'c']
  | .NSEC3 => ['n', 's', 'e', 'c', '3']
  | .NSEC3PARAM => ['n', 's', 'e', 'c', '3', 'p', 'a', 'r', 'a', 'm']
  | _ => []

end Ironbind
