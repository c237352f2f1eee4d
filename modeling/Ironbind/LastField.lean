import Ironbind.AddressText
import Ironbind.LoaderFaults
import Ironbind.NameForm
import Ironbind.RecordLayout
import Ironbind.SendableRecords

/- A last field that ends in an escaped blank, with that blank and without it. Where the
   field is no owner, TTL, class or type the loader reads the data of the record from it
   or not: `DataReads` names the types and numbers of fields for which it does. There the
   data are not the same with and without the blank (`buildRdata_differs`), and elsewhere
   the record is (`parseRecord_cut`). -/
namespace Ironbind
open Codec

/-! Fields with a backslash. -/

/-- A field that ends in an escaped blank, or in the backslash in front of it. -/
structure Slashed (t : Text) : Prop where
  slash : '\\' ∈ t
  last : t.getLast? = some '\\' ∨ t.getLast?.any isWhitespace = true

theorem dropLast_blank (g : Text) (w : Char) : (g ++ ['\\', w]).dropLast = g ++ ['\\'] := by
  rw [List.append_cons, List.dropLast_concat]

theorem slashed_blank {g : Text} {w : Char} (hw : isWhitespace w = true) : Slashed (g ++ ['\\', w]) where
  slash := by simp
  last := .inr (by rw [List.append_cons, List.getLast?_concat]; exact hw)

theorem slashed_cut (g : Text) : Slashed (g ++ ['\\']) where
  slash := by simp
  last := .inl List.getLast?_concat

theorem isWhitespace_not_digit {c : Char} (h : isWhitespace c = true) : c.isDigit = false := by
  by_contra hd
  have hd : c.isDigit = true := by simpa using hd
  have hcase : ∀ n : Fin 128, (Char.ofNat n.val).isDigit = true → isWhitespace (Char.ofNat n.val) = false := by
    decide
  have hlt : c.toNat < 128 := by
    simp only [Char.isDigit, Bool.and_eq_true, decide_eq_true_eq, UInt32.le_iff_toNat_le] at hd
    exact Nat.lt_of_le_of_lt hd.2 (by decide)
  have := hcase ⟨c.toNat, hlt⟩
  rw [Char.ofNat_toNat] at this
  rw [this hd] at h
  cases h

theorem isWhitespace_not_unit {c : Char} (h : isWhitespace c = true) : ttlUnit c = none := by
  cases hu : ttlUnit c with
  | none => rfl
  | some mult =>
    have hlt : c.toNat < 128 := by
      have := Char.utf8Size_eq_one_iff.mp (utf8Size_of_ttlUnit hu)
      exact Nat.lt_of_le_of_lt (UInt32.le_iff_toNat_le.mp this) (by decide)
    have hcase : ∀ n : Fin 128, isWhitespace (Char.ofNat n.val) = true → ttlUnit (Char.ofNat n.val) = none := by
      decide
    have := hcase ⟨c.toNat, hlt⟩
    rw [Char.ofNat_toNat] at this
    rw [this h] at hu
    cases hu

namespace Slashed
variable {t : Text}

theorem not_number (h : Slashed t) (max : Nat) : parseUnsigned max t = none := by
  cases hp : parseUnsigned max t with
  | none => rfl
  | some n =>
    obtain ⟨c, hc, hd⟩ := getLast?_of_parseUnsigned hp
    obtain hl | hl := h.last
    · rw [hl] at hc
      rw [← Option.some.inj hc] at hd
      exact absurd hd (by decide)
    · rw [hc, Option.any_some] at hl
      rw [isWhitespace_not_digit hl] at hd
      cases hd

theorem parseU32 (h : Slashed t) : parseU32 t = none := by rw [Ironbind.parseU32, h.not_number]; rfl
theorem parseU16 (h : Slashed t) : parseU16 t = none := by rw [Ironbind.parseU16, h.not_number]; rfl
theorem parseU8 (h : Slashed t) : parseU8 t = none := by rw [Ironbind.parseU8, h.not_number]; rfl

theorem unit (h : Slashed t) : t.getLast?.bind ttlUnit = none := by
  obtain hl | hl := h.last
  · rw [hl]
    rfl
  · cases hc : t.getLast? with
    | none => rfl
    | some c =>
      rw [hc, Option.any_some] at hl
      exact isWhitespace_not_unit hl

theorem isClass (h : Slashed t) : isClass t = false := by
  have hmem : '\\' ∈ toUppercase t := List.mem_flatMap.mpr ⟨'\\', h.slash, by decide⟩
  have hwords : ∀ word ∈ [['I', 'N'], ['A', 'N', 'Y'], ['C', 'H'], ['H', 'S']], '\\' ∉ word := by decide
  rw [Ironbind.isClass, Bool.eq_false_iff]
  intro hc
  exact hwords _ (List.contains_iff_mem.mp hc) hmem

theorem parseTtl (h : Slashed t) : parseTtl t = 3600 := by
  rw [Ironbind.parseTtl, h.unit]
  simp only [h.parseU32]
  rfl

theorem ne_nil (h : Slashed t) : t ≠ [] := by
  intro hnil
  have := h.slash
  rw [hnil] at this
  cases this

theorem last_ne {c : Char} (h : Slashed t) (hc : c ≠ '\\') (hb : isWhitespace c = false) : t.getLast? ≠ some c := by
  intro he
  obtain hl | hl := h.last
  · exact hc (Option.some.inj (he.symm.trans hl))
  · rw [he, Option.any_some, hb] at hl
    cases hl

theorem unquote (h : Slashed t) : unquote t = t := by
  unfold Ironbind.unquote
  split
  · next rest =>
    rw [if_neg]
    intro hq
    have hne : rest ≠ [] := by
      intro hnil
      rw [hnil] at hq
      cases hq
    apply h.last_ne (c := '"') (by decide) (by decide)
    rw [List.getLast?_cons_of_ne_nil hne]
    exact hq
  · rfl

theorem fqdn (h : Slashed t) (origin : Text) : fqdn t origin = toAsciiLowercase t ++ '.' :: origin := by
  have hdot : t.getLast? ≠ some '.' := h.last_ne (by decide) (by decide)
  have hat : t ≠ ['@'] := by
    intro he
    have := h.slash
    rw [he] at this
    exact absurd this (by decide)
  rw [Ironbind.fqdn, trimEndMatches_eq_self hdot]
  simp only [if_neg hat, if_neg hdot]

end Slashed

/-! What digests and keys are read from. -/

/-- Pairs of octets are digits without a backslash, or no digits, or cut a character. -/
theorem hexPairs_outcome (s : Text) : hexPairs s = .ok none ∨ hexPairs s = .error .notCharBoundary ∨
    (∃ b, hexPairs s = .ok (some b)) ∧ '\\' ∉ s := by
  induction hn : s.length using Nat.strong_induction_on generalizing s with
  | _ n ih =>
    by_cases hlen : 2 ≤ (utf8 s).length
    · obtain ⟨c, rest, rfl, hc⟩ | ⟨hi, lo, rest, rfl, hhi, hlo⟩ | hcut := two_octets hlen
      · exact .inl (hexPairs_two hc rest)
      · rw [hexPairs_pair hhi hlo]
        cases hpair : hexPair hi lo with
        | none => exact .inl rfl
        | some v =>
          have hdigits : '\\' ≠ hi ∧ '\\' ≠ lo := by
            constructor
            · intro he
              rw [← he] at hpair
              simp [hexPair, hexDigit] at hpair
            · intro he
              rw [← he] at hpair
              simp [hexPair, hexDigit] at hpair
          obtain hrest | hrest | ⟨⟨b, hrest⟩, hplain⟩ := ih rest.length
            (by rw [← hn, List.length_cons, List.length_cons]; omega) rest rfl
          · exact .inl (by rw [Option.elim_some, hrest]; rfl)
          · exact .inr (.inl (by rw [Option.elim_some, hrest]; rfl))
          · refine .inr (.inr ⟨⟨v :: b, by rw [Option.elim_some, hrest]; rfl⟩, ?_⟩)
            simp only [List.mem_cons, not_or]
            exact ⟨hdigits.1, hdigits.2, hplain⟩
      · exact .inr (.inl (hexPairs_cut hcut))
    · -- nothing, or one octet, which is no pair
      cases s with
      | nil => exact .inr (.inr ⟨⟨[], rfl⟩, List.not_mem_nil⟩)
      | cons c rest =>
        left
        rw [utf8_length_cons] at hlen
        have hpos := c.utf8Size_pos
        have hrest : rest = [] := utf8_eq_nil.mp (List.length_eq_zero_iff.mp (by omega))
        rw [hrest]
        unfold hexPairs
        rw [if_neg (by omega), if_neg (by omega)]

/-- Digits with a backslash among them are none; reading them ends so, or cuts a character. -/
theorem hexDecodeField_slashed {t : Text} (ht : '\\' ∈ t) :
    hexDecodeField t = .ok none ∨ hexDecodeField t = .error .notCharBoundary := by
  unfold hexDecodeField
  dsimp only
  split
  · exact .inl rfl
  · obtain h | h | h := hexPairs_outcome (t.filter (· ≠ ' '))
    · exact .inl h
    · exact .inr h
    · exact absurd (List.mem_filter.mpr ⟨ht, by decide⟩) h.2

theorem base64Chunks_plain : ∀ (bytes out : Bytes), base64Chunks bytes = some out → (92 : UInt8) ∉ bytes
  | [], _, _ => List.not_mem_nil
  | [_], _, h => by cases h
  | [_, _], _, h => by cases h
  | [_, _, _], _, h => by cases h
  | c0 :: c1 :: c2 :: c3 :: rest, out, h => by
    have hvalue : base64Value 92 = none := by decide
    rw [base64Chunks] at h
    obtain ⟨a, ha, h⟩ := Option.bind_eq_some_iff.mp h
    obtain ⟨b, hb, h⟩ := Option.bind_eq_some_iff.mp h
    obtain ⟨c, hc, h⟩ := Option.bind_eq_some_iff.mp h
    obtain ⟨d, hd, h⟩ := Option.bind_eq_some_iff.mp h
    obtain ⟨outs, hrest, -⟩ := Option.bind_eq_some_iff.mp h
    have hplain := base64Chunks_plain rest outs hrest
    have hne : ∀ {x : UInt8} {v : UInt32}, base64Value x = some v → (92 : UInt8) ≠ x := by
      intro x v hx he
      rw [← he, hvalue] at hx
      cases hx
    simp only [List.mem_cons, not_or]
    exact ⟨hne ha, hne hb, hne hc, hne hd, hplain⟩

theorem base64Decode_slashed {t : Text} (ht : '\\' ∈ t) : base64Decode t = none := by
  cases h : base64Decode t with
  | none => rfl
  | some out =>
    have hmem : (92 : UInt8) ∈ utf8 (t.filter fun c => !isWhitespace c) :=
      List.mem_flatMap.mpr ⟨'\\', List.mem_filter.mpr ⟨ht, by decide⟩, by decide⟩
    exact absurd hmem (base64Chunks_plain _ out h)

/-! Names and strings one character longer. -/

/-- A text that ends in no dot has a last label, which a character more belongs to. -/
theorem last_label {a : Text} (hne : a ≠ []) (hdot : a.getLast? ≠ some '.') :
    ∃ ls l, labelsOf a = ls ++ [l] ∧ ∀ w, w ≠ '.' → labelsOf (a ++ [w]) = ls ++ [l ++ [w]] := by
  have hplain : ∀ {l : Text}, '.' ∉ l → l ≠ [] → labelsOf l = [l] := by
    intro l hl hlne
    rw [labelsOf, pieces, List.splitOn_eq_singleton hl, List.filter_cons_of_pos (by simpa using hlne), List.filter_nil]
  by_cases hmem : '.' ∈ a
  · obtain ⟨y, x, hrev, hy⟩ := List.eq_append_cons_of_mem (List.mem_reverse.mpr hmem)
    have ha : a = x.reverse ++ '.' :: y.reverse := by
      have := congrArg List.reverse hrev
      rw [List.reverse_reverse] at this
      rw [this]
      simp
    have hyne : y.reverse ≠ [] := by
      intro hnil
      rw [hnil] at ha
      exact hdot (by rw [ha, List.getLast?_concat])
    have hy' : '.' ∉ y.reverse := fun hm => hy (List.mem_reverse.mp hm)
    refine ⟨labelsOf x.reverse, y.reverse, ?_, fun w hw => ?_⟩
    · rw [ha, labelsOf_append_dot, hplain hy' hyne]
    · have hw' : '.' ∉ y.reverse ++ [w] := by
        intro hm
        obtain hm | hm := List.mem_append.mp hm
        · exact hy' hm
        · exact hw (List.mem_singleton.mp hm).symm
      rw [ha, List.append_assoc, List.cons_append, labelsOf_append_dot, hplain hw' (by simp)]
  · refine ⟨[], a, by rw [hplain hmem hne]; rfl, fun w hw => ?_⟩
    have hw' : '.' ∉ a ++ [w] := by
      intro hm
      obtain hm | hm := List.mem_append.mp hm
      · exact hmem hm
      · exact hw (List.mem_singleton.mp hm).symm
    rw [hplain hw' (by simp)]
    rfl

theorem builder_name_longer {a : Text} (hne : a ≠ []) (hdot : a.getLast? ≠ some '.') {w : Char} (hw : w ≠ '.')
    (o : Text) : (Builder.name (a ++ [w] ++ '.' :: o)).length = (Builder.name (a ++ '.' :: o)).length + w.utf8Size := by
  obtain ⟨ls, l, hl, hl'⟩ := last_label hne hdot
  have hlabel : (utf8 (l ++ [w])).length = (utf8 l).length + w.utf8Size := by
    rw [utf8_append, List.length_append, utf8_length_cons]
    rfl
  simp only [Builder.name_eq, labelsOf_append_dot, hl, hl' w hw, encodeLabels_append, encodeLabels_cons,
    encodeLabels_nil, Builder.label, List.length_append, List.length_cons, List.length_nil, hlabel]
  omega

/-- A name in canonical form takes as many octets as its text and two more. -/
theorem encodeName_length {a : Text} (hne : a ≠ []) (hdot : a.getLast? ≠ some '.') (o : Text) :
    (encodeName (a ++ '.' :: o)).length =
      (utf8 a).length + (utf8 (trimEndMatches '.' ('.' :: toAsciiLowercase o))).length + 2 := by
  have hlower : (toAsciiLowercase a).getLast? ≠ some '.' := mt (toAsciiLowercase_getLast? dot_not_alpha).mp hdot
  have htrim : trimEndMatches '.' (toAsciiLowercase (a ++ '.' :: o)) =
      toAsciiLowercase a ++ trimEndMatches '.' ('.' :: toAsciiLowercase o) := by
    have hdotlow : ('.' : Char).toLower = '.' := by decide
    rw [toAsciiLowercase_append, toAsciiLowercase_cons, hdotlow, trimEndMatches_append hlower]
  have htne : trimEndMatches '.' (toAsciiLowercase (a ++ '.' :: o)) ≠ [] := by
    rw [htrim]
    intro h
    exact hne (toAsciiLowercase_eq_nil.mp (List.append_eq_nil_iff.mp h).1)
  have hlen : ∀ ls : List Text, (ls.flatMap Builder.label).length = (ls.map fun l => (utf8 l).length + 1).sum := by
    intro ls
    rw [List.length_flatMap]
    rfl
  rw [encodeName, canonicalName]
  rw [if_neg htne, List.length_append, hlen, ← utf8_intercalate_length (List.splitOn_ne_nil '.' _),
    List.intercalate_splitOn, htrim, utf8_append, List.length_append, utf8_length_lower]
  rfl

theorem txtField_longer {t : Text} (h : Slashed t) {w : Char} (h' : Slashed (t ++ [w])) :
    (txtField t).length < (txtField (t ++ [w])).length := by
  have hpos := w.utf8Size_pos
  have hlen : (utf8 (t ++ [w])).length = (utf8 t).length + w.utf8Size := by
    rw [utf8_append, List.length_append, utf8_length_cons]
    rfl
  rw [txtField_length, txtField_length, RecordSource.stringSize, RecordSource.stringSize, h.unquote, h'.unquote, hlen]
  omega

/-! Data that depend on their last field. -/

/-- The digest is read without a panic. -/
def DigestSafe (digest : Text) : Prop :=
  (utf8 (digest.filter (· ≠ ' '))).length % 2 = 0 → HexWhole (digest.filter (· ≠ ' '))

/-- The data of a type, from fields with this one behind them, depend on the blank it ends in. -/
def DataReads (rtype : Text) (data : List Text) (last : Text) : Prop :=
  match strToRtype rtype with
  | .NS | .CNAME | .PTR => data = []
  | .MX => ∃ pref, data = [pref] ∧ (parseU16 pref).isSome
  | .TXT => True
  | .SRV => ∃ priority weight port, data = [priority, weight, port] ∧ (parseU16 priority).isSome ∧
      (parseU16 weight).isSome ∧ (parseU16 port).isSome
  | .DS => ∃ tag algorithm digestType, data = [tag, algorithm, digestType] ∧ (parseU16 tag).isSome ∧
      (parseU8 algorithm).isSome ∧ (parseU8 digestType).isSome ∧ ¬ (DigestSafe last ↔ DigestSafe last.dropLast)
  | _ => False

section
variable {t t' origin : Text} {data : List Text}

theorem headD_snoc (hne : data ≠ []) : (data ++ [t]).headD [] = (data ++ [t']).headD [] := by
  obtain ⟨d, data, rfl⟩ := List.exists_cons_of_ne_nil hne
  rfl

theorem mxRdata_snoc (h : Slashed t) (h' : Slashed t') (hd : ¬ ∃ pref, data = [pref] ∧ (parseU16 pref).isSome) :
    mxRdata origin (data ++ [t]) = mxRdata origin (data ++ [t']) := by
  rcases data with _ | ⟨p, _ | ⟨q, data⟩⟩
  · simp [mxRdata, h.parseU16, h'.parseU16]
  · have hp : parseU16 p = none := by
      cases hp : parseU16 p with
      | none => rfl
      | some v => exact absurd ⟨p, rfl, by rw [hp]; rfl⟩ hd
    simp [mxRdata, hp]
  · simp [mxRdata]

theorem soaRdata_snoc (h : Slashed t) (h' : Slashed t') :
    soaRdata origin (data ++ [t]) = soaRdata origin (data ++ [t']) := by
  rcases data with _ | ⟨a, _ | ⟨b, _ | ⟨c, _ | ⟨d, _ | ⟨e, _ | ⟨f, _ | ⟨g, data⟩⟩⟩⟩⟩⟩⟩
  all_goals simp [soaRdata, h.parseTtl, h'.parseTtl]

theorem srvRdata_snoc (hd : ¬ ∃ priority weight port, data = [priority, weight, port] ∧ (parseU16 priority).isSome ∧
      (parseU16 weight).isSome ∧ (parseU16 port).isSome) :
    srvRdata origin (data ++ [t]) = srvRdata origin (data ++ [t']) := by
  rcases data with _ | ⟨a, _ | ⟨b, _ | ⟨c, _ | ⟨d, data⟩⟩⟩⟩
  case cons.cons.cons.nil =>
    cases ha : parseU16 a with
    | none => simp [srvRdata, ha]
    | some p =>
      cases hb : parseU16 b with
      | none => simp [srvRdata, ha, hb]
      | some w =>
        cases hc : parseU16 c with
        | none => simp [srvRdata, ha, hb, hc]
        | some q => exact absurd ⟨a, b, c, rfl, by rw [ha]; rfl, by rw [hb]; rfl, by rw [hc]; rfl⟩ hd
  all_goals simp [srvRdata]

theorem dnskeyRdata_snoc (h : Slashed t) (h' : Slashed t') : dnskeyRdata (data ++ [t]) = dnskeyRdata (data ++ [t']) := by
  rcases data with _ | ⟨a, _ | ⟨b, _ | ⟨c, keys⟩⟩⟩
  case cons.cons.cons =>
    have hkey : ∀ {u : Text}, Slashed u → base64Decode (keys ++ [u]).flatten = none := by
      intro u hu
      apply base64Decode_slashed
      rw [List.flatten_append]
      exact List.mem_append.mpr (.inr (by simpa using hu.slash))
    have hnone : ∀ {u : Text}, Slashed u → dnskeyRdata (a :: b :: c :: (keys ++ [u])) = none := by
      intro u hu
      obtain ⟨k, ks, hk⟩ : ∃ k ks, keys ++ [u] = k :: ks := List.exists_cons_of_ne_nil (by simp)
      have hkey := hkey hu
      rw [hk] at hkey ⊢
      simp only [dnskeyRdata, hkey]
      cases parseU16 a <;> cases parseU8 b <;> cases parseU8 c <;> rfl
    rw [List.cons_append, List.cons_append, List.cons_append, List.cons_append, List.cons_append, List.cons_append,
      hnone h, hnone h']
  all_goals simp [dnskeyRdata]

theorem dsRdata_snoc (h : Slashed t) (h' : Slashed t') (hd : ¬ ∃ tag algorithm digestType,
      data = [tag, algorithm, digestType] ∧ (parseU16 tag).isSome ∧ (parseU8 algorithm).isSome ∧
        (parseU8 digestType).isSome ∧ ¬ (DigestSafe t ↔ DigestSafe t')) :
    dsRdata (data ++ [t]) = dsRdata (data ++ [t']) := by
  rcases data with _ | ⟨a, _ | ⟨b, _ | ⟨c, _ | ⟨d, data⟩⟩⟩⟩
  case cons.cons.cons.nil =>
    cases ha : parseU16 a with
    | none => simp [dsRdata, ha]
    | some p =>
      cases hb : parseU8 b with
      | none => simp [dsRdata, ha, hb]
      | some w =>
        cases hc : parseU8 c with
        | none => simp [dsRdata, ha, hb, hc]
        | some q =>
          have hsafe : DigestSafe t ↔ DigestSafe t' := by
            by_contra hn
            exact hd ⟨a, b, c, rfl, by rw [ha]; rfl, by rw [hb]; rfl, by rw [hc]; rfl, hn⟩
          -- both digests are read to no digits, or both cut a character
          have hsame : hexDecodeField t = hexDecodeField t' := by
            unfold DigestSafe at hsafe
            rw [← hexDecodeField_ok_iff, ← hexDecodeField_ok_iff] at hsafe
            obtain ht | ht := hexDecodeField_slashed h.slash <;> obtain ht' | ht' := hexDecodeField_slashed h'.slash
            · rw [ht, ht']
            · obtain ⟨o, ho⟩ := hsafe.mp ⟨none, ht⟩
              rw [ht'] at ho
              cases ho
            · obtain ⟨o, ho⟩ := hsafe.mpr ⟨none, ht'⟩
              rw [ht] at ho
              cases ho
            · rw [ht, ht']
          simp [dsRdata, ha, hb, hc, hsame]
  all_goals simp [dsRdata]

end

/-- Data that do not depend on the blank are built alike without it. -/
theorem buildRdata_cut {rtype : Text} {data : List Text} {g : Text} {w : Char} (hw : isWhitespace w = true)
    (hd : ¬ DataReads rtype data (g ++ ['\\', w])) (origin : Text) :
    buildRdata rtype (data ++ [g ++ ['\\', w]]) origin = buildRdata rtype (data ++ [g ++ ['\\']]) origin := by
  have h := slashed_blank (g := g) hw
  have h' := slashed_cut g
  unfold DataReads at hd
  unfold buildRdata
  have haddress : ∀ {read : Text → Option (Bytes × Text)}, Avoids '\\' read →
      parseWith read ((data ++ [g ++ ['\\', w]]).headD []) = parseWith read ((data ++ [g ++ ['\\']]).headD []) := by
    intro read hr
    by_cases hnil : data = []
    · rw [hnil]
      exact (parseWith_avoids hr h.slash).trans (parseWith_avoids hr h'.slash).symm
    · rw [headD_snoc hnil]
  cases hr : strToRtype rtype <;> rw [hr] at hd <;> dsimp only at hd ⊢
  case A => rw [haddress (.readIpv4 noAddress_slash)]
  case AAAA => rw [haddress (.readIpv6 noAddress_slash)]
  case MX => exact mxRdata_snoc h h' hd
  case SOA => rw [soaRdata_snoc h h']
  case TXT => exact absurd trivial hd
  case SRV => rw [srvRdata_snoc hd]
  case DS =>
    rw [dropLast_blank] at hd
    exact dsRdata_snoc h h' hd
  case DNSKEY => rw [dnskeyRdata_snoc h h']
  all_goals rw [headD_snoc hd]

/-- Data that depend on the blank are not built alike without it. -/
theorem buildRdata_differs {rtype : Text} {data : List Text} {g : Text} {w : Char} (hw : isWhitespace w = true)
    (hd : DataReads rtype data (g ++ ['\\', w])) (origin : Text) :
    buildRdata rtype (data ++ [g ++ ['\\', w]]) origin ≠ buildRdata rtype (data ++ [g ++ ['\\']]) origin := by
  have h := slashed_blank (g := g) hw
  have h' := slashed_cut g
  have happ : g ++ ['\\', w] = (g ++ ['\\']) ++ [w] := by simp
  have hpos := w.utf8Size_pos
  -- the names read from the field, without case
  have hlow : toAsciiLowercase (g ++ ['\\', w]) = toAsciiLowercase (g ++ ['\\']) ++ [w.toLower] := by
    rw [happ, toAsciiLowercase_append]
    rfl
  have hwlow : w.toLower ≠ '.' := by
    intro he
    have := (toLower_eq_iff_of_not_alpha dot_not_alpha).mp he
    rw [this] at hw
    exact absurd hw (by decide)
  have hslash : toAsciiLowercase (g ++ ['\\']) = toAsciiLowercase g ++ ['\\'] := by
    rw [toAsciiLowercase_append]
    rfl
  have hne : toAsciiLowercase (g ++ ['\\']) ≠ [] := by rw [hslash]; simp
  have hdot : (toAsciiLowercase (g ++ ['\\'])).getLast? ≠ some '.' := by
    rw [hslash, List.getLast?_concat]
    decide
  have hname : (Builder.name (fqdn (g ++ ['\\', w]) origin)).length ≠
      (Builder.name (fqdn (g ++ ['\\']) origin)).length := by
    rw [h.fqdn, h'.fqdn, hlow, builder_name_longer hne hdot hwlow]
    have := w.toLower.utf8Size_pos
    omega
  have hencoded : (encodeName (fqdn (g ++ ['\\', w]) origin)).length ≠
      (encodeName (fqdn (g ++ ['\\']) origin)).length := by
    have hdot' : (toAsciiLowercase (g ++ ['\\']) ++ [w.toLower]).getLast? ≠ some '.' := by
      rw [List.getLast?_concat]
      simpa using hwlow
    rw [h.fqdn, h'.fqdn, hlow, encodeName_length (by simp) hdot', encodeName_length hne hdot, utf8_append,
      List.length_append, utf8_length_cons]
    have := w.toLower.utf8Size_pos
    omega
  have htxt : ((data ++ [g ++ ['\\', w]]).flatMap txtField).length ≠
      ((data ++ [g ++ ['\\']]).flatMap txtField).length := by
    have h'' := h
    rw [happ] at h''
    have := txtField_longer h' h''
    rw [← happ] at this
    simp only [List.flatMap_append, List.length_append, List.flatMap_cons, List.flatMap_nil, List.append_nil]
    omega
  unfold DataReads at hd
  unfold buildRdata
  have hcanonical : data = [] → (some (encodeName (fqdn ((data ++ [g ++ ['\\', w]]).headD []) origin)) : Option Bytes) ≠
      some (encodeName (fqdn ((data ++ [g ++ ['\\']]).headD []) origin)) := by
    intro hnil he
    rw [hnil] at he
    exact hencoded (congrArg List.length (Option.some.inj he))
  cases hr : strToRtype rtype <;> rw [hr] at hd <;> dsimp only at hd ⊢
  case NS => exact fun he => hcanonical hd (Except.ok.inj he)
  case CNAME => exact fun he => hcanonical hd (Except.ok.inj he)
  case PTR => exact fun he => hcanonical hd (Except.ok.inj he)
  case TXT =>
    intro he
    exact htxt (congrArg List.length (Option.some.inj (Except.ok.inj he)))
  case MX =>
    obtain ⟨pref, rfl, hpref⟩ := hd
    obtain ⟨p, hp⟩ := Option.isSome_iff_exists.mp hpref
    intro he
    simp only [mxRdata, List.cons_append, List.nil_append, List.headD_cons, hp, List.getElem?_cons_succ,
      List.getElem?_cons_zero, Except.ok.injEq, Option.some.injEq] at he
    exact hname (congrArg List.length (List.append_cancel_left he))
  case SRV =>
    obtain ⟨priority, weight, port, rfl, h1, h2, h3⟩ := hd
    obtain ⟨p, hp⟩ := Option.isSome_iff_exists.mp h1
    obtain ⟨q, hq⟩ := Option.isSome_iff_exists.mp h2
    obtain ⟨r, hr'⟩ := Option.isSome_iff_exists.mp h3
    intro he
    have he := Option.some.inj ((show _ = _ by simpa [srvRdata, hp, hq, hr'] using he) :
      some (Builder.name (fqdn (g ++ ['\\', w]) origin)) = some (Builder.name (fqdn (g ++ ['\\']) origin)))
    exact hname (congrArg List.length he)
  case DS =>
    obtain ⟨tag, algorithm, digestType, rfl, h1, h2, h3, hsafe⟩ := hd
    obtain ⟨p, hp⟩ := Option.isSome_iff_exists.mp h1
    obtain ⟨q, hq⟩ := Option.isSome_iff_exists.mp h2
    obtain ⟨r, hr'⟩ := Option.isSome_iff_exists.mp h3
    rw [dropLast_blank] at hsafe
    intro he
    apply hsafe
    unfold DigestSafe
    rw [← hexDecodeField_ok_iff, ← hexDecodeField_ok_iff]
    have hok : (∃ o, dsRdata ([tag, algorithm, digestType] ++ [g ++ ['\\', w]]) = .ok o) ↔
        ∃ o, dsRdata ([tag, algorithm, digestType] ++ [g ++ ['\\']]) = .ok o := by rw [he]
    have hread : ∀ u, (∃ o, dsRdata ([tag, algorithm, digestType] ++ [u]) = .ok o) ↔ ∃ o, hexDecodeField u = .ok o := by
      intro u
      simp only [dsRdata, List.cons_append, List.nil_append, hp, hq, hr']
      cases hexDecodeField u with
      | error e => simp [Except.map]
      | ok o => simp [Except.map]
    rwa [hread, hread] at hok

/-! Records that depend on their last field. -/

/-- The record of a line depends on the blank that its last field ends in. -/
def LastFieldRead (blank : Bool) (init : List Text) (last : Text) : Prop :=
  ∃ rtype data, fieldsFromType (fieldsBehindOwner blank (init ++ [last])) = rtype :: (data ++ [last]) ∧
    DataReads (toUppercase rtype) data last

/-- A last field with a backslash is no TTL and no class, so both fields are read in front of it. -/
theorem ttlField_slashed (d : UInt32) (fields : List Text) :
    ∃ ttl rest, ∀ t, Slashed t → ttlField d (fields ++ [t]) = (ttl, rest ++ [t]) := by
  cases fields with
  | nil =>
    refine ⟨d, [], fun t ht => ?_⟩
    rw [List.nil_append, ttlField, ht.parseU32]
    simp [ht.unit]
  | cons f fields =>
    cases hn : parseU32 f with
    | some n => exact ⟨n, fields, fun t _ => by rw [List.cons_append, ttlField, hn]⟩
    | none =>
      by_cases hunit : (f.getLast?.bind ttlUnit).isSome
      · refine ⟨parseTtl f, fields, fun t _ => ?_⟩
        rw [List.cons_append, ttlField, hn]
        simp only [hunit, if_true]
      · refine ⟨d, f :: fields, fun t _ => ?_⟩
        rw [List.cons_append, ttlField, hn]
        simp only [hunit, if_false, Bool.false_eq_true]

theorem classField_slashed (fields : List Text) :
    ∃ rest, ∀ t, Slashed t → classField (fields ++ [t]) = rest ++ [t] := by
  cases fields with
  | nil =>
    refine ⟨[], fun t ht => ?_⟩
    rw [List.nil_append, classField, ht.isClass]
    rfl
  | cons f fields =>
    by_cases hc : isClass f
    · exact ⟨fields, fun t _ => by rw [List.cons_append, classField, if_pos hc]⟩
    · exact ⟨f :: fields, fun t _ => by rw [List.cons_append, classField, if_neg hc]⟩

/-- A record of at least two fields is read from the same fields in front of its last, whatever that is. -/
theorem parseRecord_slashed (origin lastName : Text) (d : UInt32) (blank : Bool) {init : List Text} (hne : init ≠ []) :
    ∃ name ttl fields, ∀ t, Slashed t →
      fieldsFromType (fieldsBehindOwner blank (init ++ [t])) = fields ++ [t] ∧
      parseRecord origin lastName d blank (init ++ [t]) =
        (recordOfFields origin name ttl (fields ++ [t])).map fun r => (name, r) := by
  obtain ⟨first, init, rfl⟩ := List.exists_cons_of_ne_nil hne
  let named := !blank && !isType first && !isClass first
  let front := if named then init else first :: init
  have hbehind : ∀ t, fieldsBehindOwner blank (first :: init ++ [t]) = front ++ [t] := by
    intro t
    have hlen : ¬ (first :: init ++ [t]).length < 2 := by simp
    rw [fieldsBehindOwner, if_neg hlen]
    show (if named then _ else _) = _
    cases hnamed : named <;> simp [front, hnamed]
  obtain ⟨ttl, rest, hrest⟩ := ttlField_slashed d front
  obtain ⟨fields, hfields⟩ := classField_slashed rest
  refine ⟨if named then ownerName first origin else lastName, ttl, fields, fun t ht => ?_⟩
  have htype : fieldsFromType (fieldsBehindOwner blank (first :: init ++ [t])) = fields ++ [t] := by
    rw [fieldsFromType, ttlField_snd 0 d, hbehind, hrest t ht]
    exact hfields t ht
  refine ⟨htype, ?_⟩
  obtain ⟨second, others, hsecond⟩ : ∃ second others, first :: init ++ [t] = first :: second :: others := by
    obtain ⟨second, others, h⟩ := List.exists_cons_of_ne_nil (show init ++ [t] ≠ [] by simp)
    exact ⟨second, others, by rw [List.cons_append, h]⟩
  rw [hsecond, parseRecord_fields, ← hsecond]
  dsimp only
  rw [htype, hbehind, hrest t ht]

/-- A record that does not depend on the blank is read alike without it. -/
theorem parseRecord_cut {blank : Bool} {init : List Text} {g : Text} {w : Char} (hw : isWhitespace w = true)
    (hread : ¬ LastFieldRead blank init (g ++ ['\\', w])) (origin lastName : Text) (d : UInt32) :
    parseRecord origin lastName d blank (init ++ [g ++ ['\\', w]]) =
      parseRecord origin lastName d blank (init ++ [g ++ ['\\']]) := by
  by_cases hne : init = []
  · rw [hne]
    rfl
  · obtain ⟨name, ttl, fields, h⟩ := parseRecord_slashed origin lastName d blank hne
    obtain ⟨htype, hblank⟩ := h _ (slashed_blank (g := g) hw)
    obtain ⟨-, hcut⟩ := h _ (slashed_cut g)
    rw [hblank, hcut]
    cases fields with
    | nil => rfl
    | cons rtype data =>
      have hd : ¬ DataReads (toUppercase rtype) data (g ++ ['\\', w]) := fun hd => hread ⟨rtype, data, htype, hd⟩
      have hcons : ∀ u : Text, recordOfFields origin name ttl (rtype :: data ++ [u]) =
          (buildRdata (toUppercase rtype) (data ++ [u]) origin).map fun rdata => rdata.map fun rdata =>
            ⟨name, strToRtype (toUppercase rtype), CLASS_IN, ttl, rdata⟩ := by
        intro u
        rw [List.cons_append, recordOfFields]
        simp
      rw [hcons, hcons, buildRdata_cut hw hd]

/-- A record that depends on the blank is another record without it, or none. -/
theorem parseRecord_differs {blank : Bool} {init : List Text} {g : Text} {w : Char} (hw : isWhitespace w = true)
    (hread : LastFieldRead blank init (g ++ ['\\', w])) (origin lastName : Text) (d : UInt32) :
    ∃ (name : Text) (x y : Except Panic (Option Record)), x ≠ y ∧
      (∀ r r', x = .ok (some r) → y = .ok (some r') → r.name = r'.name ∧ r.rtype = r'.rtype) ∧
      parseRecord origin lastName d blank (init ++ [g ++ ['\\', w]]) = x.map (fun r => (name, r)) ∧
      parseRecord origin lastName d blank (init ++ [g ++ ['\\']]) = y.map fun r => (name, r) := by
  obtain ⟨rtype, data, htype, hd⟩ := hread
  have hne : init ≠ [] := by
    intro hnil
    rw [hnil] at htype
    have hone : fieldsFromType (fieldsBehindOwner blank ([] ++ [g ++ ['\\', w]])) = [] := rfl
    rw [hone] at htype
    cases htype
  obtain ⟨name, ttl, fields, h⟩ := parseRecord_slashed origin lastName d blank hne
  obtain ⟨htype', hblank⟩ := h _ (slashed_blank (g := g) hw)
  obtain ⟨-, hcut⟩ := h _ (slashed_cut g)
  have hfields : fields = rtype :: data := by
    rw [htype', ← List.cons_append] at htype
    exact List.append_cancel_right htype
  have hcons : ∀ u : Text, recordOfFields origin name ttl (rtype :: data ++ [u]) =
      (buildRdata (toUppercase rtype) (data ++ [u]) origin).map fun rdata => rdata.map fun rdata =>
        ⟨name, strToRtype (toUppercase rtype), CLASS_IN, ttl, rdata⟩ := by
    intro u
    rw [List.cons_append, recordOfFields]
    simp
  rw [hfields] at hblank hcut
  refine ⟨name, _, _, ?_, ?_, hblank, hcut⟩
  · rw [hcons, hcons]
    intro he
    apply buildRdata_differs hw hd origin
    cases hx : buildRdata (toUppercase rtype) (data ++ [g ++ ['\\', w]]) origin with
    | error e =>
      cases hy : buildRdata (toUppercase rtype) (data ++ [g ++ ['\\']]) origin with
      | error e' => rw [hx, hy] at he; simpa [Except.map] using he
      | ok o => rw [hx, hy] at he; cases he
    | ok o =>
      cases hy : buildRdata (toUppercase rtype) (data ++ [g ++ ['\\']]) origin with
      | error e' => rw [hx, hy] at he; cases he
      | ok o' =>
        rw [hx, hy] at he
        cases o <;> cases o' <;> simp_all [Except.map]
  · intro r r' hr hr'
    rw [hcons] at hr hr'
    cases hx : buildRdata (toUppercase rtype) (data ++ [g ++ ['\\', w]]) origin with
    | error e => rw [hx] at hr; cases hr
    | ok o =>
      cases hy : buildRdata (toUppercase rtype) (data ++ [g ++ ['\\']]) origin with
      | error e' => rw [hy] at hr'; cases hr'
      | ok o' =>
        rw [hx] at hr
        rw [hy] at hr'
        cases o with
        | none => cases hr
        | some b =>
          cases o' with
          | none => cases hr'
          | some b' =>
            cases hr
            cases hr'
            exact ⟨rfl, rfl⟩

end Ironbind
