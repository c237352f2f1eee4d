import Ironbind.RecordFields

/- Record lines. An entry is what a line of the documented form,
   `[name] [ttl] [class] type rdata`, says: an owner or a blank one, a TTL and a class
   or none, a type in any case, and its data. The loader tells the optional fields apart
   by their spelling alone. So an owner spelled as a type or a class is taken for one,
   and where no TTL is given, a class or type that ends in the letter of a unit is taken
   for a TTL; `loadLine_reads_iff` shows that these two, and the three kinds of data that
   are not read, are all that keeps a line from meaning what it says. -/
namespace Ironbind
open Codec

/-- The classes a line may name, in lower case. -/
def classNames : List Text := [['i', 'n'], ['a', 'n', 'y'], ['c', 'h'], ['h', 's']]

structure RecordLine where
  owner : Option Text
  ttl : Option Text
  rclass : Option Text
  rtype : Text
  data : Data

namespace RecordLine

def tokens (e : RecordLine) : List Text :=
  e.owner.toList ++ (e.ttl.toList ++ (e.rclass.toList ++ e.rtype :: e.data.fields))

/-- An entry of the documented form, without escapes. -/
structure WellFormed (e : RecordLine) : Prop where
  owner : ∀ o ∈ e.owner, NameField o ∧ o.head? ≠ some '$'
  ttl : ∀ t ∈ e.ttl, ∃ n, TtlMeans t n
  rclass : ∀ c ∈ e.rclass, toAsciiLowercase c ∈ classNames
  rtype : toAsciiLowercase e.rtype = mnemonic e.data.rtype
  data : e.data.WellFormed
  plain : ∀ t ∈ e.tokens, '\\' ∉ t

/-- A line of the entry's fields. -/
def WrittenAs (e : RecordLine) (line : Text) : Prop :=
  ∃ t fields, e.tokens = t :: fields ∧ FieldLine e.owner.isNone t fields line

/-- The loader between two records of a file whose origin and owners are names. -/
structure Between (s : LoadState) : Prop where
  pending : s.pending = []
  openParentheses : s.openParentheses = 0
  zone : s.zone.origin = s.origin
  origin : Dotted s.origin
  lower : toAsciiLowercase s.origin = s.origin
  lastName : Dotted s.lastName
  lastLower : toAsciiLowercase s.lastName = s.lastName

/-- The line adds one record: the entry's owner, or the one before it, its TTL, or the default, its type
    and its data. -/
def ReadRight (e : RecordLine) (line : Text) : Prop :=
  ∀ s, Between s → ∃ r, loadLine s line = .ok { s with zone := s.zone.add r, lastName := r.name } ∧
    zoneLabels r.name = (match e.owner with
      | some o => completed o s.origin
      | none => zoneLabels s.lastName) ∧
    (match e.ttl with
      | some t => TtlMeans t r.ttl
      | none => r.ttl = s.defaultTtl) ∧
    r.rtype = e.data.rtype ∧ e.data.Means s.origin r.rdata

/-- Spelled so that the loader reads it: the owner is not spelled as a type or a class, and without a
    TTL the field in its place does not end in a unit. -/
structure Clear (e : RecordLine) : Prop where
  owner : ∀ o ∈ e.owner, isType o = false ∧ isClass o = false
  unit : e.ttl = none → ∀ t ∈ (e.rclass.toList ++ [e.rtype]).head?, t.getLast?.bind ttlUnit = none
  data : e.data.Plain

end RecordLine

/-! Spellings. -/

theorem toUpper_toLower : ∀ n < 128, (Char.ofNat n).toLower.toUpper = (Char.ofNat n).toUpper := by decide

theorem ascii_of_toLower {c : Char} (h : c.toLower.toNat < 128) : c.toNat < 128 := by
  by_cases hup : c.isUpper
  · simp only [Char.isUpper, decide_eq_true_eq, UInt32.le_iff_toNat_le] at hup
    have hZ : ('Z' : Char).val.toNat = 90 := rfl
    have hc : c.val.toNat ≤ 90 := hup.2
    exact Nat.lt_of_le_of_lt hc (by decide)
  · rwa [Char.toLower_eq_of_not_isUpper hup] at h

theorem upperChar_of_toLower {c : Char} (h : c.toLower.toNat < 128) : upperChar c = [c.toLower.toUpper] := by
  have hc := ascii_of_toLower h
  have hupper := toUpper_toLower c.toNat hc
  rw [Char.ofNat_toNat] at hupper
  unfold upperChar
  split
  all_goals first | omega | rw [hupper]

theorem toUppercase_lower {t : Text} (h : ∀ c ∈ toAsciiLowercase t, c.toNat < 128) :
    toUppercase t = (toAsciiLowercase t).map Char.toUpper := by
  induction t with
  | nil => rfl
  | cons c t ih =>
    rw [toAsciiLowercase_cons] at h ⊢
    have hc := upperChar_of_toLower (h c.toLower List.mem_cons_self)
    rw [toUppercase, List.flatMap_cons, hc, List.map_cons, ← ih fun d hd => h d (List.mem_cons_of_mem _ hd)]
    rfl

def IsAscii (word : Text) : Bool := word.all fun c => c.toNat < 128

/-- A field spelled as an ASCII word, in any case. -/
structure SpeltAs (word t : Text) : Prop where
  lower : toAsciiLowercase t = word
  ascii : IsAscii word = true

namespace SpeltAs
variable {word t : Text}

theorem upper (h : SpeltAs word t) : toUppercase t = toUppercase word := by
  have hword : toAsciiLowercase word = word := by rw [← h.lower, toAsciiLowercase_idem]
  have hascii : ∀ c ∈ word, c.toNat < 128 := by simpa [IsAscii] using h.ascii
  rw [toUppercase_lower (by rw [h.lower]; exact hascii), toUppercase_lower (by rw [hword]; exact hascii), h.lower, hword]

theorem isClass_eq (h : SpeltAs word t) : isClass t = isClass word := by
  rw [isClass, h.upper, isClass]

theorem head_ne (h : SpeltAs word t) (hd : word.head? ≠ some '$') : t.head? ≠ some '$' := by
  intro ht
  apply hd
  rw [← h.lower, toAsciiLowercase, List.head?_map, ht]
  rfl

/-- A word that does not end in a digit is no number. -/
theorem parseU32 (h : SpeltAs word t) (hd : word.getLast?.any Char.isDigit = false) : parseU32 t = none := by
  cases hp : Ironbind.parseU32 t with
  | none => rfl
  | some n =>
    obtain ⟨v, hv⟩ := parseU32_eq_some hp
    obtain ⟨c, hlast, hdigit⟩ := getLast?_of_parseUnsigned hv
    have hword : word.getLast? = some c.toLower := by
      rw [← h.lower, toAsciiLowercase, List.getLast?_map, hlast]
      rfl
    have hlow : c.toLower = c := Char.toLower_eq_of_not_isUpper fun hup => by
      simp only [Char.isDigit, Char.isUpper, Bool.and_eq_true, decide_eq_true_eq, UInt32.le_iff_toNat_le] at hdigit hup
      have h9 : ('9' : Char).val.toNat = 57 := rfl
      have hA : ('A' : Char).val.toNat = 65 := rfl
      omega
    rw [hword, hlow, Option.any_some, hdigit] at hd
    cases hd

end SpeltAs

theorem Data.WellFormed.documented {d : Data} (h : d.WellFormed) : d.rtype ∈ fileTypes ++ Data.unbuiltTypes := by
  cases d with
  | target t n => rcases h.target t n rfl with rfl | rfl | rfl <;> simp [Data.rtype, fileTypes]
  | unbuilt t fields => exact List.mem_append_right _ (h.unbuilt t fields rfl)
  | _ => simp [Data.rtype, fileTypes]

theorem classNames_spec : ∀ word ∈ classNames, IsAscii word = true ∧ word.head? ≠ some '$' ∧
    isClass word = true ∧ word.getLast?.any Char.isDigit = false := by decide

theorem mnemonic_spec : ∀ t ∈ fileTypes ++ Data.unbuiltTypes, IsAscii (mnemonic t) = true ∧
    (mnemonic t).head? ≠ some '$' := by decide

/-- The mnemonic of a type that is built is neither a class nor a number. -/
theorem mnemonic_built : ∀ t ∈ fileTypes, isClass (mnemonic t) = false ∧
    (mnemonic t).getLast?.any Char.isDigit = false := by decide

theorem strToRtype_mnemonic {t : RType} (h : t ∈ fileTypes) : strToRtype (toUppercase (mnemonic t)) = t := by
  simp only [fileTypes, List.mem_cons, List.not_mem_nil, or_false] at h
  rcases h with rfl | rfl | rfl | rfl | rfl | rfl | rfl | rfl | rfl | rfl | rfl <;> rfl

/-! The fields of a line. -/

/-- What `parse_record` does behind the owner. -/
def recordFields (origin name : Text) (defaultTtl : UInt32) (fields : List Text) :
    Except Panic (Text × Option Record) :=
  match classField (ttlField defaultTtl fields).2 with
  | [] | [_] => .ok (name, none)
  | rtypeToken :: rdataTokens =>
    match buildRdata (toUppercase rtypeToken) rdataTokens origin with
    | .error e => .error e
    | .ok none => .ok (name, none)
    | .ok (some rdata) =>
      .ok (name, some ⟨name, strToRtype (toUppercase rtypeToken), CLASS_IN, (ttlField defaultTtl fields).1, rdata⟩)

theorem parseRecord_eq {origin lastName : Text} {defaultTtl : UInt32} {blank : Bool} {first : Text} {rest : List Text}
    (hrest : rest ≠ []) : parseRecord origin lastName defaultTtl blank (first :: rest) =
      if !blank && !isType first && !isClass first then recordFields origin (ownerName first origin) defaultTtl rest
      else recordFields origin lastName defaultTtl (first :: rest) := by
  obtain ⟨second, rest, rfl⟩ := List.exists_cons_of_ne_nil hrest
  unfold parseRecord
  dsimp only
  by_cases hnamed : (!blank && !isType first && !isClass first) = true
  · simp only [if_pos hnamed]
    rfl
  · simp only [if_neg hnamed]
    rfl

/-- A record has the name it is read with, the TTL field's TTL and a type that is built. -/
theorem recordFields_ok {origin name last : Text} {defaultTtl : UInt32} {fields : List Text} {r : Option Record}
    (h : recordFields origin name defaultTtl fields = .ok (last, r)) :
    last = name ∧ ∀ r' ∈ r, r'.ttl = (ttlField defaultTtl fields).1 ∧ r'.rtype ∈ fileTypes := by
  unfold recordFields at h
  split at h
  · cases h; exact ⟨rfl, by simp⟩
  · cases h; exact ⟨rfl, by simp⟩
  · split at h
    · cases h
    · cases h; exact ⟨rfl, by simp⟩
    · next hb =>
      cases h
      refine ⟨rfl, fun r' hr' => ?_⟩
      cases hr'
      exact ⟨rfl, rtype_of_buildRdata hb⟩

/-- What a line of fields does between two records: its record, if it has one, is entered. -/
theorem loadLine_record {s : LoadState} (hs : RecordLine.Between s) {blank : Bool} {t : Text} {fields : List Text}
    {line : Text} (h : FieldLine blank t fields line) (ht : t.head? ≠ some '$') :
    loadLine s line = (parseRecord s.origin s.lastName s.defaultTtl blank (t :: fields)).map
      fun out => { s with lastName := out.1, zone := out.2.toList.foldl Zone.add s.zone } := by
  obtain ⟨text, rest, hload, hblank, htrim, hspaced⟩ := loadLine_fieldLine hs.pending hs.openParentheses h
  obtain ⟨c, u, rfl, -⟩ := h.field.head
  have hc : c ≠ '$' := fun hc => ht (by rw [hc]; rfl)
  have hprefix (word : Text) : ('$' :: word).isPrefixOf (c :: u ++ rest) = false := by
    rw [List.cons_append, List.isPrefixOf, beq_eq_false_iff_ne.mpr hc.symm, Bool.false_and]
  have hne : c :: u ++ rest ≠ [] := List.cons_ne_nil _ _
  rw [hload, loadText]
  simp only [htrim, hblank, hprefix, tokenize_spaced h.field hspaced]
  have hhead : (c :: u ++ rest).head? ≠ some '$' := fun hd => hc (Option.some.inj hd)
  rw [if_neg hne, if_neg Bool.false_ne_true, if_neg Bool.false_ne_true, if_neg hhead]
  cases parseRecord s.origin s.lastName s.defaultTtl blank ((c :: u) :: fields) with
  | error e => rfl
  | ok out =>
    obtain ⟨last, r⟩ := out
    cases r <;> rfl

/-! Entries. -/

namespace RecordLine
variable {e : RecordLine} {line : Text}

/-- The fields behind the owner. -/
def behindOwner (e : RecordLine) : List Text := e.ttl.toList ++ (e.rclass.toList ++ e.rtype :: e.data.fields)

theorem behindOwner_ne_nil (e : RecordLine) : e.behindOwner ≠ [] := by
  simp [behindOwner]

/-- More than one field stands behind the owner. -/
theorem WellFormed.fields_ne_nil (h : e.WellFormed) {t : Text} {fields : List Text} (ht : e.behindOwner = t :: fields) :
    fields ≠ [] := by
  rintro rfl
  have hlen := congrArg List.length ht
  have hdata := List.length_pos_of_ne_nil h.data.fields
  simp only [behindOwner, List.length_append, List.length_cons, List.length_nil] at hlen
  omega

theorem tokens_eq (e : RecordLine) : e.tokens = e.owner.toList ++ e.behindOwner := rfl

theorem WellFormed.class_spells (h : e.WellFormed) {c : Text} (hc : c ∈ e.rclass) :
    SpeltAs (toAsciiLowercase c) c ∧ toAsciiLowercase c ∈ classNames :=
  ⟨⟨rfl, (classNames_spec _ (h.rclass c hc)).1⟩, h.rclass c hc⟩

theorem WellFormed.type_spells (h : e.WellFormed) : SpeltAs (mnemonic e.data.rtype) e.rtype :=
  ⟨h.rtype, (mnemonic_spec _ h.data.documented).1⟩

/-- No dollar sign stands in front of a time. -/
theorem head_of_ttlMeans {t : Text} {n : UInt32} (h : TtlMeans t n) : t.head? ≠ some '$' := by
  have number {t : Text} {n : UInt32} (h : parseU32 t = some n) : t ≠ [] ∧ t.head? ≠ some '$' := by
    obtain ⟨v, hv⟩ := parseU32_eq_some h
    obtain ⟨hne, hall⟩ := parseUnsigned_digits hv
    obtain ⟨d, ds, hds⟩ := List.exists_cons_of_ne_nil hne
    have hd : d.isDigit := List.all_eq_true.mp hall d (by rw [hds]; exact List.mem_cons_self)
    rcases unsignedDigits_eq t with ht | ht
    · rw [ht, hds]
      refine ⟨List.cons_ne_nil _ _, fun hdollar => ?_⟩
      rw [Option.some.inj hdollar] at hd
      exact absurd hd (by decide)
    · rw [ht]
      exact ⟨List.cons_ne_nil _ _, fun hdollar => absurd (Option.some.inj hdollar) (by decide)⟩
  rcases h with h | ⟨digits, c, unit, v, rfl, -, hv, -⟩
  · exact (number h).2
  · obtain ⟨hne, hhead⟩ := number hv
    rwa [List.head?_append_of_ne_nil _ hne]

/-- The first field of an entry is no directive. -/
theorem WellFormed.head_ne (h : e.WellFormed) {t : Text} {fields : List Text} (ht : e.tokens = t :: fields) :
    t.head? ≠ some '$' := by
  have htype : e.rtype.head? ≠ some '$' := h.type_spells.head_ne (mnemonic_spec _ h.data.documented).2
  obtain ⟨owner, ttl, rclass, rtype, data⟩ := e
  cases owner with
  | some o => rw [← (List.cons.inj ht).1]; exact (h.owner o rfl).2
  | none =>
    cases ttl with
    | some u =>
      rw [← (List.cons.inj ht).1]
      obtain ⟨n, hn⟩ := h.ttl u rfl
      exact head_of_ttlMeans hn
    | none =>
      cases rclass with
      | some c =>
        rw [← (List.cons.inj ht).1]
        obtain ⟨hspelt, hc⟩ := h.class_spells (c := c) rfl
        exact hspelt.head_ne (classNames_spec _ hc).2.1
      | none => rw [← (List.cons.inj ht).1]; exact htype

/-- Spelled clearly, the field behind the owner is the TTL or there is none. -/
theorem ttlField_behindOwner (h : e.WellFormed) (hbuilt : e.data.rtype ∈ fileTypes)
    (hunit : e.ttl = none → ∀ t ∈ (e.rclass.toList ++ [e.rtype]).head?, t.getLast?.bind ttlUnit = none)
    (defaultTtl : UInt32) :
    (ttlField defaultTtl e.behindOwner).2 = e.rclass.toList ++ e.rtype :: e.data.fields ∧
    (match e.ttl with
      | some t => TtlMeans t (ttlField defaultTtl e.behindOwner).1
      | none => (ttlField defaultTtl e.behindOwner).1 = defaultTtl) := by
  have htype : parseU32 e.rtype = none := h.type_spells.parseU32 (mnemonic_built _ hbuilt).2
  have none_of {t : Text} {rest : List Text} (hp : parseU32 t = none) (hu : t.getLast?.bind ttlUnit = none) :
      ttlField defaultTtl (t :: rest) = (defaultTtl, t :: rest) := by
    simp [ttlField, hp, hu]
  rw [behindOwner]
  cases httl : e.ttl with
  | some t =>
    obtain ⟨n, hn⟩ := h.ttl t httl
    rw [Option.toList_some, List.singleton_append, ttlField_means defaultTtl _ hn]
    exact ⟨rfl, hn⟩
  | none =>
    rw [Option.toList_none, List.nil_append]
    cases hclass : e.rclass with
    | some c =>
      obtain ⟨hspelt, hname⟩ := h.class_spells hclass
      have hlast := hunit httl c (by rw [hclass]; rfl)
      rw [Option.toList_some, List.singleton_append,
        none_of (hspelt.parseU32 (classNames_spec _ hname).2.2.2) hlast]
      exact ⟨rfl, rfl⟩
    | none =>
      have hlast := hunit httl e.rtype (by rw [hclass]; rfl)
      rw [Option.toList_none, List.nil_append, none_of htype hlast]
      exact ⟨rfl, rfl⟩

theorem classField_behindTtl (h : e.WellFormed) (hbuilt : e.data.rtype ∈ fileTypes) :
    classField (e.rclass.toList ++ e.rtype :: e.data.fields) = e.rtype :: e.data.fields := by
  cases hclass : e.rclass with
  | some c =>
    obtain ⟨hspelt, hname⟩ := h.class_spells hclass
    rw [Option.toList_some, List.singleton_append, classField, hspelt.isClass_eq, (classNames_spec _ hname).2.2.1,
      if_pos rfl]
  | none =>
    rw [Option.toList_none, List.nil_append, classField, h.type_spells.isClass_eq, (mnemonic_built _ hbuilt).1,
      if_neg Bool.false_ne_true]

/-- The fields behind the owner, spelled clearly, are read as the entry's. -/
theorem recordFields_behindOwner (h : e.WellFormed) (hc : e.Clear) {origin : Text} (ho : Dotted origin)
    (hlow : toAsciiLowercase origin = origin) (name : Text) (defaultTtl : UInt32) :
    ∃ r, recordFields origin name defaultTtl e.behindOwner = .ok (name, some r) ∧ r.name = name ∧
      (match e.ttl with
        | some t => TtlMeans t r.ttl
        | none => r.ttl = defaultTtl) ∧
      r.rtype = e.data.rtype ∧ e.data.Means origin r.rdata := by
  obtain ⟨b, hb⟩ := h.data.means origin
  obtain ⟨hfields, httl⟩ := ttlField_behindOwner h hc.data.built hc.unit defaultTtl
  have htype : strToRtype (toUppercase e.rtype) = e.data.rtype := by
    rw [h.type_spells.upper, strToRtype_mnemonic hc.data.built]
  obtain ⟨t, ts, hdata⟩ := List.exists_cons_of_ne_nil h.data.fields
  have hbuild := Data.buildRdata_means h.data hc.data ho hlow htype hb
  have hclass := classField_behindTtl h hc.data.built
  rw [hdata] at hbuild hclass hfields
  refine ⟨⟨name, e.data.rtype, CLASS_IN, (ttlField defaultTtl e.behindOwner).1, b⟩, ?_, rfl, httl, rfl, hb⟩
  simp only [recordFields, hfields, hclass, hbuild, htype]

/-- An entry spelled clearly is read right. -/
theorem Clear.readRight (hc : e.Clear) (hw : e.WellFormed) {line : Text} (hline : e.WrittenAs line) :
    e.ReadRight line := by
  obtain ⟨t, fields, htokens, hfields⟩ := hline
  intro s hs
  rw [loadLine_record hs hfields (hw.head_ne htokens)]
  have read (name : Text) := recordFields_behindOwner hw hc hs.origin hs.lower name s.defaultTtl
  rw [tokens_eq] at htokens
  cases howner : e.owner with
  | some o =>
    obtain ⟨htype, hclass⟩ := hc.owner o howner
    obtain ⟨r, hr, hname, httl, hrtype, hmeans⟩ := read (ownerName o s.origin)
    rw [howner, Option.toList_some, List.singleton_append] at htokens
    obtain ⟨rfl, rfl⟩ := List.cons.inj htokens
    refine ⟨r, ?_, by rw [hname]; exact labelsOf_ownerName hs.lower, httl, hrtype, hmeans⟩
    rw [parseRecord_eq e.behindOwner_ne_nil, htype, hclass, Option.isNone_some, Bool.not_false, Bool.and_self,
      Bool.and_self, if_pos rfl, hr, hname]
    rfl
  | none =>
    obtain ⟨r, hr, hname, httl, hrtype, hmeans⟩ := read s.lastName
    rw [howner, Option.toList_none, List.nil_append] at htokens
    refine ⟨r, ?_, by rw [hname], httl, hrtype, hmeans⟩
    rw [parseRecord_eq (hw.fields_ne_nil htokens), ← htokens]
    simp only [Option.isNone_none, Bool.not_true, Bool.false_and, Bool.false_eq_true, if_false, hr, hname]
    rfl

/-! What a line that is read right is like. -/

/-- A fresh loader, in a file of the origin "x". -/
def fresh (defaultTtl : UInt32) (lastName : Text) : LoadState :=
  ⟨Zone.new ['x'], defaultTtl, ['x'], lastName, [], 0⟩

theorem dotted_x : Dotted ['x'] :=
  ⟨[['x']], fun l hl => by rw [List.mem_singleton.mp hl]; exact ⟨by decide, by decide, by decide⟩, rfl⟩

theorem dotted_root : Dotted [] := ⟨[], fun _ h => absurd h List.not_mem_nil, rfl⟩

theorem between_fresh (defaultTtl : UInt32) {lastName : Text} (hlast : Dotted lastName)
    (hlow : toAsciiLowercase lastName = lastName) : Between (fresh defaultTtl lastName) where
  pending := rfl
  openParentheses := rfl
  zone := rfl
  origin := dotted_x
  lower := rfl
  lastName := hlast
  lastLower := hlow

/-- In a fresh loader the record entered is the line's. -/
theorem ReadRight.parsed (h : e.ReadRight line) (hw : e.WellFormed) {t : Text} {fields : List Text}
    (htokens : e.tokens = t :: fields) (hfields : FieldLine e.owner.isNone t fields line) (defaultTtl : UInt32)
    {lastName : Text} (hlast : Dotted lastName) (hlow : toAsciiLowercase lastName = lastName) :
    ∃ r, parseRecord ['x'] lastName defaultTtl e.owner.isNone (t :: fields) = .ok (r.name, some r) ∧
      zoneLabels r.name = (match e.owner with
        | some o => completed o ['x']
        | none => zoneLabels lastName) ∧
      (match e.ttl with
        | some t => TtlMeans t r.ttl
        | none => r.ttl = defaultTtl) ∧
      r.rtype = e.data.rtype ∧ e.data.Means ['x'] r.rdata := by
  have hs := between_fresh defaultTtl hlast hlow
  obtain ⟨r, hload, hrest⟩ := h _ hs
  refine ⟨r, ?_, hrest⟩
  rw [loadLine_record hs hfields (hw.head_ne htokens)] at hload
  cases hparse : parseRecord ['x'] lastName defaultTtl e.owner.isNone (t :: fields) with
  | error err => rw [fresh, hparse] at hload; cases hload
  | ok parsed =>
  obtain ⟨last, out⟩ := parsed
  rw [fresh, hparse] at hload
  have hstate := Except.ok.inj hload
  have hzone : out.toList.foldl Zone.add (Zone.new ['x']) = (Zone.new ['x']).add r := congrArg LoadState.zone hstate
  have hname : last = r.name := congrArg LoadState.lastName hstate
  have hholds : ((Zone.new ['x']).add r).Holds r :=
    ⟨_, _, AList.lookup_insert _, List.mem_append_right _ (List.mem_singleton_self r)⟩
  rw [← hzone] at hholds
  cases out with
  | none => exact absurd hholds (Zone.not_holds_new _ _)
  | some r' =>
    have hr : r = r' := (Zone.holds_add hholds).resolve_right (Zone.not_holds_new _ _)
    rw [← hname, hr]

/-- An owner spelled as a type or a class is taken for one, and the record has whatever owner came before. -/
theorem ReadRight.owner_clear (h : e.ReadRight line) (hw : e.WellFormed) (hline : e.WrittenAs line) :
    ∀ o ∈ e.owner, isType o = false ∧ isClass o = false := by
  obtain ⟨t, fields, htokens, hfields⟩ := hline
  intro o ho
  have htoken := htokens
  rw [tokens_eq, ho, Option.toList_some, List.singleton_append] at htoken
  obtain ⟨rfl, rfl⟩ := List.cons.inj htoken
  by_contra hclear
  have hnamed : (!e.owner.isNone && !isType o && !isClass o) = false := by
    cases htype : isType o <;> cases hclass : isClass o <;> simp_all
  have labels {lastName : Text} (hlast : Dotted lastName) (hlow : toAsciiLowercase lastName = lastName) :
      zoneLabels lastName = completed o ['x'] := by
    obtain ⟨r, hparse, hlabels, -⟩ := h.parsed hw htokens hfields 0 hlast hlow
    rw [parseRecord_eq e.behindOwner_ne_nil, hnamed, if_neg Bool.false_ne_true] at hparse
    rw [ho, (recordFields_ok hparse).1] at hlabels
    exact hlabels
  have hroot := labels dotted_root rfl
  rw [← labels dotted_x rfl] at hroot
  exact absurd hroot (by decide)

/-- What is read behind an owner that is clear. -/
theorem ReadRight.fields (h : e.ReadRight line) (hw : e.WellFormed) (hline : e.WrittenAs line) (defaultTtl : UInt32) :
    ∃ name r, recordFields ['x'] name defaultTtl e.behindOwner = .ok (name, some r) ∧
      (match e.ttl with
        | some t => TtlMeans t r.ttl
        | none => r.ttl = defaultTtl) ∧
      r.rtype = e.data.rtype ∧ e.data.Means ['x'] r.rdata := by
  have hclear := h.owner_clear hw hline
  obtain ⟨t, fields, htokens, hfields⟩ := hline
  obtain ⟨r, hparse, -, hrest⟩ := h.parsed hw htokens hfields defaultTtl dotted_root rfl
  rw [tokens_eq] at htokens
  cases howner : e.owner with
  | some o =>
    obtain ⟨htype, hclass⟩ := hclear o howner
    rw [howner, Option.toList_some, List.singleton_append] at htokens
    obtain ⟨rfl, rfl⟩ := List.cons.inj htokens
    rw [howner, parseRecord_eq e.behindOwner_ne_nil, htype, hclass, Option.isNone_some, Bool.not_false, Bool.and_self,
      Bool.and_self, if_pos rfl] at hparse
    exact ⟨_, r, by rw [hparse, (recordFields_ok hparse).1], hrest⟩
  | none =>
    rw [howner, Option.toList_none, List.nil_append] at htokens
    rw [howner, parseRecord_eq (hw.fields_ne_nil htokens)] at hparse
    simp only [Option.isNone_none, Bool.not_true, Bool.false_and, Bool.false_eq_true, if_false, ← htokens] at hparse
    exact ⟨_, r, by rw [hparse, (recordFields_ok hparse).1], hrest⟩

/-- Without a TTL, a field that ends in a unit is taken for one, whatever the default. -/
theorem ReadRight.unit_clear (h : e.ReadRight line) (hw : e.WellFormed) (hline : e.WrittenAs line) (hnone : e.ttl = none) :
    ∀ t ∈ (e.rclass.toList ++ [e.rtype]).head?, t.getLast?.bind ttlUnit = none := by
  intro t ht
  by_contra hunit
  have hsome := Option.isSome_iff_ne_none.mpr hunit
  have hhead : e.behindOwner.head? = some t := by
    rw [behindOwner, hnone, Option.toList_none, List.nil_append, ← ht]
    cases e.rclass <;> rfl
  obtain ⟨rest, hrest⟩ := List.head?_eq_some_iff.mp hhead
  obtain ⟨name, r, hfields, httl, -⟩ := h.fields hw hline (parseTtl t + 1)
  have hread : (ttlField (parseTtl t + 1) e.behindOwner).1 = parseTtl t := by
    rw [hrest]
    simp only [ttlField, parseU32_of_ttlUnit hsome, hsome, if_true]
  rw [hnone] at httl
  have heq := ((recordFields_ok hfields).2 r rfl).1
  rw [hread, httl] at heq
  exact absurd (UInt32.add_eq_left.mp heq) (by decide)

theorem WrittenAs.isField (h : e.WrittenAs line) : ∀ t ∈ e.tokens, IsField t := by
  obtain ⟨t, fields, htokens, hfields⟩ := h
  obtain ⟨_, _, _, _, _, _, hspaced, _⟩ := hfields.spaced
  rw [htokens]
  exact List.forall_mem_cons.mpr ⟨hfields.field, hspaced.isField⟩

theorem ReadRight.data_plain (h : e.ReadRight line) (hw : e.WellFormed) (hline : e.WrittenAs line) : e.data.Plain := by
  obtain ⟨name, r, hread, -, hrtype, hmeans⟩ := h.fields hw hline 0
  have hbuilt : e.data.rtype ∈ fileTypes := hrtype ▸ ((recordFields_ok hread).2 r rfl).2
  have htype : strToRtype (toUppercase e.rtype) = e.data.rtype := by
    rw [hw.type_spells.upper, strToRtype_mnemonic hbuilt]
  have hfields := (ttlField_behindOwner hw hbuilt (h.unit_clear hw hline) 0).1
  have hclass := classField_behindTtl hw hbuilt
  have htokens : ∀ t ∈ e.data.fields, t ≠ [] := by
    intro t ht
    refine (hline.isField t ?_).1
    simp only [tokens, List.mem_append, List.mem_cons]
    exact .inr (.inr (.inr (.inr ht)))
  obtain ⟨t, ts, hdata⟩ := List.exists_cons_of_ne_nil hw.data.fields
  have hbuild : buildRdata (toUppercase e.rtype) e.data.fields ['x'] = .ok (some r.rdata) := by
    rw [hdata] at hclass hfields ⊢
    simp only [recordFields, hfields, hclass] at hread
    split at hread
    · cases hread
    · cases hread
    · next hb => cases hread; exact hb
  exact Data.plain_of_buildRdata hw.data hbuilt htokens htype hbuild hmeans

/-- **Which record lines mean what they say.** A line of the documented form is read as the record it says,
    in every file and behind whatever came before it, exactly when it is spelled clearly. -/
theorem loadLine_reads_iff (e : RecordLine) (line : Text) (hw : e.WellFormed) (hline : e.WrittenAs line) :
    e.ReadRight line ↔ e.Clear := by
  refine ⟨fun h => ?_, fun hc => hc.readRight hw hline⟩
  exact ⟨h.owner_clear hw hline, h.unit_clear hw hline, h.data_plain hw hline⟩

/-- An address with an owner, a time of one hour and its class. -/
def hostLine : RecordLine := ⟨some ['w'], some ['1', 'h'], some ['I', 'N'], ['A'], .a "192.0.2.1".toList⟩

/-- An address of a host whose name is spelled as a type. -/
def nsLine : RecordLine := ⟨some ['n', 's'], none, none, ['A'], .a "192.0.2.1".toList⟩

theorem wellFormed_address : (Data.a "192.0.2.1".toList).WellFormed where
  means := fun _ => ⟨[192, 0, 2, 1], show parseWith readIpv4 "192.0.2.1".toList = _ by decide⟩
  names := fun _ h => absurd h List.not_mem_nil
  fields := List.cons_ne_nil _ _
  target := by intro _ _ h; cases h
  ds := by intro _ _ _ _ h; cases h
  dnskey := by intro _ _ _ _ h; cases h
  unbuilt := by intro _ _ h; cases h

theorem nameField_label {l : Text} (h : IsLabel l) : NameField l := by
  have hjoined := NameField.relative (List.cons_ne_nil l []) fun l' hl' => by rw [List.mem_singleton.mp hl']; exact h
  rwa [List.intercalate_singleton] at hjoined

theorem wellFormed_hostLine : hostLine.WellFormed where
  owner := fun o ho => by
    obtain rfl := Option.mem_some_iff.mp ho
    exact ⟨nameField_label ⟨by decide, by decide, by decide⟩, by decide⟩
  ttl := fun t ht => by
    obtain rfl := Option.mem_some_iff.mp ht
    exact ⟨3600, .inr ⟨['1'], 'h', 3600, 1, rfl, rfl, by decide, rfl⟩⟩
  rclass := fun c hc => by
    obtain rfl := Option.mem_some_iff.mp hc
    decide
  rtype := rfl
  data := wellFormed_address
  plain := by decide

theorem wellFormed_nsLine : nsLine.WellFormed where
  owner := fun o ho => by
    obtain rfl := Option.mem_some_iff.mp ho
    exact ⟨nameField_label ⟨by decide, by decide, by decide⟩, by decide⟩
  ttl := by intro _ h; cases h
  rclass := by intro _ h; cases h
  rtype := rfl
  data := wellFormed_address
  plain := by decide

def hostText : Text := "w 1h IN A 192.0.2.1".toList

theorem hostLine_written : hostLine.WrittenAs hostText :=
  ⟨['w'], [['1', 'h'], ['I', 'N'], ['A'], "192.0.2.1".toList], rfl, fieldLine_spaced (by decide) (by decide)⟩

theorem hostLine_reads : hostLine.ReadRight hostText ↔ hostLine.Clear :=
  loadLine_reads_iff hostLine hostText wellFormed_hostLine hostLine_written

def nsText : Text := "ns A 192.0.2.1".toList

/-- The address goes to the apex, the owner before it. -/
theorem nsLine_misread : nsLine.WellFormed ∧ nsLine.WrittenAs nsText ∧ ¬ nsLine.ReadRight nsText ∧
    ((Zone.new ['x']).loadFile nsText).toOption.map (fun z => z.names.keys) = some [['x']] := by
  have hline : nsLine.WrittenAs nsText :=
    ⟨['n', 's'], [['A'], "192.0.2.1".toList], rfl, fieldLine_spaced (by decide) (by decide)⟩
  refine ⟨wellFormed_nsLine, hline, fun h => ?_, by decide⟩
  exact absurd (h.owner_clear wellFormed_nsLine hline ['n', 's'] rfl).1 (by decide)

end RecordLine

end Ironbind
