import Ironbind.Escapes

/- Escapes in records. The loader takes the owner, the names and the strings of a record
   from fields of its lines as they stand. `escapes_decoded_iff`: they are what the fields
   stand for exactly when no field of them has a backslash in it. -/
namespace Ironbind
open Codec

/-! The fields that are text. -/

/-- The field that the loader takes for the owner. -/
def ownerField (blank : Bool) (fields : List Text) : Option Text :=
  if !blank && !isType (fields.headD []) && !isClass (fields.headD []) then fields.head? else none

/-- The type of the record. -/
def typeOfFields (blank : Bool) (fields : List Text) : RType :=
  strToRtype (toUppercase ((fieldsFromType (fieldsBehindOwner blank fields)).headD []))

def dataFields (blank : Bool) (fields : List Text) : List Text := (fieldsFromType (fieldsBehindOwner blank fields)).tail

/-- The names among the data of a type. -/
def nameFields (rtype : RType) (data : List Text) : List Text :=
  match rtype with
  | .NS | .CNAME | .PTR => data.take 1
  | .MX => (data.drop 1).take 1
  | .SRV => (data.drop 3).take 1
  | .SOA => data.take 2
  | _ => []

/-- How many octets stand in front of the names. -/
def nameOffset : RType → Nat
  | .MX => 2
  | .SRV => 6
  | _ => 0

/-- How the names of the data are encoded. -/
def nameCodec : RType → Text → Bytes
  | .NS | .CNAME | .PTR => encodeName
  | _ => Builder.name

/-- The strings of the data, which are those of a TXT record. -/
def stringFields (rtype : RType) (data : List Text) : List Text :=
  match rtype with
  | .TXT => data
  | _ => []

/-- Every field of them stands for a name or a string, and no name of the data is "@.". -/
structure TextFormed (blank : Bool) (fields : List Text) : Prop where
  owner : ∀ o ∈ ownerField blank fields, ∃ labels relative, NameDenotes o labels relative
  names : ∀ n ∈ nameFields (typeOfFields blank fields) (dataFields blank fields), n ≠ ['@', '.'] ∧
    ∃ labels relative, NameDenotes n labels relative
  strings : ∀ t ∈ stringFields (typeOfFields blank fields) (dataFields blank fields), ∃ b, StringDenotes t b

/-- The record's owner, names and strings are those that the fields stand for. -/
structure EscapesDecoded (origin : Text) (blank : Bool) (fields : List Text) (r : Record) : Prop where
  owner : ∀ o ∈ ownerField blank fields, NameOf Builder.name origin o (Builder.name r.name)
  names : ∃ wires, List.Forall₂ (NameOf (nameCodec r.rtype) origin) (nameFields r.rtype (dataFields blank fields)) wires ∧
    wires.flatten <+: r.rdata.drop (nameOffset r.rtype)
  strings : r.rtype = .TXT → StringsOf (dataFields blank fields) r.rdata

/-- No backslash in the owner, a name or a string. -/
structure NoEscapes (blank : Bool) (fields : List Text) : Prop where
  owner : ∀ o ∈ ownerField blank fields, '\\' ∉ o
  names : ∀ n ∈ nameFields (typeOfFields blank fields) (dataFields blank fields), '\\' ∉ n
  strings : ∀ t ∈ stringFields (typeOfFields blank fields) (dataFields blank fields), '\\' ∉ t

/-! How a record is read from its fields. -/

theorem nameCodec_encoder (rtype : RType) : ∃ stretches, NameEncoder (nameCodec rtype) stretches := by
  unfold nameCodec
  split
  · exact ⟨_, canonicalEncoder⟩
  · exact ⟨_, canonicalEncoder⟩
  · exact ⟨_, canonicalEncoder⟩
  · exact ⟨_, builderEncoder⟩

section
variable {blank : Bool} {init fields data : List Text} {last last' rtype origin lastName : Text} {d : UInt32}
  {rdata : Bytes}

/-- The names of the data, one behind the other. -/
theorem buildRdata_names (h : buildRdata rtype data origin = .ok (some rdata)) (hne : data ≠ []) :
    ∃ tail, rdata.drop (nameOffset (strToRtype rtype)) =
      (nameFields (strToRtype rtype) data).flatMap (fun n => nameCodec (strToRtype rtype) (fqdn n origin)) ++ tail := by
  obtain ⟨first, rest, rfl⟩ := List.exists_cons_of_ne_nil hne
  have hcanonical : some (encodeName (fqdn first origin)) = some rdata →
      ∃ tail, rdata.drop 0 = ([first].flatMap fun n => encodeName (fqdn n origin)) ++ tail := by
    intro he
    obtain rfl := Option.some.inj he
    exact ⟨[], by simp⟩
  unfold buildRdata at h
  cases hr : strToRtype rtype <;> rw [hr] at h <;> dsimp only at h
  case NS => exact hcanonical (Except.ok.inj h)
  case CNAME => exact hcanonical (Except.ok.inj h)
  case PTR => exact hcanonical (Except.ok.inj h)
  case MX =>
    unfold mxRdata at h
    split at h
    · cases h
    · split at h
      · cases h
      · next exchange hexchange =>
        cases h
        obtain ⟨second, rest, rfl⟩ : ∃ second more, rest = second :: more := by
          cases rest with
          | nil => cases hexchange
          | cons second more => exact ⟨second, more, rfl⟩
        obtain rfl := Option.some.inj hexchange
        exact ⟨[], by simp [nameOffset, nameFields, nameCodec, Builder.u16, be16]⟩
  case SOA =>
    have h := Except.ok.inj h
    unfold soaRdata at h
    split at h
    · next mname rname serial refresh retry expire minimum more heq =>
      obtain ⟨n, -, h⟩ := Option.bind_eq_some_iff.mp h
      obtain rfl := Option.some.inj h
      rw [heq]
      exact ⟨_, by simp only [nameOffset, nameFields, nameCodec, List.drop_zero, List.take_succ_cons, List.take_zero,
        List.flatMap_cons, List.flatMap_nil, List.append_assoc, List.append_nil]; rfl⟩
    · cases h
  case SRV =>
    have h := Except.ok.inj h
    unfold srvRdata at h
    split at h
    · next priority weight port target more heq =>
      obtain ⟨a, -, h⟩ := Option.bind_eq_some_iff.mp h
      obtain ⟨b, -, h⟩ := Option.bind_eq_some_iff.mp h
      obtain ⟨c, -, h⟩ := Option.bind_eq_some_iff.mp h
      obtain rfl := Option.some.inj h
      rw [heq]
      exact ⟨[], by simp [nameOffset, nameFields, nameCodec, Builder.u16, be16]⟩
    · cases h
  all_goals exact ⟨rdata, by simp [nameOffset, nameFields]⟩

theorem fieldsFromType_suffix (blank : Bool) (fields : List Text) :
    fieldsFromType (fieldsBehindOwner blank fields) <:+ fields := by
  have hbehind : fieldsBehindOwner blank fields <:+ fields := by
    unfold fieldsBehindOwner
    split
    · exact List.nil_suffix
    · split
      · exact List.tail_suffix _
      · exact List.suffix_rfl
  have hclass : ∀ fs : List Text, classField fs <:+ fs := by
    intro fs
    cases fs with
    | nil => exact List.suffix_rfl
    | cons c fs =>
      rw [classField]
      split
      · exact List.suffix_cons c fs
      · exact List.suffix_rfl
  have httl : ∀ fs : List Text, (ttlField 0 fs).2 <:+ fs := by
    intro fs
    cases fs with
    | nil => exact List.suffix_rfl
    | cons t fs =>
      rw [ttlField]
      split
      · exact List.suffix_cons t fs
      · split
        · exact List.suffix_cons t fs
        · exact List.suffix_rfl
  exact ((hclass _).trans (httl _)).trans hbehind

/-- The data of a record end in its last field, which is read with its blank or without. -/
theorem fields_cut (hcut : CutOf last last') (hne : init ≠ [])
    (h : fieldsFromType (fieldsBehindOwner blank (init ++ [last'])) = rtype :: data) (hdata : data ≠ []) :
    ∃ front, data = front ++ [last'] ∧ fieldsFromType (fieldsBehindOwner blank (init ++ [last])) =
      rtype :: (front ++ [last]) := by
  obtain ⟨pre, hpre⟩ := fieldsFromType_suffix blank (init ++ [last'])
  obtain ⟨front, t, rfl⟩ : ∃ front t, data = front ++ [t] := ⟨_, _, (List.dropLast_append_getLast hdata).symm⟩
  obtain rfl : t = last' := by
    rw [h, ← List.cons_append, ← List.append_assoc] at hpre
    exact (List.cons.inj (List.append_inj' hpre rfl).2).1
  refine ⟨front, rfl, ?_⟩
  obtain rfl | ⟨g, w, hw, rfl, rfl⟩ := hcut
  · exact h
  · obtain ⟨_, _, fields, hfields⟩ := parseRecord_slashed [] [] 0 blank hne
    rw [(hfields _ (slashed_cut g)).1, ← List.cons_append] at h
    rw [(hfields _ (slashed_blank hw)).1, List.append_cancel_right h]
    rfl

/-- What a record that is stored is made of. -/
theorem parseRecord_stored {name : Text} {r : Record} (hcut : CutOf last last')
    (h : parseRecord origin lastName d blank (init ++ [last']) = .ok (name, some r)) :
    ∃ rtype front, fieldsFromType (fieldsBehindOwner blank (init ++ [last])) = rtype :: (front ++ [last]) ∧
      buildRdata (toUppercase rtype) (front ++ [last']) origin = .ok (some r.rdata) ∧
      r.rtype = strToRtype (toUppercase rtype) ∧
      r.name = (ownerField blank (init ++ [last])).elim lastName fun o => ownerName o origin := by
  have hne : init ≠ [] := by
    rintro rfl
    cases h
  obtain ⟨first, rest, rfl⟩ := List.exists_cons_of_ne_nil hne
  obtain ⟨second, more, hmore⟩ := List.exists_cons_of_ne_nil (show rest ++ [last'] ≠ [] by simp)
  rw [List.cons_append, hmore, parseRecord_fields, ← hmore, ← List.cons_append] at h
  dsimp only at h
  have hname : (ownerField blank (first :: rest ++ [last])).elim lastName (fun o => ownerName o origin) =
      if !blank && !isType first && !isClass first then ownerName first origin else lastName := by
    rw [ownerField, List.cons_append, List.headD_cons, List.head?_cons]
    split <;> rfl
  -- the owner is that of the line with the blank, and the fields from the type on end as it does
  cases hfields : fieldsFromType (fieldsBehindOwner blank (first :: rest ++ [last'])) with
  | nil => rw [hfields] at h; cases h
  | cons rtype data =>
    cases data with
    | nil => rw [hfields] at h; cases h
    | cons t data =>
      obtain ⟨front, hfront, htype⟩ := fields_cut hcut hne hfields (List.cons_ne_nil t data)
      rw [hfields, recordOfFields, hfront] at h
      · cases hbuild : buildRdata (toUppercase rtype) (front ++ [last']) origin with
        | error e => rw [hbuild] at h; cases h
        | ok rdata =>
          cases rdata with
          | none => rw [hbuild] at h; cases h
          | some rdata =>
            rw [hbuild] at h
            cases h
            exact ⟨rtype, front, htype, hbuild, rfl, hname.symm⟩
      · intro h
        cases h

end

section
variable {blank : Bool} {fields : List Text} {ls : List LaidLine} {ctx ctx' : LineContext} {r : Record} {init : List Text}
  {last : Text}

theorem Broken.laid (h : Broken blank (init ++ [last]) ls) :
    ∃ balance, LineLaid isSeparator (init ++ [last]) balance (LaidLine.joined ls) := by
  cases ls with
  | nil => exact absurd h.grouped (fun hg => hg)
  | cons l rest =>
    rw [← h.fields]
    exact LaidLine.joined_laid l rest

/-- The last field is read as it is or without the blank of an escape. -/
theorem Broken.tokens (hd : (init ++ [last]).head?.bind List.head? ≠ some '$') (h : Broken blank (init ++ [last]) ls) :
    ∃ last', CutOf last last' ∧ ∀ ctx, readText ctx (LaidLine.joined ls) =
      (parseRecord ctx.origin ctx.lastName ctx.defaultTtl blank (init ++ [last'])).map
        fun out => ({ ctx with lastName := out.1 }, out.2) := by
  have htexts := h.texts hd
  obtain ⟨balance, hlaid⟩ := h.laid
  by_cases hb : EndsInBlank last ∧ ¬ EndsInParenthesis (LaidLine.joined ls)
  · obtain ⟨g, w, rfl, hw⟩ | ⟨he, -⟩ := escaped_blank (hlaid.scanned last (by simp)).2 hb.1
    · refine ⟨g ++ ['\\'], .inr ⟨g, w, hw, rfl, rfl⟩, fun ctx => ?_⟩
      rw [htexts.read, htexts.tokens, if_pos hb, dropLast_blank]
    · cases he
  · refine ⟨last, .inl rfl, fun ctx => ?_⟩
    rw [htexts.read, htexts.tokens, if_neg hb]

theorem forall₂_cut {last' : Text} (hcut : CutOf last last') : ∀ front : List Text,
    List.Forall₂ CutOf (front ++ [last]) (front ++ [last'])
  | [] => .cons hcut .nil
  | _ :: front => .cons (.inl rfl) (forall₂_cut hcut front)

theorem forall₂_eq_self {names names' : List Text} (h : List.Forall₂ CutOf names names') (hs : ∀ n ∈ names, '\\' ∉ n) :
    names' = names := by
  induction h with
  | nil => rfl
  | cons hcut _ ih =>
    obtain ⟨hn, hs⟩ := List.forall_mem_cons.mp hs
    rw [hcut.eq_self hn, ih hs]

theorem nameFields_cut {data data' : List Text} (rtype : RType) (h : List.Forall₂ CutOf data data') :
    List.Forall₂ CutOf (nameFields rtype data) (nameFields rtype data') := by
  unfold nameFields
  split
  all_goals first | exact .nil | exact List.forall₂_take _ h | exact List.forall₂_take _ (List.forall₂_drop _ h)

/-- **Escapes in records.** The owner, the names and the strings of a record that is stored are those
    that its fields stand for exactly when there is no backslash in them. -/
theorem escapes_decoded_iff (hd : (init ++ [last]).head?.bind List.head? ≠ some '$')
    (hb : Broken blank (init ++ [last]) ls)
    (hread : readText ctx (LaidLine.joined ls) = .ok (ctx', some r)) (hw : TextFormed blank (init ++ [last])) :
    EscapesDecoded ctx.origin blank (init ++ [last]) r ↔ NoEscapes blank (init ++ [last]) := by
  obtain ⟨last', hcut, htokens⟩ := hb.tokens hd
  rw [htokens] at hread
  obtain ⟨out, hparse, hout⟩ :
      ∃ out, parseRecord ctx.origin ctx.lastName ctx.defaultTtl blank (init ++ [last']) = .ok out ∧
      out.2 = some r := by
    cases hp : parseRecord ctx.origin ctx.lastName ctx.defaultTtl blank (init ++ [last']) with
    | error e => rw [hp] at hread; cases hread
    | ok out =>
      rw [hp] at hread
      exact ⟨out, rfl, congrArg Prod.snd (Except.ok.inj hread)⟩
  obtain ⟨name, stored⟩ := out
  obtain rfl : stored = some r := hout
  obtain ⟨rtype, front, htype, hbuild, hr, helim⟩ := parseRecord_stored hcut hparse
  have hname : ∀ o ∈ ownerField blank (init ++ [last]), r.name = ownerName o ctx.origin := by
    intro o ho
    rw [helim, Option.mem_def.mp ho]
    rfl
  have hkind : typeOfFields blank (init ++ [last]) = r.rtype := by
    rw [typeOfFields, htype, hr]
    rfl
  have hdata : dataFields blank (init ++ [last]) = front ++ [last] := by
    rw [dataFields, htype]
    rfl
  obtain ⟨tail, htail⟩ := buildRdata_names hbuild (by simp)
  rw [← hr] at htail
  have htxt : r.rtype = .TXT → r.rdata = (front ++ [last']).flatMap txtField := by
    intro hkind
    rw [hkind] at hr
    simp only [buildRdata, ← hr, Except.ok.injEq, Option.some.injEq] at hbuild
    exact hbuild.symm
  obtain ⟨stretches, henc⟩ := nameCodec_encoder r.rtype
  constructor
  · intro h
    refine ⟨?_, ?_, ?_⟩
    · intro o ho hs
      have howner := h.owner o ho
      rw [hname o ho, slash_ownerName hs] at howner
      exact name_no_slash (x := []) (y := []) builderEncoder howner (.inl rfl) rfl hs
    · obtain ⟨wires, hwires, rest, hrest⟩ := h.names
      have hat := hw.names
      rw [hkind, hdata] at hat ⊢
      rw [hdata] at hwires
      rw [htail] at hrest
      exact names_no_slash henc (nameFields_cut r.rtype (forall₂_cut hcut front)) (fun n hn => (hat n hn).1)
        hwires hrest.symm
    · rw [hkind]
      intro t ht
      unfold stringFields at ht
      split at ht
      · next hkind' =>
        have hstrings := h.strings hkind'
        rw [hdata] at hstrings ht
        rw [htxt hkind'] at hstrings
        exact strings_no_slash hcut hstrings t ht
      · cases ht
  · intro h
    -- the last field of the data is a name or a string, or is none of them
    have hsame : nameFields r.rtype (front ++ [last']) = nameFields r.rtype (front ++ [last]) := by
      have hnames := h.names
      rw [hkind, hdata] at hnames
      exact forall₂_eq_self (nameFields_cut r.rtype (forall₂_cut hcut front)) hnames
    refine ⟨?_, ?_, ?_⟩
    · intro o ho
      obtain ⟨labels, relative, hdenotes⟩ := hw.owner o ho
      have hs := h.owner o ho
      rw [hname o ho]
      exact .of_plain builderEncoder hdenotes hs ctx.origin
    · have hnames := h.names
      have hdenotes := hw.names
      rw [hkind] at hnames hdenotes
      obtain ⟨wires, hwires, hflat⟩ := names_plain henc ctx.origin hdenotes hnames
      refine ⟨wires, hwires, tail, ?_⟩
      rw [htail, hflat, hsame, hdata]
    · intro hkind'
      have hstrings := h.strings
      have hdenotes := hw.strings
      rw [hkind, hkind', hdata] at hstrings hdenotes
      have hlast : last' = last := hcut.eq_self (hstrings last (by simp [stringFields]))
      rw [htxt hkind', hlast, hdata]
      exact strings_plain hdenotes hstrings

end

theorem labelDenotes_plain {p : Text} (hp : Stretch p) (hs : '\\' ∉ p) (hle : (utf8 p).length ≤ 63) :
    LabelDenotes p (utf8 p) :=
  ⟨.of_plain hp.no_dot hs, fun h => hp.ne_nil (utf8_eq_nil.mp h), hle⟩

theorem nameDenotes_label {p : Text} {l : Bytes} (h : LabelDenotes p l) (hat : p ≠ ['@']) : NameDenotes p [l] true := by
  have hone : List.Forall₂ LabelDenotes [p] [l] := .cons h .nil
  have hname := NameDenotes.relative (List.cons_ne_nil p []) (fun he => hat (List.cons.inj he).1) hone
  rwa [List.intercalate_singleton] at hname

/-- The strings of a record whose fields are the owner, the type and one in quotes. -/
theorem textFormed_quoted {owner rtype body : Text} {l b : Bytes} (ho : LabelDenotes owner l) (hat : owner ≠ ['@'])
    (hf : fieldsFromType (fieldsBehindOwner false [owner, rtype, quoted body]) = [rtype, quoted body])
    (ht : strToRtype (toUppercase rtype) = .TXT) (hb : Denotes '"' body b) :
    TextFormed false [owner, rtype, quoted body] where
  owner := by
    intro o h
    unfold ownerField at h
    split at h
    · obtain rfl := Option.some.inj h
      exact ⟨_, _, nameDenotes_label ho hat⟩
    · cases h
  names := by
    rw [typeOfFields, hf, List.headD_cons, ht]
    exact fun n hn => absurd hn List.not_mem_nil
  strings := by
    rw [typeOfFields, dataFields, hf, List.headD_cons, ht]
    intro t h
    obtain rfl := List.mem_singleton.mp h
    exact ⟨b, .quoted hb⟩

/-- A record over two lines, without escapes. -/
theorem brokenText_decoded : EscapesDecoded ['x'] false [['t'], ['T', 'X', 'T'], "\"a;(b\"".toList]
    ⟨['t', '.', 'x'], .TXT, CLASS_IN, 3600, [4, 97, 59, 40, 98]⟩ := by
  have hgrouped : LaidLine.Grouped 0 brokenText :=
    ⟨show (0 : Int) < 0 + 1 by decide, show (0 + 1 + -1 : Int) = 0 by decide⟩
  have hbroken : Broken false ([['t'], ['T', 'X', 'T']] ++ ["\"a;(b\"".toList]) brokenText := ⟨rfl, hgrouped, by decide⟩
  have hread : readText (.start ['x']) (LaidLine.joined brokenText) =
      .ok ({ LineContext.start ['x'] with lastName := ['t', '.', 'x'] },
        some ⟨['t', '.', 'x'], .TXT, CLASS_IN, 3600, [4, 97, 59, 40, 98]⟩) := rfl
  have howner : LabelDenotes ['t'] (utf8 ['t']) := labelDenotes_plain ⟨by decide, by decide⟩ (by decide) (by decide)
  have hbody : Denotes '"' "a;(b".toList (utf8 "a;(b".toList) := .of_plain (by decide) (by decide)
  have hformed : TextFormed false ([['t'], ['T', 'X', 'T']] ++ ["\"a;(b\"".toList]) :=
    textFormed_quoted howner (by decide) (by decide) (by decide) hbody
  refine (escapes_decoded_iff (by decide) hbroken hread hformed).mpr ⟨?_, ?_, ?_⟩
  · decide
  · decide
  · decide

def escapedFields : List Text := ["k\\.d".toList, ['T', 'X', 'T'], "\"a\\;b\"".toList]

def escapedRecord : Record := ⟨"k\\.d.x".toList, .TXT, CLASS_IN, 3600, [4, 97, 92, 59, 98]⟩

/-- An escaped dot in the owner and an escaped semicolon in the string. -/
theorem escapedRecord_kept : TextFormed false escapedFields ∧
    readText (.start ['x']) "k\\.d TXT \"a\\;b\"".toList =
      .ok ({ LineContext.start ['x'] with lastName := "k\\.d.x".toList }, some escapedRecord) ∧
    ¬ EscapesDecoded ['x'] false escapedFields escapedRecord := by
  refine ⟨?_, rfl, fun h => ?_⟩
  · have howner : Denotes '.' "k\\.d".toList [107, 46, 100] :=
      .plain (by decide) (by decide) (.escaped (by decide) (.plain (by decide) (by decide) .nil))
    have hbody : Denotes '"' "a\\;b".toList [97, 59, 98] :=
      .plain (by decide) (by decide) (.escaped (by decide) (.plain (by decide) (by decide) .nil))
    have hlabel : LabelDenotes "k\\.d".toList [107, 46, 100] := ⟨howner, List.cons_ne_nil _ _, by decide⟩
    exact textFormed_quoted hlabel (by decide) (by decide) (by decide) hbody
  · have hstrings : StringsOf ([] ++ ["\"a\\;b\"".toList]) (([] ++ ["\"a\\;b\"".toList]).flatMap txtField) := h.strings rfl
    exact strings_no_slash (.inl rfl) hstrings _ List.mem_cons_self (by decide)

end Ironbind
