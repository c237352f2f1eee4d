import Ironbind.EscapedRecords
import Ironbind.RecordLines

/- The types served from zone files. A record in presentation form, on one line or on
   several, is served when a file with it leaves a zone in which a lookup of its owner and
   type finds the data its fields stand for. `served_iff`: five of the types are never
   built, and of the others a record is served when its digest is one field, no name of its
   data is "@.", no name or string has an escape, its owner is not spelled as a type or a
   class, a TTL stands in front of a class, and one of them in front of a type that ends in
   the letter of a unit. -/
namespace Ironbind
open Codec

/-! Records in presentation form. -/

namespace Data

def strings : Data → List Text
  | txt strings => strings
  | _ => []

/-- The data on the wire that the fields stand for, with every escape decoded, names in any case and completed
    by the origin. What the fields of a type that is not built stand for is left open. -/
def OnWire (origin : Text) : Data → Bytes → Prop
  | a t, b => parseWith readIpv4 t = some b
  | aaaa t, b => parseWith readIpv6 t = some b
  | target t n, b => NameOf (nameCodec t) origin n b
  | mx p n, b => ∃ preference wire, parseU16 p = some preference ∧ NameOf Builder.name origin n wire ∧
      b = be16 preference ++ wire
  | soa m r s t u v w, b => ∃ mname rname serial refresh retry expire minimum, NameOf Builder.name origin m mname ∧
      NameOf Builder.name origin r rname ∧ parseU32 s = some serial ∧ TtlMeans t refresh ∧ TtlMeans u retry ∧
      TtlMeans v expire ∧ TtlMeans w minimum ∧
      b = mname ++ (rname ++ (be32 serial ++ be32 refresh ++ be32 retry ++ be32 expire ++ be32 minimum))
  | txt strings, b => ∃ bodies, List.Forall₂ StringDenotes strings bodies ∧ (∀ body ∈ bodies, body.length ≤ 255) ∧
      b = bodies.flatMap counted
  | srv p w o n, b => ∃ priority weight port wire, parseU16 p = some priority ∧ parseU16 w = some weight ∧
      parseU16 o = some port ∧ NameOf Builder.name origin n wire ∧ b = be16 priority ++ be16 weight ++ be16 port ++ wire
  | ds k g d digest, b => ∃ keyTag algorithm digestType octets, parseU16 k = some keyTag ∧ parseU8 g = some algorithm ∧
      parseU8 d = some digestType ∧ HexOf digest.flatten octets ∧ b = be16 keyTag ++ [algorithm] ++ [digestType] ++ octets
  | dnskey f p g key, b => ∃ flags protocol algorithm octets, parseU16 f = some flags ∧ parseU8 p = some protocol ∧
      parseU8 g = some algorithm ∧ key.flatten = Base64.text octets ∧
        b = be16 flags ++ [protocol] ++ [algorithm] ++ octets
  | unbuilt _ _, _ => True

/-- Fields that stand for data, under any origin. -/
structure Presented (d : Data) : Prop where
  onWire : ∀ origin, ∃ b, d.OnWire origin b
  fields : d.fields ≠ []
  target : ∀ t n, d = target t n → t = .NS ∨ t = .CNAME ∨ t = .PTR
  ds : ∀ k g t digest, d = ds k g t digest → digest ≠ []
  dnskey : ∀ f p g key, d = dnskey f p g key → key ≠ []
  unbuilt : ∀ t fields, d = unbuilt t fields → t ∈ unbuiltTypes

end Data

/-- A record as its fields spell it, its class in front of its TTL or behind. -/
structure Presentation extends RecordLine where
  classFirst : Bool

namespace Presentation

/-- The TTL and the class. -/
def options (e : Presentation) : List Text :=
  if e.classFirst then e.rclass.toList ++ e.ttl.toList else e.ttl.toList ++ e.rclass.toList

def tokens (e : Presentation) : List Text := e.owner.toList ++ (e.options ++ e.rtype :: e.data.fields)

structure WellFormed (e : Presentation) : Prop where
  owner : ∀ o ∈ e.owner, (∃ labels relative, NameDenotes o labels relative) ∧ o.head? ≠ some '$'
  ttl : ∀ t ∈ e.ttl, ∃ n, TtlMeans t n
  rclass : ∀ c ∈ e.rclass, toAsciiLowercase c ∈ classNames
  rtype : toAsciiLowercase e.rtype = mnemonic e.data.rtype
  data : e.data.Presented

/-- A lookup of the owner and the type finds the data. -/
def FoundIn (e : Presentation) (ctx : LineContext) (z : Zone) : Prop :=
  ∃ r rs, z.lookup r.name e.data.rtype = some rs ∧ r ∈ rs ∧ r.rtype = e.data.rtype ∧ e.data.OnWire ctx.origin r.rdata ∧
    (match e.owner with
      | some o => NameOf Builder.name ctx.origin o (Builder.name r.name)
      | none => r.name = ctx.lastName)

/-- Every file with the lines, of which the rest can be read, leaves a zone in which the record is found. -/
def Served (e : Presentation) (ls : List LaidLine) : Prop :=
  ∀ (z : Zone) (content : Text) (before after : List Text) (ctx : LineContext) (rs : List Record),
    lines content = before ++ ls.map LaidLine.raw ++ after → (joinRest [] 0 before).1 = [] →
    readTexts (.start z.origin) (joinLines [] 0 before) = .ok (ctx, rs) →
    (∀ text ∈ joinLines [] 0 after, ∀ ctx, ∃ out, readText ctx text = .ok out) →
    ∃ z', z.loadFile content = .ok z' ∧ e.FoundIn ctx z'

/-- What the loader serves. -/
structure Servable (e : Presentation) : Prop where
  built : e.data.rtype ∈ fileTypes
  digest : ∀ k g t digest, e.data = .ds k g t digest → digest.length = 1
  targets : ∀ n ∈ e.data.names, n ≠ ['@', '.']
  plain : ∀ t ∈ e.owner.toList ++ (e.data.names ++ e.data.strings), '\\' ∉ t
  owner : ∀ o ∈ e.owner, isType o = false ∧ isClass o = false
  order : e.classFirst = true → e.ttl = none ∨ e.rclass = none
  unit : e.ttl = none → e.rclass = none → e.rtype.getLast?.bind ttlUnit = none

end Presentation

/-! Fields that are no names and no strings. -/

section
variable {t : Text} {n : UInt32}

theorem number_plain {max v : Nat} (h : parseUnsigned max t = some v) : '\\' ∉ t := by
  obtain ⟨-, hall⟩ := parseUnsigned_digits h
  have hdigits : '\\' ∉ unsignedDigits t := fun hm => absurd (List.all_eq_true.mp hall _ hm) (by decide)
  obtain ht | ht := unsignedDigits_eq t
  · rwa [ht]
  · rw [ht]
    exact fun hm => hdigits ((List.mem_cons.mp hm).resolve_left (by decide))

theorem parseU32_plain (h : parseU32 t = some n) : '\\' ∉ t := by
  obtain ⟨v, hv⟩ := parseU32_eq_some h
  exact number_plain hv

theorem parseU16_plain {v : UInt16} (h : parseU16 t = some v) : '\\' ∉ t := by
  obtain ⟨v, hv, -⟩ := Option.map_eq_some_iff.mp h
  exact number_plain hv

theorem parseU8_plain {v : UInt8} (h : parseU8 t = some v) : '\\' ∉ t := by
  obtain ⟨v, hv, -⟩ := Option.map_eq_some_iff.mp h
  exact number_plain hv

theorem TtlMeans.plain (h : TtlMeans t n) : '\\' ∉ t := by
  obtain h | ⟨digits, c, unit, v, rfl, hunit, hv, -⟩ := h
  · exact parseU32_plain h
  · intro hm
    obtain hm | hm := List.mem_append.mp hm
    · exact parseU32_plain hv hm
    · have hnone : ttlUnit '\\' = none := rfl
      rw [← List.mem_singleton.mp hm, hnone] at hunit
      cases hunit

theorem HexOf.plain {b : Bytes} (h : HexOf t b) : '\\' ∉ t := by
  induction h with
  | nil => exact List.not_mem_nil
  | pair hhi hlo _ ih =>
    have hne : ∀ {c : Char} {v : UInt8}, hexDigit c = some v → '\\' ≠ c := by
      intro c v hc he
      have hnone : hexDigit '\\' = none := by decide
      rw [← he, hnone] at hc
      cases hc
    simp only [List.mem_cons, not_or]
    exact ⟨hne hhi, hne hlo, ih⟩

/-- A number starts with a digit or a plus sign. -/
theorem number_head {max v : Nat} (h : parseUnsigned max t = some v) :
    ∃ c, t.head? = some c ∧ (c.isDigit = true ∨ c = '+') := by
  obtain ⟨hne, hall⟩ := parseUnsigned_digits h
  obtain ⟨c, cs, hcs⟩ := List.exists_cons_of_ne_nil hne
  obtain ht | ht := unsignedDigits_eq t
  · refine ⟨c, by rw [ht, hcs]; rfl, .inl ?_⟩
    exact List.all_eq_true.mp hall c (by rw [hcs]; exact List.mem_cons_self)
  · exact ⟨'+', by rw [ht]; rfl, .inr rfl⟩

theorem TtlMeans.head (h : TtlMeans t n) : ∃ c, t.head? = some c ∧ (c.isDigit = true ∨ c = '+') := by
  obtain h | ⟨digits, c, unit, v, rfl, -, hv, -⟩ := h
  · obtain ⟨v, hv⟩ := parseU32_eq_some h
    exact number_head hv
  · obtain ⟨v, hv⟩ := parseU32_eq_some hv
    obtain ⟨d, hd, hdigit⟩ := number_head hv
    have hne : digits ≠ [] := by
      rintro rfl
      cases hd
    exact ⟨d, by rw [List.head?_append_of_ne_nil _ hne, hd], hdigit⟩

theorem upperChar_digit : ∀ m < 128, (Char.ofNat m).isDigit = true ∨ Char.ofNat m = '+' →
    upperChar (Char.ofNat m) = [Char.ofNat m] ∧ (Char.ofNat m).isAlpha = false := by decide

/-- What starts with a digit or a plus sign is neither a class nor a type. -/
theorem no_word {c : Char} (ht : t.head? = some c) (hc : c.isDigit = true ∨ c = '+') :
    isClass t = false ∧ strToRtype (toUppercase t) = .Unknown 0 := by
  have hascii : c.toNat < 128 := by
    obtain hc | rfl := hc
    · simp only [Char.isDigit, Bool.and_eq_true, decide_eq_true_eq, UInt32.le_iff_toNat_le] at hc
      exact Nat.lt_of_le_of_lt hc.2 (by decide)
    · decide
  obtain ⟨hupper, halpha⟩ := upperChar_digit c.toNat hascii (by rwa [Char.ofNat_toNat])
  rw [Char.ofNat_toNat] at hupper halpha
  obtain ⟨rest, rfl⟩ : ∃ rest, t = c :: rest := List.head?_eq_some_iff.mp ht
  have hcons : toUppercase (c :: rest) = c :: toUppercase rest := by
    rw [toUppercase, List.flatMap_cons, hupper]
    rfl
  have hne : ∀ d : Char, d.isAlpha = true → d ≠ c := by
    intro d hd he
    rw [he, halpha] at hd
    cases hd
  refine ⟨?_, ?_⟩
  · rw [isClass, hcons, Bool.eq_false_iff]
    intro hm
    have hm := List.contains_iff_mem.mp hm
    simp only [List.mem_cons, List.cons.injEq, List.not_mem_nil, or_false] at hm
    obtain hm | hm | hm | hm := hm
    · exact hne 'I' (by decide) hm.1.symm
    · exact hne 'A' (by decide) hm.1.symm
    · exact hne 'C' (by decide) hm.1.symm
    · exact hne 'H' (by decide) hm.1.symm
  · rw [hcons]
    unfold strToRtype
    split
    all_goals first | rfl | (next heq => exact absurd (List.cons.inj heq).1.symm (hne _ (by decide)))

end

theorem unbuiltTypes_spec : ∀ t ∈ Data.unbuiltTypes, t ∉ fileTypes := by decide

/-- A backslash in the data is in a name or in a string. -/
theorem Data.OnWire.plain {d : Data} {origin : Text} {b : Bytes} (h : d.OnWire origin b) (hbuilt : d.rtype ∈ fileTypes)
    (hp : d.Presented) (hs : ∀ t ∈ d.names ++ d.strings, '\\' ∉ t) : ∀ t ∈ d.fields, '\\' ∉ t := by
  cases d with
  | a t =>
    intro u hu hm
    rw [List.mem_singleton.mp hu] at hm
    have h : parseWith readIpv4 t = some b := h
    rw [parseWith_avoids (.readIpv4 noAddress_slash) hm] at h
    cases h
  | aaaa t =>
    intro u hu hm
    rw [List.mem_singleton.mp hu] at hm
    have h : parseWith readIpv6 t = some b := h
    rw [parseWith_avoids (.readIpv6 noAddress_slash) hm] at h
    cases h
  | target t n => exact fun u hu => hs u (List.mem_append_left _ hu)
  | txt strings => exact fun u hu => hs u (List.mem_append_right _ hu)
  | mx p n =>
    obtain ⟨preference, wire, hpref, -⟩ := h
    exact List.forall_mem_cons.mpr ⟨parseU16_plain hpref, fun u hu => hs u (List.mem_append_left _ hu)⟩
  | soa m r s t u v w =>
    obtain ⟨mname, rname, serial, refresh, retry, expire, minimum, -, -, hserial, ht, hu, hv, hw, -⟩ := h
    simp only [fields, List.forall_mem_cons]
    refine ⟨hs m ?_, hs r ?_, parseU32_plain hserial, ht.plain, hu.plain, hv.plain, hw.plain, ?_⟩
    · exact List.mem_append_left _ List.mem_cons_self
    · exact List.mem_append_left _ (List.mem_cons_of_mem _ List.mem_cons_self)
    · exact fun x hx => absurd hx List.not_mem_nil
  | srv p w o n =>
    obtain ⟨priority, weight, port, wire, hpriority, hweight, hport, -⟩ := h
    simp only [fields, List.forall_mem_cons]
    refine ⟨parseU16_plain hpriority, parseU16_plain hweight, parseU16_plain hport, hs n ?_, ?_⟩
    · exact List.mem_append_left _ List.mem_cons_self
    · exact fun x hx => absurd hx List.not_mem_nil
  | ds k g t digest =>
    obtain ⟨keyTag, algorithm, digestType, octets, hk, hg, ht, hd, -⟩ := h
    simp only [fields, List.forall_mem_cons]
    refine ⟨parseU16_plain hk, parseU8_plain hg, parseU8_plain ht, fun u hu hm => ?_⟩
    exact hd.plain (List.mem_flatten.mpr ⟨u, hu, hm⟩)
  | dnskey f p g key =>
    obtain ⟨flags, protocol, algorithm, octets, hf, hprotocol, hg, hkey, -⟩ := h
    simp only [fields, List.forall_mem_cons]
    refine ⟨parseU16_plain hf, parseU8_plain hprotocol, parseU8_plain hg, fun u hu hm => ?_⟩
    have hdecode := base64Decode_slashed (t := key.flatten) (List.mem_flatten.mpr ⟨u, hu, hm⟩)
    rw [hkey, base64Decode_text] at hdecode
    cases hdecode
  | unbuilt t fields =>
    exact absurd hbuilt (unbuiltTypes_spec t (hp.unbuilt t fields rfl))

/-! Data that are built. -/

theorem stringField_of_plain {t : Text} {b : Bytes} (h : StringDenotes t b) (hs : '\\' ∉ t) (hle : b.length ≤ 255) :
    StringField t b := by
  cases h with
  | bare hne h =>
    obtain rfl := h.eq_utf8 hs
    exact .bare (h.stop_not_mem hs) hne hle
  | @quoted body _ h =>
    have hbody : '\\' ∉ body := fun hm => hs (List.mem_cons_of_mem _ (List.mem_append_left _ hm))
    obtain rfl := h.eq_utf8 hbody
    exact .quoted (h.stop_not_mem hbody) hle

theorem stringFields_of_plain {strings : List Text} {bodies : List Bytes} (h : List.Forall₂ StringDenotes strings bodies)
    (hs : ∀ t ∈ strings, '\\' ∉ t) (hle : ∀ b ∈ bodies, b.length ≤ 255) : List.Forall₂ StringField strings bodies := by
  induction h with
  | nil => exact .nil
  | cons h _ ih =>
    obtain ⟨ht, hts⟩ := List.forall_mem_cons.mp hs
    obtain ⟨hb, hbs⟩ := List.forall_mem_cons.mp hle
    exact .cons (stringField_of_plain h ht hb) (ih hts hbs)

theorem NameOf.completed {encode : Text → Bytes} {stretches : Text → List Text} (henc : NameEncoder encode stretches)
    {origin n : Text} {wire : Bytes} (h : NameOf encode origin n wire) (hs : '\\' ∉ n) (hat : n ≠ ['@', '.']) :
    NameOf encode origin n (encode (fqdn n origin)) := by
  obtain ⟨labels, relative, -, hdenotes, -⟩ := h
  rw [← hdenotes.ownerName_eq hs hat]
  exact .of_plain henc hdenotes hs origin

namespace Data

/-- The loader builds what well-formed fields stand for. -/
theorem buildRdata_presented {d : Data} (h : d.Presented) (hbuilt : d.rtype ∈ fileTypes)
    (hdigest : ∀ k g t digest, d = .ds k g t digest → digest.length = 1) (htargets : ∀ n ∈ d.names, n ≠ ['@', '.'])
    (hplain : ∀ t ∈ d.names ++ d.strings, '\\' ∉ t) {s : Text} (hs : strToRtype s = d.rtype) (origin : Text) :
    ∃ b, buildRdata s d.fields origin = .ok (some b) ∧ d.OnWire origin b := by
  obtain ⟨b, hb⟩ := h.onWire origin
  have wire : ∀ {n : Text} {w : Bytes}, n ∈ d.names → NameOf Builder.name origin n w →
      NameOf Builder.name origin n (Builder.name (fqdn n origin)) := by
    intro n w hn hw
    exact hw.completed builderEncoder (hplain n (List.mem_append_left _ hn)) (htargets n hn)
  unfold buildRdata
  rw [hs]
  cases d with
  | a t => exact ⟨b, congrArg Except.ok hb, hb⟩
  | aaaa t => exact ⟨b, congrArg Except.ok hb, hb⟩
  | target t n =>
    have hn : n ∈ (target t n).names := List.mem_singleton_self n
    have hcodec : nameCodec t = encodeName := by
      obtain rfl | rfl | rfl := h.target t n rfl <;> rfl
    have hb : NameOf (nameCodec t) origin n b := hb
    rw [hcodec] at hb
    refine ⟨encodeName (fqdn n origin), ?_, ?_⟩
    · obtain rfl | rfl | rfl := h.target t n rfl <;> rfl
    · show NameOf (nameCodec t) origin n _
      rw [hcodec]
      exact hb.completed canonicalEncoder (hplain n (List.mem_append_left _ hn)) (htargets n hn)
  | mx p n =>
    obtain ⟨preference, w, hp, hw, rfl⟩ := hb
    refine ⟨be16 preference ++ Builder.name (fqdn n origin), ?_, preference, _, hp,
      wire (List.mem_singleton_self n) hw, rfl⟩
    simp [rtype, fields, mxRdata, hp, Builder.u16]
  | soa m r t u v w x =>
    obtain ⟨mname, rname, serial, refresh, retry, expire, minimum, hm, hr, hserial, hu, hv, hw, hx, rfl⟩ := hb
    refine ⟨Builder.name (fqdn m origin) ++ (Builder.name (fqdn r origin) ++
      (be32 serial ++ be32 refresh ++ be32 retry ++ be32 expire ++ be32 minimum)), ?_, ?_⟩
    · simp [rtype, fields, soaRdata, hserial, parseTtl_means hu, parseTtl_means hv, parseTtl_means hw, parseTtl_means hx,
        Builder.u32]
    · exact ⟨_, _, serial, refresh, retry, expire, minimum, wire List.mem_cons_self hm,
        wire (List.mem_cons_of_mem _ List.mem_cons_self) hr, hserial, hu, hv, hw, hx, rfl⟩
  | txt strings =>
    obtain ⟨bodies, hbodies, hle, rfl⟩ := hb
    have hfields := stringFields_of_plain hbodies (fun t ht => hplain t (List.mem_append_right _ ht)) hle
    exact ⟨_, congrArg (fun b => Except.ok (some b)) (txtFields_means hfields), bodies, hbodies, hle, rfl⟩
  | srv p w o n =>
    obtain ⟨priority, weight, port, wr, hp, hw, ho, hn, rfl⟩ := hb
    refine ⟨be16 priority ++ be16 weight ++ be16 port ++ Builder.name (fqdn n origin), ?_, priority, weight,
      port, _, hp, hw,
      ho, wire (List.mem_singleton_self n) hn, rfl⟩
    simp [rtype, fields, srvRdata, hp, hw, ho, Builder.u16]
  | ds k g t digest =>
    obtain ⟨keyTag, algorithm, digestType, octets, hk, hg, ht, hd, rfl⟩ := hb
    obtain ⟨field, rfl⟩ := List.length_eq_one_iff.mp (hdigest k g t digest rfl)
    refine ⟨_, ?_, keyTag, algorithm, digestType, octets, hk, hg, ht, hd, rfl⟩
    rw [List.flatten_singleton] at hd
    simp [rtype, fields, dsRdata, hk, hg, ht, hexDecodeField_of hd, Except.map, Builder.u16, Builder.u8, Builder.raw]
  | dnskey f p g key =>
    obtain ⟨flags, protocol, algorithm, octets, hf, hp, hg, hkey, rfl⟩ := hb
    obtain ⟨k, keys, rfl⟩ := List.exists_cons_of_ne_nil (h.dnskey f p g key rfl)
    refine ⟨_, ?_, flags, protocol, algorithm, octets, hf, hp, hg, hkey, rfl⟩
    simp [rtype, fields, dnskeyRdata, hf, hp, hg, hkey, base64Decode_text, Builder.u16, Builder.u8, Builder.raw]
  | unbuilt t fields => exact absurd hbuilt (unbuiltTypes_spec t (h.unbuilt t fields rfl))

end Data

/-! Data that are built right. -/

/-- A name that is built right, in a file of the origin "x", has no escape and is not "@.". -/
theorem name_built {encode : Text → Bytes} {stretches : Text → List Text} (henc : NameEncoder encode stretches)
    (hx : encode ['x'] = [1, 120, 0]) {n n' : Text} {wire x y : Bytes} (hw : NameOf encode ['x'] n wire)
    (hcut : CutOf n n')
    (h : encode (fqdn n' ['x']) ++ x = wire ++ y) : '\\' ∉ n ∧ n ≠ ['@', '.'] ∧ n' = n ∧ x = y := by
  obtain ⟨hs, rfl, hsame⟩ := name_right henc hw hcut h
  have hat : n' ≠ ['@', '.'] := by
    rintro rfl
    have hstretch : ∀ p ∈ [['@']], Stretch p := by
      intro p hp
      rw [List.mem_singleton.mp hp]
      exact ⟨by decide, by decide⟩
    have hjoined := stretches_joined henc (List.cons_ne_nil _ _) hstretch
    rw [List.intercalate_singleton] at hjoined
    have hroot : encode (ownerName ['@', '.'] ['x']) = [1, 64, 0] := by
      have halone := henc.alone (show (['@'] : Text) ≠ [] by decide) (by decide)
      rw [hjoined] at halone
      exact halone
    rw [hroot] at hsame
    have hlen : wire.length = 3 := by simpa using congrArg List.length hsame
    have hfqdn : fqdn ['@', '.'] ['x'] = ['x'] := rfl
    rw [hfqdn, hx] at h
    rw [← (List.append_inj h hlen.symm).1] at hsame
    exact absurd hsame (by decide)
  obtain ⟨labels, relative, -, hdenotes, -⟩ := hw
  have hlen : wire.length = (encode (fqdn n' ['x'])).length := by
    rw [← hdenotes.ownerName_eq hs hat]
    simpa using congrArg List.length hsame
  exact ⟨hs, hat, rfl, (List.append_inj h hlen.symm).2⟩

theorem stringsOf_bodies {strings : List Text} {bodies : List Bytes} (h : List.Forall₂ StringDenotes strings bodies)
    (hle : ∀ b ∈ bodies, b.length ≤ 255) : StringsOf strings (bodies.flatMap counted) := by
  induction h with
  | nil => exact ⟨[], .nil, rfl⟩
  | @cons t body strings bodies h _ ih =>
    obtain ⟨hb, hle⟩ := List.forall_mem_cons.mp hle
    obtain ⟨pieces, hpieces, hrdata⟩ := ih hle
    refine ⟨[body] :: pieces, .cons ⟨?_, List.cons_ne_nil _ _, ?_⟩ hpieces, ?_⟩
    · rwa [List.flatten_singleton]
    · intro s hs
      rwa [List.mem_singleton.mp hs]
    · rw [List.flatMap_cons, hrdata]
      rfl

/-- A digest of several fields is not read whole. -/
theorem digest_short {k g t first last' : Text} {more : List Text} {digest : Text} {keyTag : UInt16}
    {algorithm digestType : UInt8} {octets : Bytes} (hk : parseU16 k = some keyTag) (hg : parseU8 g = some algorithm)
    (ht : parseU8 t = some digestType) (hd : HexOf (first ++ digest) octets) (hne : digest ≠ []) :
    dsRdata (k :: g :: t :: first :: (more ++ [last'])) ≠
      .ok (some (be16 keyTag ++ [algorithm] ++ [digestType] ++ octets)) := by
  intro h
  simp only [dsRdata, hk, hg, ht, Builder.u16, Builder.u8, Builder.raw] at h
  cases hread : hexDecodeField first with
  | error e => rw [hread] at h; cases h
  | ok read =>
    rw [hread] at h
    cases read with
    | none => cases h
    | some bs =>
      simp only [Except.map, Option.map_some, Except.ok.injEq, Option.some.injEq, List.append_cancel_left_eq] at h
      have hlen := hexDecodeField_length hread
      have hall := Data.length_of_hexOf hd
      have hpos := List.length_pos_of_ne_nil hne
      rw [h] at hlen
      rw [List.length_append] at hall
      omega

namespace Data

/-- Data that are built right, in a file of the origin "x", are as the loader reads them. -/
theorem presented_of_built {d : Data} (hp : d.Presented) (hbuilt : d.rtype ∈ fileTypes) {front : List Text}
    {last last' : Text}
    (hfields : d.fields = front ++ [last]) (hcut : CutOf last last') (hne : ∀ t ∈ d.fields, t ≠ []) {s : Text}
    (hs : strToRtype s = d.rtype) {b : Bytes} (h : buildRdata s (front ++ [last']) ['x'] = .ok (some b))
    (hb : d.OnWire ['x'] b) : (∀ k g t digest, d = .ds k g t digest → digest.length = 1) ∧
      (∀ n ∈ d.names, n ≠ ['@', '.']) ∧ ∀ t ∈ d.names ++ d.strings, '\\' ∉ t := by
  have none_of {P : Text → Prop} : ∀ t ∈ ([] : List Text), P t := fun t ht => absurd ht List.not_mem_nil
  have one (P : Text → Prop) {n : Text} (hn : P n) : ∀ t ∈ [n], P t := fun t ht => by rwa [List.mem_singleton.mp ht]
  unfold buildRdata at h
  rw [hs] at h
  cases d with
  | a t => exact ⟨(by intro _ _ _ _ he; cases he), none_of, none_of⟩
  | aaaa t => exact ⟨(by intro _ _ _ _ he; cases he), none_of, none_of⟩
  | target t n =>
    obtain ⟨rfl, hlast⟩ := List.append_inj' (show [] ++ [n] = front ++ [last] from hfields) rfl
    obtain rfl := (List.cons.inj hlast).1
    have hcodec : nameCodec t = encodeName := by
      obtain rfl | rfl | rfl := hp.target t n rfl <;> rfl
    have hname : b = encodeName (fqdn last' ['x']) := by
      obtain rfl | rfl | rfl := hp.target t n rfl <;> exact (Option.some.inj (Except.ok.inj h)).symm
    have hb : NameOf (nameCodec t) ['x'] n b := hb
    rw [hcodec, hname] at hb
    obtain ⟨hplain, hat, -⟩ := name_built (x := []) (y := []) canonicalEncoder (by decide) hb hcut rfl
    exact ⟨(by intro _ _ _ _ he; cases he), one (· ≠ ['@', '.']) hat, one ('\\' ∉ ·) hplain⟩
  | mx p n =>
    obtain ⟨hfront, hlast⟩ := List.append_inj' (show [p] ++ [n] = front ++ [last] from hfields) rfl
    subst hfront
    obtain rfl := (List.cons.inj hlast).1
    obtain ⟨preference, w, hpref, hw, rfl⟩ := hb
    simp only [rtype, mxRdata, List.cons_append, List.nil_append, List.headD_cons, hpref, Builder.u16,
      List.getElem?_cons_succ, List.getElem?_cons_zero, Except.ok.injEq, Option.some.injEq,
      List.append_cancel_left_eq] at h
    obtain ⟨hplain, hat, -⟩ := name_built (x := []) (y := []) builderEncoder (by decide) hw hcut (by rw [h])
    exact ⟨(by intro _ _ _ _ he; cases he), one (· ≠ ['@', '.']) hat, one ('\\' ∉ ·) hplain⟩
  | srv p w o n =>
    obtain ⟨hfront, hlast⟩ := List.append_inj' (show [p, w, o] ++ [n] = front ++ [last] from hfields) rfl
    subst hfront
    obtain rfl := (List.cons.inj hlast).1
    obtain ⟨priority, weight, port, wr, hpriority, hweight, hport, hw, rfl⟩ := hb
    simp only [rtype, srvRdata, List.cons_append, List.nil_append, hpriority, hweight, hport, Builder.u16,
      Option.bind_eq_bind, Option.bind_some, Option.pure_def, Except.ok.injEq, Option.some.injEq,
      List.append_cancel_left_eq] at h
    obtain ⟨hplain, hat, -⟩ := name_built (x := []) (y := []) builderEncoder (by decide) hw hcut (by rw [h])
    exact ⟨(by intro _ _ _ _ he; cases he), one (· ≠ ['@', '.']) hat, one ('\\' ∉ ·) hplain⟩
  | soa m r t u v w x =>
    obtain ⟨hfront, -⟩ := List.append_inj' (show [m, r, t, u, v, w] ++ [x] = front ++ [last] from hfields) rfl
    subst hfront
    obtain ⟨mname, rname, serial, refresh, retry, expire, minimum, hm, hr, hserial, -, -, -, -, rfl⟩ := hb
    simp only [rtype, soaRdata, List.cons_append, List.nil_append, hserial, Option.bind_eq_bind, Option.bind_some,
      Option.pure_def, Except.ok.injEq, Option.some.injEq, List.append_assoc] at h
    obtain ⟨hplain, hat, -, hrest⟩ := name_built builderEncoder (by decide) hm (.inl rfl) h
    obtain ⟨hplain', hat', -⟩ := name_built builderEncoder (by decide) hr (.inl rfl) hrest
    refine ⟨(by intro _ _ _ _ he; cases he), List.forall_mem_cons.mpr ⟨hat, one (· ≠ ['@', '.']) hat'⟩, ?_⟩
    exact List.forall_mem_cons.mpr ⟨hplain, one ('\\' ∉ ·) hplain'⟩
  | txt strings =>
    have hfields : strings = front ++ [last] := hfields
    subst hfields
    obtain ⟨bodies, hbodies, hle, rfl⟩ := hb
    have hrdata : (front ++ [last']).flatMap txtField = bodies.flatMap counted := Option.some.inj (Except.ok.inj h)
    have hstrings := stringsOf_bodies hbodies hle
    rw [← hrdata] at hstrings
    exact ⟨(by intro _ _ _ _ he; cases he), none_of, strings_no_slash hcut hstrings⟩
  | ds k g t digest =>
    refine ⟨?_, none_of, none_of⟩
    intro k' g' t' digest' he
    cases he
    obtain ⟨keyTag, algorithm, digestType, octets, hk, hg, ht, hd, rfl⟩ := hb
    have hdigest := hp.ds k g t digest rfl
    by_contra hlen
    -- the first field of the digest is not the last
    obtain ⟨first, more, rfl⟩ : ∃ first more, digest = first :: (more ++ [last]) := by
      obtain ⟨init, u, rfl⟩ : ∃ init u, digest = init ++ [u] := ⟨_, _, (List.dropLast_append_getLast hdigest).symm⟩
      obtain ⟨-, hlast⟩ := List.append_inj' (show k :: g :: t :: init ++ [u] = front ++ [last] from hfields) rfl
      obtain rfl := (List.cons.inj hlast).1
      obtain ⟨first, more, rfl⟩ : ∃ first more, init = first :: more := by
        apply List.exists_cons_of_ne_nil
        rintro rfl
        exact hlen rfl
      exact ⟨first, more, rfl⟩
    obtain ⟨hfront, -⟩ := List.append_inj' (show k :: g :: t :: first :: more ++ [last] = front ++ [last] from hfields) rfl
    rw [← hfront] at h
    have hrest : (more ++ [last]).flatten ≠ [] := by
      rw [List.flatten_append, List.flatten_singleton]
      intro hnil
      exact hne last (by simp [fields]) (List.append_eq_nil_iff.mp hnil).2
    exact digest_short hk hg ht hd hrest h
  | dnskey f p g key => exact ⟨(by intro _ _ _ _ he; cases he), none_of, none_of⟩
  | unbuilt t fields => exact absurd hbuilt (unbuiltTypes_spec t (hp.unbuilt t fields rfl))

end Data

/-! Where the type stands. -/

namespace Presentation
variable {e : Presentation}

theorem WellFormed.class_spells (h : e.WellFormed) {c : Text} (hc : c ∈ e.rclass) :
    isClass c = true ∧ parseU32 c = none := by
  have hname := h.rclass c hc
  obtain ⟨hascii, -, hclass, hdigit⟩ := classNames_spec _ hname
  have hspelt : SpeltAs (toAsciiLowercase c) c := ⟨rfl, hascii⟩
  exact ⟨by rw [hspelt.isClass_eq, hclass], hspelt.parseU32 hdigit⟩

theorem documented (h : e.data.Presented) : e.data.rtype ∈ fileTypes ++ Data.unbuiltTypes := by
  cases hd : e.data with
  | target t n => obtain rfl | rfl | rfl := h.target t n hd <;> simp [Data.rtype, fileTypes]
  | unbuilt t fields => exact List.mem_append_right _ (h.unbuilt t fields hd)
  | _ => simp [Data.rtype, fileTypes]

theorem WellFormed.type_spells (h : e.WellFormed) : SpeltAs (mnemonic e.data.rtype) e.rtype :=
  ⟨h.rtype, (mnemonic_spec _ (documented h.data)).1⟩

theorem WellFormed.type_built (h : e.WellFormed) (hbuilt : e.data.rtype ∈ fileTypes) :
    isClass e.rtype = false ∧ parseU32 e.rtype = none ∧ strToRtype (toUppercase e.rtype) = e.data.rtype := by
  obtain ⟨hclass, hdigit⟩ := mnemonic_built _ hbuilt
  refine ⟨by rw [h.type_spells.isClass_eq, hclass], h.type_spells.parseU32 hdigit, ?_⟩
  rw [h.type_spells.upper, strToRtype_mnemonic hbuilt]

theorem ttlField_skip {t : Text} (rest : List Text) (hn : parseU32 t = none) :
    (ttlField 0 (t :: rest)).2 = if (t.getLast?.bind ttlUnit).isSome then rest else t :: rest := by
  rw [ttlField, hn]
  dsimp only
  split <;> rfl

/-- The fields from the type on are found behind the TTL and the class, in this order. -/
theorem fieldsFromType_options (h : e.WellFormed) (hbuilt : e.data.rtype ∈ fileTypes)
    (horder : e.classFirst = true → e.ttl = none ∨ e.rclass = none)
    (hunit : e.ttl = none → e.rclass = none → e.rtype.getLast?.bind ttlUnit = none) (data : List Text) :
    fieldsFromType (e.options ++ e.rtype :: data) = e.rtype :: data := by
  obtain ⟨hclass, hnumber, -⟩ := h.type_built hbuilt
  have htype : classField (e.rtype :: data) = e.rtype :: data := by
    rw [classField, hclass, if_neg Bool.false_ne_true]
  have hoptions : e.options = e.ttl.toList ++ e.rclass.toList := by
    unfold options
    split
    · next hfirst =>
      obtain hnone | hnone := horder hfirst
      · rw [hnone, Option.toList_none, List.nil_append, List.append_nil]
      · rw [hnone, Option.toList_none, List.nil_append, List.append_nil]
    · rfl
  rw [hoptions, fieldsFromType]
  cases httl : e.ttl with
  | some t =>
    obtain ⟨n, hn⟩ := h.ttl t httl
    rw [Option.toList_some, List.append_assoc, List.singleton_append, ttlField_means 0 _ hn]
    cases hc : e.rclass with
    | some c =>
      rw [Option.toList_some, List.singleton_append, classField, if_pos (h.class_spells hc).1]
    | none => exact htype
  | none =>
    rw [Option.toList_none, List.nil_append]
    cases hc : e.rclass with
    | some c =>
      obtain ⟨hisClass, hnumber'⟩ := h.class_spells hc
      rw [Option.toList_some, List.singleton_append, ttlField_skip _ hnumber']
      split
      · exact htype
      · rw [classField, if_pos hisClass]
    | none =>
      rw [Option.toList_none, List.nil_append, ttlField_skip _ hnumber, hunit httl hc]
      exact htype

/-- A class in front of a TTL leaves the TTL in the place of the type. -/
theorem fieldsFromType_swapped (h : e.WellFormed) (hfirst : e.classFirst = true) {t c : Text} (ht : e.ttl = some t)
    (hc : e.rclass = some c) (data : List Text) :
    fieldsFromType (e.options ++ e.rtype :: data) = t :: e.rtype :: data := by
  obtain ⟨hisClass, hnumber⟩ := h.class_spells hc
  obtain ⟨n, hn⟩ := h.ttl t ht
  obtain ⟨d, hd, hdigit⟩ := hn.head
  have hno : classField (t :: e.rtype :: data) = t :: e.rtype :: data := by
    rw [classField, (no_word hd hdigit).1, if_neg Bool.false_ne_true]
  rw [options, if_pos hfirst, ht, hc, fieldsFromType]
  show classField (ttlField 0 (c :: t :: e.rtype :: data)).2 = _
  rw [ttlField_skip _ hnumber]
  split
  · exact hno
  · rw [classField, if_pos hisClass]

/-- A type that is taken for the TTL leaves the data in its place. -/
theorem fieldsFromType_unit (h : e.WellFormed) (hbuilt : e.data.rtype ∈ fileTypes) (ht : e.ttl = none)
    (hc : e.rclass = none)
    (hunit : e.rtype.getLast?.bind ttlUnit ≠ none) (data : List Text) :
    fieldsFromType (e.options ++ e.rtype :: data) = classField data := by
  have hoptions : e.options = [] := by
    unfold options
    rw [ht, hc]
    split <;> rfl
  rw [hoptions, List.nil_append, fieldsFromType, ttlField_skip _ (h.type_built hbuilt).2.1,
    if_pos (Option.isSome_iff_ne_none.mpr hunit)]

/-- A record is no directive. -/
theorem WellFormed.head_ne (h : e.WellFormed) : e.tokens.head?.bind List.head? ≠ some '$' := by
  have hoptions : ∀ t ∈ e.options ++ [e.rtype], t.head? ≠ some '$' := by
    intro t ht
    have hcases : t ∈ e.ttl ∨ t ∈ e.rclass ∨ t = e.rtype := by
      unfold options at ht
      split at ht
      · simp only [List.mem_append, Option.mem_toList, List.mem_singleton] at ht
        tauto
      · simp only [List.mem_append, Option.mem_toList, List.mem_singleton] at ht
        tauto
    obtain ht | ht | rfl := hcases
    · obtain ⟨n, hn⟩ := h.ttl t ht
      exact RecordLine.head_of_ttlMeans hn
    · obtain ⟨hascii, hhead, -⟩ := classNames_spec _ (h.rclass t ht)
      exact SpeltAs.head_ne ⟨rfl, hascii⟩ hhead
    · exact h.type_spells.head_ne (mnemonic_spec _ (documented h.data)).2
  cases ho : e.owner with
  | some o =>
    rw [tokens, ho]
    exact (h.owner o ho).2
  | none =>
    have happ : e.options ++ e.rtype :: e.data.fields = (e.options ++ [e.rtype]) ++ e.data.fields := by simp
    obtain ⟨t, rest, hcons⟩ := List.exists_cons_of_ne_nil (show e.options ++ [e.rtype] ≠ [] by simp)
    rw [tokens, ho, Option.toList_none, List.nil_append, happ, hcons]
    exact hoptions t (by rw [hcons]; exact List.mem_cons_self)

/-- The fields behind an owner that is taken for one. -/
theorem fieldsBehindOwner_tokens (hd : e.data.fields ≠ []) (hclear : ∀ o ∈ e.owner, isType o = false ∧ isClass o = false) :
    fieldsBehindOwner e.owner.isNone e.tokens = e.options ++ e.rtype :: e.data.fields := by
  have hlen : ¬ e.tokens.length < 2 := by
    have := List.length_pos_of_ne_nil hd
    simp only [tokens, List.length_append, List.length_cons]
    omega
  rw [fieldsBehindOwner, if_neg hlen, tokens]
  cases ho : e.owner with
  | some o =>
    obtain ⟨htype, hclass⟩ := hclear o ho
    rw [Option.toList_some, List.singleton_append, List.headD_cons, htype, hclass]
    rfl
  | none => rfl

theorem ownerField_tokens (hclear : ∀ o ∈ e.owner, isType o = false ∧ isClass o = false) :
    ownerField e.owner.isNone e.tokens = e.owner := by
  rw [ownerField, tokens]
  cases ho : e.owner with
  | some o =>
    obtain ⟨htype, hclass⟩ := hclear o ho
    rw [Option.toList_some, List.singleton_append, List.headD_cons, htype, hclass]
    rfl
  | none => rfl

/-- The record that the loader reads, of one that it serves. -/
theorem Servable.parsed (hs : e.Servable) (hw : e.WellFormed) (ctx : LineContext) :
    ∃ r, parseRecord ctx.origin ctx.lastName ctx.defaultTtl e.owner.isNone e.tokens = .ok (r.name, some r) ∧
      r.rtype = e.data.rtype ∧ e.data.OnWire ctx.origin r.rdata ∧
      (match e.owner with
        | some o => NameOf Builder.name ctx.origin o (Builder.name r.name)
        | none => r.name = ctx.lastName) := by
  obtain ⟨-, -, htype⟩ := hw.type_built hs.built
  have hplain : ∀ t ∈ e.data.names ++ e.data.strings, '\\' ∉ t := fun t ht => hs.plain t (List.mem_append_right _ ht)
  obtain ⟨b, hbuild, hb⟩ := Data.buildRdata_presented hw.data hs.built hs.digest hs.targets hplain htype ctx.origin
  have hfields := fieldsBehindOwner_tokens hw.data.fields hs.owner
  have hfrom := fieldsFromType_options hw hs.built hs.order hs.unit e.data.fields
  obtain ⟨first, second, rest, htokens⟩ : ∃ first second rest, e.tokens = first :: second :: rest := by
    obtain ⟨d, ds, hd⟩ := List.exists_cons_of_ne_nil hw.data.fields
    rcases htokens : e.tokens with _ | ⟨first, _ | ⟨second, rest⟩⟩
    · simp [tokens] at htokens
    · have hlen := congrArg List.length htokens
      simp only [tokens, hd, List.length_append, List.length_cons, List.length_nil] at hlen
      omega
    · exact ⟨first, second, rest, rfl⟩
  have hname : (if !e.owner.isNone && !isType first && !isClass first then ownerName first ctx.origin else ctx.lastName) =
      e.owner.elim ctx.lastName fun o => ownerName o ctx.origin := by
    have hfield := ownerField_tokens hs.owner
    rw [htokens, ownerField, List.headD_cons, List.head?_cons] at hfield
    by_cases hnamed : (!e.owner.isNone && !isType first && !isClass first) = true
    · rw [if_pos hnamed] at hfield ⊢
      rw [← hfield]
      rfl
    · rw [if_neg hnamed] at hfield ⊢
      rw [← hfield]
      rfl
  obtain ⟨d, ds, hd⟩ := List.exists_cons_of_ne_nil hw.data.fields
  have hparse := parseRecord_fields ctx.origin ctx.lastName ctx.defaultTtl e.owner.isNone first second rest
  rw [← htokens] at hparse
  dsimp only at hparse
  rw [hname, hfields, hfrom, hd, recordOfFields, ← hd, hbuild] at hparse
  · refine ⟨⟨_, _, _, _, _⟩, hparse, htype, hb, ?_⟩
    cases ho : e.owner with
    | none => rfl
    | some o =>
      obtain ⟨⟨labels, relative, hdenotes⟩, -⟩ := hw.owner o ho
      exact .of_plain builderEncoder hdenotes (hs.plain o (by rw [ho]; exact List.mem_cons_self)) ctx.origin
  · intro he
    cases he

/-- An owner that is a type or a class is not the name it spells. -/
theorem owner_clear {o : Text} (hname : NameOf Builder.name ['x'] o (Builder.name ['x'])) :
    isType o = false ∧ isClass o = false := by
  have hwire : Builder.name ['x'] = [1, 120, 0] := by decide
  obtain ⟨labels, relative, ls, hdenotes, hls, hw⟩ := hname
  rw [hwire] at hw
  have hdot : ∀ {t : Text}, isType (t ++ ['.']) = false ∧ isClass (t ++ ['.']) = false := by
    intro t
    have hupper : (toUppercase (t ++ ['.'])).getLast? = some '.' := by
      rw [toUppercase, List.flatMap_append]
      exact List.getLast?_concat
    have hword : ∀ {words : List Text}, (∀ w ∈ words, w.getLast? ≠ some '.') →
        words.contains (toUppercase (t ++ ['.'])) = false := by
      intro words hwords
      rw [Bool.eq_false_iff]
      exact fun hm => hwords _ (List.contains_iff_mem.mp hm) hupper
    exact ⟨hword (by decide), hword (by decide)⟩
  cases hdenotes with
  | apex => decide
  | root => decide
  | absolute _ _ => exact hdot
  | relative hne _ hlabels =>
    -- a label in front of the origin
    exfalso
    have hlen : ls.length = labels.length := by simpa [folded] using congrArg List.length hls
    rw [← hlabels.length_eq] at hlen
    obtain ⟨l, ls, rfl⟩ := List.exists_cons_of_ne_nil (List.ne_nil_of_length_pos (hlen ▸ List.length_pos_of_ne_nil hne))
    have := congrArg List.length hw
    simp only [List.flatMap_cons, counted, List.length_append, List.length_cons, if_true, List.length_nil] at this
    omega

theorem unit_lower (t : Text) : (toAsciiLowercase t).getLast?.bind ttlUnit = t.getLast?.bind ttlUnit := by
  rw [toAsciiLowercase, List.getLast?_map]
  cases t.getLast? with
  | none => rfl
  | some c =>
    show ttlUnit c.toLower = ttlUnit c
    unfold ttlUnit
    rw [Char.toLower_toLower_eq_toLower]

theorem unit_types : ∀ t ∈ fileTypes, (mnemonic t).getLast?.bind ttlUnit ≠ none → t = .NS ∨ t = .DS := by decide

/-- A type taken for the TTL leaves no data, or data behind a number for the type. -/
theorem unit_unbuilt (h : e.WellFormed) (hbuilt : e.data.rtype ∈ fileTypes) {b : Bytes} (hb : e.data.OnWire ['x'] b)
    (hunit : e.rtype.getLast?.bind ttlUnit ≠ none) {rtype : Text} {front : List Text} {last : Text}
    (hfields : classField e.data.fields = rtype :: (front ++ [last])) : strToRtype (toUppercase rtype) = .Unknown 0 := by
  rw [← unit_lower, h.rtype] at hunit
  obtain hns | hds := unit_types _ hbuilt hunit
  · cases hd : e.data with
    | target t n =>
      rw [hd, Data.fields, classField] at hfields
      split at hfields
      · cases hfields
      · have hlen := congrArg List.length hfields
        simp at hlen
    | unbuilt t fields =>
      rw [hd] at hbuilt
      exact absurd hbuilt (unbuiltTypes_spec t (h.data.unbuilt t fields hd))
    | _ => rw [hd] at hns; cases hns
  · cases hd : e.data with
    | ds k g t digest =>
      rw [hd] at hb
      obtain ⟨keyTag, algorithm, digestType, octets, hk, -⟩ := hb
      obtain ⟨v, hv, -⟩ := Option.map_eq_some_iff.mp hk
      obtain ⟨c, hc, hdigit⟩ := number_head hv
      obtain ⟨hclass, hunknown⟩ := no_word hc hdigit
      rw [hd, Data.fields, classField, hclass, if_neg Bool.false_ne_true] at hfields
      rw [← (List.cons.inj hfields).1]
      exact hunknown
    | target t n =>
      rw [hd] at hds
      have ht : t = .DS := hds
      obtain hns | hns | hns := h.data.target t n hd <;> rw [hns] at ht <;> cases ht
    | unbuilt t fields =>
      rw [hd] at hbuilt
      exact absurd hbuilt (unbuiltTypes_spec t (h.data.unbuilt t fields hd))
    | _ => rw [hd] at hds; cases hds

/-- A record that is read right, in a file of the origin "x", is one that the loader serves. -/
theorem servable_of_parsed (hw : e.WellFormed) {init : List Text} {last last' : Text} (htokens : e.tokens = init ++ [last])
    (hne : ∀ t ∈ e.data.fields, t ≠ []) (hcut : CutOf last last') {d : UInt32} {name : Text} {r : Record}
    (hparse : parseRecord ['x'] ['x'] d e.owner.isNone (init ++ [last']) = .ok (name, some r))
    (hr : r.rtype = e.data.rtype) (hb : e.data.OnWire ['x'] r.rdata)
    (howner : ∀ o ∈ e.owner, NameOf Builder.name ['x'] o (Builder.name r.name)) : e.Servable := by
  obtain ⟨rtype, front', htype, hbuild, hkind, hname⟩ := parseRecord_stored hcut hparse
  rw [← htokens] at htype hname
  have hbuilt : e.data.rtype ∈ fileTypes := by
    rw [← hr, hkind]
    exact rtype_of_buildRdata hbuild
  have hclear : ∀ o ∈ e.owner, isType o = false ∧ isClass o = false := by
    intro o ho
    by_cases hfield : ownerField e.owner.isNone e.tokens = none
    · have hn := howner o ho
      rw [hname, hfield] at hn
      exact owner_clear hn
    · rw [ownerField, tokens, Option.mem_def.mp ho, Option.toList_some, List.singleton_append, List.headD_cons] at hfield
      split at hfield
      · next hnamed => simpa using hnamed
      · exact absurd rfl hfield
  rw [fieldsBehindOwner_tokens hw.data.fields hclear] at htype
  have hunknown : strToRtype (toUppercase rtype) ≠ .Unknown 0 := by
    intro hu
    rw [← hkind, hr] at hu
    rw [hu] at hbuilt
    exact absurd hbuilt (by decide)
  have horder : e.classFirst = true → e.ttl = none ∨ e.rclass = none := by
    intro hfirst
    by_contra hboth
    rw [not_or] at hboth
    obtain ⟨t, ht⟩ := Option.ne_none_iff_exists'.mp hboth.1
    obtain ⟨c, hc⟩ := Option.ne_none_iff_exists'.mp hboth.2
    obtain ⟨n, hn⟩ := hw.ttl t ht
    obtain ⟨h, hhead, hdigit⟩ := hn.head
    rw [fieldsFromType_swapped hw hfirst ht hc] at htype
    rw [← (List.cons.inj htype).1] at hunknown
    exact hunknown (no_word hhead hdigit).2
  have hunit : e.ttl = none → e.rclass = none → e.rtype.getLast?.bind ttlUnit = none := by
    intro ht hc
    by_contra hunit
    rw [fieldsFromType_unit hw hbuilt ht hc hunit] at htype
    exact hunknown (unit_unbuilt hw hbuilt hb hunit htype)
  rw [fieldsFromType_options hw hbuilt horder hunit] at htype
  obtain ⟨rfl, hfront⟩ := List.cons.inj htype
  have hs : strToRtype (toUppercase e.rtype) = e.data.rtype := by rw [← hkind, hr]
  obtain ⟨hdigest, htargets, hplain⟩ := Data.presented_of_built hw.data hbuilt hfront hcut hne hs hbuild hb
  refine ⟨hbuilt, hdigest, htargets, ?_, hclear, horder, hunit⟩
  intro t ht
  obtain ht | ht := List.mem_append.mp ht
  · have ho : t ∈ e.owner := Option.mem_toList.mp ht
    have hn := howner t ho
    rw [hname, ownerField_tokens hclear, Option.mem_def.mp ho, Option.elim_some] at hn
    intro hs
    rw [slash_ownerName hs] at hn
    exact name_no_slash (x := []) (y := []) builderEncoder hn (.inl rfl) rfl hs
  · exact hplain t ht

end Presentation

/-! Files. -/

theorem readTexts_append {before : List Text} (after : List Text) : ∀ {ctx ctx' : LineContext} {rs : List Record},
    readTexts ctx before = .ok (ctx', rs) →
      readTexts ctx (before ++ after) = (readTexts ctx' after).map fun out => (out.1, rs ++ out.2) := by
  induction before with
  | nil =>
    intro ctx ctx' rs h
    cases h
    rw [List.nil_append]
    cases readTexts ctx after <;> rfl
  | cons text before ih =>
    intro ctx ctx' rs h
    obtain ⟨next, r, rest, hr, hrest, rfl⟩ := readTexts_cons_ok h
    rw [List.cons_append, readTexts, hr]
    simp only [bind, Except.bind]
    rw [ih hrest]
    cases readTexts ctx' after with
    | error e => rfl
    | ok out => simp [Except.map, pure, Except.pure]

theorem readTexts_readable : ∀ {texts : List Text}, (∀ text ∈ texts, ∀ ctx, ∃ out, readText ctx text = .ok out) →
    ∀ ctx, ∃ out, readTexts ctx texts = .ok out
  | [], _, ctx => ⟨_, rfl⟩
  | text :: texts, h, ctx => by
    obtain ⟨ht, hts⟩ := List.forall_mem_cons.mp h
    obtain ⟨out, hout⟩ := ht ctx
    obtain ⟨rest, hrest⟩ := readTexts_readable hts out.1
    exact ⟨_, by rw [readTexts, hout]; simp only [bind, Except.bind]; rw [hrest]; rfl⟩

theorem lookup_foldl_add {r : Record} {rs : List Record} (h : r ∈ rs) (z : Zone) :
    ∃ found, (rs.foldl Zone.add z).lookup r.name r.rtype = some found ∧ r ∈ found := by
  have hmem : r ∈ (rs.foldl Zone.add z).recordsAt (Zone.recordKey r) := by
    rw [Zone.recordsAt_foldl_add]
    exact List.mem_append_right _ (List.mem_filter.mpr ⟨h, by simp⟩)
  unfold Zone.recordsAt at hmem
  unfold Zone.lookup
  cases hl : (rs.foldl Zone.add z).rrsets.lookup (Zone.recordKey r) with
  | none =>
    rw [hl] at hmem
    cases hmem
  | some found =>
    rw [hl] at hmem
    exact ⟨found, hl, hmem⟩

namespace Presentation
variable {e : Presentation} {ls : List LaidLine}

/-- **The types served from zone files.** A record in presentation form is found by its type in the zone
    that any file with it leaves exactly when its type is one that is built and it is spelled as the
    loader reads it. -/
theorem served_iff (hw : e.WellFormed) (hb : Broken e.owner.isNone e.tokens ls) : e.Served ls ↔ e.Servable := by
  obtain ⟨front, last, hdata⟩ : ∃ front last, e.data.fields = front ++ [last] :=
    ⟨_, _, (List.dropLast_append_getLast hw.data.fields).symm⟩
  obtain ⟨init, htokens⟩ : ∃ init, e.tokens = init ++ [last] :=
    ⟨e.owner.toList ++ (e.options ++ e.rtype :: front), by rw [tokens, hdata]; simp⟩
  have hd := hw.head_ne
  rw [htokens] at hb hd
  have hne : init ++ [last] ≠ [] := by simp
  obtain ⟨last', hcut, hread⟩ := hb.tokens hd
  obtain ⟨balance, hlaid⟩ := hb.laid
  have hfields : ∀ t ∈ e.data.fields, t ≠ [] := by
    intro t ht
    have hm : t ∈ init ++ [last] := by
      rw [← htokens, tokens]
      simp [ht]
    exact (hlaid.scanned t hm).1
  constructor
  · intro h
    have hraw : ∀ l ∈ ls.map LaidLine.raw, '\n' ∉ l := by
      intro l hl
      obtain ⟨m, -, rfl⟩ := List.mem_map.mp hl
      exact m.unbroken
    have hlines : lines (unlines (ls.map LaidLine.raw)) = [] ++ ls.map LaidLine.raw ++ [] := by
      rw [List.nil_append, List.append_nil]
      exact lines_unlines hraw
    obtain ⟨z', hload, r, rs, hlookup, hmem, hr, hwire, howner⟩ :=
      h (Zone.new ['x']) _ [] [] (.start ['x']) [] hlines rfl rfl
      (fun text ht => absurd ht List.not_mem_nil)
    have htexts : recordTexts (unlines (ls.map LaidLine.raw)) = [LaidLine.joined ls] := by
      have hjoin := hb.joinLines hne []
      rw [List.append_nil] at hjoin
      rw [recordTexts, lines_unlines hraw, hjoin]
      rfl
    have horigin : (Zone.new ['x']).origin = ['x'] := rfl
    rw [Zone.loadFile_eq, htexts, readTexts, horigin, hread] at hload
    cases hparse : parseRecord ['x'] ['x'] 3600 e.owner.isNone (init ++ [last']) with
    | error err => simp [LineContext.start, hparse, Except.map, bind, Except.bind] at hload
    | ok out =>
      obtain ⟨name, stored⟩ := out
      simp only [LineContext.start, hparse, Except.map, bind, Except.bind, readTexts, pure, Except.pure, List.append_nil,
        Except.ok.injEq] at hload
      subst hload
      have hholds : (stored.toList.foldl Zone.add (Zone.new ['x'])).Holds r := ⟨_, _, hlookup, hmem⟩
      cases stored with
      | none => exact absurd hholds (Zone.not_holds_new _ _)
      | some r' =>
        obtain rfl : r = r' := (Zone.holds_add hholds).resolve_right (Zone.not_holds_new _ _)
        have howner' : ∀ o ∈ e.owner, NameOf Builder.name ['x'] o (Builder.name r.name) := by
          intro o ho
          rw [Option.mem_def.mp ho] at howner
          exact howner
        exact servable_of_parsed hw htokens hfields hcut hparse hr hwire howner'
  · intro hs z content before after ctx rs hlines hclosed hbefore hafter
    have hplain : '\\' ∉ last := by
      obtain ⟨b, hwire⟩ := hw.data.onWire []
      have hs' : ∀ t ∈ e.data.names ++ e.data.strings, '\\' ∉ t := fun t ht => hs.plain t (List.mem_append_right _ ht)
      exact hwire.plain hs.built hw.data hs' last (by rw [hdata]; simp)
    obtain ⟨r, hparse, hr, hwire, howner⟩ := hs.parsed hw ctx
    obtain ⟨out, hout⟩ := readTexts_readable hafter { ctx with lastName := r.name }
    have hopened := joinRest_opened before [] 0 (fun _ => rfl) hclosed
    have htext : readText ctx (LaidLine.joined ls) = .ok ({ ctx with lastName := r.name }, some r) := by
      rw [hread, hcut.eq_self hplain, ← htokens, hparse]
      rfl
    have htexts : recordTexts content = joinLines [] 0 before ++ LaidLine.joined ls :: joinLines [] 0 after := by
      rw [recordTexts, hlines, List.append_assoc, joinLines_append, hclosed, hopened, hb.joinLines hne]
    have hall : readTexts (.start z.origin) (recordTexts content) = .ok (out.1, rs ++ r :: out.2) := by
      rw [htexts, readTexts_append _ hbefore, readTexts, htext]
      simp only [bind, Except.bind]
      rw [hout]
      rfl
    obtain ⟨found, hfound, hmem⟩ :=
      lookup_foldl_add (List.mem_append_right rs (List.mem_cons_self (a := r) (l := out.2))) z
    refine ⟨_, by rw [Zone.loadFile_eq, hall]; rfl, r, found, ?_, hmem, hr, hwire, howner⟩
    rw [← hr]
    exact hfound

/-- The address of a host. -/
def hostEntry : Presentation := { RecordLine.hostLine with classFirst := false }

/-- The parameters of a chain of hashed names. -/
def hashEntry : Presentation :=
  ⟨⟨some ['@'], some "3600".toList, some ['I', 'N'], "NSEC3PARAM".toList,
    .unbuilt .NSEC3PARAM [['1'], ['0'], ['5'], ['-']]⟩, false⟩

theorem presented_unbuilt {t : RType} {fields : List Text} (ht : t ∈ Data.unbuiltTypes) (hne : fields ≠ []) :
    (Data.unbuilt t fields).Presented where
  onWire := fun _ => ⟨[], trivial⟩
  fields := hne
  target := by intro _ _ h; cases h
  ds := by intro _ _ _ _ h; cases h
  dnskey := by intro _ _ _ _ h; cases h
  unbuilt := by
    intro t' fields' h
    obtain ⟨rfl, rfl⟩ := Data.unbuilt.inj h
    exact ht

theorem wellFormed_hostEntry : hostEntry.WellFormed where
  owner := by
    intro o ho
    obtain rfl := Option.mem_some_iff.mp ho
    have hlabel := labelDenotes_plain (p := ['w']) ⟨by decide, by decide⟩ (by decide) (by decide)
    exact ⟨⟨_, _, nameDenotes_label hlabel (by decide)⟩, by decide⟩
  ttl := RecordLine.wellFormed_hostLine.ttl
  rclass := RecordLine.wellFormed_hostLine.rclass
  rtype := rfl
  data := ⟨fun _ => ⟨[192, 0, 2, 1], show parseWith readIpv4 "192.0.2.1".toList = _ by decide⟩, List.cons_ne_nil _ _,
    (by intro _ _ h; cases h), (by intro _ _ _ _ h; cases h), (by intro _ _ _ _ h; cases h), (by intro _ _ h; cases h)⟩

theorem wellFormed_hashEntry : hashEntry.WellFormed where
  owner := by
    intro o ho
    obtain rfl := Option.mem_some_iff.mp ho
    exact ⟨⟨_, _, .apex⟩, by decide⟩
  ttl := by
    intro t ht
    obtain rfl := Option.mem_some_iff.mp ht
    exact ⟨3600, .inl (by decide)⟩
  rclass := by
    intro c hc
    obtain rfl := Option.mem_some_iff.mp hc
    decide
  rtype := by decide
  data := presented_unbuilt (by decide) (by decide)

/-- Fields with a blank in front of each. -/
def spacedText (fields : List Text) : Text := fields.flatMap (' ' :: ·)

theorem laid_spaced : ∀ {fields : List Text}, (∀ t ∈ fields, Scanned t) → Laid isSeparator fields 0 (spacedText fields)
  | [], _ => .trail (show Gap isSeparator [] by decide)
  | t :: fields, h => by
    obtain ⟨ht, hts⟩ := List.forall_mem_cons.mp h
    have hfield := Laid.field (List.cons_ne_nil ' ' []) gap_space ht (laid_spaced hts)
    exact hfield

theorem opening_commented : "; (".toList = [] ∨ "; (".toList.head? = some ';' := .inr rfl

/-- A line of fields with single blanks between them, and a comment. -/
def spacedLine (first : Text) (fields : List Text) (hfirst : Scanned first) (hfields : ∀ t ∈ fields, Scanned t)
    (hn : '\n' ∉ first ++ spacedText fields ++ "; (".toList) : LaidLine where
  fields := first :: fields
  balance := 0
  text := first ++ spacedText fields
  comment := "; (".toList
  laid := .start hfirst (laid_spaced hfields)
  commented := opening_commented
  unbroken := hn

theorem broken_spaced {first : Text} {fields : List Text} {hfirst : Scanned first} {hfields : ∀ t ∈ fields, Scanned t}
    {hn : '\n' ∉ first ++ spacedText fields ++ "; (".toList} (hblank : first.head?.any isWhitespace = false) :
    Broken false (first :: fields) [spacedLine first fields hfirst hfields hn] where
  fields := by
    rw [List.flatMap_cons, List.flatMap_nil, List.append_nil]
    rfl
  grouped := Int.add_zero 0
  owner := by
    obtain ⟨c, rest, rfl⟩ := List.exists_cons_of_ne_nil hfirst.1
    exact hblank

theorem hostEntry_served : hostEntry.Served [spacedLine ['w'] [['1', 'h'], ['I', 'N'], ['A'], "192.0.2.1".toList]
    (by decide) (by decide) (by decide)] ↔ hostEntry.Servable :=
  served_iff wellFormed_hostEntry (broken_spaced (by decide))

/-- A documented type that is never built. -/
theorem hashEntry_unserved : hashEntry.WellFormed ∧
    ¬ hashEntry.Served [spacedLine ['@'] ["3600".toList, ['I', 'N'], "NSEC3PARAM".toList, ['1'], ['0'], ['5'], ['-']]
      (by decide) (by decide) (by decide)] := by
  refine ⟨wellFormed_hashEntry, fun h => ?_⟩
  have hlines : lines "@ 3600 IN NSEC3PARAM 1 0 5 -; (".toList = ["@ 3600 IN NSEC3PARAM 1 0 5 -; (".toList] := by decide
  obtain ⟨z', hload, r, rs, hlookup, -⟩ :=
    h (Zone.new ['x']) "@ 3600 IN NSEC3PARAM 1 0 5 -; (".toList [] [] (.start ['x']) []
    hlines rfl rfl (fun text ht => absurd ht List.not_mem_nil)
  have hempty : (Zone.new ['x']).loadFile "@ 3600 IN NSEC3PARAM 1 0 5 -; (".toList = .ok (Zone.new ['x']) := rfl
  rw [hempty] at hload
  cases hload
  cases hlookup

end Presentation

end Ironbind
