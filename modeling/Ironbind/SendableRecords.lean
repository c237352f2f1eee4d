import Ironbind.RecordLines

/- What the loader enters, on the wire. A record comes from a source: the owner, the
   type and the fields of its line, and the origin that completes the names among them.
   Nothing between the fields and the encoder looks at a length, and the two encoders of
   names differ on an empty label: `Builder.name` leaves it out, `canonicalName` ends
   the name there. So a record survives the wire just when its source fits
   (`loadFile_sendable_iff`): names of at most 63 octets a label and 255 in all, an owner
   and targets without empty labels, and data of at most 65535 octets. -/
namespace Ironbind
open Codec

/-- A name the format carries: labels of at most 63 octets, 255 octets in all. -/
structure FitsWire (n : Text) : Prop where
  labels : ∀ l ∈ labelsOf n, (utf8 l).length ≤ 63
  length : (Builder.name n).length ≤ 255

/-- No empty label but those that dots at the end leave. -/
def NoEmptyLabel (n : Text) : Prop := trimEndMatches '.' n = [] ∨ [] ∉ (trimEndMatches '.' n).splitOn '.'

instance (n : Text) : Decidable (NoEmptyLabel n) := inferInstanceAs (Decidable (_ ∨ _))

/-- What a record line says, before its data is built. -/
structure RecordSource where
  owner : Text
  rtype : RType
  fields : List Text
  origin : Text

namespace RecordSource

/-- The source that the fields behind the owner are. -/
def ofFields (origin owner : Text) (fields : List Text) : Option RecordSource :=
  match classField (ttlField 0 fields).2 with
  | [] | [_] => none
  | t :: data => some ⟨owner, strToRtype (toUppercase t), data, origin⟩

/-- The source of a record text, by the fields `load_file` splits it in. -/
def ofText (ctx : LineContext) (text : Text) : Option RecordSource :=
  match tokenizeZoneLine (trim text) with
  | [] | [_] => none
  | first :: rest =>
    if !text.head?.any isWhitespace && !isType first && !isClass first then
      ofFields ctx.origin (ownerName first ctx.origin) rest
    else ofFields ctx.origin ctx.lastName (first :: rest)

/-- The names among the fields, completed. -/
def targets (s : RecordSource) : List Text :=
  let names := match s.rtype with
    | .NS | .CNAME | .PTR => s.fields.take 1
    | .MX => (s.fields.drop 1).take 1
    | .SOA => s.fields.take 2
    | .SRV => (s.fields.drop 3).take 1
    | _ => []
  names.map fun t => fqdn t s.origin

/-- The octets of a TXT field: its text and a length octet for every 255 of them, or one. -/
def stringSize (token : Text) : Nat :=
  let n := (utf8 (unquote token)).length
  n + max 1 ((n + 254) / 255)

/-- The octets that base64 stands for: three for every four, less the padding. -/
def base64Size : Bytes → Nat
  | _ :: _ :: c :: d :: rest => 1 + (if c ≠ 61 then 1 else 0) + (if d ≠ 61 then 1 else 0) + base64Size rest
  | _ => 0

/-- The size of data of a type that sets it no bound. -/
def dataSize (s : RecordSource) : Nat :=
  match s.rtype with
  | .TXT => (s.fields.map stringSize).sum
  | .DS => 4 + (utf8 ((s.fields.getD 3 []).filter (· ≠ ' '))).length / 2
  | .DNSKEY => 4 + base64Size (utf8 ((s.fields.drop 3).flatten.filter fun c => !isWhitespace c))
  | _ => 0

/-- The record built from the source. -/
structure Builds (s : RecordSource) (r : Record) : Prop where
  name : r.name = s.owner
  rtype : r.rtype = s.rtype
  rclass : r.rclass = CLASS_IN
  fields : s.fields ≠ []
  rdata : ∃ t, strToRtype t = s.rtype ∧ buildRdata t s.fields s.origin = .ok (some r.rdata)
  lower : toAsciiLowercase s.owner = s.owner
  originLower : toAsciiLowercase s.origin = s.origin

/-- The record's octets read back as the record, and nothing of it is longer than the format carries. -/
structure Sendable (s : RecordSource) (r : Record) : Prop where
  readsBack : Parser.record (Builder.record r) 0 = (.ok r, (Builder.record r).length)
  names : ∀ n ∈ s.owner :: s.targets, FitsWire n
  rdata : r.rdata.length ≤ 65535

/-- What the format carries of a source. -/
structure Fits (s : RecordSource) : Prop where
  names : ∀ n ∈ s.owner :: s.targets, FitsWire n
  owner : Spelt s.owner
  target : s.rtype = .NS ∨ s.rtype = .CNAME ∨ s.rtype = .PTR → ∀ n ∈ s.targets, NoEmptyLabel n
  data : s.dataSize ≤ 65535

end RecordSource

/-! Sizes of data. -/

theorem txtChunks_length : ∀ (fuel : Nat) {b : Bytes}, b.length ≤ fuel →
    (txtChunks fuel b).length = b.length + (b.length + 254) / 255
  | 0, b, h => by
    obtain rfl := List.eq_nil_of_length_eq_zero (Nat.le_zero.mp h)
    rfl
  | fuel + 1, b, h => by
    rw [txtChunks]
    by_cases hb : b = []
    · rw [if_pos hb, hb]
      rfl
    · have hpos := List.length_pos_of_ne_nil hb
      have hrest : (b.drop 255).length ≤ fuel := by
        rw [List.length_drop]
        omega
      rw [if_neg hb]
      simp only [List.cons_append, List.length_cons, List.length_append, List.length_take, txtChunks_length fuel hrest,
        List.length_drop]
      omega

theorem txtField_length (token : Text) : (txtField token).length = RecordSource.stringSize token := by
  unfold txtField RecordSource.stringSize
  by_cases hb : utf8 (unquote token) = []
  · simp [hb]
  · have hpos := List.length_pos_of_ne_nil hb
    simp only [if_neg hb, txtChunks_length _ (Nat.le_refl _)]
    omega

theorem txtFields_length (tokens : List Text) :
    (tokens.flatMap txtField).length = (tokens.map RecordSource.stringSize).sum := by
  rw [List.length_flatMap]
  exact congrArg List.sum (List.map_congr_left fun t _ => txtField_length t)

/-- Every pair that is decoded is two octets of text. -/
theorem hexPairs_octets : ∀ {t : Text} {b : Bytes}, hexPairs t = .ok (some b) → (utf8 t).length = 2 * b.length
  | [], b, h => by cases h; rfl
  | [hi], b, h => by
    unfold hexPairs at h
    split at h
    · cases h
    · split at h <;> cases h
  | hi :: lo :: rest, b, h => by
    unfold hexPairs at h
    split at h
    · cases h
    · split at h
      · cases h
      · next hhi =>
        dsimp only at h
        split at h
        · cases h
        · next hlo =>
          split at h
          · cases h
          · cases hrest : hexPairs rest with
            | error e => rw [hrest] at h; cases h
            | ok o =>
              rw [hrest] at h
              cases o with
              | none => cases h
              | some bs =>
                -- hex digits are ASCII, one octet of text each
                cases h
                have ih := hexPairs_octets hrest
                rw [utf8_length_cons, utf8_length_cons, List.length_cons]
                omega

theorem base64Chunks_length : ∀ {b out : Bytes}, base64Chunks b = some out → out.length = RecordSource.base64Size b
  | [], out, h => by cases h; rfl
  | [_], out, h => by cases h
  | [_, _], out, h => by cases h
  | [_, _, _], out, h => by cases h
  | c0 :: c1 :: c2 :: c3 :: rest, out, h => by
    rw [base64Chunks] at h
    obtain ⟨_, _, h⟩ := Option.bind_eq_some_iff.mp h
    obtain ⟨_, _, h⟩ := Option.bind_eq_some_iff.mp h
    obtain ⟨_, _, h⟩ := Option.bind_eq_some_iff.mp h
    obtain ⟨_, _, h⟩ := Option.bind_eq_some_iff.mp h
    obtain ⟨out', hrest, h⟩ := Option.bind_eq_some_iff.mp h
    cases h
    have ih := base64Chunks_length hrest
    simp only [RecordSource.base64Size, List.length_append, List.length_cons, ← ih]
    split <;> split <;> simp [Nat.add_comm]

theorem readIpv4_length {s s' : Text} {octets : Bytes} (h : readIpv4 s = some (octets, s')) : octets.length = 4 := by
  unfold readIpv4 at h
  obtain ⟨_, _, h⟩ := Option.bind_eq_some_iff.mp h
  obtain ⟨_, _, h⟩ := Option.bind_eq_some_iff.mp h
  obtain ⟨_, _, h⟩ := Option.bind_eq_some_iff.mp h
  obtain ⟨_, _, h⟩ := Option.bind_eq_some_iff.mp h
  cases h
  rfl

theorem readSeparator_some {α : Type} {separator : Char} {first : Bool} {inner : Text → Option (α × Text)} {s : Text}
    {out : α × Text} (h : readSeparator separator first inner s = some out) : ∃ s', inner s' = some out := by
  unfold readSeparator at h
  split at h
  · exact ⟨s, h⟩
  · split at h
    · split at h
      · exact ⟨_, h⟩
      · cases h
    · cases h

/-- The groups of an address have two octets each. -/
theorem readGroups_length : ∀ (room : Nat) (first : Bool) (s : Text), (readGroups room first s).1.length ≤ 2 * room
  | 0, _, _ => Nat.zero_le _
  | room + 1, first, s => by
    rw [readGroups]
    split
    · next octets s' h4 =>
      split at h4
      · cases h4
      · obtain ⟨_, hread⟩ := readSeparator_some h4
        have hlen := readIpv4_length hread
        dsimp only
        omega
    · split
      · next group s' _ =>
        have ih := readGroups_length room false s'
        simp only [List.length_append, be16_length]
        omega
      · exact Nat.zero_le _

theorem readIpv6_length {s s' : Text} {octets : Bytes} (h : readIpv6 s = some (octets, s')) : octets.length ≤ 32 := by
  unfold readIpv6 at h
  have hhead := readGroups_length 8 true s
  dsimp only at h
  split at h
  · cases h
    omega
  split at h
  · cases h
  split at h
  · next rest _ =>
    have htail := readGroups_length (7 - (readGroups 8 true s).1.length / 2) true rest
    cases h
    simp only [List.length_append, List.length_replicate]
    omega
  · cases h

theorem parseWith_some {read : Text → Option (Bytes × Text)} {s : Text} {octets : Bytes}
    (h : parseWith read s = some octets) : read s = some (octets, []) := by
  unfold parseWith at h
  split at h
  · next hread => cases h; exact hread
  · cases h

/-! Names. -/

section
variable {n : Text}

theorem FitsWire.isLabel (h : FitsWire n) : ∀ l ∈ labelsOf n, IsLabel l := fun l hl =>
  ⟨dot_not_mem_of_mem_labelsOf hl, utf8_length_pos (ne_nil_of_mem_labelsOf hl), h.labels l hl⟩

def FitsWire.domain (h : FitsWire n) : DomainName := ⟨labelsOf n, h.isLabel⟩

theorem FitsWire.wire (h : FitsWire n) : h.domain.wire = Builder.name n := (Builder.name_eq n).symm

theorem FitsWire.lower (h : FitsWire n) (hlow : toAsciiLowercase n = n) : h.domain.Lower := by
  show (labelsOf n).map toAsciiLowercase = labelsOf n
  rw [← labelsOf_lower, hlow]

theorem fqdn_lower {t origin : Text} (ho : toAsciiLowercase origin = origin) :
    toAsciiLowercase (fqdn t origin) = fqdn t origin := by
  unfold fqdn
  dsimp only
  split
  · exact ho
  · split
    · exact toAsciiLowercase_idem _
    · rw [toAsciiLowercase_append, toAsciiLowercase_idem, toAsciiLowercase_cons, ho]
      rfl

/-- Without empty labels the two encoders agree on a name. -/
theorem canonicalName_noEmptyLabel (hlow : toAsciiLowercase n = n) (h : NoEmptyLabel n) :
    canonicalName n = Builder.name n := by
  rw [canonicalName_eq (by rw [hlow]; exact h), hlow, Builder.name_eq]

/-- An empty label ends the encoded name in front of the others. -/
theorem canonicalName_emptyLabel (hlow : toAsciiLowercase n = n) (h : ¬ NoEmptyLabel n) :
    ∃ front rest, canonicalName n = encodeLabels front ++ [0] ++ rest ∧ rest ≠ [] ∧ ∀ l ∈ front, l ∈ labelsOf n := by
  rw [NoEmptyLabel, not_or, not_not] at h
  obtain ⟨front, back, hsplit, hfront⟩ := List.eq_append_cons_of_mem h.2
  refine ⟨front, encodeLabels back ++ [0], ?_, by simp, fun l hl => ?_⟩
  · have hempty : Builder.label [] = [0] := rfl
    simp only [canonicalName, hlow, if_neg h.1, hsplit, List.flatMap_append, List.flatMap_cons, hempty, encodeLabels,
      List.append_assoc]
  · have hmem : l ∈ (trimEndMatches '.' n).splitOn '.' := by
      rw [hsplit]
      exact List.mem_append_left _ hl
    rw [← labelsOf_trim]
    exact List.mem_filter.mpr ⟨hmem, decide_eq_true fun hnil => hfront (hnil ▸ hl)⟩

/-- What is read of data that is a name with an empty label is shorter. -/
theorem decompressRdata_emptyLabel {t : RType} (ht : t = .NS ∨ t = .CNAME ∨ t = .PTR) (hlow : toAsciiLowercase n = n)
    (hfit : FitsWire n) (h : ¬ NoEmptyLabel n) (pre post : Bytes) :
    decompressRdata (pre ++ (canonicalName n ++ post)) t (canonicalName n) pre.length ≠ canonicalName n := by
  obtain ⟨front, rest, hname, hrest, hfront⟩ := canonicalName_emptyLabel hlow h
  let d : DomainName := ⟨front, fun l hl => hfit.isLabel l (hfront l hl)⟩
  have hlower : d.Lower := by
    have hall : (labelsOf n).map toAsciiLowercase = labelsOf n := hfit.lower hlow
    show front.map toAsciiLowercase = front
    rw [map_eq_self_iff] at hall ⊢
    exact fun l hl => hall l (hfront l hl)
  have hread : nameAt (pre ++ (canonicalName n ++ post)) pre.length = .ok d.text := by
    have hat := nameAt_wire hlower pre (rest ++ post)
    rwa [← List.append_assoc d.wire, ← show canonicalName n = d.wire ++ rest from hname] at hat
  have hshort : decompressRdata (pre ++ (canonicalName n ++ post)) t (canonicalName n) pre.length = d.wire := by
    rcases ht with rfl | rfl | rfl <;> simp only [decompressRdata, hread, d.canonicalName_text hlower]
  rw [hshort]
  intro heq
  have hlen := congrArg List.length (heq.trans (show canonicalName n = d.wire ++ rest from hname))
  have hpos := List.length_pos_of_ne_nil hrest
  rw [List.length_append] at hlen
  omega

end

/-! One record. -/

namespace RecordSource
variable {s : RecordSource} {r : Record}

/-- The data built from the fields, by the names among them. -/
inductive Shape (s : RecordSource) : Bytes → Prop where
  | address {b : Bytes} : s.rtype = .A ∨ s.rtype = .AAAA → b.length ≤ 32 → Shape s b
  | target {n : Text} : s.rtype = .NS ∨ s.rtype = .CNAME ∨ s.rtype = .PTR → s.targets = [n] → Shape s (canonicalName n)
  | mx {n : Text} (preference : UInt16) : s.rtype = .MX → s.targets = [n] → Shape s (be16 preference ++ Builder.name n)
  | soa {m n : Text} (serial refresh retry expire minimum : UInt32) : s.rtype = .SOA → s.targets = [m, n] →
      Shape s (Builder.name m ++ (Builder.name n ++ (be32 serial ++ (be32 refresh ++ (be32 retry ++ (be32 expire ++
        be32 minimum))))))
  | srv {n : Text} (priority weight port : UInt16) : s.rtype = .SRV → s.targets = [n] →
      Shape s (be16 priority ++ (be16 weight ++ (be16 port ++ Builder.name n)))
  | sized {b : Bytes} : s.rtype = .TXT ∨ s.rtype = .DS ∨ s.rtype = .DNSKEY → b.length = s.dataSize → Shape s b

theorem targets_lower (ho : toAsciiLowercase s.origin = s.origin) : ∀ n ∈ s.targets, toAsciiLowercase n = n := by
  intro n hn
  obtain ⟨t, _, rfl⟩ := List.mem_map.mp hn
  exact fqdn_lower ho

theorem shape_mx {origin : Text} {tokens : List Text} {b : Bytes} (h : mxRdata origin tokens = .ok (some b)) :
    ∃ preference n, ((tokens.drop 1).take 1).map (fun t => fqdn t origin) = [n] ∧
      b = be16 preference ++ Builder.name n := by
  unfold mxRdata at h
  split at h
  · cases h
  · split at h
    · cases h
    · next exchange hex =>
      cases h
      obtain _ | ⟨_, _ | ⟨e, rest⟩⟩ := tokens
      · cases hex
      · cases hex
      · cases hex
        exact ⟨_, _, rfl, rfl⟩

theorem shape_soa {origin : Text} {tokens : List Text} {b : Bytes} (h : soaRdata origin tokens = some b) :
    ∃ m n serial refresh retry expire minimum, (tokens.take 2).map (fun t => fqdn t origin) = [m, n] ∧
      b = Builder.name m ++ (Builder.name n ++ (be32 serial ++ (be32 refresh ++ (be32 retry ++ (be32 expire ++
        be32 minimum))))) := by
  unfold soaRdata at h
  split at h
  · next refresh retry expire minimum _ =>
    obtain ⟨serial, _, h⟩ := Option.bind_eq_some_iff.mp h
    cases h
    exact ⟨_, _, serial, parseTtl refresh, parseTtl retry, parseTtl expire, parseTtl minimum, rfl,
      by simp only [Builder.u32, List.append_assoc]⟩
  · cases h

theorem shape_srv {origin : Text} {tokens : List Text} {b : Bytes} (h : srvRdata origin tokens = some b) :
    ∃ priority weight port n, ((tokens.drop 3).take 1).map (fun t => fqdn t origin) = [n] ∧
      b = be16 priority ++ (be16 weight ++ (be16 port ++ Builder.name n)) := by
  unfold srvRdata at h
  split at h
  · obtain ⟨priority, _, h⟩ := Option.bind_eq_some_iff.mp h
    obtain ⟨weight, _, h⟩ := Option.bind_eq_some_iff.mp h
    obtain ⟨port, _, h⟩ := Option.bind_eq_some_iff.mp h
    cases h
    exact ⟨priority, weight, port, _, rfl, by simp only [Builder.u16, List.append_assoc]⟩
  · cases h

theorem dsRdata_length {tokens : List Text} {b : Bytes} (h : dsRdata tokens = .ok (some b)) :
    b.length = 4 + (utf8 ((tokens.getD 3 []).filter (· ≠ ' '))).length / 2 := by
  unfold dsRdata at h
  split at h
  · next tag algorithm digestType digest rest =>
    split at h
    · cases hd : hexDecodeField digest with
      | error e => rw [hd] at h; cases h
      | ok o =>
        rw [hd] at h
        cases o with
        | none => cases h
        | some octets =>
          cases h
          have hlen : (utf8 (digest.filter (· ≠ ' '))).length = 2 * octets.length := by
            unfold hexDecodeField at hd
            dsimp only at hd
            split at hd
            · cases hd
            · exact hexPairs_octets hd
          simp only [List.getD_cons_succ, List.getD_cons_zero, hlen, Builder.u16, Builder.u8, Builder.raw,
            List.length_append, be16_length, List.length_cons, List.length_nil]
          omega
    · cases h
  · cases h

theorem dnskeyRdata_length {tokens : List Text} {b : Bytes} (h : dnskeyRdata tokens = some b) :
    b.length = 4 + base64Size (utf8 ((tokens.drop 3).flatten.filter fun c => !isWhitespace c)) := by
  unfold dnskeyRdata at h
  split at h
  · obtain ⟨flags, _, h⟩ := Option.bind_eq_some_iff.mp h
    obtain ⟨protocol, _, h⟩ := Option.bind_eq_some_iff.mp h
    obtain ⟨algorithm, _, h⟩ := Option.bind_eq_some_iff.mp h
    obtain ⟨key, hkey, h⟩ := Option.bind_eq_some_iff.mp h
    cases h
    have hlen := base64Chunks_length hkey
    simp only [List.drop_succ_cons, List.drop_zero, ← hlen, Builder.u16, Builder.u8, Builder.raw, List.length_append,
      be16_length, List.length_cons, List.length_nil]
  · cases h

theorem Builds.shape (h : s.Builds r) : s.Shape r.rdata := by
  obtain ⟨t, ht, hbuild⟩ := h.rdata
  obtain ⟨first, rest, hfields⟩ := List.exists_cons_of_ne_nil h.fields
  have htype := rtype_of_buildRdata hbuild
  unfold buildRdata at hbuild
  rw [ht] at htype hbuild
  simp only [fileTypes, List.mem_cons, List.not_mem_nil, or_false] at htype
  have target (hs : s.rtype = .NS ∨ s.rtype = .CNAME ∨ s.rtype = .PTR) : s.targets = [fqdn first s.origin] := by
    rcases hs with hs | hs | hs <;> rw [targets, hs, hfields] <;> rfl
  rcases htype with hs | hs | hs | hs | hs | hs | hs | hs | hs | hs | hs <;>
    simp only [hs, Except.ok.injEq, Option.some.injEq] at hbuild
  · -- A
    have hlen := readIpv4_length (parseWith_some hbuild)
    exact .address (.inl hs) (by omega)
  · -- AAAA
    exact .address (.inr hs) (readIpv6_length (parseWith_some hbuild))
  · -- NS
    rw [← hbuild, hfields]
    exact .target (.inl hs) (target (.inl hs))
  · -- CNAME
    rw [← hbuild, hfields]
    exact .target (.inr (.inl hs)) (target (.inr (.inl hs)))
  · -- PTR
    rw [← hbuild, hfields]
    exact .target (.inr (.inr hs)) (target (.inr (.inr hs)))
  · -- MX
    obtain ⟨preference, n, htargets, hdata⟩ := shape_mx hbuild
    rw [hdata]
    exact .mx preference hs (by rw [targets, hs]; exact htargets)
  · -- SOA
    obtain ⟨m, n, serial, refresh, retry, expire, minimum, htargets, hdata⟩ := shape_soa hbuild
    rw [hdata]
    exact .soa serial refresh retry expire minimum hs (by rw [targets, hs]; exact htargets)
  · -- TXT
    refine .sized (.inl hs) ?_
    rw [← hbuild, dataSize, hs]
    exact txtFields_length s.fields
  · -- SRV
    obtain ⟨priority, weight, port, n, htargets, hdata⟩ := shape_srv hbuild
    rw [hdata]
    exact .srv priority weight port hs (by rw [targets, hs]; exact htargets)
  · -- DS
    exact .sized (.inr (.inl hs)) (by rw [dataSize, hs]; exact dsRdata_length hbuild)
  · -- DNSKEY
    exact .sized (.inr (.inr hs)) (by rw [dataSize, hs]; exact dnskeyRdata_length hbuild)

/-- A type that sets its data no bound is one whose data the source measures. -/
theorem Shape.dataSize_of_bounded {b : Bytes} (h : s.Shape b) : s.dataSize = 0 ∨ s.dataSize = b.length := by
  cases h with
  | address ht _ => rcases ht with ht | ht <;> simp [dataSize, ht]
  | target ht _ => rcases ht with ht | ht | ht <;> simp [dataSize, ht]
  | mx _ ht _ | srv _ _ _ ht _ | soa _ _ _ _ _ ht _ => simp [dataSize, ht]
  | sized _ hlen => exact .inr hlen.symm

theorem Shape.of_target {b : Bytes} (h : s.Shape b) (ht : s.rtype = .NS ∨ s.rtype = .CNAME ∨ s.rtype = .PTR) :
    ∃ n, s.targets = [n] ∧ b = canonicalName n := by
  cases h with
  | target _ hn => exact ⟨_, hn, rfl⟩
  | address hs _ => rcases hs with hs | hs <;> exact absurd ht (by rw [hs]; decide)
  | sized hs _ => rcases hs with hs | hs | hs <;> exact absurd ht (by rw [hs]; decide)
  | mx _ hs _ | srv _ _ _ hs _ | soa _ _ _ _ _ hs _ => exact absurd ht (by rw [hs]; decide)

/-- The data of a source that fits is written out in full, and RDLENGTH can announce it. -/
theorem Fits.expanded (h : s.Fits) (ho : toAsciiLowercase s.origin = s.origin) {b : Bytes} (hb : s.Shape b) :
    ExpandedRdata s.rtype b ∧ b.length ≤ 65535 := by
  have fits {n : Text} (hn : n ∈ s.targets) : FitsWire n := h.names n (List.mem_cons_of_mem _ hn)
  have lower {n : Text} (hn : n ∈ s.targets) : toAsciiLowercase n = n := targets_lower ho n hn
  -- every name in the data is at most 255 octets, so only the sized types need their bound
  cases hb with
  | address ht hlen =>
    have hle : b.length ≤ 65535 := by omega
    rcases ht with ht | ht <;> rw [ht] <;> exact ⟨hle, hle⟩
  | @target n ht hn =>
    have hmem : n ∈ s.targets := by rw [hn]; exact List.mem_singleton_self n
    have hlen := (fits hmem).length
    rw [canonicalName_noEmptyLabel (lower hmem) (h.target ht n hmem)]
    refine ⟨?_, by omega⟩
    rcases ht with ht | ht | ht <;> rw [ht] <;>
      exact ⟨(fits hmem).domain, (fits hmem).lower (lower hmem), (fits hmem).wire.symm⟩
  | @mx n preference ht hn =>
    have hmem : n ∈ s.targets := by rw [hn]; exact List.mem_singleton_self n
    have hlen := (fits hmem).length
    rw [ht]
    refine ⟨⟨preference, (fits hmem).domain, (fits hmem).lower (lower hmem), by rw [(fits hmem).wire]⟩, ?_⟩
    simp only [List.length_append, be16_length]
    omega
  | @soa m n serial refresh retry expire minimum ht hn =>
    have hm : m ∈ s.targets := by rw [hn]; exact List.mem_cons_self
    have hmem : n ∈ s.targets := by rw [hn]; exact List.mem_cons_of_mem m (List.mem_singleton_self n)
    have hlen := (fits hm).length
    have hlen' := (fits hmem).length
    rw [ht]
    refine ⟨⟨(fits hm).domain, (fits hmem).domain, serial, refresh, retry, expire, minimum, (fits hm).lower (lower hm),
      (fits hmem).lower (lower hmem), by rw [(fits hm).wire, (fits hmem).wire]⟩, ?_⟩
    simp only [List.length_append, be32_length]
    omega
  | @srv n priority weight port ht hn =>
    have hmem : n ∈ s.targets := by rw [hn]; exact List.mem_singleton_self n
    have hlen := (fits hmem).length
    rw [ht]
    refine ⟨⟨priority, weight, port, (fits hmem).domain, (fits hmem).lower (lower hmem), by rw [(fits hmem).wire]⟩, ?_⟩
    simp only [List.length_append, be16_length]
    omega
  | sized ht hlen =>
    have hle : b.length ≤ 65535 := by rw [hlen]; exact h.data
    rcases ht with ht | ht | ht <;> rw [ht] <;> exact ⟨hle, hle⟩

theorem Builds.normalised (h : s.Builds r) : Normalised r.rtype := by
  obtain ⟨t, ht, hbuild⟩ := h.rdata
  have htype := rtype_of_buildRdata hbuild
  rw [ht, ← h.rtype] at htype
  simp only [fileTypes, List.mem_cons, List.not_mem_nil, or_false] at htype
  rcases htype with hs | hs | hs | hs | hs | hs | hs | hs | hs | hs | hs <;> rw [hs] <;> rfl

theorem Builds.sendable (h : s.Builds r) (hf : s.Fits) : s.Sendable r := by
  have howner := hf.names s.owner List.mem_cons_self
  obtain ⟨hx, hlen⟩ := hf.expanded h.originLower h.shape
  have hname : r.name = howner.domain.text := by
    rw [h.name]
    exact hf.owner.trans (by rw [zoneLabels, h.lower]; rfl)
  rw [← h.rtype] at hx
  exact ⟨(record_decodes (howner.lower h.lower) hname h.normalised hx hlen).run, hf.names, hlen⟩

/-- What is read of a record whose owner fits. -/
theorem Builds.record_read (h : s.Builds r) (howner : FitsWire s.owner) (hlen : r.rdata.length ≤ 65535) :
    ∃ head : Bytes, Builder.record r = head ++ (r.rdata ++ []) ∧ Parser.record (Builder.record r) 0 =
      (.ok { r with name := Parser.joinLabels (labelsOf s.owner),
                    rdata := decompressRdata (head ++ (r.rdata ++ [])) r.rtype r.rdata head.length },
        (Builder.record r).length) := by
  have hrec : Builder.record r =
      recordHead howner.domain.wire r.rtype.toU16 r.rclass r.ttl (UInt16.ofNat r.rdata.length) ++
      (r.rdata ++ []) := by
    simp only [Builder.record, recordHead, Builder.u16, Builder.u32, Builder.raw, h.name, howner.wire, List.append_assoc,
      List.append_nil]
  have hrun := record_run (howner.domain.decodes (howner.lower h.lower)) r.rtype.toU16 r.rclass r.ttl r.rdata
    (by omega) [] []
  refine ⟨_, hrec, ?_⟩
  rw [hrec]
  simp only [List.nil_append] at hrun
  rw [List.length_nil] at hrun
  rw [hrun, h.normalised, List.append_nil]
  rfl

theorem Sendable.fits (hs : s.Sendable r) (h : s.Builds r) : s.Fits := by
  have howner := hs.names s.owner List.mem_cons_self
  obtain ⟨head, hrec, hread⟩ := h.record_read howner hs.rdata
  have heq := Except.ok.inj (Prod.mk.inj (hread.symm.trans hs.readsBack)).1
  refine ⟨hs.names, ?_, fun ht n hn => ?_, ?_⟩
  · have hname : Parser.joinLabels (labelsOf s.owner) = s.owner := (congrArg Record.name heq).trans h.name
    rw [Spelt, zoneLabels, h.lower, hname]
  · -- an empty label would cut the data
    by_contra hempty
    have hdata : decompressRdata (head ++ (r.rdata ++ [])) r.rtype r.rdata head.length = r.rdata :=
      congrArg Record.rdata heq
    obtain ⟨m, hm, hcanonical⟩ := h.shape.of_target ht
    rw [hm, List.mem_singleton] at hn
    subst hn
    have hmem : n ∈ s.targets := by rw [hm]; exact List.mem_singleton_self n
    rw [hcanonical] at hdata
    have hfit := hs.names n (List.mem_cons_of_mem _ hmem)
    exact decompressRdata_emptyLabel (by rw [h.rtype]; exact ht) (targets_lower h.originLower n hmem) hfit hempty head []
      hdata
  · rcases h.shape.dataSize_of_bounded with hsize | hsize
    · omega
    · rw [hsize]; exact hs.rdata

theorem Builds.sendable_iff (h : s.Builds r) : s.Sendable r ↔ s.Fits := ⟨fun hs => hs.fits h, h.sendable⟩

theorem ttlField_snd (defaultTtl defaultTtl' : UInt32) (fields : List Text) :
    (ttlField defaultTtl fields).2 = (ttlField defaultTtl' fields).2 := by
  cases fields with
  | nil => rfl
  | cons t rest =>
    simp only [ttlField]
    split
    · rfl
    · split <;> rfl

theorem builds_of_fields {origin name last : Text} {defaultTtl : UInt32} {fields : List Text}
    (h : recordFields origin name defaultTtl fields = .ok (last, some r)) (hlow : toAsciiLowercase name = name)
    (ho : toAsciiLowercase origin = origin) : ∃ s, ofFields origin name fields = some s ∧ s.Builds r := by
  unfold recordFields at h
  rw [ttlField_snd defaultTtl 0] at h
  unfold ofFields
  generalize classField (ttlField 0 fields).2 = found at h ⊢
  obtain _ | ⟨t, _ | ⟨first, rest⟩⟩ := found
  · cases h
  · cases h
  · dsimp only at h ⊢
    cases hbuild : buildRdata (toUppercase t) (first :: rest) origin with
    | error e => rw [hbuild] at h; cases h
    | ok built =>
      rw [hbuild] at h
      cases built with
      | none => cases h
      | some rdata =>
        cases h
        exact ⟨_, rfl, rfl, rfl, rfl, List.cons_ne_nil first rest, ⟨_, rfl, hbuild⟩, hlow, ho⟩

end RecordSource

/-- A context whose names are in lower case. -/
structure LineContext.Lower (ctx : LineContext) : Prop where
  origin : toAsciiLowercase ctx.origin = ctx.origin
  lastName : toAsciiLowercase ctx.lastName = ctx.lastName

/-! The records of a file. -/

section
variable {ctx ctx' : LineContext} {text : Text} {r : Record}

/-- A text is a record line, or it has no record and keeps the owner before it. -/
theorem readText_cases {out : Option Record} (h : readText ctx text = .ok (ctx', out)) :
    (out = none ∧ ctx'.lastName = ctx.lastName) ∨
      parseRecord ctx.origin ctx.lastName ctx.defaultTtl (text.head?.any isWhitespace) (tokenizeZoneLine (trim text)) =
        .ok (ctx'.lastName, out) := by
  simp only [readText] at h
  split at h
  · cases h; exact .inl ⟨rfl, rfl⟩
  split at h
  · cases h; exact .inl ⟨rfl, rfl⟩
  split at h
  · cases h; exact .inl ⟨rfl, rfl⟩
  split at h
  · cases h; exact .inl ⟨rfl, rfl⟩
  · cases hp : parseRecord ctx.origin ctx.lastName ctx.defaultTtl (text.head?.any isWhitespace)
        (tokenizeZoneLine (trim text)) with
    | error e => rw [hp] at h; cases h
    | ok out' => rw [hp] at h; cases h; exact .inr rfl

theorem readText_lower {out : Option Record} (h : readText ctx text = .ok (ctx', out)) (hl : ctx.Lower) : ctx'.Lower := by
  refine ⟨?_, ?_⟩
  · rw [readText_origin h, originDirective]
    split
    · cases (splitWhitespace (trim text))[1]? with
      | none => exact hl.origin
      | some o => exact toAsciiLowercase_idem _
    · exact hl.origin
  · rcases readText_cases h with ⟨-, hsame⟩ | hparse
    · rw [hsame]; exact hl.lastName
    · exact (parseRecord_fileRecord hparse hl.origin hl.lastName).1

/-- A record read from a text is built from the text's source. -/
theorem builds_of_readText (h : readText ctx text = .ok (ctx', some r)) (hl : ctx.Lower) :
    ∃ s, RecordSource.ofText ctx text = some s ∧ s.Builds r := by
  have hparse := (readText_cases h).resolve_left fun hnone => Option.some_ne_none r hnone.1
  rw [RecordSource.ofText]
  generalize tokenizeZoneLine (trim text) = tokens at hparse ⊢
  obtain _ | ⟨first, _ | ⟨second, rest⟩⟩ := tokens
  · exact absurd (congrArg Prod.snd (Except.ok.inj hparse)).symm (Option.some_ne_none r)
  · exact absurd (congrArg Prod.snd (Except.ok.inj hparse)).symm (Option.some_ne_none r)
  · rw [parseRecord_eq (List.cons_ne_nil second rest)] at hparse
    dsimp only
    split at hparse
    · next hnamed =>
      rw [if_pos hnamed]
      exact RecordSource.builds_of_fields hparse (ownerName_lower hl.origin) hl.origin
    · next hnamed =>
      rw [if_neg hnamed]
      exact RecordSource.builds_of_fields hparse hl.lastName hl.origin

end

/-- A record that texts enter, with its source: each text is read in the context the texts before it leave. -/
inductive Enters : LineContext → List Text → RecordSource → Record → Prop where
  | here {ctx next : LineContext} {text : Text} {texts : List Text} {s : RecordSource} {r : Record} :
      readText ctx text = .ok (next, some r) → RecordSource.ofText ctx text = some s → Enters ctx (text :: texts) s r
  | later {ctx next : LineContext} {text : Text} {texts : List Text} {out : Option Record} {s : RecordSource}
      {r : Record} :
      readText ctx text = .ok (next, out) → Enters next texts s r → Enters ctx (text :: texts) s r

theorem Enters.builds {ctx : LineContext} {texts : List Text} {s : RecordSource} {r : Record} (h : Enters ctx texts s r)
    (hl : ctx.Lower) : s.Builds r := by
  induction h with
  | here hread hs =>
    obtain ⟨s', hs', hbuilds⟩ := builds_of_readText hread hl
    rw [hs] at hs'
    rwa [Option.some.inj hs']
  | later hread _ ih => exact ih (readText_lower hread hl)

/-- The records read are those the texts enter. -/
theorem mem_readTexts : ∀ {texts : List Text} {ctx ctx' : LineContext} {rs : List Record},
    readTexts ctx texts = .ok (ctx', rs) → ctx.Lower → ∀ {r : Record}, r ∈ rs ↔ ∃ s, Enters ctx texts s r
  | [], ctx, ctx', rs, h, _, r => by
    cases h
    refine iff_of_false List.not_mem_nil ?_
    rintro ⟨s, henters⟩
    cases henters
  | text :: texts, ctx, ctx', rs, h, hl, r => by
    obtain ⟨next, out, rest, hr, hrest, rfl⟩ := readTexts_cons_ok h
    rw [List.mem_append, Option.mem_toList, mem_readTexts hrest (readText_lower hr hl)]
    constructor
    · rintro (hout | ⟨s, hs⟩)
      · rw [Option.mem_def.mp hout] at hr
        obtain ⟨s, hs, _⟩ := builds_of_readText hr hl
        exact ⟨s, .here hr hs⟩
      · exact ⟨s, .later hr hs⟩
    · rintro ⟨s, hs⟩
      cases hs with
      | here hread _ =>
        rw [hr] at hread
        exact .inl (congrArg Prod.snd (Except.ok.inj hread))
      | later hread hlater =>
        rw [hr] at hread
        cases hread
        exact .inr ⟨s, hlater⟩

/-- **Which records survive the wire.** Of a file that loads, the zone holds the records its texts enter, and each of
    them can be sent and read back, within the format's lengths, exactly when its source fits. -/
theorem loadFile_sendable_iff (origin content : Text) (z : Zone) (h : (Zone.new origin).loadFile content = .ok z) :
    (∀ r, z.Holds r ↔ ∃ s, Enters (.start (Zone.new origin).origin) (recordTexts content) s r) ∧
      ∀ s r, Enters (.start (Zone.new origin).origin) (recordTexts content) s r → (s.Sendable r ↔ s.Fits) := by
  have hlower : (LineContext.start (Zone.new origin).origin).Lower :=
    ⟨(Zone.loaded_new origin).origin, (Zone.loaded_new origin).origin⟩
  refine ⟨fun r => ?_, fun s r henters => (henters.builds hlower).sendable_iff⟩
  rw [Zone.loadFile_eq] at h
  cases hread : readTexts (.start (Zone.new origin).origin) (recordTexts content) with
  | error e => rw [hread] at h; cases h
  | ok out =>
    rw [hread] at h
    cases h
    rw [← mem_readTexts hread hlower]
    exact (Zone.holds_foldl_add out.2 (Zone.new origin)).trans (or_iff_right (Zone.not_holds_new origin r))

theorem hostFile_sendable : ∃ z, (Zone.new ['x']).loadFile RecordLine.hostText = .ok z ∧
    (∀ r, z.Holds r ↔ ∃ s, Enters (.start (Zone.new ['x']).origin) (recordTexts RecordLine.hostText) s r) ∧
      ∀ s r, Enters (.start (Zone.new ['x']).origin) (recordTexts RecordLine.hostText) s r → (s.Sendable r ↔ s.Fits) := by
  have hread : readTexts (.start (Zone.new ['x']).origin) (recordTexts RecordLine.hostText) =
      .ok (⟨3600, ['x'], ['w', '.', 'x']⟩, [hostRecord]) := by decide
  obtain ⟨z, hload, -⟩ := Zone.loadFile_of_read hread
  exact ⟨z, hload, loadFile_sendable_iff ['x'] RecordLine.hostText z hload⟩

/-- An owner of 192 octets, whose length octet is a pointer's. -/
def longOwner : Text := List.replicate 192 'w' ++ ['.', 'x']

def longOwnerFile : Text := List.replicate 192 'w' ++ " A 192.0.2.1".toList

/-- The record is entered, with a label that is too long, and its octets are no record. -/
theorem longOwner_unsendable : ∃ z r, (Zone.new ['x']).loadFile longOwnerFile = .ok z ∧ z.Holds r ∧
    (∃ l ∈ labelsOf r.name, 63 < (utf8 l).length) ∧
    Parser.record (Builder.record r) 0 ≠ (.ok r, (Builder.record r).length) := by
  have hread : readTexts (.start (Zone.new ['x']).origin) (recordTexts longOwnerFile) =
      .ok (⟨3600, ['x'], longOwner⟩, [{ hostRecord with name := longOwner }]) := by decide +kernel
  refine ⟨_, { hostRecord with name := longOwner }, by rw [Zone.loadFile_eq, hread]; rfl, ?_, by decide +kernel, ?_⟩
  · exact (Zone.holds_foldl_add _ (Zone.new ['x'])).mpr (.inr (List.mem_singleton_self _))
  · intro hread
    have hsome : ((Parser.record (Builder.record { hostRecord with name := longOwner }) 0).1.toOption).isSome := by
      rw [hread]; rfl
    exact absurd hsome (by decide +kernel)

end Ironbind
