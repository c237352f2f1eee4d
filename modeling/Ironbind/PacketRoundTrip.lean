import Ironbind.NameWire

/- Decoding undoes encoding, for whole packets. Every field of the format is read
   back from its own octets wherever they stand (`u16_decodes`, `name_decodes`,
   `record_decodes`, ...), and the rules of `Decodes` put the fields together in
   the order `serialize` writes them. Record data that holds names is the one
   place where the parser looks at the packet again, through
   `decompressRdata`: on names that are written out in full it gives the data
   back (`decompressRdata_expanded`). RDLENGTH has 16 bits, so data of 65536
   octets is announced as empty; `longMx_not_recovered` is a packet that is lost
   that way. -/
namespace Ironbind
open Codec

/-! Integers and octet strings. -/

theorem u8_decodes (b : UInt8) : Decodes Parser.u8 [b] b := by
  intro pre post
  have h : (pre ++ ([b] ++ post))[pre.length]? = some b := by simp
  have hp : Parser.peek (pre ++ ([b] ++ post)) pre.length = (.ok b, pre.length) := by
    simp only [Parser.peek, h]
  rw [Parser.u8, Reader.bind_ok hp]
  rfl

theorem u16_decodes (v : UInt16) : Decodes Parser.u16 (be16 v) v := by
  have h := (u8_decodes (v >>> 8).toUInt8).bind' (f := fun hi => Parser.u8 >>= fun lo =>
    Pure.pure (hi.toUInt16 <<< (8 : UInt16) ||| lo.toUInt16)) (u8_decodes v.toUInt8).map'
  rwa [join16_split] at h

theorem u32_decodes (v : UInt32) : Decodes Parser.u32 (be32 v) v := by
  have h := (u16_decodes (v >>> 16).toUInt16).bind' (f := fun hi => Parser.u16 >>= fun lo =>
    Pure.pure (hi.toUInt32 <<< (16 : UInt32) ||| lo.toUInt32)) (u16_decodes v.toUInt16).map'
  rwa [join32_split, ← be32_halves] at h

theorem bytes_decodes (d : Bytes) : Decodes (Parser.bytes d.length) d d := by
  intro pre post
  have hlen : ¬ pre.length + d.length > (pre ++ (d ++ post)).length := by
    simp only [List.length_append]; omega
  simp only [Parser.bytes, if_neg hlen, List.drop_left, List.take_left]

/-! Names as the format carries them. -/

/-- A label: one to 63 octets of UTF-8, no dot among its characters. -/
structure IsLabel (l : Text) : Prop where
  no_dot : '.' ∉ l
  pos : 0 < (utf8 l).length
  le_63 : (utf8 l).length ≤ 63

/-- A domain name: labels from the leaf to the root. -/
structure DomainName where
  labels : List Text
  wf : ∀ l ∈ labels, IsLabel l

/-- The labels joined by dots, "." for the root. -/
def DomainName.text (n : DomainName) : Text := Parser.joinLabels n.labels

/-- The uncompressed encoding. -/
def DomainName.wire (n : DomainName) : Bytes := encodeLabels n.labels ++ [0]

/-- No label holds an upper-case ASCII letter. -/
def DomainName.Lower (n : DomainName) : Prop := n.labels.map toAsciiLowercase = n.labels

theorem IsLabel.wireLabel {l : Text} (h : IsLabel l) : WireLabel l := ⟨h.pos, by have := h.le_63; omega⟩
theorem IsLabel.ne_nil {l : Text} (h : IsLabel l) : l ≠ [] := by
  rintro rfl; exact absurd h.pos (by decide)

namespace DomainName
variable (n : DomainName)

theorem labelsOf_text : labelsOf n.text = n.labels :=
  labelsOf_joinLabels (fun l h => (n.wf l h).no_dot) (fun l h => (n.wf l h).ne_nil)

theorem builder_text : Builder.name n.text = n.wire := by rw [Builder.name_eq, labelsOf_text]; rfl

/-- A lower-case name is read back from its encoding. -/
theorem decodes (hl : n.Lower) : Decodes Parser.name n.wire n.text := by
  have h := name_decodes (fun l h => (n.wf l h).wireLabel)
  rwa [hl] at h

/-- The canonical encoder writes a lower-case name the same way. -/
theorem canonicalName_text (hl : n.Lower) : canonicalName n.text = n.wire := by
  rw [text, canonicalName_joinLabels (fun l h => (n.wf l h).no_dot) (fun l h => (n.wf l h).ne_nil), hl]
  rfl

end DomainName

/-! Record data. -/

/-- A record type that is not `Unknown` of a code with a variant of its own. -/
def Normalised (t : RType) : Prop := RType.ofU16 t.toU16 = t

/-- Record data as it stands when nothing is compressed: where the type's data holds names,
    they are lower-case names written out in full among the fixed fields; other data is any
    string RDLENGTH can announce. -/
def ExpandedRdata (t : RType) (rdata : Bytes) : Prop :=
  match t with
  | .NS | .CNAME | .PTR => ∃ n : DomainName, n.Lower ∧ rdata = n.wire
  | .MX => ∃ (preference : UInt16) (n : DomainName), n.Lower ∧ rdata = be16 preference ++ n.wire
  | .SOA => ∃ (mname rname : DomainName) (serial refresh retry expire minimum : UInt32),
      mname.Lower ∧ rname.Lower ∧ rdata = mname.wire ++ (rname.wire ++ (be32 serial ++ (be32 refresh ++
        (be32 retry ++ (be32 expire ++ be32 minimum)))))
  | .SRV => ∃ (priority weight port : UInt16) (n : DomainName),
      n.Lower ∧ rdata = be16 priority ++ (be16 weight ++ (be16 port ++ n.wire))
  | _ => rdata.length ≤ 65535

theorem nameAt_wire {n : DomainName} (hl : n.Lower) (pre post : Bytes) :
    nameAt (pre ++ (n.wire ++ post)) pre.length = .ok n.text := by
  rw [nameAt, n.decodes hl pre post]

theorem soaFields_decodes {mname rname : DomainName} (hm : mname.Lower) (hr : rname.Lower)
    (serial refresh retry expire minimum : UInt32) :
    Decodes soaFields (mname.wire ++ (rname.wire ++ (be32 serial ++ (be32 refresh ++ (be32 retry ++
        (be32 expire ++ be32 minimum))))))
      (mname.text, rname.text, serial, refresh, retry, expire, minimum) :=
  (mname.decodes hm).bind' <| (rname.decodes hr).bind' <| (u32_decodes serial).bind' <|
    (u32_decodes refresh).bind' <| (u32_decodes retry).bind' <| (u32_decodes expire).bind' <|
      (u32_decodes minimum).map'

/-- Expanding names that are already written out changes nothing, wherever the data stands. -/
theorem decompressRdata_expanded {t : RType} {rdata : Bytes} (h : ExpandedRdata t rdata) (pre post : Bytes) :
    decompressRdata (pre ++ (rdata ++ post)) t rdata pre.length = rdata := by
  cases t
  case NS | CNAME | PTR =>
    obtain ⟨n, hl, rfl⟩ := h
    simp only [decompressRdata, nameAt_wire hl, n.canonicalName_text hl]
  case MX =>
    obtain ⟨preference, n, hl, rfl⟩ := h
    have hname : nameAt (pre ++ (be16 preference ++ n.wire ++ post)) (pre.length + 2) = .ok n.text := by
      have := nameAt_wire hl (pre ++ be16 preference) post
      rwa [List.length_append, be16_length, List.append_assoc, ← List.append_assoc _ n.wire post] at this
    simp only [be16, List.cons_append, List.nil_append] at hname ⊢
    simp only [decompressRdata, hname, join16_split, n.builder_text]
    rfl
  case SRV =>
    obtain ⟨priority, weight, port, n, hl, rfl⟩ := h
    have hname : nameAt (pre ++ (be16 priority ++ (be16 weight ++ (be16 port ++ n.wire)) ++ post))
        (pre.length + 6) = .ok n.text := by
      have := nameAt_wire hl (pre ++ (be16 priority ++ (be16 weight ++ be16 port))) post
      rw [← this]
      simp
    simp only [be16, List.cons_append, List.nil_append] at hname ⊢
    simp only [decompressRdata, hname, join16_split, n.builder_text]
    rfl
  case SOA =>
    obtain ⟨mname, rname, serial, refresh, retry, expire, minimum, hm, hr, rfl⟩ := h
    have hrun := soaFields_decodes hm hr serial refresh retry expire minimum pre post
    simp only [decompressRdata]
    rw [hrun]
    simp only [mname.builder_text, rname.builder_text, Builder.u32, List.append_assoc]
  all_goals rfl

/-! Records and questions. -/

/-- A record's fields in front of its data. -/
def recordHead (nameOctets : Bytes) (rtype rclass : UInt16) (ttl : UInt32) (rdlen : UInt16) : Bytes :=
  nameOctets ++ (be16 rtype ++ (be16 rclass ++ (be32 ttl ++ be16 rdlen)))

/-- Reading a record: its head, as much data as RDLENGTH announces, then the names inside that data. -/
theorem record_run {nameOctets : Bytes} {name : Text} (hn : Decodes Parser.name nameOctets name)
    (rtype rclass : UInt16) (ttl : UInt32) (data : Bytes) (hd : data.length < 65536) (pre post : Bytes) :
    Parser.record (pre ++ (recordHead nameOctets rtype rclass ttl (UInt16.ofNat data.length) ++ (data ++ post)))
        pre.length =
      (.ok { name := name, rtype := .ofU16 rtype, rclass := rclass, ttl := ttl,
             rdata := decompressRdata (pre ++ (recordHead nameOctets rtype rclass ttl
               (UInt16.ofNat data.length) ++ (data ++ post))) (.ofU16 rtype) data
               (pre ++ recordHead nameOctets rtype rclass ttl (UInt16.ofNat data.length)).length },
        (pre ++ recordHead nameOctets rtype rclass ttl (UInt16.ofNat data.length) ++ data).length) := by
  have hlen : (UInt16.ofNat data.length).toNat = data.length := UInt16.toNat_ofNat_of_lt' hd
  have hbytes := bytes_decodes data
  rw [← hlen] at hbytes
  simp only [recordHead, List.append_assoc]
  rw [Parser.record, hn.step, (u16_decodes rtype).step, (u16_decodes rclass).step, (u32_decodes ttl).step,
    (u16_decodes _).step]
  rw [show ∀ (f : Nat → Parser Record) b p, (Reader.position >>= f) b p = f p b p from fun _ _ _ => rfl,
    hbytes.step]
  rw [show ∀ (f : Bytes → Parser Record) b p, (Reader.buffer >>= f) b p = f b b p from fun _ _ _ => rfl,
    Reader.pure_run]
  simp only [List.append_assoc]

/-- A record whose data is written out in full is read back as it is. -/
theorem record_decodes {r : Record} {n : DomainName} (hl : n.Lower) (hname : r.name = n.text)
    (ht : Normalised r.rtype) (hx : ExpandedRdata r.rtype r.rdata) (hlen : r.rdata.length ≤ 65535) :
    Decodes Parser.record (Builder.record r) r := by
  intro pre post
  have hrec : Builder.record r =
      recordHead n.wire r.rtype.toU16 r.rclass r.ttl (UInt16.ofNat r.rdata.length) ++ r.rdata := by
    simp only [Builder.record, recordHead, Builder.u16, Builder.u32, Builder.raw, hname, n.builder_text,
      List.append_assoc]
  have hrun := record_run (n.decodes hl) r.rtype.toU16 r.rclass r.ttl r.rdata (by omega) pre post
  have hdata := decompressRdata_expanded hx
    (pre ++ recordHead n.wire r.rtype.toU16 r.rclass r.ttl (UInt16.ofNat r.rdata.length)) post
  rw [List.append_assoc] at hdata
  rw [hrec, List.append_assoc, hrun, ht, hdata, ← hname]
  simp

theorem question_decodes {q : Question} {n : DomainName} (hl : n.Lower) (hname : q.name = n.text)
    (ht : Normalised q.qtype) : Decodes Parser.question (Builder.question q) q := by
  have h := (n.decodes hl).bind' (f := fun name => Parser.u16 >>= fun qtype => Parser.u16 >>= fun qclass =>
      Pure.pure (Question.mk name (.ofU16 qtype) qclass))
    ((u16_decodes q.qtype.toU16).bind' (u16_decodes q.qclass).map')
  rw [ht] at h
  rw [Builder.question, hname, n.builder_text, List.append_assoc]
  cases q
  subst hname
  exact h

/-! Packets. -/

/-- The OPT record `Builder.opt` writes. -/
def optRecord (udpSize : UInt16) (dnssecOk : Bool) : Record where
  name := ['.']
  rtype := .OPT
  rclass := udpSize
  ttl := if dnssecOk then 0x8000 else 0
  rdata := []

theorem builder_opt (udpSize : UInt16) (dnssecOk : Bool) :
    Builder.opt udpSize dnssecOk = Builder.record (optRecord udpSize dnssecOk) := rfl

/-- The records `serialize` writes into the additional section. -/
def additionalWritten (pkt : Packet) : List Record :=
  pkt.additional ++ if pkt.ednsUdpSize > 0 then [optRecord pkt.ednsUdpSize pkt.dnssecOk] else []

/-- A packet the wire format is made for: lower-case names of proper labels, record types with
    one spelling, names in record data written out in full, no OPT among the additional
    records, counts of 16 bits, and the DO bit only with EDNS. -/
structure Expanded (pkt : Packet) : Prop where
  questions : ∀ q ∈ pkt.questions, (∃ n : DomainName, n.Lower ∧ q.name = n.text) ∧ Normalised q.qtype
  records : ∀ r ∈ pkt.answers ++ pkt.authority ++ pkt.additional,
    (∃ n : DomainName, n.Lower ∧ r.name = n.text) ∧ Normalised r.rtype ∧ ExpandedRdata r.rtype r.rdata
  no_opt : ∀ r ∈ pkt.additional, r.rtype ≠ .OPT
  question_count : pkt.questions.length < 65536
  answer_count : pkt.answers.length < 65536
  authority_count : pkt.authority.length < 65536
  additional_count : (additionalWritten pkt).length < 65536
  dnssec_ok : pkt.ednsUdpSize = 0 → pkt.dnssecOk = false

/-- A record the format carries: a name of labels it has room for, in lower case, and data written out in full. -/
structure Portable (r : Record) : Prop where
  owner : ∃ n : DomainName, n.Lower ∧ r.name = n.text
  rtype : Normalised r.rtype
  data : ExpandedRdata r.rtype r.rdata
  announced : r.rdata.length ≤ 65535

theorem ednsOf_no_opt {l : List Record} (h : ∀ r ∈ l, r.rtype ≠ .OPT) (acc : UInt16 × Bool) :
    l.foldl (fun acc r => if r.rtype = .OPT then (r.rclass, r.ttl &&& 0x8000 != 0) else acc) acc = acc := by
  induction l generalizing acc with
  | nil => rfl
  | cons r l ih =>
    rw [List.foldl_cons, if_neg (h r List.mem_cons_self)]
    exact ih (fun r' h' => h r' (List.mem_cons_of_mem r h')) acc

/-- The parser takes the OPT record out of the additional section again. -/
theorem filter_additionalWritten {pkt : Packet} (h : Expanded pkt) :
    (additionalWritten pkt).filter (fun r => r.rtype ≠ .OPT) = pkt.additional := by
  have hself : pkt.additional.filter (fun r => r.rtype ≠ .OPT) = pkt.additional :=
    List.filter_eq_self.mpr fun r hr => by simpa using h.no_opt r hr
  rw [additionalWritten, List.filter_append, hself]
  split <;> simp [optRecord]

/-- ... and reads the EDNS state from it. -/
theorem ednsOf_additionalWritten {pkt : Packet} (h : Expanded pkt) :
    Parser.ednsOf (additionalWritten pkt) = (pkt.ednsUdpSize, pkt.dnssecOk) := by
  rw [Parser.ednsOf, additionalWritten, List.foldl_append, ednsOf_no_opt h.no_opt]
  split
  · cases hd : pkt.dnssecOk <;> simp [optRecord]
  · next hz =>
    have hz : pkt.ednsUdpSize = 0 := by
      apply UInt16.toNat_inj.mp
      have := mt UInt16.lt_iff_toNat_lt.mpr hz
      rw [UInt16.toNat_zero] at this ⊢
      omega
    rw [List.foldl_nil, hz, h.dnssec_ok hz]

/-- What `serialize` writes, section by section. -/
theorem serialize_eq (pkt : Packet) : serialize pkt true =
    be16 pkt.id ++ (be16 pkt.flags ++ (be16 (UInt16.ofNat pkt.questions.length) ++
      (be16 (UInt16.ofNat pkt.answers.length) ++ (be16 (UInt16.ofNat pkt.authority.length) ++
      (be16 (UInt16.ofNat (additionalWritten pkt).length) ++ (pkt.questions.flatMap Builder.question ++
      (pkt.answers.flatMap Builder.record ++ (pkt.authority.flatMap Builder.record ++
      (additionalWritten pkt).flatMap Builder.record)))))))) := by
  simp only [serialize, Builder.u16, additionalWritten, Bool.true_and, decide_eq_true_eq, List.append_assoc]
  split <;> simp [builder_opt]

theorem record_decodes_of_expanded {pkt : Packet} (h : Expanded pkt)
    (hlen : ∀ r ∈ pkt.answers ++ pkt.authority ++ pkt.additional, r.rdata.length ≤ 65535)
    {r : Record} (hr : r ∈ pkt.answers ++ pkt.authority ++ pkt.additional) :
    Decodes Parser.record (Builder.record r) r := by
  obtain ⟨⟨n, hl, hname⟩, ht, hx⟩ := h.records r hr
  exact record_decodes hl hname ht hx (hlen r hr)

theorem optRecord_decodes (udpSize : UInt16) (dnssecOk : Bool) :
    Decodes Parser.record (Builder.record (optRecord udpSize dnssecOk)) (optRecord udpSize dnssecOk) :=
  record_decodes (n := ⟨[], fun _ h => absurd h List.not_mem_nil⟩) rfl rfl rfl (Nat.zero_le _) (Nat.zero_le _)

theorem additionalWritten_decodes {pkt : Packet} (h : Expanded pkt)
    (hlen : ∀ r ∈ pkt.answers ++ pkt.authority ++ pkt.additional, r.rdata.length ≤ 65535) :
    ∀ r ∈ additionalWritten pkt, Decodes Parser.record (Builder.record r) r := by
  intro r hr
  rcases List.mem_append.mp hr with hr | hr
  · exact record_decodes_of_expanded h hlen (List.mem_append_right _ hr)
  · split at hr
    · rw [List.mem_singleton.mp hr]; exact optRecord_decodes _ _
    · exact absurd hr List.not_mem_nil

/-- Repetition counted by a 16-bit field. -/
theorem times16_decodes {α : Type} {x : Parser α} (enc : α → Bytes) (l : List α) (hl : l.length < 65536)
    (h : ∀ a ∈ l, Decodes x (enc a) a) :
    Decodes (Reader.times (UInt16.ofNat l.length).toNat x) (l.flatMap enc) l := by
  rw [UInt16.toNat_ofNat_of_lt' hl]
  exact Decodes.times enc l h

/-- Wherever such a packet stands, it is read from its serialization. -/
theorem serialize_decodes {pkt : Packet} (h : Expanded pkt)
    (hlen : ∀ r ∈ pkt.answers ++ pkt.authority ++ pkt.additional, r.rdata.length ≤ 65535) :
    Decodes Parser.parse (serialize pkt true) pkt := by
  have hq : ∀ q ∈ pkt.questions, Decodes Parser.question (Builder.question q) q := by
    intro q hq
    obtain ⟨⟨n, hl, hname⟩, ht⟩ := h.questions q hq
    exact question_decodes hl hname ht
  have han : ∀ r ∈ pkt.answers, Decodes Parser.record (Builder.record r) r := fun r hr =>
    record_decodes_of_expanded h hlen (List.mem_append_left _ (List.mem_append_left _ hr))
  have hns : ∀ r ∈ pkt.authority, Decodes Parser.record (Builder.record r) r := fun r hr =>
    record_decodes_of_expanded h hlen (List.mem_append_left _ (List.mem_append_right _ hr))
  have hsections : Decodes Parser.parse _ (Packet.mk pkt.id pkt.flags pkt.questions pkt.answers pkt.authority
      ((additionalWritten pkt).filter (fun r => r.rtype ≠ .OPT)) (Parser.ednsOf (additionalWritten pkt)).1
      (Parser.ednsOf (additionalWritten pkt)).2) :=
    (u16_decodes _).bind' <| (u16_decodes _).bind' <| (u16_decodes _).bind' <| (u16_decodes _).bind' <|
      (u16_decodes _).bind' <| (u16_decodes _).bind' <|
      (times16_decodes Builder.question _ h.question_count hq).bind' <|
      (times16_decodes Builder.record _ h.answer_count han).bind' <|
      (times16_decodes Builder.record _ h.authority_count hns).bind' <|
      (times16_decodes Builder.record _ h.additional_count (additionalWritten_decodes h hlen)).map'
  rwa [filter_additionalWritten h, ednsOf_additionalWritten h, ← serialize_eq] at hsections

/-- **Decode undoes encode.** A packet of expanded records, none with more data than RDLENGTH can
    announce, is parsed back from its serialization as exactly that packet. -/
theorem parse_serialize (pkt : Packet) (h : Expanded pkt)
    (hlen : ∀ r ∈ pkt.answers ++ pkt.authority ++ pkt.additional, r.rdata.length ≤ 65535) :
    parsePacket (serialize pkt true) = .ok pkt := by
  rw [parsePacket, Reader.run, (serialize_decodes h hlen).run]

/-- A response with an MX answer, over EDNS with the DO bit. -/
def mxPacket : Packet where
  id := 7
  flags := 0x8180
  questions := [⟨['.'], .MX, CLASS_IN⟩]
  answers := [⟨['.'], .MX, CLASS_IN, 60, be16 10 ++ [1, 97, 0]⟩]
  authority := []
  additional := []
  ednsUdpSize := 4096
  dnssecOk := true

theorem rootName : ∃ n : DomainName, n.Lower ∧ (['.'] : Text) = n.text :=
  ⟨⟨[], fun _ h => absurd h List.not_mem_nil⟩, rfl, rfl⟩

def nameA : DomainName where
  labels := [['a']]
  wf := by
    intro l hl
    rw [List.mem_singleton.mp hl]
    exact ⟨by decide, by decide, by decide⟩

theorem mxPacket_expanded : Expanded mxPacket where
  questions := by
    intro q hq
    rw [List.mem_singleton.mp hq]
    exact ⟨rootName, rfl⟩
  records := by
    intro r hr
    rw [show r = ⟨['.'], .MX, CLASS_IN, 60, be16 10 ++ [1, 97, 0]⟩ by simpa [mxPacket] using hr]
    exact ⟨rootName, rfl, 10, nameA, by unfold DomainName.Lower nameA; decide, rfl⟩
  no_opt := by simp [mxPacket]
  question_count := by decide
  answer_count := by decide
  authority_count := by decide
  additional_count := by decide
  dnssec_ok := by decide

theorem parse_serialize_mxPacket : parsePacket (serialize mxPacket true) = .ok mxPacket :=
  parse_serialize mxPacket mxPacket_expanded (by decide)

/-! Data RDLENGTH cannot announce. -/

/-- A name of 1023 labels of 63 octets and one of 60. -/
def longName : DomainName where
  labels := List.replicate 1023 (List.replicate 63 'a') ++ [List.replicate 60 'a']
  wf := by
    intro l hl
    rcases List.mem_append.mp hl with hl | hl
    · rw [List.eq_of_mem_replicate hl]; exact ⟨by decide, by decide, by decide⟩
    · rw [List.mem_singleton.mp hl]; exact ⟨by decide, by decide, by decide⟩

theorem longName_lower : longName.Lower := by
  have h : ∀ n, toAsciiLowercase (List.replicate n 'a') = List.replicate n 'a' := fun n => by
    rw [toAsciiLowercase, List.map_replicate]; rfl
  rw [DomainName.Lower, longName, List.map_append, List.map_replicate, List.map_singleton, h, h]

theorem encodeLabels_replicate_length (n : Nat) (l : Text) :
    (encodeLabels (List.replicate n l)).length = n * ((utf8 l).length + 1) := by
  induction n with
  | zero => rw [List.replicate_zero, Nat.zero_mul]; rfl
  | succ n ih =>
    rw [List.replicate_succ, encodeLabels_cons, List.length_append, ih, Builder.label, List.length_cons,
      Nat.succ_mul, Nat.add_comm]

def longMx : Record := ⟨['.'], .MX, CLASS_IN, 60, be16 0 ++ longName.wire⟩

theorem longMx_length : longMx.rdata.length = 65536 := by
  have h63 : (utf8 (List.replicate 63 'a')).length = 63 := by decide
  have h60 : (Builder.label (List.replicate 60 'a')).length = 61 := by decide
  have hlast : encodeLabels [List.replicate 60 'a'] = Builder.label (List.replicate 60 'a') := by
    rw [encodeLabels_cons, encodeLabels_nil, List.append_nil]
  have hwire : longName.wire = encodeLabels (List.replicate 1023 (List.replicate 63 'a'))
      ++ encodeLabels [List.replicate 60 'a'] ++ [0] := by
    rw [DomainName.wire, longName, encodeLabels, List.flatMap_append]; rfl
  rw [longMx, List.length_append, hwire, List.length_append, List.length_append,
    encodeLabels_replicate_length, hlast, h60, h63]
  rfl

def longMxPacket : Packet := ⟨0, 0, [], [longMx], [], [], 0, false⟩

theorem longMxPacket_expanded : Expanded longMxPacket where
  questions := fun _ h => absurd h List.not_mem_nil
  records := by
    intro r hr
    rw [show r = longMx by simpa [longMxPacket] using hr]
    exact ⟨rootName, rfl, 0, longName, longName_lower, rfl⟩
  no_opt := fun _ h => absurd h List.not_mem_nil
  question_count := by decide
  answer_count := by show 1 < 65536; decide
  authority_count := by decide
  additional_count := by decide
  dnssec_ok := fun _ => rfl

/-- What the parser makes of it. -/
def bareMx : Record := { longMx with rdata := [] }

/-- Octets announced as empty are no data: the record ends with its head. -/
theorem longMx_decodes : Decodes Parser.record (recordHead [0] 15 1 60 0) bareMx := by
  intro pre post
  have hroot : Decodes Parser.name [0] ['.'] := @name_decodes [] fun _ h => absurd h List.not_mem_nil
  have h := record_run hroot 15 1 60 [] (by decide) pre post
  rw [List.nil_append, List.append_nil] at h
  rw [show (0 : UInt16) = UInt16.ofNat ([] : Bytes).length from rfl, h, List.length_append]
  rfl

/-- The record comes back without its data: 65536 is 0 in the 16 bits of RDLENGTH. -/
theorem longMx_not_recovered : Expanded longMxPacket ∧
    parsePacket (serialize longMxPacket true) ≠ .ok longMxPacket := by
  refine ⟨longMxPacket_expanded, fun h => ?_⟩
  have hrdlen : UInt16.ofNat longMx.rdata.length = 0 := by rw [longMx_length]; rfl
  have hrec : Builder.record longMx = recordHead [0] 15 1 60 0 ++ longMx.rdata := by
    rw [← hrdlen]
    simp only [Builder.record, recordHead, List.append_assoc]; rfl
  have hser : serialize longMxPacket true = [] ++ ((be16 0 ++ (be16 0 ++ (be16 0 ++ (be16 1 ++ (be16 0 ++
      (be16 0 ++ ([] ++ ((recordHead [0] 15 1 60 0 ++ []) ++ ([] ++ []))))))))) ++ longMx.rdata) := by
    rw [serialize_eq]
    show be16 0 ++ (be16 0 ++ (be16 0 ++ (be16 1 ++ (be16 0 ++ (be16 0 ++ ([] ++
      ((Builder.record longMx ++ []) ++ ([] ++ [])))))))) = _
    rw [hrec]
    simp only [List.append_nil, List.nil_append, List.append_assoc]
  have hrun : Decodes Parser.parse _ (Packet.mk 0 0 [] [bareMx] []
      (([] : List Record).filter (fun r => r.rtype ≠ .OPT)) (Parser.ednsOf []).1 (Parser.ednsOf []).2) :=
    (u16_decodes 0).bind' <| (u16_decodes 0).bind' <| (u16_decodes 0).bind' <| (u16_decodes 1).bind' <|
      (u16_decodes 0).bind' <| (u16_decodes 0).bind' <|
      (times16_decodes (x := Parser.question) Builder.question [] (by decide)
        (fun _ h => absurd h List.not_mem_nil)).bind' <|
      (times16_decodes (fun _ => recordHead [0] 15 1 60 0) [bareMx] (by decide)
        (fun r hr => by rw [List.mem_singleton.mp hr]; exact longMx_decodes)).bind' <|
      (times16_decodes (x := Parser.record) Builder.record [] (by decide) (fun _ h => absurd h List.not_mem_nil)).bind' <|
      (times16_decodes (x := Parser.record) Builder.record [] (by decide) (fun _ h => absurd h List.not_mem_nil)).map'
  rw [parsePacket, Reader.run, hser] at h
  have hgot := congrArg Prod.fst (hrun [] longMx.rdata)
  rw [List.length_nil] at hgot
  have hsame := Except.ok.inj (hgot.symm.trans h)
  have hdata : ([] : Bytes) = longMx.rdata :=
    congrArg Record.rdata (List.cons.inj (congrArg Packet.answers hsame)).1
  have := congrArg List.length hdata
  rw [longMx_length] at this
  exact absurd this (by decide)

end Ironbind
