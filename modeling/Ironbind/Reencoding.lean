import Ironbind.Lib.Placed
import Ironbind.RecordBounds

/- What is left of a message that is parsed and written again. The second reading
   finds every name where `serialize` put it (`parse_reread`): the labels of its text
   with no empty ones among them, so a text that is not `Spelt` comes back changed. The
   data of six record types is read as names once more, and is the same only if it is
   their names in full (`decompressRdata_eq_iff`). The EDNS state is written when its
   size is not 0, so a DO bit beside the size 0 is lost (`zeroSize_loses`). Together these
   are all that can happen to records whose data RDLENGTH can announce
   (`parse_serialize_iff`). -/
namespace Ironbind
open Codec

/-! Data written out in full. -/

/-- A name without pointers, of labels that the parser keeps as they are. -/
def NameInFull (b : Bytes) : Prop :=
  ∃ labels : List Bytes, (∀ l ∈ labels, l ≠ [] ∧ l.length < 192 ∧ KeptLabel l) ∧
    b = labels.flatMap (fun l => UInt8.ofNat l.length :: l) ++ [0]

/-- Data that is the fields of its type, with the names among them in full. -/
def DataInFull (t : RType) (rdata : Bytes) : Prop :=
  match t with
  | .NS | .CNAME | .PTR => NameInFull rdata
  | .MX => ∃ (preference : UInt16) (name : Bytes), NameInFull name ∧ rdata = be16 preference ++ name
  | .SOA => ∃ (mname rname : Bytes) (serial refresh retry expire minimum : UInt32),
      NameInFull mname ∧ NameInFull rname ∧ rdata = mname ++ (rname ++ (be32 serial ++ (be32 refresh ++
        (be32 retry ++ (be32 expire ++ be32 minimum)))))
  | .SRV => ∃ (priority weight port : UInt16) (name : Bytes),
      NameInFull name ∧ rdata = be16 priority ++ (be16 weight ++ (be16 port ++ name))
  | _ => True

section
variable {b : Bytes}

/-- Such a name is read the same everywhere, and both encoders write it. -/
theorem NameInFull.decodes (h : NameInFull b) :
    ∃ name, Decodes Parser.name b name ∧ Builder.name name = b ∧ canonicalName name = b := by
  obtain ⟨labels, hlabels, rfl⟩ := h
  have hkept : ∀ l ∈ labels, utf8 (Parser.labelText l) = l := fun l hl => by
    rw [utf8_labelText (hlabels l hl).2.2.1, (hlabels l hl).2.2.2]
  have hdot : ∀ t ∈ labels.map Parser.labelText, '.' ∉ t :=
    List.forall_mem_map.mpr fun l hl => dot_not_mem_labelText (hlabels l hl).2.2.1
  have hne : ∀ t ∈ labels.map Parser.labelText, t ≠ [] :=
    List.forall_mem_map.mpr fun l hl => labelText_ne_nil (hlabels l hl).1 (hlabels l hl).2.2.1
  have hwire : ∀ t ∈ labels.map Parser.labelText, WireLabel t := by
    refine List.forall_mem_map.mpr fun l hl => ?_
    rw [WireLabel, hkept l hl]
    exact ⟨List.length_pos_of_ne_nil (hlabels l hl).1, (hlabels l hl).2.1⟩
  have hlower : (labels.map Parser.labelText).map toAsciiLowercase = labels.map Parser.labelText := by
    rw [List.map_map]
    exact List.map_congr_left fun l _ => labelText_lower l
  have hencode : encodeLabels (labels.map Parser.labelText) = labels.flatMap fun l => UInt8.ofNat l.length :: l := by
    rw [encodeLabels, List.flatMap_map]
    exact List.flatMap_congr fun l hl => by rw [Builder.label, hkept l hl]
  refine ⟨Parser.joinLabels (labels.map Parser.labelText), ?_, ?_, ?_⟩
  · have := name_decodes hwire
    rwa [hlower, hencode] at this
  · rw [Builder.name_eq, labelsOf_joinLabels hdot hne, hencode]
  · rw [canonicalName_joinLabels hdot hne, hlower, hencode]

/-- What the builder writes for a name that was read is one. -/
theorem nameInFull_builder {buf : Bytes} {pos stop : Nat} {name : Text}
    (h : Parser.name buf pos = (.ok name, stop)) : NameInFull (Builder.name name) := by
  refine ⟨(labelsOf name).map utf8, List.forall_mem_map.mpr fun l hl => ?_, ?_⟩
  · obtain ⟨hpos, hlt⟩ := wireLabel_of_name h l hl
    refine ⟨List.ne_nil_of_length_pos hpos, hlt, ⟨?_, dot_not_mem_utf8 (dot_not_mem_of_mem_labelsOf hl)⟩, ?_⟩
    · rw [fromUtf8_utf8]
      rfl
    · have hall : (labelsOf name).map toAsciiLowercase = labelsOf name := by rw [← labelsOf_lower, name_lower h]
      rw [← utf8_toAsciiLowercase, map_eq_self_iff.mp hall l hl]
  · rw [Builder.name_eq, encodeLabels, List.flatMap_map]
    rfl

/-- So is what the canonical encoder writes, if it is what was read. -/
theorem nameInFull_canonical {pre post : Bytes} {name : Text} {stop : Nat}
    (h : Parser.name (pre ++ (canonicalName name ++ post)) pre.length = (.ok name, stop)) :
    NameInFull (canonicalName name) := by
  obtain ⟨labels, hn, -⟩ := nameInPlace_of_name h
  -- reading it again gave plain labels, and for these the two encoders agree
  obtain ⟨-, hplain⟩ := nameInPlace_canonical h hn
  have hbuilder := (@builderName_eq_expanded _ _ _ _ _ [] [] h hn).mpr ⟨hplain, rfl⟩
  rw [List.append_nil, List.append_nil] at hbuilder
  rw [(canonicalName_eq_expanded h hn).mpr hplain, ← hbuilder]
  exact nameInFull_builder h

end

theorem nameAt_inFull {b : Bytes} {name : Text} (h : Decodes Parser.name b name) (pre post : Bytes) :
    nameAt (pre ++ (b ++ post)) pre.length = .ok name := by
  rw [nameAt, h pre post]

/-- **Data in full** is read the same everywhere. -/
theorem decompressRdata_inFull {t : RType} {rdata : Bytes} (h : DataInFull t rdata) (pre post : Bytes) :
    decompressRdata (pre ++ (rdata ++ post)) t rdata pre.length = rdata := by
  cases t
  case NS | CNAME | PTR =>
    obtain ⟨name, hname, -, hcanonical⟩ := NameInFull.decodes h
    simp only [decompressRdata, nameAt_inFull hname, hcanonical]
  case MX =>
    obtain ⟨preference, b, hb, rfl⟩ := h
    obtain ⟨name, hname, hbuilder, -⟩ := hb.decodes
    have hat : nameAt (pre ++ (be16 preference ++ b ++ post)) (pre.length + 2) = .ok name := by
      have := nameAt_inFull hname (pre ++ be16 preference) post
      rwa [List.length_append, be16_length, List.append_assoc, ← List.append_assoc _ b post] at this
    simp only [be16, List.cons_append, List.nil_append] at hat ⊢
    simp only [decompressRdata, hat, join16_split, hbuilder]
    rfl
  case SRV =>
    obtain ⟨priority, weight, port, b, hb, rfl⟩ := h
    obtain ⟨name, hname, hbuilder, -⟩ := hb.decodes
    have hat : nameAt (pre ++ (be16 priority ++ (be16 weight ++ (be16 port ++ b)) ++ post)) (pre.length + 6) =
        .ok name := by
      have := nameAt_inFull hname (pre ++ (be16 priority ++ (be16 weight ++ be16 port))) post
      rw [← this]
      simp
    simp only [be16, List.cons_append, List.nil_append] at hat ⊢
    simp only [decompressRdata, hat, join16_split, hbuilder]
    rfl
  case SOA =>
    obtain ⟨mname, rname, serial, refresh, retry, expire, minimum, hm, hr, rfl⟩ := h
    obtain ⟨m, hmname, hmbuilder, -⟩ := hm.decodes
    obtain ⟨r, hrname, hrbuilder, -⟩ := hr.decodes
    have hrun : Decodes soaFields _ (m, r, serial, refresh, retry, expire, minimum) :=
      hmname.bind' <| hrname.bind' <| (u32_decodes serial).bind' <| (u32_decodes refresh).bind' <|
        (u32_decodes retry).bind' <| (u32_decodes expire).bind' (u32_decodes minimum).map'
    simp only [decompressRdata]
    rw [hrun pre post]
    simp only [hmbuilder, hrbuilder, Builder.u32, List.append_assoc]
  all_goals rfl

/-- Data whose names are read again and come out the same is in full. -/
theorem dataInFull_of_eq {t : RType} {rdata : Bytes} (pre post : Bytes)
    (hread : namesRead (pre ++ (rdata ++ post)) t rdata pre.length)
    (h : decompressRdata (pre ++ (rdata ++ post)) t rdata pre.length = rdata) : DataInFull t rdata := by
  cases t
  case NS | CNAME | PTR =>
    obtain ⟨name, stop, hname⟩ := nameAt_ok hread
    have hat : nameAt (pre ++ (rdata ++ post)) pre.length = .ok name := congrArg Prod.fst hname
    simp only [decompressRdata, hat] at h
    subst h
    exact nameInFull_canonical hname
  -- what comes out is rebuilt from the fields, so the data is what the builder wrote
  case MX =>
    obtain ⟨hlen, hok⟩ := Bool.and_eq_true_iff.mp hread
    obtain ⟨name, stop, hname⟩ := nameAt_ok hok
    have hat : nameAt (pre ++ (rdata ++ post)) (pre.length + 2) = .ok name := congrArg Prod.fst hname
    rcases rdata with _ | ⟨a, _ | ⟨b, data⟩⟩
    · simp at hlen
    · simp at hlen
    · simp only [decompressRdata, hat] at h
      exact ⟨_, Builder.name name, nameInFull_builder hname, h.symm⟩
  case SRV =>
    obtain ⟨hlen, hok⟩ := Bool.and_eq_true_iff.mp hread
    obtain ⟨name, stop, hname⟩ := nameAt_ok hok
    have hat : nameAt (pre ++ (rdata ++ post)) (pre.length + 6) = .ok name := congrArg Prod.fst hname
    rcases rdata with _ | ⟨a₀, _ | ⟨a₁, _ | ⟨b₀, _ | ⟨b₁, _ | ⟨c₀, _ | ⟨c₁, data⟩⟩⟩⟩⟩⟩
    iterate 6 simp at hlen
    simp only [decompressRdata, hat, List.append_assoc] at h
    exact ⟨_, _, _, Builder.name name, nameInFull_builder hname, h.symm⟩
  case SOA =>
    cases hs : (soaFields (pre ++ (rdata ++ post)) pre.length).1 with
    | error e => simp [namesRead, hs, Except.isOk, Except.toBool] at hread
    | ok v =>
      obtain ⟨m, r, serial, refresh, retry, expire, minimum⟩ := v
      obtain ⟨mid, tail, hm, hr, -, -⟩ := soaFields_ok (Prod.ext hs rfl)
      simp only [decompressRdata, hs, List.append_assoc] at h
      exact ⟨_, _, _, _, _, _, _, nameInFull_builder hm, nameInFull_builder hr, h.symm⟩
  all_goals exact trivial

/-- **The data read again** is the same exactly when it is in full or its names cannot be read there. -/
theorem decompressRdata_eq_iff {t : RType} {rdata : Bytes} (pre post : Bytes) :
    decompressRdata (pre ++ (rdata ++ post)) t rdata pre.length = rdata ↔
      (namesRead (pre ++ (rdata ++ post)) t rdata pre.length → DataInFull t rdata) := by
  refine ⟨fun h hread => dataInFull_of_eq pre post hread h, fun h => ?_⟩
  by_cases hread : namesRead (pre ++ (rdata ++ post)) t rdata pre.length
  · exact decompressRdata_inFull (h hread) pre post
  · exact decompressRdata_raw hread

/-! The second reading. -/

/-- The records of a packet in the order they are written. -/
def Packet.records (p : Packet) : List Record := p.answers ++ p.authority ++ p.additional

/-- The octets of a record in front of its data. -/
def Record.dataAt (r : Record) : Nat := (Builder.name r.name).length + 10

/-- A question as it is read again. -/
def Question.reread (q : Question) : Question := { q with name := readName q.name }

/-- A record, written at `pos` of a message, as it is read again. -/
def Record.reread (r : Record) (buf : Bytes) (pos : Nat) : Record :=
  { r with name := readName r.name, rdata := decompressRdata buf r.rtype r.rdata (pos + r.dataAt) }

def rereadAll (buf : Bytes) (pos : Nat) (rs : List Record) : List Record :=
  (placed Builder.record pos rs).map fun x => x.2.reread buf x.1

/-- Where the records of a packet start when it is written. -/
def recordsStart (p : Packet) : Nat := 12 + (p.questions.flatMap Builder.question).length

/-- A packet, written, as it is read again. -/
def Packet.reread (p : Packet) : Packet :=
  let authorityAt := recordsStart p + (p.answers.flatMap Builder.record).length
  let additionalAt := authorityAt + (p.authority.flatMap Builder.record).length
  { p with
    questions := p.questions.map Question.reread
    answers := rereadAll (serialize p true) (recordsStart p) p.answers
    authority := rereadAll (serialize p true) authorityAt p.authority
    additional := rereadAll (serialize p true) additionalAt p.additional
    dnssecOk := decide (p.ednsUdpSize > 0) && p.dnssecOk }

/-- What holds of every packet that was read: names the wire can carry, one spelling of every type, no OPT
    among the records, and counts of 16 bits. -/
structure FromWire (p : Packet) : Prop where
  questions : ∀ q ∈ p.questions, (∀ l ∈ labelsOf q.name, WireLabel l) ∧ Normalised q.qtype
  records : ∀ r ∈ p.records, (∀ l ∈ labelsOf r.name, WireLabel l) ∧ Normalised r.rtype
  no_opt : ∀ r ∈ p.additional, r.rtype ≠ .OPT
  question_count : p.questions.length < 65536
  answer_count : p.answers.length < 65536
  authority_count : p.authority.length < 65536
  additional_count : (additionalWritten p).length < 65536

/-- All data has a length that RDLENGTH can announce. -/
def Announced (p : Packet) : Prop := ∀ r ∈ p.records, r.rdata.length < 65536

instance (p : Packet) : Decidable (Announced p) := inferInstanceAs (Decidable (∀ _ ∈ _, _))

theorem normalised_ofU16 (n : UInt16) : Normalised (.ofU16 n) := by rw [Normalised, toU16_ofU16]

/-- The data of a record stands behind the fields of its head. -/
theorem builder_record (r : Record) : Builder.record r = recordHead (Builder.name r.name) r.rtype.toU16 r.rclass r.ttl
      (UInt16.ofNat r.rdata.length) ++ r.rdata ∧
    (recordHead (Builder.name r.name) r.rtype.toU16 r.rclass r.ttl (UInt16.ofNat r.rdata.length)).length = r.dataAt := by
  constructor
  · simp only [Builder.record, recordHead, Builder.u16, Builder.u32, Builder.raw, List.append_assoc]
  · simp only [recordHead, List.length_append, be16_length, be32_length, Record.dataAt]

theorem record_readsAs {r : Record} (hname : ∀ l ∈ labelsOf r.name, WireLabel l) (ht : Normalised r.rtype)
    (hlen : r.rdata.length < 65536) : ReadsAs Parser.record (Builder.record r) r.reread := by
  intro pre post
  obtain ⟨hrec, hat⟩ := builder_record r
  rw [hrec, List.append_assoc, record_run (builder_name_decodes hname) _ _ _ _ hlen pre post, ht]
  simp only [List.length_append, hat, Record.reread, Nat.add_assoc]

theorem question_decodes_read {q : Question} (hname : ∀ l ∈ labelsOf q.name, WireLabel l) (ht : Normalised q.qtype) :
    Decodes Parser.question (Builder.question q) q.reread := by
  have h := (builder_name_decodes hname).bind' (f := fun name => Parser.u16 >>= fun qtype =>
      Parser.u16 >>= fun qclass => Pure.pure (Question.mk name (.ofU16 qtype) qclass))
    ((u16_decodes q.qtype.toU16).bind' (u16_decodes q.qclass).map')
  rw [ht] at h
  rw [Builder.question, List.append_assoc]
  exact h

/-- Repetition counted by a 16-bit field. -/
theorem times16_readsAs {α γ : Type} {x : Parser α} (enc : γ → Bytes) (f : γ → Bytes → Nat → α) (l : List γ)
    (hl : l.length < 65536) (h : ∀ c ∈ l, ReadsAs x (enc c) (f c)) :
    ReadsAs (Reader.times (UInt16.ofNat l.length).toNat x) (l.flatMap enc)
      fun b p => (placed enc p l).map fun y => f y.2 b y.1 := by
  rw [UInt16.toNat_ofNat_of_lt' hl]
  exact ReadsAs.times enc f l h

theorem questions_decodes_read {qs : List Question} (hcount : qs.length < 65536)
    (h : ∀ q ∈ qs, (∀ l ∈ labelsOf q.name, WireLabel l) ∧ Normalised q.qtype) :
    Decodes (Reader.times (UInt16.ofNat qs.length).toNat Parser.question) (qs.flatMap Builder.question)
      (qs.map Question.reread) := by
  intro pre post
  rw [times16_readsAs Builder.question (fun q _ _ => q.reread) qs hcount
    (fun q hq => (question_decodes_read (h q hq).1 (h q hq).2).readsAs) pre post]
  exact congrArg (fun l => (Except.ok l, _)) (map_placed_snd Question.reread pre.length qs)

theorem rtype_of_mem_rereadAll {buf : Bytes} {pos : Nat} {rs : List Record} {r : Record}
    (h : r ∈ rereadAll buf pos rs) : ∃ r' ∈ rs, r.rtype = r'.rtype := by
  obtain ⟨x, hx, rfl⟩ := List.mem_map.mp h
  exact ⟨x.2, mem_of_mem_placed hx, rfl⟩

theorem rereadAll_append (buf : Bytes) (pos : Nat) (rs rs' : List Record) :
    rereadAll buf pos (rs ++ rs') =
      rereadAll buf pos rs ++ rereadAll buf (pos + (rs.flatMap Builder.record).length) rs' := by
  rw [rereadAll, placed_append, List.map_append]
  rfl

section
variable {p : Packet}

/-- The OPT record comes back as it was written, and is taken out again. -/
theorem rereadAll_additionalWritten (h : FromWire p) (buf : Bytes) (pos : Nat) :
    (rereadAll buf pos (additionalWritten p)).filter (fun r => r.rtype ≠ .OPT) = rereadAll buf pos p.additional ∧
    Parser.ednsOf (rereadAll buf pos (additionalWritten p)) =
      (p.ednsUdpSize, decide (p.ednsUdpSize > 0) && p.dnssecOk) := by
  have hno : ∀ r ∈ rereadAll buf pos p.additional, r.rtype ≠ .OPT := fun r hr => by
    obtain ⟨r', hr', heq⟩ := rtype_of_mem_rereadAll hr
    rw [heq]
    exact h.no_opt r' hr'
  have hself : (rereadAll buf pos p.additional).filter (fun r => r.rtype ≠ .OPT) = rereadAll buf pos p.additional :=
    List.filter_eq_self.mpr fun r hr => decide_eq_true (hno r hr)
  rw [additionalWritten, rereadAll_append, List.filter_append, hself, Parser.ednsOf, List.foldl_append,
    ednsOf_no_opt hno]
  by_cases hsize : p.ednsUdpSize > 0
  · rw [if_pos hsize, decide_eq_true hsize]
    refine ⟨by simp [rereadAll, placed, Record.reread, optRecord], ?_⟩
    cases hd : p.dnssecOk <;> simp [rereadAll, placed, Record.reread, optRecord]
  · -- without a size there is no OPT record, and the DO bit is not written
    have hzero : p.ednsUdpSize = 0 := by simpa [UInt16.pos_iff_ne_zero] using hsize
    rw [if_neg hsize, hzero]
    exact ⟨List.append_nil _, rfl⟩

/-- **The second reading** finds every item where it was written. -/
theorem parse_reread (h : FromWire p) (hlen : Announced p) : parsePacket (serialize p true) = .ok p.reread := by
  have hrecord : ∀ r ∈ p.records, ReadsAs Parser.record (Builder.record r) r.reread := fun r hr =>
    record_readsAs (h.records r hr).1 (h.records r hr).2 (hlen r hr)
  have hanswers : ∀ r ∈ p.answers, ReadsAs Parser.record (Builder.record r) r.reread := fun r hr =>
    hrecord r (List.mem_append_left _ (List.mem_append_left _ hr))
  have hauthority : ∀ r ∈ p.authority, ReadsAs Parser.record (Builder.record r) r.reread := fun r hr =>
    hrecord r (List.mem_append_left _ (List.mem_append_right _ hr))
  have hadditional : ∀ r ∈ additionalWritten p, ReadsAs Parser.record (Builder.record r) r.reread := by
    intro r hr
    rcases List.mem_append.mp hr with hr | hr
    · exact hrecord r (List.mem_append_right _ hr)
    · -- the OPT record has the root for its owner and no data
      split at hr
      · rw [List.mem_singleton.mp hr]
        exact record_readsAs (fun l hl => absurd hl List.not_mem_nil) rfl (Nat.zero_lt_succ _)
      · exact absurd hr List.not_mem_nil
  -- the parser field by field, each reading what the builder put in its place
  have hsections :=
    (u16_decodes p.id).bindReadsAs (g := fun id => Parser.u16 >>= fun flags => Parser.u16 >>= fun qdcount =>
        Parser.u16 >>= fun ancount => Parser.u16 >>= fun nscount => Parser.u16 >>= fun arcount =>
        Reader.times qdcount.toNat Parser.question >>= fun questions =>
        Reader.times ancount.toNat Parser.record >>= fun answers =>
        Reader.times nscount.toNat Parser.record >>= fun authority =>
        Reader.times arcount.toNat Parser.record >>= fun additionalRaw => Pure.pure
          (Packet.mk id flags questions answers authority (additionalRaw.filter (fun r => r.rtype ≠ .OPT))
            (Parser.ednsOf additionalRaw).1 (Parser.ednsOf additionalRaw).2)) <|
      (u16_decodes p.flags).bindReadsAs <| (u16_decodes (UInt16.ofNat p.questions.length)).bindReadsAs <|
      (u16_decodes (UInt16.ofNat p.answers.length)).bindReadsAs <|
      (u16_decodes (UInt16.ofNat p.authority.length)).bindReadsAs <|
      (u16_decodes (UInt16.ofNat (additionalWritten p).length)).bindReadsAs <|
      (questions_decodes_read h.question_count h.questions).bindReadsAs <|
      (times16_readsAs Builder.record Record.reread p.answers h.answer_count hanswers).bind' fun answers =>
      (times16_readsAs Builder.record Record.reread p.authority h.authority_count hauthority).bind' fun authority =>
      (times16_readsAs Builder.record Record.reread (additionalWritten p) h.additional_count hadditional).map' _
  rw [← serialize_eq] at hsections
  have hrun := hsections [] []
  rw [List.nil_append, List.append_nil] at hrun
  rw [parsePacket, Reader.run, show Parser.parse (serialize p true) 0 = _ from hrun]
  simp only [be16_length, List.length_nil, ← rereadAll.eq_1, (rereadAll_additionalWritten h _ _).1,
    (rereadAll_additionalWritten h _ _).2]
  rfl

/-- Every packet that was read is one the second reading is about. -/
theorem fromWire_of_parse {data : Bytes} (h : parsePacket data = .ok p) : FromWire p := by
  -- every record was read at some place of the message
  have hrecords : ∀ r ∈ p.records, (∀ l ∈ labelsOf r.name, WireLabel l) ∧ Normalised r.rtype := by
    intro r hr
    obtain ⟨pos, stop, hread⟩ := record_of_parse h r hr
    obtain ⟨name, head, hname, hrest⟩ := Reader.bind_eq_ok hread
    obtain ⟨_, _, hat⟩ := recordAt_of_record hread
    refine ⟨?_, hat.rtype ▸ normalised_ofU16 _⟩
    obtain ⟨_, _, _, hrest⟩ := Reader.bind_eq_ok hrest
    obtain ⟨_, _, _, hrest⟩ := Reader.bind_eq_ok hrest
    obtain ⟨_, _, _, hrest⟩ := Reader.bind_eq_ok hrest
    obtain ⟨_, _, _, hrest⟩ := Reader.bind_eq_ok hrest
    obtain ⟨_, _, _, hrest⟩ := Reader.bind_eq_ok hrest
    obtain ⟨_, _, _, hrest⟩ := Reader.bind_eq_ok hrest
    cases hrest
    exact wireLabel_of_name hname
  obtain ⟨stop, h⟩ : ∃ stop, Parser.parse data 0 = (.ok p, stop) := ⟨_, Prod.ext h rfl⟩
  obtain ⟨_, _, _, h⟩ := Reader.bind_eq_ok h
  obtain ⟨_, _, _, h⟩ := Reader.bind_eq_ok h
  obtain ⟨qdcount, _, _, h⟩ := Reader.bind_eq_ok h
  obtain ⟨ancount, _, _, h⟩ := Reader.bind_eq_ok h
  obtain ⟨nscount, _, _, h⟩ := Reader.bind_eq_ok h
  obtain ⟨arcount, _, _, h⟩ := Reader.bind_eq_ok h
  obtain ⟨questions, _, hquestions, h⟩ := Reader.bind_eq_ok h
  obtain ⟨answers, _, hanswers, h⟩ := Reader.bind_eq_ok h
  obtain ⟨authority, _, hauthority, h⟩ := Reader.bind_eq_ok h
  obtain ⟨additionalRaw, _, hadditional, h⟩ := Reader.bind_eq_ok h
  cases h
  obtain ⟨hqcount, hqread⟩ := Reader.times_ok hquestions
  refine ⟨fun q hq => ?_, hrecords, fun r hr => of_decide_eq_true (List.mem_filter.mp hr).2, ?_, ?_, ?_, ?_⟩
  · obtain ⟨pos, stop, hread⟩ := hqread q hq
    obtain ⟨name, _, hname, hread⟩ := Reader.bind_eq_ok hread
    obtain ⟨qtype, _, _, hread⟩ := Reader.bind_eq_ok hread
    obtain ⟨_, _, _, hread⟩ := Reader.bind_eq_ok hread
    cases hread
    exact ⟨wireLabel_of_name hname, normalised_ofU16 _⟩
  · rw [hqcount]
    exact qdcount.toNat_lt
  · rw [(Reader.times_ok hanswers).1]
    exact ancount.toNat_lt
  · rw [(Reader.times_ok hauthority).1]
    exact nscount.toNat_lt
  · -- the OPT record written is one of those taken out
    have hcount := arcount.toNat_lt
    rw [← (Reader.times_ok hadditional).1] at hcount
    have hle := List.length_filter_le (fun r : Record => decide (r.rtype ≠ .OPT)) additionalRaw
    simp only [additionalWritten, List.length_append]
    split
    · next hsize =>
      have hopt : ∃ r ∈ additionalRaw, ¬ decide (r.rtype ≠ .OPT) = true := by
        by_contra hnone
        have hno : ∀ r ∈ additionalRaw, r.rtype ≠ .OPT := fun r hr => by
          by_contra heq
          exact hnone ⟨r, hr, by simpa using heq⟩
        rw [Parser.ednsOf, ednsOf_no_opt hno] at hsize
        exact absurd hsize (by decide)
      have hlt := List.length_filter_lt_length_iff_exists.mpr hopt
      rw [List.length_singleton]
      exact Nat.lt_of_le_of_lt hlt hcount
    · exact Nat.lt_of_le_of_lt hle hcount

/-! When nothing is lost. -/

/-- **Nothing is lost** of a packet: its names are spelt as the parser spells them, its data is in full wherever
    the names in it can be read behind the record's head, and there is a DO bit only beside a size. -/
structure Lossless (p : Packet) : Prop where
  questions : ∀ q ∈ p.questions, Spelt q.name
  owners : ∀ r ∈ p.records, Spelt r.name
  data : ∀ x ∈ placed Builder.record (recordsStart p) p.records,
    namesRead (serialize p true) x.2.rtype x.2.rdata (x.1 + x.2.dataAt) → DataInFull x.2.rtype x.2.rdata
  edns : p.ednsUdpSize = 0 → p.dnssecOk = false

theorem readName_eq_iff {name : Text} : readName name = name ↔ Spelt name := by
  rw [Spelt, zoneLabels, labelsOf_lower, readName, eq_comm]

/-- A record comes back as it was when its owner and its data do. -/
theorem reread_record_iff {r : Record} (front back : Bytes) :
    r.reread (front ++ (Builder.record r ++ back)) front.length = r ↔
      Spelt r.name ∧ (namesRead (front ++ (Builder.record r ++ back)) r.rtype r.rdata (front.length + r.dataAt) →
        DataInFull r.rtype r.rdata) := by
  obtain ⟨hrec, hat⟩ := builder_record r
  have hdata := @decompressRdata_eq_iff r.rtype r.rdata (front ++ recordHead (Builder.name r.name) r.rtype.toU16
    r.rclass r.ttl (UInt16.ofNat r.rdata.length)) back
  rw [List.append_assoc, ← List.append_assoc _ r.rdata back, ← hrec, List.length_append, hat] at hdata
  rw [← hdata, ← readName_eq_iff]
  generalize front ++ (Builder.record r ++ back) = buf
  constructor
  · intro h
    exact ⟨congrArg Record.name h, congrArg Record.rdata h⟩
  · intro h
    rw [Record.reread, h.1, h.2]

theorem rereadAll_records_iff : rereadAll (serialize p true) (recordsStart p) p.records = p.records ↔
    (∀ r ∈ p.records, Spelt r.name) ∧ ∀ x ∈ placed Builder.record (recordsStart p) p.records,
      namesRead (serialize p true) x.2.rtype x.2.rdata (x.1 + x.2.dataAt) → DataInFull x.2.rtype x.2.rdata := by
  obtain ⟨pre, post, hser, hpre⟩ : ∃ pre post, serialize p true = pre ++ (p.records.flatMap Builder.record ++ post) ∧
      pre.length = recordsStart p := by
    refine ⟨be16 p.id ++ be16 p.flags ++ be16 (UInt16.ofNat p.questions.length) ++
      be16 (UInt16.ofNat p.answers.length) ++ be16 (UInt16.ofNat p.authority.length) ++
      be16 (UInt16.ofNat (additionalWritten p).length) ++ p.questions.flatMap Builder.question,
      (if p.ednsUdpSize > 0 then [optRecord p.ednsUdpSize p.dnssecOk] else []).flatMap Builder.record, ?_, ?_⟩
    · rw [serialize_eq, Packet.records, additionalWritten]
      simp only [List.flatMap_append, List.append_assoc]
    · simp only [List.length_append, be16_length, recordsStart]
  -- each record on its own, with everything else around it
  have hsnd : ∀ x ∈ placed Builder.record (recordsStart p) p.records, x.2.reread (serialize p true) x.1 = x.2 ↔
      Spelt x.2.name ∧ (namesRead (serialize p true) x.2.rtype x.2.rdata (x.1 + x.2.dataAt) →
        DataInFull x.2.rtype x.2.rdata) := by
    intro x hx
    rw [← hpre] at hx
    obtain ⟨front, back, hplace, hfront⟩ := exists_of_mem_placed pre post hx
    rw [hser, hplace, ← hfront]
    exact reread_record_iff front back
  rw [rereadAll, map_placed_eq_iff, forall₂_congr hsnd, forall₂_and]
  refine and_congr_left fun _ => ⟨fun h r hr => ?_, fun h x hx => h x.2 (mem_of_mem_placed hx)⟩
  rw [← @placed_snd _ Builder.record (recordsStart p) p.records] at hr
  obtain ⟨x, hx, rfl⟩ := List.mem_map.mp hr
  exact h x hx

theorem rereadAll_length (buf : Bytes) (pos : Nat) (rs : List Record) : (rereadAll buf pos rs).length = rs.length := by
  have hlength := congrArg List.length (@placed_snd _ Builder.record pos rs)
  rw [List.length_map] at hlength
  rw [rereadAll, List.length_map, hlength]

/-- The packet comes back as it was exactly when nothing of it is lost. -/
theorem reread_eq_iff : p.reread = p ↔ Lossless p := by
  have hquestions : p.questions.map Question.reread = p.questions ↔ ∀ q ∈ p.questions, Spelt q.name := by
    rw [map_eq_self_iff]
    refine forall₂_congr fun q _ => ?_
    rw [← readName_eq_iff]
    exact ⟨fun h => congrArg Question.name h, fun h => by rw [Question.reread, h]⟩
  have hedns : (decide (p.ednsUdpSize > 0) && p.dnssecOk) = p.dnssecOk ↔
      (p.ednsUdpSize = 0 → p.dnssecOk = false) := by
    cases hdo : p.dnssecOk with
    | false => simp
    | true => simp [UInt16.pos_iff_ne_zero]
  -- the sections are as long as they were, so they are compared one by one
  have hrecords : (rereadAll (serialize p true) (recordsStart p) p.records = p.records) ↔
      p.reread.answers = p.answers ∧ p.reread.authority = p.authority ∧ p.reread.additional = p.additional := by
    rw [Packet.records, rereadAll_append, rereadAll_append, List.flatMap_append, List.length_append, ← Nat.add_assoc]
    constructor
    · intro h
      obtain ⟨h, hadditional⟩ := List.append_inj h (by simp only [List.length_append, rereadAll_length])
      obtain ⟨hanswers, hauthority⟩ := List.append_inj h (rereadAll_length _ _ _)
      exact ⟨hanswers, hauthority, hadditional⟩
    · intro h
      exact congrArg₂ (· ++ ·) (congrArg₂ (· ++ ·) h.1 h.2.1) h.2.2
  have hparts : p.reread = p ↔ p.questions.map Question.reread = p.questions ∧
      rereadAll (serialize p true) (recordsStart p) p.records = p.records ∧
      (decide (p.ednsUdpSize > 0) && p.dnssecOk) = p.dnssecOk := by
    rw [hrecords]
    constructor
    · intro h
      exact ⟨congrArg Packet.questions h, ⟨congrArg Packet.answers h, congrArg Packet.authority h,
        congrArg Packet.additional h⟩, congrArg Packet.dnssecOk h⟩
    · intro h
      obtain ⟨hq, ⟨han, hns, har⟩, hdo⟩ := h
      show Packet.mk p.id p.flags (p.questions.map Question.reread) p.reread.answers p.reread.authority
        p.reread.additional p.ednsUdpSize (decide (p.ednsUdpSize > 0) && p.dnssecOk) = p
      rw [hq, han, hns, har, hdo]
  rw [hparts, hquestions, rereadAll_records_iff, hedns]
  exact ⟨fun h => ⟨h.1, h.2.1.1, h.2.1.2, h.2.2⟩, fun h => ⟨h.questions, ⟨h.owners, h.data⟩, h.edns⟩⟩

end

/-- **When a packet survives being written and parsed again.** For data that RDLENGTH can announce: exactly when
    nothing of it is lost. -/
theorem parse_serialize_iff (data : Bytes) (p : Packet) (hparse : parsePacket data = .ok p) :
    (Announced p ∧ Lossless p → parsePacket (serialize p true) = .ok p) ∧
    (parsePacket (serialize p true) = .ok p → Announced p → Lossless p) := by
  have hfrom := fromWire_of_parse hparse
  constructor
  · intro h
    rw [parse_reread hfrom h.1, reread_eq_iff.mpr h.2]
  · intro h hlen
    rw [parse_reread hfrom hlen] at h
    exact reread_eq_iff.mp (Except.ok.inj h)

/-- The packet with the MX answer has all of this. -/
theorem mxPacket_lossless : Lossless mxPacket :=
  (parse_serialize_iff (serialize mxPacket true) mxPacket parse_serialize_mxPacket).2 parse_serialize_mxPacket (by decide)

/-- A response with the DO bit and the payload size 0. -/
def zeroSize : Bytes :=
  [0, 1, 0x80, 0, 0, 0, 0, 0, 0, 0, 0, 1,
   0, 0, 41, 0, 0, 0, 0, 0x80, 0, 0, 0]

/-- It is written without an OPT record, and the DO bit is gone. -/
theorem zeroSize_loses : ∃ p, parsePacket zeroSize = .ok p ∧ p.dnssecOk = true ∧
    parsePacket (serialize p true) = .ok { p with dnssecOk := false } ∧ parsePacket (serialize p true) ≠ .ok p :=
  ⟨⟨1, 0x8000, [], [], [], [], 0, true⟩, by decide, rfl, by decide, by decide⟩

end Ironbind
