import Ironbind.Admission
import Ironbind.DeltaChains
import Ironbind.FailedSigning
import Ironbind.Reencoding
import Ironbind.ReplySizes
import Ironbind.Resolver
import Ironbind.SendableRecords

/- Two of these programs, one the forwarder of the other: the resolver sends its query to
   the server by UDP, and where the datagram that comes back is cut, asks again by TCP.
   `linked` is the network between them. When the zone that answers holds only records the
   format can carry, the resolver gets the packet that `handle_query` composed, whether it
   came in a datagram or behind its length on a connection (`udpExchange_linked`,
   `resolve_linked`). So what a line of a zone file says is what the client of the other
   program gets (`file_reaches_client`). -/
namespace Ironbind
open Codec

/-! The query. -/

/-- The query as the server reads it. -/
def queryRead (id flags : UInt16) (name : Text) (qtype : RType) (dnssecOk : Bool) : Packet :=
  queryPacket id flags (readName name) qtype dnssecOk

section
variable {id flags : UInt16} {name : Text} {qtype : RType} {dnssecOk : Bool}

theorem queryPacket_fromWire (hname : ∀ l ∈ labelsOf name, WireLabel l) (htype : Normalised qtype) :
    FromWire (queryPacket id flags name qtype dnssecOk) where
  questions := fun q hq => by
    obtain rfl := List.mem_singleton.mp hq
    exact ⟨hname, htype⟩
  records := fun r hr => by cases hr
  no_opt := fun r hr => by cases hr
  question_count := Nat.lt_of_sub_eq_succ rfl
  answer_count := Nat.zero_lt_succ _
  authority_count := Nat.zero_lt_succ _
  additional_count := Nat.lt_of_sub_eq_succ rfl

/-- A query is read as it was meant, its name in the parser's spelling. -/
theorem parse_query (hname : ∀ l ∈ labelsOf name, WireLabel l) (htype : Normalised qtype) :
    parsePacket (serialize (queryPacket id flags name qtype dnssecOk) true) =
      .ok (queryRead id flags name qtype dnssecOk) := by
  rw [parse_reread (queryPacket_fromWire hname htype) fun r hr => by cases hr]
  rfl

theorem FitsWire.wireLabels (hname : FitsWire name) : ∀ l ∈ labelsOf name, WireLabel l :=
  fun l hl => (hname.isLabel l hl).wireLabel

/-- The case of a name does not change how many octets it takes. -/
theorem builder_readName_length : (Builder.name (readName name)).length = (Builder.name name).length := by
  rw [Builder.name_eq, Builder.name_eq, labelsOf_readName, List.length_append, encodeLabels_length_lower,
    List.length_append]

theorem fitsWire_readName (hname : FitsWire name) : FitsWire (readName name) where
  labels := by
    rw [labelsOf_readName]
    intro l hl
    obtain ⟨l', hl', rfl⟩ := List.mem_map.mp hl
    rw [utf8_length_lower]
    exact hname.labels l' hl'
  length := builder_readName_length.trans_le hname.length

/-- Labels in lower case make a name in lower case. -/
theorem joinLabels_lower {labels : List Text} (h : labels.map toAsciiLowercase = labels) :
    toAsciiLowercase (Parser.joinLabels labels) = Parser.joinLabels labels := by
  unfold Parser.joinLabels
  split
  · rfl
  · rw [toAsciiLowercase_intercalate, h]

/-- Such a name is read in the parser's spelling, and stays in it. -/
theorem readName_domain (hname : FitsWire name) : ∃ n : DomainName, n.Lower ∧ readName name = n.text := by
  refine ⟨(fitsWire_readName hname).domain, ?_, ?_⟩
  · show (labelsOf (readName name)).map toAsciiLowercase = labelsOf (readName name)
    rw [labelsOf_readName, List.map_map]
    exact List.map_congr_left fun l _ => toAsciiLowercase_idem l
  · show Parser.joinLabels ((labelsOf name).map toAsciiLowercase) = Parser.joinLabels (labelsOf (readName name))
    rw [labelsOf_readName]

end

/-! What a zone answers with. -/

namespace Zone
variable {z : Zone}

theorem holds_of_lookup {name : Text} {t : RType} {rs : List Record} (h : z.lookup name t = some rs) {r : Record}
    (hr : r ∈ rs) : z.Holds r := ⟨_, rs, h, hr⟩

theorem holds_coveringRrsigs {name : Text} {t : RType} {r : Record} (h : r ∈ coveringRrsigs z name t) : z.Holds r := by
  rw [coveringRrsigs_eq] at h
  exact holds_iff_recordsAt.mpr ⟨_, List.mem_of_mem_filter h⟩

/-- A record the handler's loop may put into an answer: of the type asked for, a CNAME, or a signature asked for. -/
inductive Walked (z : Zone) (qtype : RType) (dnssecOk : Bool) (r : Record) : Prop
  | set {owner : Text} {t : RType} {rs : List Record} (htype : t = qtype ∨ t = .CNAME)
      (hlookup : z.lookup owner t = some rs)
      (hr : r ∈ rs) : Walked z qtype dnssecOk r
  | signature {owner : Text} {t : RType} (hasked : dnssecOk = true) (hr : r ∈ coveringRrsigs z owner t) :
      Walked z qtype dnssecOk r

theorem Walked.holds {qtype : RType} {dnssecOk : Bool} {r : Record} (h : z.Walked qtype dnssecOk r) : z.Holds r := by
  cases h with
  | set htype hlookup hr => exact holds_of_lookup hlookup hr
  | signature hasked hr => exact holds_coveringRrsigs hr

theorem walked_cnameLoop {qtype : RType} {dnssecOk : Bool} : ∀ (passes : Nat) {name : Text} {answers : List Record},
    (∀ r ∈ answers, z.Walked qtype dnssecOk r) →
      ∀ r ∈ (cnameLoop z qtype dnssecOk passes name answers).answers, z.Walked qtype dnssecOk r
  | 0, _, _, h => h
  | passes + 1, name, answers, h => by
    have hsigs : ∀ t, ∀ r ∈ (if dnssecOk then coveringRrsigs z name t else []), z.Walked qtype dnssecOk r := by
      intro t r hr
      split at hr
      · next hasked => exact .signature hasked hr
      · cases hr
    rw [cnameLoop]
    split
    · next records hlookup =>
      intro r hr
      rw [List.mem_append, List.mem_append] at hr
      rcases hr with (hr | hr) | hr
      · exact h r hr
      · exact .set (.inl rfl) hlookup hr
      · exact hsigs _ r hr
    · split
      · exact h
      · split
        · exact h
        · next cname hcname =>
          obtain ⟨rs, hrs, hhead⟩ := Option.bind_eq_some_iff.mp hcname
          have hanswers : ∀ r ∈ answers ++ [cname] ++ (if dnssecOk then coveringRrsigs z name .CNAME else []),
              z.Walked qtype dnssecOk r := by
            intro r hr
            rw [List.mem_append, List.mem_append, List.mem_singleton] at hr
            rcases hr with (hr | rfl) | hr
            · exact h r hr
            · exact .set (.inr rfl) hrs (List.mem_of_mem_head? hhead)
            · exact hsigs _ r hr
          dsimp only
          split
          · exact hanswers
          · split
            · exact hanswers
            · exact walked_cnameLoop passes hanswers

theorem holds_signedNsec {owner : Text} {r : Record} (h : r ∈ signedNsec z owner) : z.Holds r := by
  rw [signedNsec] at h
  split at h
  · next nsec hnsec =>
    rcases List.mem_append.mp h with h | h
    · exact holds_of_lookup hnsec h
    · exact holds_coveringRrsigs h
  · cases h

theorem holds_soaAuthority {dnssecOk : Bool} {r : Record} (h : r ∈ soaAuthority z dnssecOk) : z.Holds r := by
  rw [soaAuthority] at h
  split at h
  · next soa hsoa =>
    rcases List.mem_append.mp h with h | h
    · exact ⟨_, soa, hsoa, h⟩
    · split at h
      · exact holds_coveringRrsigs h
      · cases h
  · cases h

theorem holds_noDataProof {name : Text} {r : Record} (h : r ∈ noDataProof z name) : z.Holds r := by
  rw [noDataProof] at h
  split at h
  · dsimp only at h
    split at h
    · exact holds_signedNsec h
    · cases h
  · cases h

theorem holds_nxDomainProof {c : Crypto} {ho : HashOrder} {name : Text} {r : Record} (h : r ∈ nxDomainProof c ho z name) :
    z.Holds r := by
  rw [nxDomainProof] at h
  split at h
  · next nsec3 hnsec3 =>
    obtain rfl := List.mem_singleton.mp h
    exact holds_nsec3Covering hnsec3
  · split at h
    · dsimp only at h
      rcases List.mem_append.mp h with h | h
      · split at h
        · exact holds_signedNsec h
        · cases h
      · split at h
        · exact holds_signedNsec h
        · cases h
    · cases h

end Zone

/-- An answer to a query with these questions, made of what the zone holds. -/
structure AnswersFrom (z : Zone) (pkt p : Packet) : Prop where
  id : p.id = pkt.id
  questions : p.questions = pkt.questions
  additional : p.additional = []
  edns : p.ednsUdpSize = pkt.ednsUdpSize ∧ p.dnssecOk = pkt.dnssecOk
  response : p.isResponse = true
  whole : p.truncated = false
  records : ∀ r ∈ p.answers ++ p.authority, z.Holds r
  code : p.rcode = RCODE_NOERROR ∨ p.rcode = RCODE_NXDOMAIN

section
variable {z : Zone} {c : Crypto} {ho : HashOrder} {q : Question} {pkt : Packet}

/-- The bits that show a whole response stay as the answer is filled. -/
theorem closed_whole (pkt : Packet) : Packet.Closed fun p => (p.id = pkt.id ∧ p.questions = pkt.questions ∧
    p.ednsUdpSize = pkt.ednsUdpSize ∧ p.dnssecOk = pkt.dnssecOk) ∧ p.flags &&& 0x8200 = 0x8000 := by
  have hbit : ∀ (flags bit : UInt16), flags &&& 0x8200 = 0x8000 → bit &&& 0x8200 = 0 →
      (flags ||| bit) &&& 0x8200 = 0x8000 :=
    fun flags bit h hbit => by rw [or_and, h, hbit]; rfl
  refine ⟨fun p h => ⟨h.1, hbit _ _ h.2 rfl⟩, fun p h => ⟨h.1, hbit _ _ h.2 rfl⟩, fun p code h => ⟨h.1, ?_⟩,
    fun _ _ _ _ h => h⟩
  have hkept : (0xFFF0 : UInt16) &&& 0x8200 = 0x8200 := rfl
  have hrcode : (0xF : UInt16) &&& 0x8200 = 0 := rfl
  show ((p.flags &&& 0xFFF0) ||| (code.toUInt16 &&& 0xF)) &&& 0x8200 = 0x8000
  rw [or_and, UInt16.and_assoc, hkept, UInt16.and_assoc, hrcode, UInt16.and_zero, UInt16.or_zero]
  exact h.2

theorem whole_flags {p : Packet} (h : p.flags &&& 0x8200 = 0x8000) : p.isResponse = true ∧ p.truncated = false := by
  have hqr : p.flags &&& 0x8000 = 0x8000 := by
    rw [show p.flags &&& 0x8000 = p.flags &&& (0x8200 &&& 0x8000) from rfl, ← UInt16.and_assoc, h]
    rfl
  have htc : p.flags &&& 0x0200 = 0 := by
    rw [show p.flags &&& 0x0200 = p.flags &&& (0x8200 &&& 0x0200) from rfl, ← UInt16.and_assoc, h]
    rfl
  rw [Packet.isResponse, Packet.truncated, hqr, htc]
  exact ⟨rfl, rfl⟩

theorem answersFrom_zoneAnswer : AnswersFrom z pkt (zoneAnswer c ho q pkt z) := by
  have hbase : (fun p : Packet => (p.id = pkt.id ∧ p.questions = pkt.questions ∧ p.ednsUdpSize = pkt.ednsUdpSize ∧
      p.dnssecOk = pkt.dnssecOk) ∧ p.flags &&& 0x8200 = 0x8000) (baseResponse pkt) := by
    have hrd : (0x0100 : UInt16) &&& 0x8200 = 0 := rfl
    refine ⟨⟨rfl, rfl, rfl, rfl⟩, ?_⟩
    show (0x8000 ||| (pkt.flags &&& 0x0100) ||| 0x0080) &&& 0x8200 = 0x8000
    rw [or_and, or_and, UInt16.and_assoc, hrd, UInt16.and_zero]
    rfl
  obtain ⟨⟨hid, hquestions, hedns⟩, hflags⟩ := authoritativeAnswer_closed (closed_whole pkt) c ho z q pkt.dnssecOk hbase
  have hcode : (zoneAnswer c ho q pkt z).rcode = RCODE_NOERROR ∨ (zoneAnswer c ho q pkt z).rcode = RCODE_NXDOMAIN := by
    by_cases hdenies : ∃ last, z.Denies q.qtype q.name last
    · obtain ⟨last, hdenies⟩ := hdenies
      cases hexists : z.nameExists last with
      | true => exact .inl (zoneAnswer_noData hdenies hexists).1
      | false => exact .inr (zoneAnswer_nxDomain hdenies hexists).1
    · exact .inl (zoneAnswer_answered (not_exists.mp hdenies)).1
  have hanswers : ∀ r ∈ (zoneAnswer c ho q pkt z).answers, z.Holds r := by
    rw [zoneAnswer_answers]
    exact fun r hr => (Zone.walked_cnameLoop _ (fun r hr => by cases hr) r hr).holds
  obtain ⟨hadditional, hauthority⟩ : (zoneAnswer c ho q pkt z).additional = [] ∧
      ∀ r ∈ (zoneAnswer c ho q pkt z).authority, z.Holds r := by
    unfold zoneAnswer authoritativeAnswer
    dsimp only
    split
    · exact ⟨rfl, fun r hr => by cases hr⟩
    · split
      · refine ⟨rfl, fun r hr => ?_⟩
        rcases List.mem_append.mp hr with hr | hr
        · exact Zone.holds_soaAuthority hr
        · split at hr
          · exact Zone.holds_noDataProof hr
          · cases hr
      · refine ⟨rfl, fun r hr => ?_⟩
        rcases List.mem_append.mp hr with hr | hr
        · exact Zone.holds_soaAuthority hr
        · split at hr
          · exact Zone.holds_nxDomainProof hr
          · cases hr
  obtain ⟨hresponse, hwhole⟩ := whole_flags hflags
  exact ⟨hid, hquestions, hadditional, hedns, hresponse, hwhole,
    fun r hr => (List.mem_append.mp hr).elim (hanswers r) (hauthority r), hcode⟩

end

/-! The records on the wire. -/

/-- A section whose records make fewer octets than a message has holds fewer records than the header can count. -/
theorem length_le_recordOctets (rs : List Record) : rs.length ≤ recordOctets rs := by
  induction rs with
  | nil => exact Nat.zero_le _
  | cons r rs ih =>
    have hpos : 1 ≤ (Builder.record r).length := by
      rw [(builder_record r).1, List.length_append, (builder_record r).2, Record.dataAt]
      omega
    rw [recordOctets_cons, List.length_cons]
    omega

section
variable {z : Zone} {p : Packet} {id flags : UInt16} {name : Text} {qtype : RType} {dnssecOk : Bool}

/-- Such an answer is read as it was composed. -/
theorem AnswersFrom.decodes (h : AnswersFrom z (queryRead id flags name qtype dnssecOk) p) (hname : FitsWire name)
    (htype : Normalised qtype) (hportable : ∀ r ∈ p.answers ++ p.authority, Portable r)
    (hsize : (serialize p true).length ≤ 65535) : parsePacket (serialize p true) = .ok p := by
  have hlength := hsize
  rw [serialize_length] at hlength
  have hanswers := length_le_recordOctets p.answers
  have hauthority := length_le_recordOctets p.authority
  have hedns : p.ednsUdpSize = 4096 := h.edns.1
  have hrecords : ∀ r ∈ p.answers ++ p.authority ++ p.additional, Portable r := by
    rw [h.additional, List.append_nil]
    exact hportable
  have hexpanded : Expanded p := by
    refine ⟨fun q hq => ?_, fun r hr => ?_, ?_, ?_, by omega, by omega, ?_, ?_⟩
    · rw [h.questions] at hq
      obtain rfl := List.mem_singleton.mp hq
      exact ⟨readName_domain hname, htype⟩
    · exact ⟨(hrecords r hr).owner, (hrecords r hr).rtype, (hrecords r hr).data⟩
    · rw [h.additional]
      exact fun r hr => by cases hr
    · rw [h.questions]
      exact Nat.lt_of_sub_eq_succ rfl
    · rw [additionalWritten, h.additional, hedns]
      exact Nat.lt_of_sub_eq_succ rfl
    · rw [hedns]
      exact fun hzero => absurd hzero (by decide)
  have hread := (serialize_decodes hexpanded fun r hr => (hrecords r hr).announced).run
  rw [parsePacket, Reader.run, hread]

end

/-! The server. -/

/-- The query of the resolver, as it is sent. -/
def queryBytes (id : UInt16) (name : Text) (qtype : RType) (dnssecOk : Bool) : Bytes :=
  serialize (queryPacket id 0x0100 name qtype dnssecOk) true

/-- The packet that `handle_query` composes for it from a zone. -/
def composed {τ : Type} (h : Handler τ) (z : Zone) (id : UInt16) (name : Text) (qtype : RType)
    (dnssecOk : Bool) : Packet :=
  zoneAnswer h.crypto h.hashOrder ⟨readName name, qtype, CLASS_IN⟩ (queryRead id 0x0100 name qtype dnssecOk) z

/-- What is read of a stream with `read_exact`: a length, and as many octets. -/
def firstFrame : Bytes → Option Bytes
  | hi :: lo :: rest =>
    let len := (hi.toUInt16 <<< 8 ||| lo.toUInt16).toNat
    if rest.length < len then none else some (rest.take len)
  | _ => none

/-- A network on which the server answers. Each exchange meets it in another state. -/
def linked {τ : Type} (servings : Nat → Serving τ) (ids : Nat → UInt16) : Sockets Nat where
  randomId := fun n => (ids n, n + 1)
  udp := fun query _ n => (some (udpReplies (servings n) (servings n) true (query.take 4096)), n + 1)
  tcp := fun query _ n => (firstFrame (handleTcp (fun _ => servings n) (frame query)), n + 1)

/-- The server takes the query, and has the zone among its zones: other zones, its cache and its clocks may change. -/
structure AnswersAlways {τ : Type} (h : Handler τ) (servings : Nat → Serving τ) (z : Zone) (name : Text) : Prop where
  handler : ∀ n, (servings n).handler = h
  admitted : ∀ n, (servings n).admitted = true
  zone : ∀ n, authoritativeZone (servings n).zones (readName name) = some z
  unsigned : h.config.tsigRequireAll = false ∨ h.tsigKeys.isEmpty = true

theorem firstFrame_frame {m : Bytes} (h : m.length ≤ 65535) : firstFrame (frame m) = some m := by
  have hlen : (((UInt16.ofNat m.length) >>> 8).toUInt8.toUInt16 <<< 8 ||| (UInt16.ofNat m.length).toUInt8.toUInt16).toNat =
      m.length := by
    rw [join16_split, UInt16.toNat_ofNat_of_lt' (by unfold UInt16.size; omega)]
  show firstFrame (_ :: _ :: m) = _
  rw [firstFrame]
  simp only [hlen]
  rw [if_neg (Nat.lt_irrefl _), List.take_length]

section
variable {τ : Type} {h : Handler τ} {v : Serving τ} {z : Zone} {id : UInt16} {name : Text} {qtype : RType}
  {dnssecOk : Bool} (hname : FitsWire name) (htype : Normalised qtype)

theorem queryBytes_length : (queryBytes id name qtype dnssecOk).length = 27 + (Builder.name name).length := by
  rw [queryBytes, serialize_length]
  show 12 + questionOctets [⟨name, qtype, CLASS_IN⟩] + 0 + 0 + 0 + 11 = _
  rw [questionOctets, List.map_cons, List.map_nil, List.sum_singleton, Builder.question, List.length_append,
    List.length_append]
  show 12 + ((Builder.name name).length + 2 + 2) + 0 + 0 + 0 + 11 = 27 + (Builder.name name).length
  omega

include hname in
theorem queryBytes_take : (queryBytes id name qtype dnssecOk).take 4096 = queryBytes id name qtype dnssecOk := by
  have hlen := hname.length
  rw [List.take_of_length_le]
  rw [queryBytes_length]
  omega

include hname htype

theorem asks_query (hunsigned : h.config.tsigRequireAll = false ∨ h.tsigKeys.isEmpty = true) (clocks : Clocks) :
    Asks h clocks (queryBytes id name qtype dnssecOk) (queryRead id 0x0100 name qtype dnssecOk)
      ⟨readName name, qtype, CLASS_IN⟩ where
  length := by
    rw [queryBytes_length]
    omega
  query := show ((0x0100 : UInt16) >>> 8).toUInt8 &&& 0x80 = 0 by decide
  verified := by
    rintro ⟨hall, hkeys, -⟩
    rcases hunsigned with hun | hun
    · rw [hun] at hall
      cases hall
    · rw [hun] at hkeys
      cases hkeys
  parse := parse_query hname.wireLabels htype
  response := show ((0x0100 : UInt16) &&& 0x8000 != 0) = false by decide
  opcode := show (((0x0100 : UInt16) >>> 11) &&& 0xF).toUInt8 = 0 by decide
  question := rfl

/-- In every mode the answer is the zone's, and goes out unsigned. -/
theorem respond_query (hunsigned : h.config.tsigRequireAll = false ∨ h.tsigKeys.isEmpty = true) {zones : List Zone}
    (hzone : authoritativeZone zones (readName name) = some z) (clocks : Clocks) (peer : IpAddr) (recursion : Recursion)
    (cache : Cache) (s : τ) :
    (respond h zones clocks peer recursion (queryBytes id name qtype dnssecOk) cache s).1 =
      .Ready (some (serialize (composed h z id name qtype dnssecOk) true)) := by
  have hresponse : (handleQuery h zones clocks peer recursion (queryBytes id name qtype dnssecOk) cache s).response =
      .reply (composed h z id name qtype dnssecOk) true := by
    rw [handleQuery_of_asks (asks_query hname htype hunsigned clocks), answerQuestion]
    simp only [hzone]
    rfl
  have hkey : signingKey h.tsigKeys (queryBytes id name qtype dnssecOk) = none := by
    rw [signingKey, queryBytes, parse_query hname.wireLabels htype]
    split <;> rfl
  rw [respond, hresponse, Response.toAnswer]
  dsimp only
  rw [maybeSignResponse, hkey]

theorem udpReplies_query (hunsigned : v.handler.config.tsigRequireAll = false ∨ v.handler.tsigKeys.isEmpty = true)
    (hadmitted : v.admitted = true) (hzone : authoritativeZone v.zones (readName name) = some z) :
    udpReplies v v true ((queryBytes id name qtype dnssecOk).take 4096) = [sendUdp (queryBytes id name qtype dnssecOk)
      (serialize (composed v.handler z id name qtype dnssecOk) true)] := by
  rw [udpReplies, queryBytes_take hname]
  simp only [hadmitted, respond_query hname htype hunsigned hzone, Bool.not_true, Bool.false_eq_true, if_false]

/-- A query that asks for no transfer is answered alike on a connection. -/
theorem handleTcp_query (hunsigned : v.handler.config.tsigRequireAll = false ∨ v.handler.tsigKeys.isEmpty = true)
    (hadmitted : v.admitted = true) (hzone : authoritativeZone v.zones (readName name) = some z)
    (htransfer : qtype ≠ .AXFR ∧ qtype ≠ .IXFR) :
    handleTcp (fun _ => v) (frame (queryBytes id name qtype dnssecOk)) =
      frame (serialize (composed v.handler z id name qtype dnssecOk) true) := by
  have hlen := hname.length
  have hne : queryBytes id name qtype dnssecOk ≠ [] := by
    intro hnil
    have hzero := @queryBytes_length id name qtype dnssecOk
    rw [hnil] at hzero
    exact absurd hzero (by simp only [List.length_nil]; omega)
  have hnone : zoneTransfer v (queryBytes id name qtype dnssecOk) = none := by
    rw [zoneTransfer, queryBytes, parse_query hname.wireLabels htype]
    exact if_pos htransfer
  have hreplies : tcpReplies v (queryBytes id name qtype dnssecOk) =
      [serialize (composed v.handler z id name qtype dnssecOk) true] := by
    rw [tcpReplies, maybeZoneTransfer, hnone]
    show (handleQueryPublic v (queryBytes id name qtype dnssecOk)).toList = _
    rw [handleQueryPublic, hadmitted]
    simp only [respond_query hname htype hunsigned hzone, Bool.not_true, Bool.false_eq_true, if_false,
      Option.toList_some]
  rw [handleTcp, queriesOf_frame hne (by rw [queryBytes_length]; omega)]
  simp only [List.zipIdx_cons, List.zipIdx_nil, List.flatMap_cons, List.flatMap_nil, List.append_nil, hreplies]

end

/-! The exchange. -/

/-- The packet that stands for an answer too long for a datagram. -/
def cutAnswer (id : UInt16) (name : Text) (qtype : RType) : Packet :=
  { Packet.newResponse id 0x0100 with questions := [⟨readName name, qtype, CLASS_IN⟩] }.setTc.setRa

section
variable {id : UInt16} {name : Text} {qtype : RType} {dnssecOk : Bool} (hname : FitsWire name) (htype : Normalised qtype)
include hname htype

theorem buildTruncated_query : (buildTruncated (queryBytes id name qtype dnssecOk)).bytes =
    serialize (cutAnswer id name qtype) true := by
  rw [buildTruncated, queryBytes, parse_query hname.wireLabels htype]
  rfl

theorem cutAnswer_decodes : parsePacket (serialize (cutAnswer id name qtype) true) = .ok (cutAnswer id name qtype) ∧
    (serialize (cutAnswer id name qtype) true).length ≤ 4096 := by
  have hexpanded : Expanded (cutAnswer id name qtype) := by
    refine ⟨fun q hq => ?_, fun r hr => (by cases hr), fun r hr => (by cases hr), Nat.lt_of_sub_eq_succ rfl,
      Nat.zero_lt_succ _, Nat.zero_lt_succ _, Nat.zero_lt_succ _, fun _ => rfl⟩
    obtain rfl := List.mem_singleton.mp hq
    exact ⟨readName_domain hname, htype⟩
  have hread := (serialize_decodes hexpanded fun r hr => by cases hr).run
  have hlen := (fitsWire_readName hname).length
  refine ⟨by rw [parsePacket, Reader.run, hread], ?_⟩
  rw [serialize_length]
  show 12 + questionOctets [⟨readName name, qtype, CLASS_IN⟩] + 0 + 0 + 0 + 0 ≤ 4096
  rw [questionOctets, List.map_cons, List.map_nil, List.sum_singleton, Builder.question, List.length_append,
    List.length_append]
  show 12 + ((Builder.name (readName name)).length + 2 + 2) + 0 + 0 + 0 + 0 ≤ 4096
  omega

omit hname htype in
theorem answersQuery_iff_of_question {expected p : Packet} (hid : p.id = expected.id)
    (hquestions : p.questions = expected.questions) {q : Question} (hq : expected.questions.head? = some q)
    (hresponse : p.isResponse = true) : answersQuery expected p = true := by
  rw [answersQuery, hquestions, hq, hid, hresponse]
  simp

end

/-- **The exchange**: whatever state the server is in when it is asked, and asked again, the resolver gets the packet
    it composed. -/
theorem udpExchange_linked {τ : Type} {h : Handler τ} {servings : Nat → Serving τ} {z : Zone} {name : Text}
    (ha : AnswersAlways h servings z name) (hname : FitsWire name) {qtype : RType} (htype : Normalised qtype)
    (htransfer : qtype ≠ .AXFR ∧ qtype ≠ .IXFR) {id : UInt16} {dnssecOk : Bool}
    (hportable : ∀ r ∈ (composed h z id name qtype dnssecOk).answers ++ (composed h z id name qtype dnssecOk).authority,
      Portable r)
    (hsize : (serialize (composed h z id name qtype dnssecOk) true).length ≤ 65535) (ids : Nat → UInt16) (addr : IpAddr)
    (n : Nat) : (udpExchange (linked servings ids) (queryBytes id name qtype dnssecOk) addr n).1 =
      some (composed h z id name qtype dnssecOk) := by
  have hfrom : AnswersFrom z (queryRead id 0x0100 name qtype dnssecOk) (composed h z id name qtype dnssecOk) :=
    answersFrom_zoneAnswer
  have hread := hfrom.decodes hname htype hportable hsize
  have hanswers : answersQuery (queryRead id 0x0100 name qtype dnssecOk) (composed h z id name qtype dnssecOk) = true :=
    answersQuery_iff_of_question hfrom.id hfrom.questions rfl hfrom.response
  have hudp : udpReplies (servings n) (servings n) true ((queryBytes id name qtype dnssecOk).take 4096) =
      [sendUdp (queryBytes id name qtype dnssecOk) (serialize (composed h z id name qtype dnssecOk) true)] := by
    rw [← ha.handler n]
    exact udpReplies_query hname htype (by rw [ha.handler]; exact ha.unsigned) (ha.admitted n) (ha.zone n)
  have hquery : parsePacket (queryBytes id name qtype dnssecOk) = .ok (queryRead id 0x0100 name qtype dnssecOk) :=
    parse_query hname.wireLabels htype
  have hlimit : udpLimit (queryBytes id name qtype dnssecOk) = 4096 := by
    rw [udpLimit, hquery]
    rfl
  rw [udpExchange]
  simp only [linked, hudp, hquery]
  rw [sendUdp, hlimit]
  by_cases hlong : (serialize (composed h z id name qtype dnssecOk) true).length > 4096
  · -- the datagram is cut, and the connection brings the whole answer
    obtain ⟨hcut, hshort⟩ := @cutAnswer_decodes id name qtype hname htype
    obtain ⟨hresponse, htruncated⟩ : (cutAnswer id name qtype).isResponse = true ∧
        (cutAnswer id name qtype).truncated = true := by
      have hflags : (cutAnswer id name qtype).flags = 0x8380 :=
        show (0x8000 ||| (0x0100 &&& 0x0100) ||| 0x0080 ||| 0x0200 ||| 0x0080 : UInt16) = 0x8380 by decide
      rw [Packet.isResponse, Packet.truncated, hflags]
      exact ⟨rfl, rfl⟩
    have hasked : answersQuery (queryRead id 0x0100 name qtype dnssecOk) (cutAnswer id name qtype) = true :=
      answersQuery_iff_of_question rfl rfl rfl hresponse
    have hframes : handleTcp (fun _ => servings (n + 1)) (frame (queryBytes id name qtype dnssecOk)) =
        frame (serialize (composed h z id name qtype dnssecOk) true) := by
      rw [← ha.handler (n + 1)]
      exact handleTcp_query hname htype (by rw [ha.handler]; exact ha.unsigned) (ha.admitted _) (ha.zone _) htransfer
    have hreply : firstReply (queryRead id 0x0100 name qtype dnssecOk) [serialize (cutAnswer id name qtype) true] =
        some (cutAnswer id name qtype) := by
      rw [firstReply, List.take_of_length_le hshort, hcut]
      exact if_pos hasked
    rw [if_pos hlong, buildTruncated_query hname htype, hreply]
    simp only [htruncated, if_true]
    rw [tcpExchange]
    simp only [hframes, firstFrame_frame hsize, hread, hquery, hanswers, if_true]
  · have hreply : firstReply (queryRead id 0x0100 name qtype dnssecOk)
        [serialize (composed h z id name qtype dnssecOk) true] = some (composed h z id name qtype dnssecOk) := by
      rw [firstReply, List.take_of_length_le (Nat.le_of_not_lt hlong), hread]
      exact if_pos hanswers
    rw [if_neg hlong, hreply]
    simp only [hfrom.whole, Bool.false_eq_true, if_false]

/-- What the exchange brings is the result, unless it is a failure. -/
theorem resolve_of_exchange {τ : Type} {servings : Nat → Serving τ} {ids : Nat → UInt16} {n : Nat} {name : Text}
    {qtype : RType} {addr : IpAddr} {p : Packet}
    (hexchange : (udpExchange (linked servings ids) (queryBytes (ids n) name qtype false) addr (n + 1)).1 = some p)
    (hcode : p.rcode = RCODE_NOERROR ∨ p.rcode = RCODE_NXDOMAIN) (others : List IpAddr) :
    (resolve (linked servings ids) ⟨addr :: others, true⟩ name qtype n).1 =
      if p.rcode = RCODE_NXDOMAIN then .NxDomain p else .Answer p := by
  have hnot : p.rcode ≠ RCODE_SERVFAIL := by
    rcases hcode with hcode | hcode
    · rw [hcode]; decide
    · rw [hcode]; decide
  generalize hout : udpExchange (linked servings ids) (queryBytes (ids n) name qtype false) addr (n + 1) = out at hexchange
  obtain ⟨reply, s⟩ := out
  dsimp only at hexchange
  have hask : askForwarders (linked servings ids) (buildQuery (ids n) name qtype true) (addr :: others) (n + 1) =
      (some (if p.rcode = RCODE_NXDOMAIN then .NxDomain p else .Answer p), s) := by
    rw [askForwarders, show buildQuery (ids n) name qtype true = queryBytes (ids n) name qtype false from rfl, hout,
      hexchange]
    exact if_neg hnot
  rw [resolve]
  simp only [linked] at hask ⊢
  rw [if_pos trivial, hask]

/-- A record whose source fits is one the format carries. -/
theorem RecordSource.Builds.portable {source : RecordSource} {r : Record} (h : source.Builds r) (hf : source.Fits) :
    Portable r := by
  have howner := hf.names source.owner List.mem_cons_self
  obtain ⟨hx, hlen⟩ := hf.expanded h.originLower h.shape
  refine ⟨⟨howner.domain, howner.lower h.lower, ?_⟩, h.normalised, h.rtype ▸ hx, hlen⟩
  rw [h.name]
  exact hf.owner.trans (by rw [zoneLabels, h.lower]; rfl)

/-! It can be decided whether the records of a file are. -/

instance (n : Text) : Decidable (FitsWire n) :=
  decidable_of_iff ((∀ l ∈ labelsOf n, (utf8 l).length ≤ 63) ∧ (Builder.name n).length ≤ 255)
    ⟨fun h => ⟨h.1, h.2⟩, fun h => ⟨h.labels, h.length⟩⟩

instance (n : Text) : Decidable (Spelt n) := inferInstanceAs (Decidable (n = Parser.joinLabels (zoneLabels n)))

instance (s : RecordSource) : Decidable s.Fits :=
  decidable_of_iff ((∀ n ∈ s.owner :: s.targets, FitsWire n) ∧ Spelt s.owner ∧
      (s.rtype = .NS ∨ s.rtype = .CNAME ∨ s.rtype = .PTR → ∀ n ∈ s.targets, NoEmptyLabel n) ∧ s.dataSize ≤ 65535)
    ⟨fun h => ⟨h.1, h.2.1, h.2.2.1, h.2.2.2⟩, fun h => ⟨h.names, h.owner, h.target, h.data⟩⟩

/-- The sources of the records of a file. -/
def sourcesOf : LineContext → List Text → List RecordSource
  | _, [] => []
  | ctx, text :: texts =>
    match readText ctx text with
    | .ok (next, some _) => (RecordSource.ofText ctx text).toList ++ sourcesOf next texts
    | .ok (next, none) => sourcesOf next texts
    | .error _ => []

theorem Enters.mem_sourcesOf {ctx : LineContext} {texts : List Text} {s : RecordSource} {r : Record}
    (h : Enters ctx texts s r) : s ∈ sourcesOf ctx texts := by
  induction h with
  | here hread hs =>
    rw [sourcesOf, hread, hs]
    exact List.mem_append_left _ (List.mem_singleton_self _)
  | @later ctx next text texts out s r hread hrest ih =>
    rw [sourcesOf, hread]
    cases out with
    | none => exact ih
    | some r' => exact List.mem_append_right _ ih

/-- A file whose sources all fit makes records the format carries. -/
theorem portable_readTexts {ctx ctx' : LineContext} {texts : List Text} {rs : List Record}
    (hread : readTexts ctx texts = .ok (ctx', rs)) (hlower : ctx.Lower) (hfits : ∀ s ∈ sourcesOf ctx texts, s.Fits) :
    ∀ r ∈ rs, Portable r := by
  intro r hr
  obtain ⟨source, henters⟩ := (mem_readTexts hread hlower).mp hr
  exact (henters.builds hlower).portable (hfits source henters.mem_sourcesOf)

/-! A server with one host. -/

/-- It serves the zone that a file of one line makes, and knows no key. -/
def hostServing : Serving Unit where
  handler := plainHandler
  zones := [zoneOf RecordLine.hostText]
  manager := .new
  cache := .new
  upstream := ()
  clocks := noClocks
  signTimes := fun _ => 1000
  peer := .V4 0
  admitted := true

theorem hostFile_reads : readTexts (.start (Zone.new ['x']).origin) (recordTexts RecordLine.hostText) =
    .ok (⟨3600, ['x'], ['w', '.', 'x']⟩, [hostRecord]) := by decide

theorem hostServing_answers : AnswersAlways plainHandler (fun _ => hostServing) (zoneOf RecordLine.hostText)
    ['w', '.', 'x'] where
  handler := fun _ => rfl
  admitted := fun _ => rfl
  zone := fun _ => by
    have hauthority : (zoneOf RecordLine.hostText).isAuthoritativeFor (readName ['w', '.', 'x']) = true := by decide
    rw [authoritativeZone, hostServing, List.filter_cons, if_pos hauthority]
    rfl
  unsigned := .inl rfl

theorem hostName_fits : FitsWire ['w', '.', 'x'] := ⟨by decide, by decide⟩

theorem hostRecord_portable : Portable hostRecord :=
  portable_readTexts hostFile_reads ⟨by decide, by decide⟩ (by decide) hostRecord (List.mem_singleton_self hostRecord)

theorem holds_zoneOf {content : Text} {ctx : LineContext} {rs : List Record}
    (hread : readTexts (.start (Zone.new ['x']).origin) (recordTexts content) = .ok (ctx, rs)) {r : Record}
    (hr : (zoneOf content).Holds r) : r ∈ rs := by
  rw [zoneOf, Zone.loadFile_eq, hread] at hr
  exact ((Zone.holds_foldl_add rs (Zone.new ['x'])).mp hr).resolve_left (Zone.not_holds_new ['x'] r)

theorem hostZone_portable (r : Record) (hr : (zoneOf RecordLine.hostText).Holds r) : Portable r := by
  rw [List.mem_singleton.mp (holds_zoneOf hostFile_reads hr)]
  exact hostRecord_portable

theorem normalised_a : Normalised .A := by unfold Normalised; rfl

section
variable {τ : Type} {h : Handler τ} {servings : Nat → Serving τ} {z : Zone} {name : Text}
  (ha : AnswersAlways h servings z name) (hname : FitsWire name) {qtype : RType} (htype : Normalised qtype)
  (htransfer : qtype ≠ .AXFR ∧ qtype ≠ .IXFR) (ids : Nat → UInt16) (n : Nat)
include ha hname htype htransfer

/-- What is resolved is what was composed. -/
theorem resolve_composed (hportable : ∀ r ∈ (composed h z (ids n) name qtype false).answers ++
    (composed h z (ids n) name qtype false).authority, Portable r)
    (hsize : (serialize (composed h z (ids n) name qtype false) true).length ≤ 65535) (addr : IpAddr)
    (others : List IpAddr) : (resolve (linked servings ids) ⟨addr :: others, true⟩ name qtype n).1 =
      if (composed h z (ids n) name qtype false).rcode = RCODE_NXDOMAIN then
        .NxDomain (composed h z (ids n) name qtype false)
      else .Answer (composed h z (ids n) name qtype false) := by
  have hexchange := udpExchange_linked ha hname htype htransfer hportable hsize ids addr (n + 1)
  exact resolve_of_exchange hexchange answersFrom_zoneAnswer.code others

/-- What is fetched for a chain of trust is in what was composed. -/
theorem fetch_composed (hportable : ∀ r ∈ (composed h z (ids n) name qtype true).answers ++
    (composed h z (ids n) name qtype true).authority, Portable r)
    (hsize : (serialize (composed h z (ids n) name qtype true) true).length ≤ 65535) (addr : IpAddr)
    (others : List IpAddr) : (fetchWithRrsig (linked servings ids) ⟨addr :: others, true⟩ name qtype n).1 =
      ((composed h z (ids n) name qtype true).answers.filter fun r => r.rtype = qtype,
        (composed h z (ids n) name qtype true).answers.filter fun r => r.rtype = .RRSIG) := by
  have hexchange := udpExchange_linked ha hname htype htransfer hportable hsize ids addr (n + 1)
  generalize hout : udpExchange (linked servings ids) (queryBytes (ids n) name qtype true) addr (n + 1) = out at hexchange
  obtain ⟨reply, s⟩ := out
  dsimp only at hexchange
  have hfetch : fetchFrom (linked servings ids) (buildQueryDnssec (ids n) name qtype) qtype (addr :: others) (n + 1) =
      (((composed h z (ids n) name qtype true).answers.filter fun r => r.rtype = qtype,
        (composed h z (ids n) name qtype true).answers.filter fun r => r.rtype = .RRSIG), s) := by
    rw [fetchFrom, show buildQueryDnssec (ids n) name qtype = queryBytes (ids n) name qtype true from rfl, hout, hexchange]
  rw [fetchWithRrsig]
  simp only [linked] at hfetch ⊢
  rw [hfetch]

end

/-- **A forwarder of the same make.** Whatever is asked of a zone that holds only what the format carries, for an
    answer that a message has room for: the resolver returns the packet the server composed, also where it is too long
    for a datagram, and what it fetches for a chain of trust are the records and signatures the server gives with it. -/
theorem resolve_linked {τ : Type} {h : Handler τ} {servings : Nat → Serving τ} {z : Zone} {name : Text}
    (ha : AnswersAlways h servings z name) (hname : FitsWire name) {qtype : RType} (htype : Normalised qtype)
    (htransfer : qtype ≠ .AXFR ∧ qtype ≠ .IXFR) (hportable : ∀ r, z.Holds r → Portable r) (ids : Nat → UInt16) (n : Nat)
    (hsize : ∀ dnssecOk, (serialize (composed h z (ids n) name qtype dnssecOk) true).length ≤ 65535) (addr : IpAddr)
    (others : List IpAddr) :
    (resolve (linked servings ids) ⟨addr :: others, true⟩ name qtype n).1 =
        (if (composed h z (ids n) name qtype false).rcode = RCODE_NXDOMAIN then
          .NxDomain (composed h z (ids n) name qtype false)
        else .Answer (composed h z (ids n) name qtype false)) ∧
      (fetchWithRrsig (linked servings ids) ⟨addr :: others, true⟩ name qtype n).1 =
        ((composed h z (ids n) name qtype true).answers.filter fun r => r.rtype = qtype,
          (composed h z (ids n) name qtype true).answers.filter fun r => r.rtype = .RRSIG) :=
  ⟨resolve_composed ha hname htype htransfer ids n (fun r hr => hportable r (answersFrom_zoneAnswer.records r hr))
      (hsize false) addr others,
    fetch_composed ha hname htype htransfer ids n (fun r hr => hportable r (answersFrom_zoneAnswer.records r hr))
      (hsize true) addr others⟩

/-! A zone whose answers are too long for a datagram. -/

/-- Four labels of 60 octets. -/
def longOrigin : Text := ['.'].intercalate (List.replicate 4 (List.replicate 60 'a'))

/-- Nine name servers, each below the origin. -/
def longText : Text := "abcdefghi".toList.flatMap fun c => "@ IN NS ".toList ++ [c, '\n']

def longRecords : List Record :=
  "abcdefghi".toList.map fun c => ⟨longOrigin, .NS, CLASS_IN, 3600, Builder.name (c :: '.' :: longOrigin)⟩

def longZone : Zone := longRecords.foldl Zone.add (Zone.new longOrigin)

def longServing : Serving Unit := { hostServing with zones := [longZone] }

theorem longText_reads : readTexts (.start (Zone.new longOrigin).origin) (recordTexts longText) =
    .ok (⟨3600, longOrigin, longOrigin⟩, longRecords) := by decide +kernel

theorem longOrigin_fits : FitsWire longOrigin := by decide +kernel

theorem longSource_fits : ∀ s ∈ sourcesOf (.start (Zone.new longOrigin).origin) (recordTexts longText), s.Fits := by
  decide +kernel

theorem longZone_portable (r : Record) (hr : longZone.Holds r) : Portable r := by
  have hlower : (LineContext.start (Zone.new longOrigin).origin).Lower := ⟨by decide +kernel, by decide +kernel⟩
  refine portable_readTexts longText_reads hlower longSource_fits r ?_
  exact ((Zone.holds_foldl_add longRecords _).mp hr).resolve_left (Zone.not_holds_new longOrigin r)

theorem longServing_answers : AnswersAlways plainHandler (fun _ => longServing) longZone longOrigin where
  handler := fun _ => rfl
  admitted := fun _ => rfl
  zone := fun _ => by
    have hauthority : longZone.isAuthoritativeFor (readName longOrigin) = true := by decide +kernel
    rw [authoritativeZone, longServing, List.filter_cons, if_pos hauthority]
    rfl
  unsigned := .inl rfl

theorem normalised_ns : Normalised .NS := by unfold Normalised; rfl

/-- The datagram only says that the answer is too long, so it is fetched over a connection. -/
theorem resolve_linked_long :
    4096 < (serialize (composed plainHandler longZone 7 longOrigin .NS false) true).length ∧
    (resolve (linked (fun _ => longServing) fun _ => 7) ⟨[.V4 0], true⟩ longOrigin .NS 0).1 =
        (if (composed plainHandler longZone 7 longOrigin .NS false).rcode = RCODE_NXDOMAIN then
          .NxDomain (composed plainHandler longZone 7 longOrigin .NS false)
        else .Answer (composed plainHandler longZone 7 longOrigin .NS false)) ∧
      (fetchWithRrsig (linked (fun _ => longServing) fun _ => 7) ⟨[.V4 0], true⟩ longOrigin .NS 0).1 =
        ((composed plainHandler longZone 7 longOrigin .NS true).answers.filter fun r => r.rtype = .NS,
          (composed plainHandler longZone 7 longOrigin .NS true).answers.filter fun r => r.rtype = .RRSIG) :=
  ⟨by decide +kernel, resolve_linked longServing_answers longOrigin_fits normalised_ns (by decide) longZone_portable
    (fun _ => 7) 0 (by decide +kernel) (.V4 0) []⟩

/-! From a zone file. -/

/-- The sets that the file has are in the zone that is published as the file has them, signed or not. -/
theorem recordsAt_readZone {env : LoadEnv} {origin path content : Text} {z z₀ : Zone} {k : RrsetKey}
    (hread : ZoneManager.readZone env origin path = .ok z) (hcontent : env.files.read path = .ok content)
    (hload : (Zone.new origin).loadFile content = .ok z₀) (hne : z₀.recordsAt k ≠ []) :
    z.recordsAt k = z₀.recordsAt k := by
  have hz := Zone.loadFile_loaded hload
  have hk : ∀ t : UInt16, (∀ rt ∈ fileTypes, rt.toU16 ≠ t) → k.2 ≠ t := by
    rintro t ht rfl
    exact hne (hz.recordsAt_eq_nil (n := k.1) ht)
  have hrrsig := hk RType.RRSIG.toU16 (by decide)
  have hnsec := hk RType.NSEC.toU16 (by decide)
  rw [readZone_eq hcontent hload] at hread
  obtain rfl := Except.ok.inj hread
  split
  · by_cases hends : EndsUntouched env.rsa env.files KEY_DIRECTORY z₀
    · rw [signZone_untouched hends]
    · rw [EndsUntouched, not_or] at hends
      obtain ⟨hapex, hstarts⟩ := hends
      push Not at hstarts
      obtain ⟨zsk, ksk, hkeys, hrdata⟩ := hstarts
      have hapex : z₀.lookup z₀.origin .DNSKEY = none := by simpa using hapex
      have hrdata : (zsk.dnskeyRdata env.rsa).isOk = true := by simpa using hrdata
      obtain ⟨hwf, keys, -, -, hat⟩ := keyed_spec hz hkeys hrdata
      have hdnskey : k ≠ (z₀.origin, RType.DNSKEY.toU16) := by
        rintro rfl
        rw [Zone.lookup, hz.origin] at hapex
        rw [Zone.recordsAt, hapex] at hne
        exact hne rfl
      have hkeyed : (publishKeys env.rsa z₀ (soaTtl z₀) zsk ksk).1.recordsAt k = z₀.recordsAt k := by
        rw [hat, if_neg hdnskey, List.append_nil]
      have hprepared : (preparedZone env.rsa z₀ zsk ksk).recordsAt k = z₀.recordsAt k := by
        rw [preparedZone, hwf.recordsAt_buildNsecChain _ hnsec, hkeyed]
      cases @signZone_ending env.rsa env.files env.now env.signOrder KEY_DIRECTORY z₀ zsk ksk hapex hkeys hrdata with
      | unpublished key hkey hfails hresult hzone => rw [hzone, hkeyed]
      | unsigned kskTag rrset hrrset htags hfails hresult hzone => rw [hzone, hprepared]
      | signed zskTag kskTag rrsigs hzskTag htags hall hksk hrrsigs hresult hzone =>
        have htypes : ∀ s ∈ rrsigs, s.rtype = .RRSIG := by
          intro s hs
          obtain ⟨rrset, -, hmakes⟩ := (hrrsigs s).mp hs
          obtain ⟨key, tag, hmade⟩ := hmakes.made
          exact rtype_signRrsetWithKey hmade
        rw [hzone, recordsAt_rrsigs htypes hrrsig, hprepared]
  · rfl

/-- The records of a file at a name and of a type, in the order of the file. -/
def entriesAt (rs : List Record) (name : Text) (qtype : RType) : List Record :=
  rs.filter fun r => Zone.recordKey r = (toAsciiLowercase (readName name), qtype.toU16)

section
variable {z : Zone} {c : Crypto} {ho : HashOrder} {q : Question} {pkt : Packet}

/-- A set that is there is the answer, with its signatures for a client that wants them. -/
theorem zoneAnswer_found {rs : List Record} (hlookup : z.lookup q.name q.qtype = some rs) :
    (zoneAnswer c ho q pkt z).answers = rs ++ (if pkt.dnssecOk then coveringRrsigs z q.name q.qtype else []) ∧
      (zoneAnswer c ho q pkt z).authority = [] ∧ (zoneAnswer c ho q pkt z).rcode = RCODE_NOERROR := by
  have hwalk : ∀ answers, cnameLoop z q.qtype pkt.dnssecOk MAX_CNAME_CHAIN q.name answers =
      ⟨q.name, answers ++ rs ++ (if pkt.dnssecOk then coveringRrsigs z q.name q.qtype else []), true⟩ := by
    intro answers
    rw [MAX_CNAME_CHAIN, cnameLoop, hlookup]
  rw [zoneAnswer, authoritativeAnswer]
  simp only [hwalk, if_true]
  exact ⟨rfl, rfl, rcode_baseResponse pkt⟩

end

section
variable {origin content name : Text} {ctx : LineContext} {rs : List Record} {qtype : RType}

/-- What is loaded from a file has at a key the file's entries there. -/
theorem exists_loadFile (htexts : readTexts (.start (Zone.new origin).origin) (recordTexts content) = .ok (ctx, rs)) :
    ∃ z, (Zone.new origin).loadFile content = .ok z ∧ ∀ (name : Text) (qtype : RType),
      z.recordsAt (toAsciiLowercase (readName name), qtype.toU16) = entriesAt rs name qtype := by
  refine ⟨{ rs.foldl Zone.add (Zone.new origin) with origin := ctx.origin }, ?_, fun name qtype => ?_⟩
  · rw [Zone.loadFile_eq, htexts]
    rfl
  · show (rs.foldl Zone.add (Zone.new origin)).recordsAt _ = _
    rw [Zone.recordsAt_foldl_add]
    rfl

/-- A file has no entries of the types that ask for transfers. -/
theorem entriesAt_not_transfer
    (htexts : readTexts (.start (Zone.new origin).origin) (recordTexts content) = .ok (ctx, rs))
    (hne : entriesAt rs name qtype ≠ []) : qtype ≠ .AXFR ∧ qtype ≠ .IXFR := by
  obtain ⟨z, hload, hat⟩ := exists_loadFile htexts
  have hcodes : ∀ t : UInt16, (∀ rt ∈ fileTypes, rt.toU16 ≠ t) → qtype.toU16 ≠ t := by
    rintro t ht rfl
    exact hne ((hat name qtype).symm.trans ((Zone.loadFile_loaded hload).recordsAt_eq_nil ht))
  exact ⟨fun he => hcodes RType.AXFR.toU16 (by decide) (congrArg RType.toU16 he),
    fun he => hcodes RType.IXFR.toU16 (by decide) (congrArg RType.toU16 he)⟩

/-- A zone that is published finds the entries of its file. -/
theorem lookup_readZone {env : LoadEnv} {path : Text} {z : Zone} (hcontent : env.files.read path = .ok content)
    (htexts : readTexts (.start (Zone.new origin).origin) (recordTexts content) = .ok (ctx, rs))
    (hread : ZoneManager.readZone env origin path = .ok z) (hne : entriesAt rs name qtype ≠ []) :
    z.lookup (readName name) qtype = some (entriesAt rs name qtype) := by
  obtain ⟨z₀, hload, hat⟩ := exists_loadFile htexts
  have hpublished : z.recordsAt (toAsciiLowercase (readName name), qtype.toU16) = entriesAt rs name qtype :=
    (recordsAt_readZone hread hcontent hload (by rw [hat]; exact hne)).trans (hat name qtype)
  rw [Zone.recordsAt] at hpublished
  rw [Zone.lookup]
  cases hentry : z.rrsets.lookup (toAsciiLowercase (readName name), qtype.toU16) with
  | none =>
    rw [hentry] at hpublished
    exact absurd hpublished.symm hne
  | some found =>
    rw [hentry] at hpublished
    exact congrArg some hpublished

/-- The format carries an entry whose source fits. -/
theorem entriesAt_portable
    (htexts : readTexts (.start (Zone.new origin).origin) (recordTexts content) = .ok (ctx, rs))
    (hfits : ∀ source r, Enters (.start (Zone.new origin).origin) (recordTexts content) source r →
      r ∈ entriesAt rs name qtype → source.Fits) : ∀ r ∈ entriesAt rs name qtype, Portable r := by
  intro r hr
  have hlower : (LineContext.start (Zone.new origin).origin).Lower :=
    ⟨(Zone.loaded_new origin).origin, (Zone.loaded_new origin).origin⟩
  obtain ⟨source, henters⟩ := (mem_readTexts htexts hlower).mp (List.mem_of_mem_filter hr)
  exact (henters.builds hlower).portable (hfits source r henters hr)

end

/-- What a packet for a set costs: a header, the question, the records and an OPT record. -/
theorem composed_length {τ : Type} {h : Handler τ} {z : Zone} {id : UInt16} {name : Text} {qtype : RType}
    {rs : List Record} (hanswers : (composed h z id name qtype false).answers = rs)
    (hauthority : (composed h z id name qtype false).authority = []) :
    (serialize (composed h z id name qtype false) true).length =
      27 + (Builder.name name).length + recordOctets rs := by
  have hfrom : AnswersFrom z (queryRead id 0x0100 name qtype false) (composed h z id name qtype false) :=
    answersFrom_zoneAnswer
  have hedns : (composed h z id name qtype false).ednsUdpSize = 4096 := hfrom.edns.1
  have hquestions : (composed h z id name qtype false).questions = [⟨readName name, qtype, CLASS_IN⟩] :=
    hfrom.questions
  have hquestion : questionOctets [⟨readName name, qtype, CLASS_IN⟩] = (Builder.name name).length + 4 := by
    rw [questionOctets, List.map_cons, List.map_nil, List.sum_singleton, Builder.question, List.length_append,
      List.length_append, builder_readName_length]
    rfl
  rw [serialize_length, hquestions, hquestion, hfrom.additional, hedns, hanswers, hauthority]
  show 12 + _ + recordOctets rs + 0 + 0 + 11 = _
  omega

/-- **What the file says reaches the client.** A server reads and serves a zone file, signed or not; a client asks it
    for a name and a type that the file has records of, whose sources fit and which fit into a message. It gets these
    records and no others, in the order of the file, whether they come in a datagram or over a connection. -/
theorem file_reaches_client {τ : Type} {h : Handler τ} {servings : Nat → Serving τ} {env : LoadEnv}
    {origin path content name : Text} {z : Zone} {ctx : LineContext} {rs : List Record} {qtype : RType}
    (hcontent : env.files.read path = .ok content)
    (htexts : readTexts (.start (Zone.new origin).origin) (recordTexts content) = .ok (ctx, rs))
    (hread : ZoneManager.readZone env origin path = .ok z) (ha : AnswersAlways h servings z name) (hname : FitsWire name)
    (htype : Normalised qtype) (hne : entriesAt rs name qtype ≠ [])
    (hfits : ∀ source r, Enters (.start (Zone.new origin).origin) (recordTexts content) source r →
      r ∈ entriesAt rs name qtype → source.Fits)
    (hsize : 27 + (Builder.name name).length + recordOctets (entriesAt rs name qtype) ≤ 65535)
    (ids : Nat → UInt16) (n : Nat) (addr : IpAddr) (others : List IpAddr) :
    ∃ p, (resolve (linked servings ids) ⟨addr :: others, true⟩ name qtype n).1 = .Answer p ∧ p.id = ids n ∧
      p.questions = [⟨readName name, qtype, CLASS_IN⟩] ∧ p.answers = entriesAt rs name qtype ∧ p.authority = [] := by
  obtain ⟨hanswers, hauthority, hcode⟩ := @zoneAnswer_found z h.crypto h.hashOrder ⟨readName name, qtype, CLASS_IN⟩
    (queryRead (ids n) 0x0100 name qtype false) (entriesAt rs name qtype) (lookup_readZone hcontent htexts hread hne)
  rw [show (queryRead (ids n) 0x0100 name qtype false).dnssecOk = false from rfl, if_neg Bool.false_ne_true,
    List.append_nil] at hanswers
  have hportable : ∀ r ∈ (composed h z (ids n) name qtype false).answers ++
      (composed h z (ids n) name qtype false).authority, Portable r := by
    rw [composed, hanswers, hauthority, List.append_nil]
    exact entriesAt_portable htexts hfits
  have hlength : (serialize (composed h z (ids n) name qtype false) true).length ≤ 65535 :=
    (composed_length hanswers hauthority).trans_le hsize
  refine ⟨composed h z (ids n) name qtype false, ?_, answersFrom_zoneAnswer.id, answersFrom_zoneAnswer.questions, hanswers,
    hauthority⟩
  rw [resolve_composed ha hname htype (entriesAt_not_transfer htexts hne) ids n hportable hlength addr others, composed,
    hcode]
  exact if_neg (by decide)

/-- A file that leaves the origin alone makes the zone of its records. -/
theorem loadFile_of_reads {origin content : Text} {ctx : LineContext} {rs : List Record}
    (hread : readTexts (.start (Zone.new origin).origin) (recordTexts content) = .ok (ctx, rs))
    (hctx : ctx.origin = (Zone.new origin).origin) :
    (Zone.new origin).loadFile content = .ok (rs.foldl Zone.add (Zone.new origin)) := by
  rw [Zone.loadFile_eq, hread]
  show Except.ok { rs.foldl Zone.add (Zone.new origin) with origin := ctx.origin } =
    .ok (rs.foldl Zone.add (Zone.new origin))
  rw [hctx, ← Zone.origin_foldl_add rs (Zone.new origin)]

theorem longZone_published : ZoneManager.readZone (unkeyedEnv longText) longOrigin ['f'] = .ok longZone := by
  have hload : (Zone.new longOrigin).loadFile longText = .ok longZone :=
    loadFile_of_reads longText_reads (by decide +kernel)
  have hunkeyed : ∀ p, (unkeyedEnv longText).files.present p = false := fun _ => rfl
  rw [@readZone_eq (unkeyedEnv longText) longOrigin ['f'] longText longZone rfl hload, hunkeyed,
    if_neg Bool.false_ne_true]

/-- Nine records, over a connection. -/
theorem file_reaches_client_long : ∃ p,
    (resolve (linked (fun _ => longServing) fun _ => 7) ⟨[.V4 0], true⟩ longOrigin .NS 0).1 = .Answer p ∧ p.id = 7 ∧
      p.questions = [⟨readName longOrigin, .NS, CLASS_IN⟩] ∧ p.answers = longRecords ∧ p.authority = [] := by
  have hentries : entriesAt longRecords longOrigin .NS = longRecords := by decide +kernel
  obtain ⟨p, hresolved, hid, hquestions, hanswers, hauthority⟩ := file_reaches_client rfl longText_reads
    longZone_published longServing_answers longOrigin_fits normalised_ns (by rw [hentries]; exact List.cons_ne_nil _ _)
    (fun source r henters _ => longSource_fits source henters.mem_sourcesOf) (by rw [hentries]; decide +kernel)
    (fun _ => 7) 0 (.V4 0) []
  exact ⟨p, hresolved, hid, hquestions, hanswers.trans hentries, hauthority⟩

end Ironbind
