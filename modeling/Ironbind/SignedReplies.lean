import Ironbind.Transfer
import Ironbind.TsigRoundTrip

/- What a signature on a reply says about the request. `respond` signs with the key
   the first TSIG record of the request names, whether or not the request was
   verified, while `verify_message` looks at the last record, which is the last one
   the parser reads as well (`getLast?_of_extractTsig`). When that is harmless can be
   told from the request and the state before it (`respond_authenticated_iff`). The
   input of the MAC is made of the reply alone, so a signed reply answers every other
   request as well (`reply_not_bound`). -/
namespace Ironbind
open Codec

/-! Signed requests as packets. -/

/-- The record that signing appends. -/
def tsigRecordOf (key : TsigKey) (now : Nat) (mac : Bytes) (origId : UInt16) : Record where
  name := key.name
  rtype := .TSIG
  rclass := CLASS_ANY
  ttl := 0
  rdata := tsigRdata key.algorithm now FUDGE mac origId

/-- A packet with its TSIG record among the additional ones. -/
def signedPacket (hmac : Hmac) (now : Nat) (pkt : Packet) (key : TsigKey) : Packet :=
  { pkt with additional := pkt.additional ++ [tsigRecordOf key now (macOf hmac now (serialize pkt true) key) pkt.id] }

theorem writtenRecords_plain {pkt : Packet} (h : pkt.ednsUdpSize = 0) (edns : Bool) :
    writtenRecords pkt edns = pkt.answers ++ pkt.authority ++ pkt.additional := by
  rw [writtenRecords, h, if_neg (by simp), List.append_nil]

theorem additionalCount_plain {pkt : Packet} (h : pkt.ednsUdpSize = 0) (edns : Bool) :
    additionalCount pkt edns = pkt.additional.length := by
  rw [additionalCount, h, if_neg (by simp), Nat.add_zero]

/-- Without EDNS, a signed message is the serialization of the packet with the record in it. -/
theorem signMessage_eq_serialize (hmac : Hmac) (now : Nat) {pkt : Packet} (key : TsigKey) (hedns : pkt.ednsUdpSize = 0) :
    signMessage hmac now (serialize pkt true) key = serialize (signedPacket hmac now pkt key) true := by
  have hedns' : (signedPacket hmac now pkt key).ednsUdpSize = 0 := hedns
  rw [signMessage_eq, serialize_eq_headerOf (signedPacket hmac now pkt key)]
  unfold sections
  rw [writtenRecords_plain hedns, writtenRecords_plain hedns', additionalCount_plain hedns, additionalCount_plain hedns']
  simp only [signedPacket, headerOf, List.flatMap_append, List.length_append, List.flatMap_singleton, List.append_assoc]
  rfl

section
variable {pkt : Packet} {key : TsigKey} {n : DomainName} (hmac : Hmac) (now : Nat) (h : Expanded pkt)
  (hlen : ∀ r ∈ pkt.answers ++ pkt.authority ++ pkt.additional, r.rdata.length ≤ 65535) (hedns : pkt.ednsUdpSize = 0)
  (hcount : pkt.additional.length < 65535) (hname : key.name = n.text) (hlower : n.Lower)
  (halg : (Builder.name key.algorithm).length ≤ 65487)

include halg in
theorem tsigRecordOf_length (message : Bytes) (origId : UInt16) :
    (tsigRecordOf key now (macOf hmac now message key) origId).rdata.length ≤ 65535 := by
  have h32 : (macOf hmac now message key).length = 32 := hmac.length_tag _ _
  show (tsigRdata _ _ _ _ _).length ≤ 65535
  rw [tsigRdata_length _ _ h32]
  omega

include h hedns hcount hname hlower halg in
theorem signedPacket_expanded : Expanded (signedPacket hmac now pkt key) where
  questions := h.questions
  records := by
    intro r hr
    rw [signedPacket, ← List.append_assoc, List.mem_append, List.mem_singleton] at hr
    rcases hr with hr | rfl
    · exact h.records r hr
    · exact ⟨⟨n, hlower, hname⟩, rfl, tsigRecordOf_length hmac now halg _ _⟩
  no_opt := by
    intro r hr
    rcases List.mem_append.mp hr with hr | hr
    · exact h.no_opt r hr
    · rw [List.mem_singleton.mp hr]
      exact fun e => nomatch (show RType.TSIG = RType.OPT from e)
  question_count := h.question_count
  answer_count := h.answer_count
  authority_count := h.authority_count
  additional_count := by
    have hedns' : ¬ (signedPacket hmac now pkt key).ednsUdpSize > 0 := by
      show ¬ pkt.ednsUdpSize > 0
      rw [hedns]
      decide
    rw [additionalWritten, if_neg hedns', List.append_nil, signedPacket, List.length_append, List.length_singleton]
    omega
  dnssec_ok := h.dnssec_ok

include h hlen hedns hcount hname hlower halg in
/-- A signed message is read back with its TSIG record. -/
theorem parse_signMessage :
    parsePacket (signMessage hmac now (serialize pkt true) key) = .ok (signedPacket hmac now pkt key) := by
  have hlen' : ∀ r ∈ (signedPacket hmac now pkt key).answers ++ (signedPacket hmac now pkt key).authority ++
      (signedPacket hmac now pkt key).additional, r.rdata.length ≤ 65535 := by
    intro r hr
    rw [signedPacket, ← List.append_assoc, List.mem_append, List.mem_singleton] at hr
    rcases hr with hr | rfl
    · exact hlen r hr
    · exact tsigRecordOf_length hmac now halg _ _
  rw [signMessage_eq_serialize hmac now key hedns, parsePacket, Reader.run,
    (serialize_decodes (signedPacket_expanded hmac now h hedns hcount hname hlower halg) hlen').run]

end

/-! Authenticated requests. -/

def Response.isReply : Response → Bool
  | reply _ _ => true
  | _ => false

section
variable {σ : Type} (h : Handler σ) (zones : List Zone) (clocks : Clocks) (peer : IpAddr) (recursion : Recursion)
  (data : Bytes) (cache : Cache) (s : σ)

/-- A reply is sent. -/
def Replies : Prop :=
  ∃ resp, (handleQuery h zones clocks peer recursion data cache s).response.toAnswer = .Ready (some resp)

/-- A reply is sent, signed under `key`. -/
def SignsReply (key : TsigKey) : Prop :=
  Replies h zones clocks peer recursion data cache s ∧ signingKey h.tsigKeys data = some key

/-! When a reply is sent. -/

/-- A query to resolve: for a peer that may ask, with RD set, its name in no zone and its answer not cached. -/
structure NeedsUpstream (pkt : Packet) (q : Question) : Prop extends Asks h clocks data pkt q where
  zone : authoritativeZone zones q.name = none
  allowed : h.config.allowRecursion.any (fun network => network.contains peer) = true
  missed : cache.get clocks.lookup q.name q.qtype = none
  desired : pkt.rd = true

/-- The message is no response, and no receiver leaves it to the recursion pool. -/
structure Due : Prop where
  length : 3 ≤ data.length
  query : data.getD 2 0 &&& 0x80 = 0
  here : recursion = .Defer → ∀ pkt q, ¬ NeedsUpstream h zones clocks peer data cache pkt q

variable {h zones clocks peer recursion data cache s}

theorem recursiveAnswer_isReply {q : Question} {dnssecOk : Bool} {resp : Packet} :
    (recursiveAnswer h clocks q dnssecOk resp cache s).response.isReply = true := by
  unfold recursiveAnswer
  generalize h.upstream.resolve q.name q.qtype s = resolved
  obtain ⟨result, s'⟩ := resolved
  cases result with
  | Answer upstream => dsimp only; split <;> rfl
  | NxDomain upstream => rfl
  | ServFail why => rfl

/-- Only what a receiver would have to resolve gets no reply. -/
theorem cachedAnswer_isReply {rd : Bool} {q : Question} {dnssecOk : Bool} {resp : Packet} :
    (cachedAnswer h clocks recursion rd q dnssecOk resp cache s).response.isReply = true ↔
      ¬ (cache.get clocks.lookup q.name q.qtype = none ∧ rd = true ∧ recursion = .Defer) := by
  unfold cachedAnswer
  cases cache.get clocks.lookup q.name q.qtype with
  | some value =>
    refine iff_of_true ?_ (by simp)
    cases value with
    | Records records => rfl
    | Negative kind => cases kind <;> rfl
  | none =>
    cases rd with
    | false => exact iff_of_true rfl (by simp)
    | true =>
      cases recursion with
      | Defer => exact iff_of_false Bool.false_ne_true (by simp)
      | Inline => exact iff_of_true recursiveAnswer_isReply (by simp)
      | Resume => exact iff_of_true recursiveAnswer_isReply (by simp)

theorem answerQuestion_isReply {pkt : Packet} {q : Question} :
    (answerQuestion h zones clocks peer recursion pkt q cache s).response.isReply = true ↔
      ¬ (authoritativeZone zones q.name = none ∧
        h.config.allowRecursion.any (fun network => network.contains peer) = true ∧
        cache.get clocks.lookup q.name q.qtype = none ∧ pkt.rd = true ∧ recursion = .Defer) := by
  unfold answerQuestion
  cases authoritativeZone zones q.name with
  | some zone => exact iff_of_true rfl (by simp)
  | none =>
    cases hallowed : h.config.allowRecursion.any (fun network => network.contains peer) with
    | false => exact iff_of_true rfl (by simp)
    | true =>
      have hcached := @cachedAnswer_isReply σ h clocks recursion cache s pkt.rd q pkt.dnssecOk (baseResponse pkt)
      simpa using hcached

/-- The flags of a message that parses hold its third octet. -/
theorem isResponse_of_octet {pkt : Packet} (hparse : parsePacket data = .ok pkt) (hquery : data.getD 2 0 &&& 0x80 = 0) :
    pkt.isResponse = false := by
  have hhigh : ∀ hi lo : UInt8, hi &&& 0x80 = 0 → (hi.toUInt16 <<< 8 ||| lo.toUInt16) &&& 0x8000 = 0 := by
    intro hi lo h
    have hhi : ∀ n : Fin 256, UInt8.ofNat n.val &&& 0x80 = 0 → (UInt8.ofNat n.val).toUInt16 <<< 8 &&& 0x8000 = 0 := by
      decide +kernel
    have hlo : ∀ n : Fin 256, (UInt8.ofNat n.val).toUInt16 &&& 0x8000 = 0 := by decide +kernel
    have hhi := hhi ⟨hi.toNat, hi.toNat_lt⟩
    have hlo := hlo ⟨lo.toNat, lo.toNat_lt⟩
    rw [UInt8.ofNat_toNat] at hhi hlo
    rw [or_and, hhi h, hlo, UInt16.or_zero]
  rw [Packet.isResponse, (parsedSections_of_parse hparse).flags, u16At, hhigh _ _ hquery]
  rfl

/-- A query without a reply is a standard one whose question has none. -/
theorem answerQuestion_of_no_reply {pkt : Packet} (hresponse : pkt.isResponse = false)
    (hnone : (handlePacket h zones clocks peer recursion pkt cache s).response.isReply = false) :
    pkt.opcode = 0 ∧ ∃ q, pkt.questions.head? = some q ∧
      (answerQuestion h zones clocks peer recursion pkt q cache s).response.isReply = false := by
  unfold handlePacket at hnone
  rw [if_neg (by rw [hresponse]; decide)] at hnone
  split at hnone
  · cases hnone
  · next hopcode =>
    cases hq : pkt.questions.head? with
    | none => rw [hq] at hnone; cases hnone
    | some q =>
      rw [hq] at hnone
      exact ⟨not_not.mp hopcode, q, rfl, hnone⟩

theorem replies_iff_isReply : Replies h zones clocks peer recursion data cache s ↔
    (handleQuery h zones clocks peer recursion data cache s).response.isReply = true := by
  unfold Replies
  cases (handleQuery h zones clocks peer recursion data cache s).response with
  | drop => exact iff_of_false (fun ⟨_, hresp⟩ => nomatch hresp) Bool.false_ne_true
  | reply p edns => exact iff_of_true ⟨_, rfl⟩ rfl
  | recursive => exact iff_of_false (fun ⟨_, hresp⟩ => nomatch hresp) Bool.false_ne_true

/-- A query to resolve gets its reply from whoever waits for upstream. -/
theorem NeedsUpstream.isReply {pkt : Packet} {q : Question} (hup : NeedsUpstream h zones clocks peer data cache pkt q) :
    (handleQuery h zones clocks peer recursion data cache s).response.isReply = true ↔ recursion ≠ .Defer := by
  rw [handleQuery_of_asks hup.toAsks]
  refine answerQuestion_isReply.trans ?_
  simp only [hup.zone, hup.allowed, hup.missed, hup.desired, true_and, ne_eq]

/-- **When a reply is sent** can be told from the message, the zones and the cache. -/
theorem replies_iff_due : Replies h zones clocks peer recursion data cache s ↔
    Due h zones clocks peer recursion data cache := by
  rw [replies_iff_isReply]
  constructor
  · intro hreply
    by_cases hstart : data.length < 3 ∨ data.getD 2 0 &&& 0x80 ≠ 0
    · rw [handleQuery, if_pos hstart] at hreply
      cases hreply
    · obtain ⟨hlen, hquery⟩ := not_or.mp hstart
      refine ⟨Nat.not_lt.mp hlen, not_not.mp hquery, fun hdefer pkt q hup => ?_⟩
      exact hup.isReply.mp hreply hdefer
  · intro hdue
    have hstart : ¬ (data.length < 3 ∨ data.getD 2 0 &&& 0x80 ≠ 0) :=
      not_or.mpr ⟨Nat.not_lt.mpr hdue.length, not_not.mpr hdue.query⟩
    by_contra hnone
    rw [Bool.not_eq_true, handleQuery, if_neg hstart] at hnone
    split at hnone
    · cases hnone
    · next hverified =>
      cases hparse : parsePacket data with
      | error e => rw [hparse] at hnone; cases hnone
      | ok pkt =>
        rw [hparse] at hnone
        have hresponse := isResponse_of_octet hparse hdue.query
        obtain ⟨hopcode, q, hq, hnone⟩ := answerQuestion_of_no_reply hresponse hnone
        -- no reply to the question: then it is left to the pool
        obtain ⟨hzone, hallowed, hmissed, hdesired, hdefer⟩ :=
          not_not.mp (mt answerQuestion_isReply.mpr (by rw [hnone]; exact Bool.false_ne_true))
        have hask : Asks h clocks data pkt q :=
          ⟨hdue.length, hdue.query, hverified, hparse, hresponse, hopcode, hq⟩
        exact hdue.here hdefer pkt q ⟨hask, hzone, hallowed, hmissed, hdesired⟩

end

/-! Two passes over one message. -/

theorem question_skips : SameRun Parser.question skipQuestion fun _ _ => True := by
  refine name_sameRun.bind' name_forward (fun _ => u16_forward.bind' fun _ => u16_forward.bind' fun _ => .pure' _)
    fun _ _ _ => ?_
  intro b b' p q q' v v' h h' _
  obtain ⟨_, p1, htype, h⟩ := Reader.bind_eq_ok h
  obtain ⟨_, p2, hclass, h⟩ := Reader.bind_eq_ok h
  obtain ⟨-, rfl, -⟩ := u16_run htype
  obtain ⟨-, rfl, -⟩ := u16_run hclass
  cases h
  cases h'
  exact ⟨rfl, trivial⟩

/-- The data of a record, behind its length. -/
def recordTail (name : Text) (rtype rclass : UInt16) (ttl : UInt32) (rdlen : UInt16) : Parser Record := do
  let rdataOffset ← Reader.position
  let rdataRaw ← Parser.bytes rdlen.toNat
  let buf ← Reader.buffer
  pure { name := name, rtype := .ofU16 rtype, rclass := rclass, ttl := ttl,
         rdata := decompressRdata buf (.ofU16 rtype) rdataRaw rdataOffset }

theorem recordTail_ok {name : Text} {rtype rclass rdlen : UInt16} {ttl : UInt32} {b : Bytes} {p q : Nat} {r : Record}
    (h : recordTail name rtype rclass ttl rdlen b p = (.ok r, q)) :
    q = p + rdlen.toNat ∧ r.name = name ∧ r.rtype = .ofU16 rtype := by
  obtain ⟨offset, _, hoffset, h⟩ := Reader.bind_eq_ok h
  obtain ⟨raw, _, hraw, h⟩ := Reader.bind_eq_ok h
  obtain ⟨buf, _, hbuf, h⟩ := Reader.bind_eq_ok h
  cases hoffset
  cases hbuf
  unfold Parser.bytes at hraw
  split at hraw
  · cases hraw
  · cases hraw
    cases h
    exact ⟨rfl, rfl, rfl⟩

theorem recordTail_forward (name : Text) (rtype rclass : UInt16) (ttl : UInt32) (rdlen : UInt16) :
    Forward (recordTail name rtype rclass ttl rdlen) := fun _ p _ _ h => by
  rw [(recordTail_ok h).1]
  exact Nat.le_add_right p _

/-- A record is skipped up to where it is parsed. -/
theorem record_skips : SameRun Parser.record skipRr fun _ _ => True := by
  have hdata := recordTail_forward
  refine name_sameRun.bind' name_forward (fun name => u16_forward.bind' fun rtype => u16_forward.bind' fun rclass =>
    u32_forward.bind' fun ttl => u16_forward.bind' (hdata name rtype rclass ttl)) fun name _ _ => ?_
  refine u16_sameRun.bind' u16_forward (fun rtype => u16_forward.bind' fun rclass =>
    u32_forward.bind' fun ttl => u16_forward.bind' (hdata name rtype rclass ttl)) fun rtype _ _ => ?_
  refine u16_sameRun.bind' u16_forward (fun rclass => u32_forward.bind' fun ttl =>
    u16_forward.bind' (hdata name rtype rclass ttl)) fun rclass _ _ => ?_
  refine u32_sameRun.bind' u32_forward (fun ttl => u16_forward.bind' (hdata name rtype rclass ttl)) fun ttl _ _ => ?_
  -- the lengths are the same, and so is what they skip
  refine u16_sameRun.bind' u16_forward (hdata name rtype rclass ttl) fun rdlen rdlen' e => ?_
  intro b b' p q q' v v' h h' _
  obtain ⟨rfl, -⟩ := recordTail_ok h
  cases h'
  rw [e]
  exact ⟨rfl, trivial⟩

/-- A record that stands where a TSIG record is found has its name and its type. -/
theorem record_at_tsig {data : Bytes} {pos stop : Nat} {r : Record} {name : Text}
    (h : Parser.record data pos = (.ok r, stop)) (hat : TsigAt data pos name) : r.name = name ∧ r.rtype = .TSIG := by
  obtain ⟨p1, p2, hname, htype⟩ := hat
  obtain ⟨name', p1', hname', h⟩ := Reader.bind_eq_ok h
  obtain ⟨rfl, rfl⟩ : name = name' ∧ p1 = p1' := by
    have hsame := hname.symm.trans hname'
    exact ⟨Except.ok.inj (Prod.mk.inj hsame).1, (Prod.mk.inj hsame).2⟩
  obtain ⟨rtype, p2', htype', h⟩ := Reader.bind_eq_ok h
  obtain rfl : 250 = rtype := Except.ok.inj (Prod.mk.inj (htype.symm.trans htype')).1
  obtain ⟨rclass, _, -, h⟩ := Reader.bind_eq_ok h
  obtain ⟨ttl, _, -, h⟩ := Reader.bind_eq_ok h
  obtain ⟨rdlen, _, -, h⟩ := Reader.bind_eq_ok h
  obtain ⟨-, hn, ht⟩ := @recordTail_ok name 250 rclass rdlen ttl data _ stop r h
  exact ⟨hn, ht⟩

/-- **Both passes end at one record**: what `verify_message` finds at the end of a message is the last
    record of the additional section that `parse` reads. -/
theorem getLast?_of_extractTsig {data : Bytes} {pkt : Packet} {t : ExtractedTsig} (hparse : parsePacket data = .ok pkt)
    (ht : extractTsig data = .ok t) :
    ∃ last, pkt.additional.getLast? = some last ∧ last.name = t.name ∧ last.rtype = .TSIG := by
  have hx := extracted_of_extractTsig ht
  obtain ⟨p1, p2, p3, p4, raw, hqd, han, hns, har, hadditional⟩ := (parsedSections_of_parse hparse).sections
  have hagree (p q : Nat) : AgreeOn data data p q := fun _ _ _ => rfl
  have hforward : Forward Parser.record := name_forward.bind' fun name => u16_forward.bind' fun rtype =>
    u16_forward.bind' fun rclass => u32_forward.bind' fun ttl =>
      u16_forward.bind' (recordTail_forward name rtype rclass ttl)
  have hqforward : Forward Parser.question :=
    name_forward.bind' fun _ => u16_forward.bind' fun _ => u16_forward.bind' fun _ => .pure' _
  have hpos : t.arcount.toNat ≠ 0 := fun h0 => hx.arcount_ne (UInt16.toNat_inj.mp h0)
  -- the walk, section by section
  have hwalk := hx.walk
  rw [show (u16At data 6).toNat + (u16At data 8).toNat + t.arcount.toNat - 1 =
    (u16At data 6).toNat + ((u16At data 8).toNat + (t.arcount.toNat - 1)) by omega] at hwalk
  obtain ⟨_, q1, hwqd, hwalk⟩ := Reader.bind_eq_ok hwalk
  obtain ⟨skipped, q4, hwrr, hwalk⟩ := Reader.bind_eq_ok hwalk
  obtain rfl : q4 = t.offset := by cases hwalk; rfl
  obtain ⟨_, q2, _, hwan, hwrr, -⟩ := Reader.times_add hwrr
  obtain ⟨_, q3, _, hwns, hwar, -⟩ := Reader.times_add hwrr
  -- the parser's, with its last record apart
  rw [← hx.arcount, show t.arcount.toNat = (t.arcount.toNat - 1) + 1 by omega] at har
  obtain ⟨front, p3', back, hfront, hback, rfl⟩ := Reader.times_add har
  obtain ⟨rfl, -⟩ := SameRun.times hqforward question_skips _ _ _ _ _ _ _ _ hqd hwqd (hagree _ _)
  obtain ⟨rfl, -⟩ := SameRun.times hforward record_skips _ _ _ _ _ _ _ _ han hwan (hagree _ _)
  obtain ⟨rfl, -⟩ := SameRun.times hforward record_skips _ _ _ _ _ _ _ _ hns hwns (hagree _ _)
  obtain ⟨rfl, -⟩ := SameRun.times hforward record_skips _ _ _ _ _ _ _ _ hfront hwar (hagree _ _)
  obtain ⟨last, p5, hlast, hback⟩ :=
    Reader.bind_eq_ok (f := fun a => Reader.times 0 Parser.record >>= fun l => pure (a :: l))
    hback
  obtain ⟨hname, htype⟩ := record_at_tsig hlast hx.record
  refine ⟨last, ?_, hname, htype⟩
  obtain rfl : [last] = back := by cases hback; rfl
  have hkept : [last].filter (fun r => r.rtype ≠ .OPT) = [last] := by simp [htype]
  rw [hadditional, List.filter_append, hkept, List.getLast?_concat]

theorem signingKey_eq_some_iff {keyring : TsigKeyring} {data : Bytes} {key : TsigKey} :
    signingKey keyring data = some key ↔ ∃ pkt r, parsePacket data = .ok pkt ∧
      pkt.additional.find? (fun r => r.rtype = .TSIG) = some r ∧ keyring.get r.name = some key := by
  unfold signingKey
  cases hempty : keyring.isEmpty with
  | true =>
    refine iff_of_false (by simp) ?_
    rintro ⟨pkt, r, -, -, hget⟩
    rw [TsigKeyring.get_eq_none_of_isEmpty hempty] at hget
    cases hget
  | false =>
    cases parsePacket data with
    | error e => simp
    | ok pkt => simp [Option.bind_eq_some_iff]

theorem TsigKeyring.get_congr {keyring : TsigKeyring} {name name' : Text} (h : canonical name = canonical name') :
    keyring.get name = keyring.get name' := by
  rw [TsigKeyring.get, TsigKeyring.get, h]

/-- Keys found under two names are one key exactly when the names are one name. -/
theorem TsigKeyring.get_eq_iff {keyring : TsigKeyring} {name name' : Text} {key key' : TsigKey}
    (h : keyring.get name = some key) (h' : keyring.get name' = some key') :
    key = key' ↔ canonical name = canonical name' := by
  constructor
  · rintro rfl
    rw [← canonical_eq_of_get h, canonical_eq_of_get h']
  · intro e
    exact Option.some.inj (h.symm.trans ((get_congr e).trans h'))

/-- A TSIG record shares its name with the last record of the request, and the request is signed under the
    key of that name: HMAC-SHA256 of the octets before the last record, made within its fudge of the clock. -/
structure EndsSigned (hmac : Hmac) (now : Nat) (keyring : TsigKeyring) (data : Bytes) (pkt : Packet)
    (r : Record) : Prop where
  last : ∃ last, pkt.additional.getLast? = some last ∧ canonical last.name = canonical r.name
  signed : ∃ t key, extractTsig data = .ok t ∧ keyring.get r.name = some key ∧ Verifies hmac now data t key

/-- **Signed replies and authenticated requests.** A signature proves an authenticated request exactly when no
    reply is due, the first TSIG record of the request (if there is one) names no key, or it has the name of
    the last record and the request is signed under the key of that name. -/
theorem respond_authenticated_iff {σ : Type} (h : Handler σ) (zones : List Zone) (clocks : Clocks) (peer : IpAddr)
    (recursion : Recursion) (data : Bytes) (cache : Cache) (s : σ) :
    (∀ key, SignsReply h zones clocks peer recursion data cache s key →
        Authenticated h.hmac clocks.verify h.tsigKeys data key) ↔
      ¬ Due h zones clocks peer recursion data cache ∨
        ∀ pkt r, parsePacket data = .ok pkt → pkt.additional.find? (fun r => r.rtype = .TSIG) = some r →
          h.tsigKeys.get r.name = none ∨ EndsSigned h.hmac clocks.verify h.tsigKeys data pkt r := by
  constructor
  · intro hall
    by_cases hdue : Due h zones clocks peer recursion data cache
    · right
      intro pkt r hparse hfirst
      cases hget : h.tsigKeys.get r.name with
      | none => exact .inl rfl
      | some key =>
        have hsigns : SignsReply h zones clocks peer recursion data cache s key :=
          ⟨replies_iff_due.mpr hdue, signingKey_eq_some_iff.mpr ⟨pkt, r, hparse, hfirst, hget⟩⟩
        obtain ⟨t, ht, hkey, hverifies⟩ := authenticated_iff.mp (hall key hsigns)
        obtain ⟨last, hlast, hname, -⟩ := getLast?_of_extractTsig hparse ht
        refine .inr ⟨⟨last, hlast, ?_⟩, t, key, ht, hget, hverifies⟩
        rw [hname]
        exact (TsigKeyring.get_eq_iff hkey hget).mp rfl
    · exact .inl hdue
  · rintro (hno | hcond) key ⟨hreply, hkey⟩
    · exact absurd (replies_iff_due.mp hreply) hno
    · obtain ⟨pkt, r, hparse, hfirst, hget⟩ := signingKey_eq_some_iff.mp hkey
      rcases hcond pkt r hparse hfirst with hnone | hends
      · rw [hnone] at hget
        cases hget
      · obtain ⟨t, key', ht, hget', hverifies⟩ := hends.signed
        obtain rfl := Option.some.inj (hget'.symm.trans hget)
        -- the record that is verified is the last one, of the same name
        obtain ⟨last, hlast, hname⟩ := hends.last
        obtain ⟨last', hlast', hname', -⟩ := getLast?_of_extractTsig hparse ht
        obtain rfl := Option.some.inj (hlast.symm.trans hlast')
        refine authenticated_iff.mpr ⟨t, ht, ?_, hverifies⟩
        rw [← hname', TsigKeyring.get_congr hname, hget]

/-! An unverified request. -/

theorem Response.toAnswer_of_isReply {r : Response} (h : r.isReply = true) : ∃ resp, r.toAnswer = .Ready (some resp) := by
  cases r with
  | drop => cases h
  | reply p edns => exact ⟨_, rfl⟩
  | recursive => cases h

def plainKey : TsigKey := ⟨['k'], HMAC_SHA256, [1, 2, 3]⟩

def plainKeyring : TsigKeyring := .insert .new plainKey

/-- A verifier of nothing. -/
def noCrypto : Crypto where
  sha1 := id
  sha256 := id
  sha384 := id
  sha512 := id
  rsa := fun _ _ _ _ _ => .ok false
  p256 := fun _ _ _ => .ok false
  p384 := fun _ _ _ => .ok false
  ed25519 := fun _ _ _ => .ok false

/-- A server with one key that serves no zone and resolves for nobody. -/
def plainHandler : Handler Unit where
  crypto := noCrypto
  hmac := markOne []
  config := ⟨false, false, [], 100000, 300, false⟩
  tsigKeys := plainKeyring
  upstream := ⟨fun _ _ s => (.ServFail "no servers", s), fun _ _ s => (([], []), s)⟩
  hashOrder := ⟨id, fun _ => .refl _⟩

/-- A query with a TSIG record that names the key and holds nothing else. -/
def namingQuery : Packet where
  id := 7
  flags := 0
  questions := [⟨['a'], .A, CLASS_IN⟩]
  answers := []
  authority := []
  additional := [⟨['k'], .TSIG, CLASS_ANY, 0, []⟩]
  ednsUdpSize := 0
  dnssecOk := false

def noClocks : Clocks := ⟨1000, 1000, 1000, 1000, 1000⟩

/-- Its REFUSED reply is signed with the key, though the query does not verify. -/
theorem namingQuery_signed :
    SignsReply plainHandler [] noClocks (.V4 0) .Inline (serialize namingQuery true) .new () plainKey ∧
      ¬ Authenticated plainHandler.hmac noClocks.verify plainHandler.tsigKeys (serialize namingQuery true) plainKey := by
  refine ⟨⟨Response.toAnswer_of_isReply (by decide), by decide⟩, fun h => ?_⟩
  have hbad : (verifyMessage plainHandler.hmac noClocks.verify (serialize namingQuery true) plainHandler.tsigKeys).isOk =
      false := by decide
  rw [h.1] at hbad
  cases hbad

/-! Replies and other requests. -/

/-- The input of the MAC a reply is signed with, when it is signed. -/
def replyMacInput (keyring : TsigKeyring) (now : Nat) (req resp : Bytes) : Option Bytes :=
  (signingKey keyring req).map (signPreimage now resp)

/-- The octets sent for the message at an index of a transfer: its packet and the time decide them. -/
theorem streamBytes_getElem? (hmac : Hmac) (signTimes : Nat → Nat) (keyring : TsigKeyring)
    (packets : List Packet) (i : Nat) :
    (streamBytes hmac signTimes keyring packets)[i]? = packets[i]?.map fun p =>
      match keyring.get TRANSFER_KEY with
      | some key => signMessage hmac (signTimes i) (serialize p false) key
      | none => serialize p false := by
  unfold streamBytes
  cases keyring.get TRANSFER_KEY with
  | none => simp
  | some key => simp [List.getElem?_zipIdx, Function.comp_def]

/-- **Replies are not bound to requests.** For no two requests signed under one key does the input of a reply's MAC
    differ: the signed reply is the same. Nor do two transfers that send the same packet at the same time. -/
theorem reply_not_bound {keyring : TsigKeyring} {key : TsigKey} {req req' : Bytes}
    (h : signingKey keyring req = some key) (h' : signingKey keyring req' = some key) (now : Nat) (resp : Bytes) :
    ¬ replyMacInput keyring now req resp ≠ replyMacInput keyring now req' resp ∧
      (∀ hmac, maybeSignResponse hmac now keyring req resp = maybeSignResponse hmac now keyring req' resp) ∧
      ∀ (hmac : Hmac) (signTimes signTimes' : Nat → Nat) (packets packets' : List Packet) (i : Nat),
        packets[i]? = packets'[i]? → signTimes i = signTimes' i →
        (streamBytes hmac signTimes keyring packets)[i]? = (streamBytes hmac signTimes' keyring packets')[i]? := by
  refine ⟨fun hne => hne (by rw [replyMacInput, replyMacInput, h, h']), fun hmac => ?_, ?_⟩
  · simp only [maybeSignResponse, h, h']
  · intro hmac signTimes signTimes' packets packets' i hp ht
    rw [streamBytes_getElem?, streamBytes_getElem?, hp, ht]

/-- A query by its ID, and the tag that repeats the first octets of a message. -/
def queryWithId (id : UInt16) : Packet := ⟨id, 0, [⟨['.'], .A, CLASS_IN⟩], [], [], [], 0, false⟩

def prefixHmac : Hmac where
  tag := fun _ message => (message ++ List.replicate 32 0).take 32
  length_tag := fun _ message => by simp

/-- The query, signed. -/
def signedQuery (id : UInt16) : Bytes := signMessage prefixHmac 1000 (serialize (queryWithId id) true) plainKey

theorem queryWithId_expanded (id : UInt16) : Expanded (queryWithId id) where
  questions := by
    intro q hq
    rw [List.mem_singleton.mp hq]
    exact ⟨rootName, rfl⟩
  records := fun _ h => absurd h List.not_mem_nil
  no_opt := fun _ h => absurd h List.not_mem_nil
  question_count := by show 1 < 65536; decide
  answer_count := by show 0 < 65536; decide
  authority_count := by show 0 < 65536; decide
  additional_count := by show 0 < 65536; decide
  dnssec_ok := fun _ => rfl

theorem queryWithId_fits (id : UInt16) : WireFit (queryWithId id) true :=
  (queryWithId_expanded id).wireFit (fun _ h => absurd h List.not_mem_nil) (Nat.zero_lt_succ _)

theorem plainKey_name : Spells plainKey.name (letterName 'k' (.inl rfl)) := .inl rfl

theorem plainKey_found : plainKeyring.get plainKey.name = some plainKey := TsigKeyring.get_insert _ _

/-- It is authenticated, and its MAC holds its ID. -/
theorem signedQuery_authenticated (id : UInt16) : Authenticated prefixHmac 1000 plainKeyring (signedQuery id) plainKey :=
  authenticated_of_lower (queryWithId_fits id) plainKey_name (.inl (by decide)) plainKey_found (by decide) (by decide) _
    (by decide)

/-- The key it is signed with is the one a reply to it is signed with. -/
theorem signedQuery_signingKey (id : UInt16) : signingKey plainKeyring (signedQuery id) = some plainKey := by
  have hname : plainKey.name = (letterName 'k' (.inl rfl)).text := rfl
  have hparse := parse_signMessage prefixHmac 1000 (queryWithId_expanded id) (fun _ h => absurd h List.not_mem_nil) rfl
    (Nat.zero_lt_succ _) hname (by unfold DomainName.Lower letterName; decide) (by decide)
  exact signingKey_eq_some_iff.mpr ⟨signedPacket prefixHmac 1000 (queryWithId id) plainKey,
    tsigRecordOf plainKey 1000 (macOf prefixHmac 1000 (serialize (queryWithId id) true) plainKey) id, hparse, rfl,
    plainKey_found⟩

theorem reply_not_bound_signedQueries :
    ¬ replyMacInput plainKeyring 1000 (signedQuery 1) (serialize emptyPacket true) ≠
        replyMacInput plainKeyring 1000 (signedQuery 2) (serialize emptyPacket true) ∧
      maybeSignResponse prefixHmac 1000 plainKeyring (signedQuery 1) (serialize emptyPacket true) =
        maybeSignResponse prefixHmac 1000 plainKeyring (signedQuery 2) (serialize emptyPacket true) :=
  have h := reply_not_bound (signedQuery_signingKey 1) (signedQuery_signingKey 2) 1000 (serialize emptyPacket true)
  ⟨h.1, h.2.1 prefixHmac⟩

/-- Two verified requests with MACs of their own, and a reply whose MAC has one input for both. -/
theorem signedQueries_share_reply :
    Authenticated prefixHmac 1000 plainKeyring (signedQuery 1) plainKey ∧
      Authenticated prefixHmac 1000 plainKeyring (signedQuery 2) plainKey ∧
      macOf prefixHmac 1000 (serialize (queryWithId 1) true) plainKey ≠
        macOf prefixHmac 1000 (serialize (queryWithId 2) true) plainKey ∧
      replyMacInput plainKeyring 1000 (signedQuery 1) (serialize emptyPacket true) =
        replyMacInput plainKeyring 1000 (signedQuery 2) (serialize emptyPacket true) := by
  refine ⟨signedQuery_authenticated 1, signedQuery_authenticated 2, by decide, ?_⟩
  rw [replyMacInput, replyMacInput, signedQuery_signingKey, signedQuery_signingKey]

end Ironbind
