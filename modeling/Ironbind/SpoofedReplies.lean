import Ironbind.Lib.Prefix
import Ironbind.NameWire
import Ironbind.Resolver
import Ironbind.StrictRuns

/- What datagrams a query pays attention to. A datagram is read up to 4096 octets, and
   what is read of one that was cut off is read of the whole (`parse_persists`): its header
   and its questions are the same. So the datagrams that do not answer the query, whoever
   sends them and whenever they arrive, change nothing about its result
   (`spoofed_ignored`), and the result answers the query, over TCP as well. -/
namespace Ironbind
open Codec

/-! What is read of a message that was cut off. -/

theorem peek_same : Same Parser.peek := by
  intro buf more pos b stop hread
  unfold Parser.peek at hread ⊢
  split at hread
  · next b' hget =>
    cases hread
    have hlen : pos < buf.length := (List.getElem?_eq_some_iff.mp hget).1
    rw [List.getElem?_append_left hlen, hget]
    exact ⟨_, rfl, rfl⟩
  · cases hread

theorem advance_same (n : Nat) : Same (Parser.advance n) := by
  intro buf more pos u stop hread
  cases hread
  exact ⟨(), rfl, rfl⟩

theorem u8_same : Same Parser.u8 := peek_same.step fun _ => (advance_same 1).step fun _ => .pure' rfl

theorem u16_same : Same Parser.u16 := u8_same.step fun _ => u8_same.step fun _ => .pure' rfl

theorem u32_same : Same Parser.u32 := u16_same.step fun _ => u16_same.step fun _ => .pure' rfl

theorem position_same : Same (Reader.position : Parser Nat) := by
  intro buf more pos p stop hread
  cases hread
  exact ⟨pos, rfl, rfl⟩

/-- Octets that are there stay where they are. -/
theorem take_drop_append {buf : Bytes} {pos n : Nat} (hroom : pos + n ≤ buf.length) (more : Bytes) :
    ((buf ++ more).drop pos).take n = (buf.drop pos).take n := by
  rw [List.drop_append_of_le_length (by omega), List.take_append_of_le_length (by rw [List.length_drop]; omega)]

theorem bytes_same (n : Nat) : Same (Parser.bytes n) := by
  intro buf more pos d stop hread
  unfold Parser.bytes at hread ⊢
  split at hread
  · cases hread
  · next hroom =>
    cases hread
    have hroom' : ¬ pos + n > (buf ++ more).length := by
      rw [List.length_append]
      omega
    rw [if_neg hroom', take_drop_append (by omega)]
    exact ⟨_, rfl, rfl⟩

/-- The whole buffer is more. -/
theorem buffer_persists : Persists (fun _ _ => True) (Reader.buffer : Parser Bytes) Reader.buffer := by
  intro buf more pos b stop hread
  cases hread
  exact ⟨buf ++ more, rfl, trivial⟩

/-- The loop over a name reads what is there, with at least the fuel it had. -/
theorem nameLoop_append {buf more : Bytes} : ∀ {fuel fuel' : Nat} {parts : List Text} {selfPos pos : Nat} {jumped : Bool}
    {jumps : Nat} {res : List Text} {stop : Nat}, fuel ≤ fuel' →
    Parser.nameLoop buf fuel parts selfPos pos jumped jumps = (.ok res, stop) →
      Parser.nameLoop (buf ++ more) fuel' parts selfPos pos jumped jumps = (.ok res, stop)
  | 0, _, _, _, _, _, _, _, _, _, h => by cases h
  | _ + 1, 0, _, _, _, _, _, _, _, hfuel, _ => absurd hfuel (Nat.not_succ_le_zero _)
  | fuel + 1, fuel' + 1, parts, selfPos, pos, jumped, jumps, res, stop, hfuel, h => by
    have hle : fuel ≤ fuel' := Nat.le_of_succ_le_succ hfuel
    obtain ⟨b, hb, hcases⟩ := nameLoop_ok h
    have hkeep : ∀ {p : Nat} {c : UInt8}, buf[p]? = some c → (buf ++ more)[p]? = some c := fun hc => by
      rw [List.getElem?_append_left (List.getElem?_eq_some_iff.mp hc).1, hc]
    rw [Parser.nameLoop, hkeep hb]
    dsimp only
    rcases hcases with ⟨rfl, rfl, rfl⟩ | ⟨hp, h0, lo, hlo, hjumps, hrest⟩ | ⟨hp, h0, hroom, hrest⟩
    · rfl
    · rw [if_neg h0, if_pos hp, hkeep hlo]
      dsimp only
      rw [if_neg (by omega)]
      exact nameLoop_append hle hrest
    · have hroom' : ¬ pos + 1 + b.toNat > (buf ++ more).length := by
        rw [List.length_append]
        omega
      -- the label stands in the part that was known
      rw [if_neg h0, if_neg hp, if_neg hroom', take_drop_append hroom]
      exact nameLoop_append hle hrest

theorem name_same : Same Parser.name := by
  have hparts : Same Parser.nameParts := by
    intro buf more pos parts stop hread
    have hfuel : Parser.nameFuel buf ≤ Parser.nameFuel (buf ++ more) := by
      unfold Parser.nameFuel
      rw [List.length_append]
      omega
    exact ⟨parts, nameLoop_append hfuel hread, rfl⟩
  exact hparts.step fun _ => .pure' rfl

theorem question_same : Same Parser.question :=
  name_same.step fun _ => u16_same.step fun _ => u16_same.step fun _ => .pure' rfl

/-- A record that is there is read, though the names in its data may be read differently: a pointer may lead to what was
    cut off. -/
theorem record_persists : Persists (fun _ _ => True) Parser.record Parser.record :=
  name_same.step fun _ => u16_same.step fun _ => u16_same.step fun _ => u32_same.step fun _ => u16_same.step fun _ =>
    position_same.step fun _ => (bytes_same _).step fun _ => buffer_persists.bind' fun _ _ _ => .pure' trivial

/-- The same header, and the same questions. -/
structure SameQuestion (p p' : Packet) : Prop where
  id : p'.id = p.id
  flags : p'.flags = p.flags
  questions : p'.questions = p.questions

theorem parse_persists : Persists SameQuestion Parser.parse Parser.parse := by
  apply u16_same.step; intro id
  apply u16_same.step; intro flags
  apply u16_same.step; intro qdcount
  apply u16_same.step; intro ancount
  apply u16_same.step; intro nscount
  apply u16_same.step; intro arcount
  apply (question_same.times qdcount.toNat).bind'
  intro questions questions' hquestions
  have hsame : questions = questions' := by rwa [List.forall₂_eq_eq_eq] at hquestions
  apply (record_persists.times ancount.toNat).bind'
  intro answers answers' _
  apply (record_persists.times nscount.toNat).bind'
  intro authority authority' _
  apply (record_persists.times arcount.toNat).bind'
  intro additional additional' _
  exact .pure' ⟨rfl, rfl, hsame.symm⟩

/-- The header and the questions of a datagram that was cut off are those of the datagram. -/
theorem parsePacket_take {datagram : Bytes} {n : Nat} {pkt : Packet} (hparse : parsePacket (datagram.take n) = .ok pkt) :
    ∃ whole, parsePacket datagram = .ok whole ∧ SameQuestion pkt whole :=
  parse_persists.run_take hparse

/-! Replies to a query. -/

/-- A response with the ID of the query and its question: the name up to the case of its letters, the type and the
    class. -/
structure RepliesToQuestion (query : Packet) (q : Question) (reply : Packet) : Prop where
  qr : reply.isResponse = true
  id : reply.id = query.id
  question : ∃ answered ∈ reply.questions.head?,
    toAsciiLowercase answered.name = toAsciiLowercase q.name ∧ answered.qtype = q.qtype ∧ answered.qclass = q.qclass

instance (query : Packet) (q : Question) (reply : Packet) : Decidable (RepliesToQuestion query q reply) :=
  decidable_of_iff (reply.isResponse = true ∧ reply.id = query.id ∧ ∃ answered ∈ reply.questions.head?,
      toAsciiLowercase answered.name = toAsciiLowercase q.name ∧ answered.qtype = q.qtype ∧ answered.qclass = q.qclass)
    ⟨fun h => ⟨h.1, h.2.1, h.2.2⟩, fun h => ⟨h.qr, h.id, h.question⟩⟩

/-- A datagram that parses as a reply to the query. -/
def Genuine (query : Packet) (q : Question) (datagram : Bytes) : Prop :=
  ∃ reply, parsePacket datagram = .ok reply ∧ RepliesToQuestion query q reply

instance (query : Packet) (q : Question) (datagram : Bytes) : Decidable (Genuine query q datagram) :=
  match h : parsePacket datagram with
  | .ok reply => decidable_of_iff (RepliesToQuestion query q reply)
      ⟨fun hreplies => ⟨reply, h, hreplies⟩, fun ⟨_, hparse, hreplies⟩ => Except.ok.inj (h.symm.trans hparse) ▸ hreplies⟩
  | .error _ => isFalse fun ⟨_, hparse, _⟩ => Except.noConfusion rfl rfl (heq_of_eq (h.symm.trans hparse))

section
variable {query reply : Packet} {q : Question}

/-- The check of the code is that the reply answers the query. -/
theorem answersQuery_iff (hone : query.questions = [q]) :
    answersQuery query reply = true ↔ RepliesToQuestion query q reply := by
  unfold answersQuery
  rw [hone, List.head?_cons]
  cases hhead : reply.questions.head? with
  | none =>
    refine iff_of_false Bool.false_ne_true fun hreplies => ?_
    obtain ⟨answered, hanswered, -⟩ := hreplies.question
    rw [hhead] at hanswered
    cases hanswered
  | some answered =>
    simp only [Bool.and_eq_true, beq_iff_eq]
    constructor
    · intro ⟨⟨⟨⟨hqr, hid⟩, hname⟩, htype⟩, hclass⟩
      exact ⟨hqr, hid, answered, hhead, hname, htype, hclass⟩
    · intro hreplies
      obtain ⟨answered', hanswered, hname, htype, hclass⟩ := hreplies.question
      obtain rfl := Option.some.inj (hhead.symm.trans hanswered)
      exact ⟨⟨⟨⟨hreplies.qr, hreplies.id⟩, hname⟩, htype⟩, hclass⟩

theorem RepliesToQuestion.of_same {whole : Packet} (hreplies : RepliesToQuestion query q reply)
    (hsame : SameQuestion reply whole) : RepliesToQuestion query q whole := by
  refine ⟨?_, hsame.id.trans hreplies.id, ?_⟩
  · rw [Packet.isResponse, hsame.flags]
    exact hreplies.qr
  · rw [hsame.questions]
    exact hreplies.question

/-- What is accepted of a datagram, cut off or not, makes it genuine. -/
theorem genuine_of_accepted (hone : query.questions = [q]) {datagram : Bytes} {n : Nat}
    (hparse : parsePacket (datagram.take n) = .ok reply) (haccepted : answersQuery query reply = true) :
    Genuine query q datagram := by
  obtain ⟨whole, hwhole, hsame⟩ := parsePacket_take hparse
  exact ⟨whole, hwhole, ((answersQuery_iff hone).mp haccepted).of_same hsame⟩

end

/-! The two exchanges. -/

/-- A datagram that is not accepted is passed over, so leaving it out changes nothing. -/
theorem firstReply_filter {query : Packet} {P : Bytes → Prop} [DecidablePred P]
    (haccepted : ∀ datagram reply, parsePacket (datagram.take 4096) = .ok reply → answersQuery query reply = true →
      P datagram) (datagrams : List Bytes) : firstReply query (datagrams.filter P) = firstReply query datagrams := by
  induction datagrams with
  | nil => rfl
  | cons datagram datagrams ih =>
    by_cases hp : P datagram
    · rw [List.filter_cons_of_pos (by simpa using hp), firstReply, firstReply, ih]
    · rw [List.filter_cons_of_neg (by simpa using hp), ih, firstReply]
      cases hparse : parsePacket (datagram.take 4096) with
      | error e => rfl
      | ok reply =>
        dsimp only
        rw [if_neg fun hanswers => hp (haccepted datagram reply hparse hanswers)]

theorem firstReply_answers {query reply : Packet} {datagrams : List Bytes}
    (hfirst : firstReply query datagrams = some reply) : answersQuery query reply = true := by
  induction datagrams with
  | nil => cases hfirst
  | cons datagram datagrams ih =>
    rw [firstReply] at hfirst
    split at hfirst
    · split at hfirst
      · next hanswers =>
        obtain rfl := Option.some.inj hfirst
        exact hanswers
      · exact ih hfirst
    · exact ih hfirst

section
variable {σ : Type} (net : Sockets σ)

/-- The network without the datagrams that are not genuine replies to a query. -/
def Sockets.genuine (query : Packet) (q : Question) : Sockets σ :=
  { net with udp := fun message addr s => ((net.udp message addr s).1.map fun datagrams =>
      datagrams.filter fun datagram => Genuine query q datagram, (net.udp message addr s).2) }

variable {net} {message : Bytes} {addr : IpAddr} {s : σ} {query reply : Packet} {q : Question}

theorem tcpExchange_answers (hparse : parsePacket message = .ok query)
    (hreply : (tcpExchange net message addr s).1 = some reply) : answersQuery query reply = true := by
  unfold tcpExchange at hreply
  split at hreply
  · cases hreply
  · split at hreply
    · next pkt expected _ hexpected =>
      obtain rfl := Except.ok.inj (hparse.symm.trans hexpected)
      dsimp only at hreply
      split at hreply
      · next hanswers =>
        obtain rfl := Option.some.inj hreply
        exact hanswers
      · cases hreply
    · cases hreply

/-- What is returned answers the query, from whichever transport. -/
theorem udpExchange_answers (hparse : parsePacket message = .ok query)
    (hreply : (udpExchange net message addr s).1 = some reply) : answersQuery query reply = true := by
  unfold udpExchange at hreply
  split at hreply
  · cases hreply
  · rw [hparse] at hreply
    dsimp only at hreply
    split at hreply
    · cases hreply
    · next pkt hfirst =>
      split at hreply
      · exact tcpExchange_answers hparse hreply
      · obtain rfl := Option.some.inj hreply
        exact firstReply_answers hfirst

/-- **Spoofed datagrams have no effect.** For every query with one question, whatever datagrams arrive in whatever order,
    the exchange comes to what it comes to without those that do not parse as a response with the query's ID and question;
    and what it returns, over UDP or over TCP, is such a response. -/
theorem spoofed_ignored {σ : Type} (net : Sockets σ) (message : Bytes) (addr : IpAddr) (s : σ) {query : Packet}
    {q : Question} (hparse : parsePacket message = .ok query) (hone : query.questions = [q]) :
    udpExchange net message addr s = udpExchange (net.genuine query q) message addr s ∧
      ∀ reply, (udpExchange net message addr s).1 = some reply → RepliesToQuestion query q reply := by
  constructor
  · unfold udpExchange Sockets.genuine
    dsimp only
    obtain ⟨arrived, s'⟩ := net.udp message addr s
    cases arrived with
    | none => rfl
    | some datagrams =>
      rw [Option.map_some]
      dsimp only
      rw [hparse]
      dsimp only
      rw [firstReply_filter fun datagram reply hread => genuine_of_accepted hone hread]
      rfl
  · intro reply hreply
    exact (answersQuery_iff hone).mp (udpExchange_answers hparse hreply)

end

/-- A network in which two datagrams are sent ahead of the reply: one that does not parse, and one with another ID. -/
def spoofedNet : Sockets Unit where
  randomId := fun s => (7, s)
  udp := fun _ _ s => (some [[0, 7], serialize { plainReply with id := 8 } true, serialize plainReply true], s)
  tcp := fun _ _ s => (none, s)

theorem spoofedNet_ignored :
    udpExchange spoofedNet (wwwClient false).data (.V4 0) () =
        udpExchange (spoofedNet.genuine (wwwQuery false) ⟨wwwCom, .A, CLASS_IN⟩) (wwwClient false).data (.V4 0) () ∧
      ∀ reply, (udpExchange spoofedNet (wwwClient false).data (.V4 0) ()).1 = some reply →
        RepliesToQuestion (wwwQuery false) ⟨wwwCom, .A, CLASS_IN⟩ reply :=
  spoofed_ignored spoofedNet _ _ () (wwwClient_parse false) rfl

/-- The reply is the third datagram's. -/
example : (udpExchange spoofedNet (wwwClient false).data (.V4 0) ()).1 = some plainReply := by decide

end Ironbind
