import Ironbind.PacketRoundTrip
import Ironbind.Server

/- How long a reply is. `serialize` compresses nothing, so a message is a header and
   every question and record written out (`serialize_length`). A datagram that is
   too long is replaced by an answer with the questions alone, and these may be too
   many: `sendUdp_length_le_iff` is exactly when the client's limit is kept. -/
namespace Ironbind
open Codec

/-- The octets of a question section. -/
def questionOctets (qs : List Question) : Nat := (qs.map fun q => (Builder.question q).length).sum

/-- The octets of a section of records. -/
def recordOctets (rs : List Record) : Nat := (rs.map fun r => (Builder.record r).length).sum

/-- A header, the sections and, with EDNS, an OPT record of 11 octets. -/
theorem serialize_length (pkt : Packet) (edns : Bool) : (serialize pkt edns).length =
    12 + questionOctets pkt.questions + recordOctets pkt.answers + recordOctets pkt.authority
      + recordOctets pkt.additional + if edns && pkt.ednsUdpSize > 0 then 11 else 0 := by
  have hopt : (if edns && pkt.ednsUdpSize > 0 then Builder.opt pkt.ednsUdpSize pkt.dnssecOk else []).length =
      if edns && pkt.ednsUdpSize > 0 then 11 else 0 := by split <;> rfl
  simp only [serialize, List.length_append, hopt, List.length_flatMap, questionOctets, recordOctets,
    Builder.u16, be16_length]

/-! Truncated replies. -/

/-- The query's questions, written out behind a header, stay within its client's limit. -/
def QuestionsFit (query : Bytes) : Prop :=
  ∀ pkt, parsePacket query = .ok pkt → 12 + questionOctets pkt.questions ≤ udpLimit query

theorem udpLimit_ge (query : Bytes) : 512 ≤ udpLimit query := by
  unfold udpLimit
  split <;> omega

theorem formerrResponse_length (data : Bytes) : (formerrResponse data).bytes.length = 12 := rfl

theorem buildTruncated_length_le_iff (query : Bytes) :
    (buildTruncated query).bytes.length ≤ udpLimit query ↔ QuestionsFit query := by
  have hlimit := udpLimit_ge query
  unfold buildTruncated QuestionsFit
  cases hparse : parsePacket query with
  | error e =>
    refine iff_of_true ?_ fun pkt h => nomatch h
    rw [formerrResponse_length]; omega
  | ok pkt =>
    have hlen : (Response.reply ({ Packet.newResponse pkt.id pkt.flags with
        questions := pkt.questions }.setTc.setRa) false).bytes.length = 12 + questionOctets pkt.questions :=
      serialize_length _ false
    simp only [hlen, Except.ok.injEq, forall_eq']

/-- **The limit of a datagram.** It is kept exactly when the reply already keeps it or the questions of the
    query fit into it, written out; the truncated replacement keeps it in the latter case only. -/
theorem sendUdp_length_le_iff (query resp : Bytes) :
    ((sendUdp query resp).length ≤ udpLimit query ↔ resp.length ≤ udpLimit query ∨ QuestionsFit query) ∧
      ((buildTruncated query).bytes.length ≤ udpLimit query ↔ QuestionsFit query) := by
  refine ⟨?_, buildTruncated_length_le_iff query⟩
  unfold sendUdp
  split
  · next hlong => rw [buildTruncated_length_le_iff, or_iff_right (Nat.not_le.mpr hlong)]
  · next hshort =>
    have hle : resp.length ≤ udpLimit query := by omega
    exact iff_of_true hle (.inl hle)

/-- A query with 101 questions for the root. -/
def manyQuestions : Packet := ⟨7, 0, List.replicate 101 ⟨['.'], .A, CLASS_IN⟩, [], [], [], 0, false⟩

theorem manyQuestions_expanded : Expanded manyQuestions where
  questions := by
    intro q hq
    rw [List.eq_of_mem_replicate hq]
    exact ⟨rootName, rfl⟩
  records := fun _ h => absurd h List.not_mem_nil
  no_opt := fun _ h => absurd h List.not_mem_nil
  question_count := by decide
  answer_count := by decide
  authority_count := by decide
  additional_count := by decide
  dnssec_ok := fun _ => rfl

theorem manyQuestions_parses : parsePacket (serialize manyQuestions true) = .ok manyQuestions := by
  have h := serialize_decodes manyQuestions_expanded fun _ h => absurd h List.not_mem_nil
  rw [parsePacket, Reader.run, h.run]

/-- A reply of 513 octets to it is replaced by one of 517. -/
theorem manyQuestions_exceeds : udpLimit (serialize manyQuestions true) = 512 ∧
    (sendUdp (serialize manyQuestions true) (List.replicate 513 0)).length = 517 ∧
    (buildTruncated (serialize manyQuestions true)).bytes.length = 517 := by
  have hlimit : udpLimit (serialize manyQuestions true) = 512 := by
    rw [udpLimit, manyQuestions_parses]; rfl
  have htrunc : (buildTruncated (serialize manyQuestions true)).bytes.length = 517 := by
    rw [buildTruncated, manyQuestions_parses]
    show (serialize _ false).length = 517
    rw [serialize_length]
    rfl
  refine ⟨hlimit, ?_, htrunc⟩
  rw [sendUdp, hlimit, List.length_replicate, if_pos (by decide), htrunc]

end Ironbind
