import Ironbind.Admission
import Ironbind.DohExchange
import Ironbind.Forwarding
import Ironbind.Recursion

/- One query over every transport. A datagram, a message behind its length on a connection,
   plain or inside TLS, and a request over HTTPS all lead to `handle_query`, and what it
   answers leads back: a client that reads each transport by the transport's own rules gets
   the same message from all of them (`transports_agree`). -/
namespace Ironbind
open Codec

/-! Queries in datagrams. -/

section
variable {σ : Type} (v : Serving σ) (data : Bytes)

/-- A receiver, or the pool after it, answers what a connection would be answered. -/
theorem udpReplies_eq : udpReplies v v true data = ((handleQueryPublic v data).map (sendUdp data)).toList := by
  unfold udpReplies handleQueryPublic
  cases v.admitted with
  | false => rfl
  | true =>
    have hdefers : Defers v.cache v.upstream
        (handleQuery v.handler v.zones v.clocks v.peer .Defer data v.cache v.upstream)
        (handleQuery v.handler v.zones v.clocks v.peer .Resume data v.cache v.upstream)
        (handleQuery v.handler v.zones v.clocks v.peer .Inline data v.cache v.upstream) := handleQuery_defers data
    simp only [Bool.not_true, Bool.false_eq_true, if_false]
    cases hdefers with
    | ready hready heq =>
      have hsame : respond v.handler v.zones v.clocks v.peer .Inline data v.cache v.upstream =
          respond v.handler v.zones v.clocks v.peer .Defer data v.cache v.upstream := by
        rw [respond, respond, heq]
      obtain ⟨resp, hresp⟩ : ∃ resp, (respond v.handler v.zones v.clocks v.peer .Defer data v.cache v.upstream).1 =
          .Ready resp := respond_ready hready
      rw [hsame, hresp]
      cases resp <;> rfl
    | handedOn counted hdeferred heq =>
      have hfirst : (respond v.handler v.zones v.clocks v.peer .Defer data v.cache v.upstream).1 = .Recursive := by
        rw [respond, hdeferred]
        rfl
      have hlater : (respond v.handler v.zones v.clocks v.peer .Inline data v.cache v.upstream).1 =
          (respond v.handler v.zones v.clocks v.peer .Resume data v.cache v.upstream).1 := by
        rw [respond, respond, ← heq]
        generalize handleQuery v.handler v.zones v.clocks v.peer .Resume data v.cache v.upstream = resumed
        obtain ⟨response, _, _, _, _⟩ := resumed
        cases response <;> rfl
      rw [hfirst, hlater]
      show datagrams v .Resume data = _
      unfold datagrams
      cases (respond v.handler v.zones v.clocks v.peer .Resume data v.cache v.upstream).1 with
      | Ready resp => cases resp <;> rfl
      | Recursive => rfl

/-- It says that it was too long for a datagram. -/
def Truncated (message : Bytes) : Prop := u16At message 2 &&& 0x0200 ≠ 0

theorem truncated_buildTruncated {pkt : Packet} (hparse : parsePacket data = .ok pkt) :
    Truncated (buildTruncated data).bytes := by
  have hflags (p : Packet) (edns : Bool) : u16At (serialize p edns) 2 = p.flags := by
    rw [serialize_eq_headerOf]
    exact join16_split p.flags
  rw [buildTruncated, hparse]
  show u16At (serialize _ false) 2 &&& 0x0200 ≠ 0
  rw [hflags]
  show (_ ||| 0x0200 ||| 0x0080) &&& 0x0200 ≠ (0 : UInt16)
  rw [or_and, or_and]
  intro hzero
  exact absurd (UInt16.or_eq_zero_iff.mp (UInt16.or_eq_zero_iff.mp hzero).1).2 (by decide)

/-- What cannot be parsed is answered shortly. -/
theorem short_of_unparsed {e : ParseError} (hparse : parsePacket data = .error e) {reply : Bytes}
    (h : handleQueryPublic v data = some reply) : reply.length = 12 := by
  have hkey : signingKey v.handler.tsigKeys data = none := by
    rw [signingKey, hparse]
    split <;> rfl
  have hresponse : (handleQuery v.handler v.zones v.clocks v.peer .Inline data v.cache v.upstream).response = .drop ∨
      (handleQuery v.handler v.zones v.clocks v.peer .Inline data v.cache v.upstream).response =
        .reply ((Packet.newResponse (messageId data) 0).setRcode RCODE_REFUSED) false ∨
      (handleQuery v.handler v.zones v.clocks v.peer .Inline data v.cache v.upstream).response = formerrResponse data := by
    rw [handleQuery, hparse]
    dsimp only
    split
    · exact .inl rfl
    · split
      · exact .inr (.inl rfl)
      · exact .inr (.inr rfl)
  rw [handleQueryPublic_eq] at h
  split at h
  · cases h
  · rcases hresponse with hdrop | hrefused | hformerr
    · rw [hdrop] at h
      cases h
    · rw [hrefused] at h
      dsimp only at h
      rw [maybeSignResponse, hkey] at h
      rw [← Option.some.inj h]
      exact unreadReply_length data false
    · rw [hformerr, formerrResponse] at h
      dsimp only at h
      rw [maybeSignResponse, hkey] at h
      rw [← Option.some.inj h]
      exact formerrResponse_length data

/-- What the socket is given for this answer: nothing, the answer, or that it is too long for the client. -/
def Delivers (answer : Option Bytes) (limit : Nat) (datagrams : List Bytes) : Prop :=
  match answer with
  | none => datagrams = []
  | some reply => ∃ datagram, datagrams = [datagram] ∧ (reply.length ≤ limit → datagram = reply) ∧
      (limit < reply.length → Truncated datagram)

theorem udpReplies_delivers : Delivers (handleQueryPublic v data) (udpLimit data) (udpReplies v v true data) := by
  rw [udpReplies_eq]
  unfold Delivers
  cases hreply : handleQueryPublic v data with
  | none => rfl
  | some reply =>
    refine ⟨sendUdp data reply, rfl, fun hfits => if_neg (by omega), ?_⟩
    intro hlong
    cases hparse : parsePacket data with
    | ok pkt =>
      rw [sendUdp, if_pos hlong]
      exact truncated_buildTruncated data hparse
    | error e =>
      have hlimit := udpLimit_ge data
      rw [short_of_unparsed v data hparse hreply] at hlong
      omega

end

/-! Every transport. -/

section
variable {σ : Type} (servings : Nat → Serving σ) (queries : List Bytes)

/-- The answers to queries that come one after the other; nothing is sent for one that is dropped. -/
def answersTo : List Bytes := queries.zipIdx.flatMap fun q => (handleQueryPublic (servings q.2) q.1).toList

/-- The queries ask for no transfer, and the answers can be framed. -/
structure Plain : Prop where
  framed : ∀ q ∈ queries, Framed q
  query : ∀ i q, queries[i]? = some q → zoneTransfer (servings i) q = none
  room : ∀ i q, queries[i]? = some q → ∀ reply, handleQueryPublic (servings i) q = some reply → reply.length ≤ 65535

variable {servings queries}

theorem Plain.answers_length (h : Plain servings queries) : ∀ m ∈ answersTo servings queries, m.length ≤ 65535 := by
  intro m hm
  obtain ⟨⟨q, i⟩, hq, hreply⟩ := List.mem_flatMap.mp hm
  exact h.room i q (List.mem_zipIdx_iff_getElem?.mp hq) m (Option.mem_toList.mp hreply)

theorem Plain.handleTls (h : Plain servings queries) :
    deframe (handleTlsStream servings (queries.flatMap frame)) = some (answersTo servings queries) := by
  have hwritten : handleTlsStream servings (queries.flatMap frame) = (answersTo servings queries).flatMap frame := by
    rw [handleTlsStream, queriesOf_frames h.framed]
    exact List.flatMap_assoc.symm
  rw [hwritten]
  exact (deframe_frames_iff _).mpr h.answers_length

theorem Plain.handleTcp (h : Plain servings queries) :
    Ironbind.handleTcp servings (queries.flatMap frame) = handleTlsStream servings (queries.flatMap frame) := by
  rw [Ironbind.handleTcp, handleTlsStream, queriesOf_frames h.framed]
  apply List.flatMap_congr
  intro q hq
  have hquery := h.query q.2 q.1 (List.mem_zipIdx_iff_getElem?.mp hq)
  rw [tcpReplies, maybeZoneTransfer, hquery]
  rfl

end

/-- **All transports tell the same.** Queries that ask for no transfer, and whose answers can be framed, are sent one
    behind the other on a connection, plain or inside TLS, or each in a datagram, or each in a request over HTTPS,
    however it is cut into reads. In whatever state the server meets each of them, the messages that come back on a
    connection are the answers in order, a datagram holds the answer or says that it was too long, and the response
    over HTTPS has it as its body. -/
theorem transports_agree {σ : Type} {servings : Nat → Serving σ} {queries : List Bytes} (h : Plain servings queries)
    (decode : Text → Option Bytes) :
    deframe (handleTcp servings (queries.flatMap frame)) = some (answersTo servings queries) ∧
    deframe (handleTlsStream servings (queries.flatMap frame)) = some (answersTo servings queries) ∧
    ∀ i q, queries[i]? = some q →
      (q.length ≤ 4096 → Delivers (handleQueryPublic (servings i) q) (udpLimit q)
        (udpReplies (servings i) (servings i) true (q.take 4096))) ∧
      ∀ s : HttpStream, AsksFor decode s.octets s.fails q → ∃ written, handleHttp (servings i) decode s = .ok written ∧
        dohReply written = some ((handleQueryPublic (servings i) q).getD []) := by
  refine ⟨by rw [h.handleTcp, h.handleTls], h.handleTls, ?_⟩
  intro i q hq
  refine ⟨?_, fun s hasks => handleHttp_asked _ hasks (h.room i q hq)⟩
  intro hlength
  rw [List.take_of_length_le hlength]
  exact udpReplies_delivers _ _

/-- A query for the address of a host, and one for its name servers. -/
def hostQueries : List Bytes := [queryBytes 7 ['w', '.', 'x'] .A false, queryBytes 8 ['w', '.', 'x'] .NS true]

theorem hostQuery_answered (id : UInt16) {qtype : RType} (htype : Normalised qtype)
    (htransfer : qtype ≠ .AXFR ∧ qtype ≠ .IXFR) (dnssecOk : Bool) :
    zoneTransfer hostServing (queryBytes id ['w', '.', 'x'] qtype dnssecOk) = none ∧
      handleQueryPublic hostServing (queryBytes id ['w', '.', 'x'] qtype dnssecOk) =
        some (serialize (composed plainHandler (zoneOf RecordLine.hostText) id ['w', '.', 'x'] qtype dnssecOk) true) := by
  constructor
  · rw [zoneTransfer, queryBytes, parse_query hostName_fits.wireLabels htype]
    exact if_pos htransfer
  · have hanswer : (respond hostServing.handler hostServing.zones hostServing.clocks hostServing.peer .Inline
        (queryBytes id ['w', '.', 'x'] qtype dnssecOk) hostServing.cache hostServing.upstream).1 =
          .Ready (some (serialize (composed plainHandler (zoneOf RecordLine.hostText) id ['w', '.', 'x'] qtype dnssecOk)
            true)) :=
      respond_query hostName_fits htype (.inl rfl) (hostServing_answers.zone 0) _ _ _ _ _
    have hadmitted : hostServing.admitted = true := rfl
    rw [handleQueryPublic, hadmitted]
    simp only [hanswer, Bool.not_true, Bool.false_eq_true, if_false]

theorem hostQueries_plain : Plain (fun _ => hostServing) hostQueries where
  framed := by
    intro q hq
    simp only [hostQueries, List.mem_cons, List.not_mem_nil, or_false] at hq
    rcases hq with rfl | rfl
    · exact ⟨List.ne_nil_of_length_pos (by decide), by decide⟩
    · exact ⟨List.ne_nil_of_length_pos (by decide), by decide⟩
  query := by
    intro i q hq
    have hmem := List.mem_of_getElem? hq
    simp only [hostQueries, List.mem_cons, List.not_mem_nil, or_false] at hmem
    rcases hmem with rfl | rfl
    · exact (hostQuery_answered 7 normalised_a (by decide) false).1
    · exact (hostQuery_answered 8 normalised_ns (by decide) true).1
  room := by
    intro i q hq reply hreply
    have hmem := List.mem_of_getElem? hq
    simp only [hostQueries, List.mem_cons, List.not_mem_nil, or_false] at hmem
    rcases hmem with rfl | rfl
    · rw [(hostQuery_answered 7 normalised_a (by decide) false).2, Option.some.injEq] at hreply
      rw [← hreply]
      decide
    · rw [(hostQuery_answered 8 normalised_ns (by decide) true).2, Option.some.injEq] at hreply
      rw [← hreply]
      decide

theorem transports_agree_host :
    deframe (handleTcp (fun _ => hostServing) (hostQueries.flatMap frame)) =
      some (answersTo (fun _ => hostServing) hostQueries) ∧
    deframe (handleTlsStream (fun _ => hostServing) (hostQueries.flatMap frame)) =
      some (answersTo (fun _ => hostServing) hostQueries) ∧
    ∀ (i : Nat) q, hostQueries[i]? = some q →
      (q.length ≤ 4096 → Delivers (handleQueryPublic hostServing q) (udpLimit q)
        (udpReplies hostServing hostServing true (q.take 4096))) ∧
      ∀ s : HttpStream, AsksFor (fun _ => none) s.octets s.fails q → ∃ written,
        handleHttp hostServing (fun _ => none) s = .ok written ∧
          dohReply written = some ((handleQueryPublic hostServing q).getD []) :=
  transports_agree hostQueries_plain fun _ => none

end Ironbind
