import Ironbind.FailClosed

/- What must be true of a message before anything is sent for it: the rate limiter
   let its source through, and it is a query. Every way in asks both, the receiver
   before the recursion pool, TCP, DoT and DoH before the handler, which drops
   responses (`handleQuery_drops_responses`); but over TCP a transfer request is
   answered in front of all this, and `arrival_guarded_iff` says for which of them. -/
namespace Ironbind
open Codec

/-! Messages that arrive. -/

/-- How a message arrives; a datagram may be handed to the recursion pool, which meets the
    server as it is `later`, unless its queue is full. -/
inductive Entry (σ : Type) where
  | Udp (later : Serving σ) (queued : Bool)
  | Tcp | Dot | Doh

structure Arrival (σ : Type) where
  entry : Entry σ
  data : Bytes
  serving : Serving σ

/-- The QR bit of a message is 0. -/
def QueryBit (data : Bytes) : Prop := data.getD 2 0 &&& 0x80 = 0

section
variable {σ : Type}

/-- `udp_receiver`, with the job it may hand to the recursion pool. -/
def udpReplies (v later : Serving σ) (queued : Bool) (data : Bytes) : List Bytes :=
  if !v.admitted then []
  else
    match (respond v.handler v.zones v.clocks v.peer .Defer data v.cache v.upstream).1 with
    | .Ready (some resp) => [sendUdp data resp]
    | .Ready none => []
    | .Recursive => if queued then datagrams later .Resume data else []

namespace Arrival
variable (a : Arrival σ)

/-- The DNS messages sent for it. -/
def replies : List Bytes :=
  match a.entry with
  | .Udp later queued => udpReplies a.serving later queued a.data
  | .Tcp => tcpReplies a.serving a.data
  | .Dot | .Doh => (handleQueryPublic a.serving a.data).toList

/-- Something is sent only when its source was admitted and it is a query. -/
def Guarded : Prop := a.replies ≠ [] → a.serving.admitted = true ∧ QueryBit a.data

/-- It arrives over TCP, and a transfer is what it gets: a request for one that is refused for its
    signature, or that asks for a name in a loaded zone with an SOA. -/
structure TransferTaken : Prop where
  entry : a.entry = .Tcp
  taken : ∃ pkt q, parsePacket a.data = .ok pkt ∧ pkt.questions.head? = some q ∧ (q.qtype = .AXFR ∨ q.qtype = .IXFR) ∧
    (Unverified a.serving a.data ∨ ∃ zone, a.serving.zones.find? (fun zone => zone.isAuthoritativeFor q.name) = some zone ∧
      zone.soa.bind List.head? ≠ none)

end Arrival

/-! The handler's own guard. -/

theorem handleQuery_drops_responses {h : Handler σ} {zones : List Zone} {clocks : Clocks} {peer : IpAddr}
    {recursion : Recursion} {data : Bytes} {cache : Cache} {s : σ} (hresponse : ¬ QueryBit data) :
    (handleQuery h zones clocks peer recursion data cache s).response = .drop := by
  rw [handleQuery, if_pos (.inr hresponse)]

theorem respond_drops_responses {h : Handler σ} {zones : List Zone} {clocks : Clocks} {peer : IpAddr}
    {recursion : Recursion} {data : Bytes} {cache : Cache} {s : σ} (hresponse : ¬ QueryBit data) :
    (respond h zones clocks peer recursion data cache s).1 = .Ready none := by
  have hdrop : (handleQuery h zones clocks peer recursion data cache s).response = .drop :=
    handleQuery_drops_responses hresponse
  rw [respond]
  generalize handleQuery h zones clocks peer recursion data cache s = outcome at hdrop
  obtain ⟨response, _, _, _, _⟩ := outcome
  subst hdrop
  rfl

theorem handleQueryPublic_guarded {v : Serving σ} {data : Bytes} (h : handleQueryPublic v data ≠ none) :
    v.admitted = true ∧ QueryBit data := by
  unfold handleQueryPublic at h
  split at h
  · exact absurd rfl h
  · next hadmitted =>
    refine ⟨by simpa using hadmitted, ?_⟩
    by_contra hresponse
    rw [respond_drops_responses hresponse] at h
    exact h rfl

theorem udpReplies_guarded {v later : Serving σ} {queued : Bool} {data : Bytes} (h : udpReplies v later queued data ≠ []) :
    v.admitted = true ∧ QueryBit data := by
  unfold udpReplies at h
  split at h
  · exact absurd rfl h
  · next hadmitted =>
    refine ⟨by simpa using hadmitted, ?_⟩
    by_contra hresponse
    rw [respond_drops_responses hresponse] at h
    exact h rfl

/-! Transfers. -/

theorem streamBytes_eq_nil_iff {hmac : Hmac} {signTimes : Nat → Nat} {keyring : TsigKeyring} {packets : List Packet} :
    streamBytes hmac signTimes keyring packets = [] ↔ packets = [] := by
  unfold streamBytes
  split <;> simp

/-- A transfer sends something exactly when it is taken up. -/
theorem maybeZoneTransfer_sends_iff {v : Serving σ} {data : Bytes} :
    (∃ packets, maybeZoneTransfer v data = some packets ∧ packets ≠ []) ↔
      Arrival.TransferTaken ⟨.Tcp, data, v⟩ := by
  constructor
  · rintro ⟨packets, hpackets, hne⟩
    obtain ⟨t, ht, rfl⟩ := Option.map_eq_some_iff.mp hpackets
    obtain ⟨pkt, q, hparse, hq, hqtype, ⟨hbad, rfl⟩ | ⟨-, zone, hzone, rfl⟩⟩ := zoneTransfer_cases v ht
    · exact ⟨rfl, pkt, q, hparse, hq, hqtype, .inl hbad⟩
    · refine ⟨rfl, pkt, q, hparse, hq, hqtype, .inr ⟨zone, hzone, fun hsoa => hne ?_⟩⟩
      rw [Transfer.bytes, streamBytes_eq_nil_iff]
      exact (transferStream_eq_nil_iff v).mpr hsoa
  · rintro ⟨-, pkt, q, hparse, hq, hqtype, htaken⟩
    by_cases hbad : Unverified v data
    · exact ⟨_, congrArg _ (zoneTransfer_of_unverified v hparse hq hqtype hbad), List.cons_ne_nil _ _⟩
    · obtain ⟨zone, hzone, hsoa⟩ := htaken.resolve_left hbad
      refine ⟨(Transfer.stream (transferStream v pkt q zone)).bytes v, ?_, fun hnil => hsoa ?_⟩
      · rw [maybeZoneTransfer, zoneTransfer_of_verified v hparse hq hqtype hbad, hzone]
        rfl
      · rw [Transfer.bytes, streamBytes_eq_nil_iff] at hnil
        exact (transferStream_eq_nil_iff v).mp hnil

theorem tcpReplies_ne_nil {v : Serving σ} {data : Bytes} (h : tcpReplies v data ≠ []) :
    (∃ packets, maybeZoneTransfer v data = some packets ∧ packets ≠ []) ∨ handleQueryPublic v data ≠ none := by
  unfold tcpReplies at h
  cases ht : maybeZoneTransfer v data with
  | some packets => rw [ht] at h; exact .inl ⟨packets, rfl, h⟩
  | none => rw [ht] at h; exact .inr fun hnone => h (by rw [hnone]; rfl)

/-- **No reply without admission, and none to a reply**, but for a transfer that is taken up over TCP: exactly
    when such a request was admitted, too, and is a query. -/
theorem arrival_guarded_iff (a : Arrival σ) :
    a.Guarded ↔ (a.TransferTaken → a.serving.admitted = true ∧ QueryBit a.data) := by
  obtain ⟨entry, data, v⟩ := a
  have hpublic : (handleQueryPublic v data).toList ≠ [] → v.admitted = true ∧ QueryBit data := fun hne =>
    handleQueryPublic_guarded fun hnone => hne (by rw [hnone]; rfl)
  constructor
  · rintro hguarded ⟨hentry, htaken⟩
    obtain rfl : entry = .Tcp := hentry
    obtain ⟨packets, hpackets, hne⟩ := maybeZoneTransfer_sends_iff.mpr ⟨rfl, htaken⟩
    refine hguarded ?_
    show tcpReplies v data ≠ []
    rw [tcpReplies, hpackets]
    exact hne
  · intro h hne
    cases entry with
    | Udp later queued => exact udpReplies_guarded hne
    | Tcp =>
      rcases tcpReplies_ne_nil hne with hsends | hsome
      · exact h (maybeZoneTransfer_sends_iff.mp hsends)
      · exact handleQueryPublic_guarded hsome
    | Dot => exact hpublic hne
    | Doh => exact hpublic hne

/-- A response to an AXFR request, from a source over its limit. -/
def axfrResponse : Packet := { axfrQuery with flags := 0x8000 }

def axfrArrival : Arrival Unit := ⟨.Tcp, serialize axfrResponse true, { xServing plainKey with admitted := false }⟩

/-- It is answered all the same, REFUSED for its signature. -/
theorem axfrResponse_answered : axfrArrival.serving.admitted = false ∧ ¬ QueryBit axfrArrival.data ∧
    ¬ axfrArrival.Guarded := by
  have hresponse : ¬ QueryBit axfrArrival.data := by unfold QueryBit; decide
  have hsent : axfrArrival.replies ≠ [] := by
    have hlen : axfrArrival.replies.length = 1 := by decide
    exact fun hnil => absurd (hnil ▸ hlen) (by decide)
  exact ⟨rfl, hresponse, fun h => hresponse (h hsent).2⟩

end

end Ironbind
