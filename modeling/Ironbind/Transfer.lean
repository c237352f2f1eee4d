import Ironbind.Server
import Ironbind.ZoneManager

/- Zone transfers (`axfr.rs`, and `maybe_zone_transfer` of `server.rs`) and the
   connections queries arrive on (`handle_tcp`, `handle_tls_stream`). A transfer is
   the list of packets it sends; they are serialized, and signed where the keyring
   holds the transfer key, on their way out. What a query meets of the server
   (zones, cache, clocks, ...) is a `Serving`: on a connection every query has one
   of its own, so anything may happen to the server between two of them. -/
namespace Ironbind
open Codec

/-! The streams. -/

def buildAxfrMsg (req : Packet) (answers : List Record) : Packet :=
  { Packet.newResponse req.id req.flags with questions := req.questions, answers := answers }.setAa

def MAX_RRS_PER_MSG : Nat := 64

/-- By name and then by type code; records that agree in both keep their order. -/
def axfrOrder (a b : Record) : Bool :=
  decide (utf8 a.name < utf8 b.name) || (a.name == b.name && decide (a.rtype.toU16 ≤ b.rtype.toU16))

/-- The records of a zone but for its SOA, in the order they are sent. -/
def axfrBody (ho : HashOrder) (zone : Zone) : List Record := (diffRecords ho zone).mergeSort axfrOrder

/-- Packing: the records of each message, from those that wait for the current one. -/
def packRecords (soa : Record) : List Record → List Record → List (List Record)
  | current, [] => if current.length ≥ MAX_RRS_PER_MSG then [current, [soa]] else [current ++ [soa]]
  | current, rr :: body =>
    if current.length ≥ MAX_RRS_PER_MSG then current :: packRecords soa [rr] body
    else packRecords soa (current ++ [rr]) body

def axfrStream (ho : HashOrder) (req : Packet) (zone : Zone) : List Packet :=
  match zone.soa.bind List.head? with
  | none => []
  | some soa => (packRecords soa [soa] (axfrBody ho zone)).map (buildAxfrMsg req)

/-- `slice::chunks`: pieces of `n` elements, the last one shorter. -/
def chunks {α : Type} (n : Nat) : Nat → List α → List (List α)
  | 0, _ => []
  | _ + 1, [] => []
  | fuel + 1, a :: l => (a :: l).take n :: chunks n fuel ((a :: l).drop n)

def extractSerial (rdata : Bytes) : Option UInt32 := soaSerial rdata

/-- The records of an incremental transfer: each delta between its SOAs, all between the current one. -/
def ixfrRecords (soa : Record) (deltas : List ZoneDelta) : List Record :=
  soa :: deltas.flatMap (fun d => d.fromSoa :: d.removed ++ d.toSoa :: d.added) ++ [soa]

def ixfrStream (ho : HashOrder) (req : Packet) (zone : Zone) (requesterSerial : UInt32)
    (history : Option (List ZoneDelta)) :
    List Packet :=
  match zone.soa.bind List.head? with
  | none => []
  | some soa =>
    let ourSerial := (extractSerial soa.rdata).getD 0
    if ourSerial = requesterSerial then [buildAxfrMsg req [soa]]
    else
      match history with
      | none => axfrStream ho req zone
      | some deltas =>
        if (deltas.getLast?.map fun d => d.toSerial) = some ourSerial then
          (chunks MAX_RRS_PER_MSG (ixfrRecords soa deltas).length (ixfrRecords soa deltas)).map (buildAxfrMsg req)
        else axfrStream ho req zone

/-! What the streams are made of. -/

section
variable {r soa : Record} {m : List Record}

theorem singleton_length_le (r : Record) : [r].length ≤ MAX_RRS_PER_MSG := by show 1 ≤ 64; decide

theorem mem_packRecords : ∀ {body current : List Record}, m ∈ packRecords soa current body → r ∈ m →
    r = soa ∨ r ∈ current ∨ r ∈ body
  | [], current, hm, hr => by
    rw [packRecords] at hm
    split at hm
    · rcases List.mem_cons.mp hm with rfl | hm
      · exact .inr (.inl hr)
      · rw [List.mem_singleton.mp hm, List.mem_singleton] at hr
        exact .inl hr
    · rw [List.mem_singleton.mp hm, List.mem_append, List.mem_singleton] at hr
      exact hr.elim (fun h => .inr (.inl h)) .inl
  | rr :: body, current, hm, hr => by
    rw [packRecords] at hm
    split at hm
    · rcases List.mem_cons.mp hm with rfl | hm
      · exact .inr (.inl hr)
      · have := mem_packRecords hm hr
        rw [List.mem_singleton] at this
        rw [List.mem_cons]
        tauto
    · have := mem_packRecords hm hr
      rw [List.mem_append, List.mem_singleton] at this
      rw [List.mem_cons]
      tauto

theorem packRecords_length_le : ∀ {body current : List Record}, current.length ≤ MAX_RRS_PER_MSG →
    m ∈ packRecords soa current body → m.length ≤ MAX_RRS_PER_MSG
  | [], current, hc, hm => by
    rw [packRecords] at hm
    split at hm
    · rcases List.mem_cons.mp hm with rfl | hm
      · exact hc
      · rw [List.mem_singleton.mp hm]; exact singleton_length_le soa
    · rw [List.mem_singleton.mp hm, List.length_append, List.length_singleton]; omega
  | rr :: body, current, hc, hm => by
    rw [packRecords] at hm
    split at hm
    · rcases List.mem_cons.mp hm with rfl | hm
      · exact hc
      · exact packRecords_length_le (singleton_length_le rr) hm
    · exact packRecords_length_le (by rw [List.length_append, List.length_singleton]; omega) hm

theorem packRecords_ne_nil : ∀ (body current : List Record), packRecords soa current body ≠ []
  | [], current => by rw [packRecords]; split <;> exact List.cons_ne_nil _ _
  | rr :: body, current => by
    rw [packRecords]
    split
    · exact List.cons_ne_nil _ _
    · exact packRecords_ne_nil body _

theorem mem_chunks {α : Type} {a : α} {c : List α} {n : Nat} :
    ∀ {fuel : Nat} {l : List α}, c ∈ chunks n fuel l → a ∈ c → a ∈ l
  | 0, _, hc, _ => absurd hc List.not_mem_nil
  | _ + 1, [], hc, _ => absurd hc List.not_mem_nil
  | fuel + 1, b :: l, hc, ha => by
    rcases List.mem_cons.mp hc with rfl | hc
    · exact List.mem_of_mem_take ha
    · exact List.mem_of_mem_drop (mem_chunks hc ha)

theorem chunks_length_le {α : Type} {c : List α} {n : Nat} :
    ∀ {fuel : Nat} {l : List α}, c ∈ chunks n fuel l → c.length ≤ n
  | 0, _, hc => absurd hc List.not_mem_nil
  | _ + 1, [], hc => absurd hc List.not_mem_nil
  | fuel + 1, b :: l, hc => by
    rcases List.mem_cons.mp hc with rfl | hc
    · exact List.length_take_le _ _
    · exact chunks_length_le hc

end

/-- The records of a stream, in the order they are sent. -/
def sentRecords (packets : List Packet) : List Record := packets.flatMap fun p => p.answers

theorem sentRecords_messages (req : Packet) (messages : List (List Record)) :
    sentRecords (messages.map (buildAxfrMsg req)) = messages.flatten := by
  rw [sentRecords, List.flatMap_map]
  exact List.flatMap_id'

theorem packRecords_flatten (soa : Record) : ∀ (body current : List Record),
    (packRecords soa current body).flatten = current ++ body ++ [soa]
  | [], current => by
    rw [packRecords]
    split <;> simp
  | rr :: body, current => by
    rw [packRecords]
    split
    · rw [List.flatten_cons, packRecords_flatten soa body, List.append_assoc, List.append_assoc, List.singleton_append,
        List.cons_append]
    · rw [packRecords_flatten soa body, List.append_assoc current, List.singleton_append]

theorem chunks_flatten {α : Type} {n : Nat} (hn : 0 < n) : ∀ {fuel : Nat} {l : List α}, l.length ≤ fuel →
    (chunks n fuel l).flatten = l
  | 0, l, h => by rw [List.length_eq_zero_iff.mp (Nat.le_zero.mp h)]; rfl
  | _ + 1, [], _ => rfl
  | fuel + 1, a :: l, h => by
    have hrest : ((a :: l).drop n).length ≤ fuel := by
      rw [List.length_cons] at h
      rw [List.length_drop, List.length_cons]
      omega
    rw [chunks, List.flatten_cons, chunks_flatten hn hrest, List.take_append_drop]

/-- A full transfer sends the SOA, the other records and the SOA again. -/
theorem sentRecords_axfrStream {ho : HashOrder} {req : Packet} {zone : Zone} {soa : Record}
    (hsoa : zone.soa.bind List.head? = some soa) :
    sentRecords (axfrStream ho req zone) = soa :: axfrBody ho zone ++ [soa] := by
  rw [axfrStream, hsoa]
  simp only [sentRecords_messages, packRecords_flatten, List.singleton_append]

/-- Each message is full before the next is begun, and the last has room for the SOA. -/
theorem packRecords_length (soa : Record) : ∀ (body current : List Record), 1 ≤ current.length →
    current.length ≤ MAX_RRS_PER_MSG →
    (packRecords soa current body).length = (current.length + body.length) / MAX_RRS_PER_MSG + 1
  | [], current, _, hle => by
    rw [packRecords, List.length_nil]
    split
    · next hfull =>
      rw [Nat.le_antisymm hle hfull]
      rfl
    · next hroom =>
      rw [Nat.add_zero current.length, Nat.div_eq_of_lt (Nat.lt_of_not_le hroom)]
      rfl
  | rr :: body, current, hpos, hle => by
    rw [packRecords, List.length_cons]
    split
    · next hfull =>
      have hrest := packRecords_length soa body [rr] (Nat.le_refl 1) (singleton_length_le rr)
      rw [List.length_cons, hrest, List.length_singleton, Nat.le_antisymm hle hfull, Nat.add_div_left _ (by decide),
        Nat.add_comm body.length]
    · next hroom =>
      rw [packRecords_length soa body (current ++ [rr]) (by simp) (by simp; omega), List.length_append,
        List.length_singleton, Nat.add_assoc, Nat.add_comm 1]

/-- A full transfer of so many records beside the SOA takes a message for every 64, the first SOA counted. -/
theorem axfrStream_length {ho : HashOrder} {req : Packet} {zone : Zone} {soa : Record}
    (hsoa : zone.soa.bind List.head? = some soa) :
    (axfrStream ho req zone).length = (1 + (diffRecords ho zone).length) / MAX_RRS_PER_MSG + 1 := by
  rw [axfrStream, hsoa]
  simp only [List.length_map]
  rw [packRecords_length soa _ [soa] (Nat.le_refl 1) (singleton_length_le soa), axfrBody, List.length_mergeSort]
  rfl

/-- The records of a delta, its SOAs included. -/
def ZoneDelta.records (d : ZoneDelta) : List Record := d.fromSoa :: d.removed ++ d.toSoa :: d.added

section
variable {ho : HashOrder} {req p : Packet} {zone : Zone} {serial : UInt32} {history : Option (List ZoneDelta)}

theorem mem_axfrStream (hp : p ∈ axfrStream ho req zone) : ∃ answers, p = buildAxfrMsg req answers ∧
    answers.length ≤ MAX_RRS_PER_MSG ∧ ∀ r ∈ answers, zone.Holds r := by
  unfold axfrStream at hp
  cases hsoa : zone.soa.bind List.head? with
  | none => rw [hsoa] at hp; exact absurd hp List.not_mem_nil
  | some soa =>
    rw [hsoa] at hp
    obtain ⟨m, hm, rfl⟩ := List.mem_map.mp hp
    refine ⟨m, rfl, packRecords_length_le (singleton_length_le soa) hm, fun r hr => ?_⟩
    rcases mem_packRecords hm hr with rfl | hr | hr
    · exact Zone.holds_of_soa hsoa
    · rw [List.mem_singleton.mp hr]
      exact Zone.holds_of_soa hsoa
    · rw [axfrBody, List.mem_mergeSort, diffRecords] at hr
      exact Zone.mem_flatten_iterRrsets.mp (List.mem_of_mem_filter hr)

theorem axfrStream_eq_nil_iff : axfrStream ho req zone = [] ↔ zone.soa.bind List.head? = none := by
  unfold axfrStream
  cases zone.soa.bind List.head? with
  | none => simp
  | some soa => simp [packRecords_ne_nil]

theorem mem_ixfrRecords {soa r : Record} {deltas : List ZoneDelta} (hr : r ∈ ixfrRecords soa deltas) :
    r = soa ∨ ∃ d ∈ deltas, r ∈ d.records := by
  rw [ixfrRecords, List.mem_append, List.mem_cons, List.mem_flatMap, List.mem_singleton] at hr
  rcases hr with (rfl | hr) | rfl
  · exact .inl rfl
  · exact .inr hr
  · exact .inl rfl

variable (ho req serial history) in
/-- An incremental transfer sends the SOA alone, differences between two of it, or the whole zone. -/
theorem ixfrStream_cases {soa : Record} (hsoa : zone.soa.bind List.head? = some soa) :
    ixfrStream ho req zone serial history = [buildAxfrMsg req [soa]] ∨
      (∃ deltas, history = some deltas ∧ ixfrStream ho req zone serial history =
        (chunks MAX_RRS_PER_MSG (ixfrRecords soa deltas).length (ixfrRecords soa deltas)).map (buildAxfrMsg req)) ∨
      ixfrStream ho req zone serial history = axfrStream ho req zone := by
  unfold ixfrStream
  rw [hsoa]
  dsimp only
  split
  · exact .inl rfl
  · cases history with
    | none => exact .inr (.inr rfl)
    | some deltas =>
      dsimp only
      split
      · exact .inr (.inl ⟨deltas, rfl, rfl⟩)
      · exact .inr (.inr rfl)

theorem ixfrStream_of_no_soa (hsoa : zone.soa.bind List.head? = none) : ixfrStream ho req zone serial history = [] := by
  rw [ixfrStream, hsoa]

theorem mem_ixfrStream (hp : p ∈ ixfrStream ho req zone serial history) : ∃ answers, p = buildAxfrMsg req answers ∧
    answers.length ≤ MAX_RRS_PER_MSG ∧
      ∀ r ∈ answers, zone.Holds r ∨ ∃ deltas, history = some deltas ∧ ∃ d ∈ deltas, r ∈ d.records := by
  cases hsoa : zone.soa.bind List.head? with
  | none => rw [ixfrStream_of_no_soa hsoa] at hp; cases hp
  | some soa =>
    obtain hstream | ⟨deltas, rfl, hstream⟩ | hstream := ixfrStream_cases ho req serial history hsoa <;> rw [hstream] at hp
    · refine ⟨[soa], List.mem_singleton.mp hp, singleton_length_le soa, fun r hr => .inl ?_⟩
      rw [List.mem_singleton.mp hr]
      exact Zone.holds_of_soa hsoa
    · obtain ⟨m, hm, rfl⟩ := List.mem_map.mp hp
      refine ⟨m, rfl, chunks_length_le hm, fun r hr => ?_⟩
      rcases mem_ixfrRecords (mem_chunks hm hr) with rfl | hr
      · exact .inl (Zone.holds_of_soa hsoa)
      · exact .inr ⟨deltas, rfl, hr⟩
    · obtain ⟨answers, rfl, hlen, hholds⟩ := mem_axfrStream hp
      exact ⟨answers, rfl, hlen, fun r hr => .inl (hholds r hr)⟩

theorem ixfrStream_eq_nil_iff : ixfrStream ho req zone serial history = [] ↔ zone.soa.bind List.head? = none := by
  constructor
  · intro hnil
    cases hsoa : zone.soa.bind List.head? with
    | none => rfl
    | some soa =>
      obtain hstream | ⟨deltas, -, hstream⟩ | hstream :=
        ixfrStream_cases ho req serial history hsoa <;> rw [hstream] at hnil
      · cases hnil
      · simp [ixfrRecords, chunks] at hnil
      · rw [← hsoa]; exact axfrStream_eq_nil_iff.mp hnil
  · exact ixfrStream_of_no_soa

end

/-- A record is in the history of a zone. -/
def ZoneManager.Keeps (m : ZoneManager) (origin : Text) (r : Record) : Prop :=
  ∃ queue d, m.history.lookup origin = some queue ∧ d ∈ queue ∧ r ∈ d.records

/-! What a query meets of the server. -/

structure Serving (σ : Type) where
  handler : Handler σ
  zones : List Zone
  manager : ZoneManager
  cache : Cache
  upstream : σ
  clocks : Clocks
  /-- The clock at the signing of each message of a transfer. -/
  signTimes : Nat → Nat
  peer : IpAddr
  /-- The rate limiter's verdict. -/
  admitted : Bool

inductive Transfer where
  | refused (p : Packet)
  | stream (packets : List Packet)

def TRANSFER_KEY : Text := "transfer-key.".toList

/-- A stream on the wire: signed where the keyring holds the transfer key. -/
def streamBytes (hmac : Hmac) (signTimes : Nat → Nat) (keyring : TsigKeyring) (packets : List Packet) : List Bytes :=
  match keyring.get TRANSFER_KEY with
  | some key => packets.zipIdx.map fun p => signMessage hmac (signTimes p.2) (serialize p.1 false) key
  | none => packets.map fun p => serialize p false

section
variable {σ : Type} (v : Serving σ)

/-- The serial a client reports in the SOA of its authority section. -/
def requesterSerial (pkt : Packet) : UInt32 :=
  ((pkt.authority.find? fun r => r.rtype = .SOA).bind fun r => soaSerial r.rdata).getD 0

def transferStream (pkt : Packet) (q : Question) (zone : Zone) : List Packet :=
  if q.qtype = .AXFR then axfrStream v.handler.hashOrder pkt zone
  else
    let serial := requesterSerial pkt
    ixfrStream v.handler.hashOrder pkt zone serial (v.manager.ixfrChain q.name serial)

/-- What `maybe_zone_transfer` sends, in front of serializing and signing. -/
def zoneTransfer (data : Bytes) : Option Transfer :=
  match parsePacket data with
  | .error _ => none
  | .ok pkt =>
    match pkt.questions.head? with
    | none => none
    | some q =>
      if q.qtype ≠ .AXFR ∧ q.qtype ≠ .IXFR then none
      else if !v.handler.tsigKeys.isEmpty ∧
          (verifyMessage v.handler.hmac v.clocks.verify data v.handler.tsigKeys).isOk = false then
        some (.refused ({ Packet.newResponse pkt.id pkt.flags with questions := pkt.questions }.setRcode RCODE_REFUSED))
      else
        match v.zones.find? fun zone => zone.isAuthoritativeFor q.name with
        | none => none
        | some zone => some (.stream (transferStream v pkt q zone))

/-- Every message of a stream answers the request with at most 64 records of the zone or its history. -/
theorem mem_transferStream {pkt : Packet} {q : Question} {zone : Zone} {p : Packet}
    (hp : p ∈ transferStream v pkt q zone) : ∃ answers, p = buildAxfrMsg pkt answers ∧
      answers.length ≤ MAX_RRS_PER_MSG ∧ ∀ r ∈ answers, zone.Holds r ∨ v.manager.Keeps q.name r := by
  unfold transferStream at hp
  split at hp
  · obtain ⟨answers, rfl, hlen, hholds⟩ := mem_axfrStream hp
    exact ⟨answers, rfl, hlen, fun r hr => .inl (hholds r hr)⟩
  · obtain ⟨answers, rfl, hlen, hholds⟩ := mem_ixfrStream hp
    refine ⟨answers, rfl, hlen, fun r hr => (hholds r hr).imp_right ?_⟩
    rintro ⟨deltas, hchain, d, hd, hr⟩
    obtain ⟨queue, hqueue, hdq⟩ := ZoneManager.mem_ixfrChain hchain hd
    exact ⟨queue, d, hqueue, hdq, hr⟩

/-- A stream is empty only for a zone without SOA. -/
theorem transferStream_eq_nil_iff {pkt : Packet} {q : Question} {zone : Zone} :
    transferStream v pkt q zone = [] ↔ zone.soa.bind List.head? = none := by
  unfold transferStream
  split
  · exact axfrStream_eq_nil_iff
  · exact ixfrStream_eq_nil_iff

def Transfer.bytes : Transfer → List Bytes
  | refused p => [serialize p false]
  | stream packets => streamBytes v.handler.hmac v.signTimes v.handler.tsigKeys packets

def maybeZoneTransfer (data : Bytes) : Option (List Bytes) := (zoneTransfer v data).map fun t => t.bytes v

/-- `handle_query_public`, which DoT, DoH and the plain queries of TCP go through. -/
def handleQueryPublic (data : Bytes) : Option Bytes :=
  if !v.admitted then none
  else
    match (respond v.handler v.zones v.clocks v.peer .Inline data v.cache v.upstream).1 with
    | .Ready resp => resp
    | .Recursive => none

/-- The keyring asks for a signature, and the request has no valid one. -/
def Unverified (data : Bytes) : Prop := v.handler.tsigKeys.isEmpty = false ∧
  (verifyMessage v.handler.hmac v.clocks.verify data v.handler.tsigKeys).isOk = false

/-- A transfer is refused with the questions alone, or a stream for the zone that was found. -/
theorem zoneTransfer_cases {data : Bytes} {t : Transfer} (h : zoneTransfer v data = some t) :
    ∃ pkt q, parsePacket data = .ok pkt ∧ pkt.questions.head? = some q ∧ (q.qtype = .AXFR ∨ q.qtype = .IXFR) ∧
      ((Unverified v data ∧ t = .refused
          ({ Packet.newResponse pkt.id pkt.flags with questions := pkt.questions }.setRcode RCODE_REFUSED)) ∨
        (¬ Unverified v data ∧ ∃ zone, v.zones.find? (fun zone => zone.isAuthoritativeFor q.name) = some zone ∧
          t = .stream (transferStream v pkt q zone))) := by
  have hunverified : (!v.handler.tsigKeys.isEmpty ∧
      (verifyMessage v.handler.hmac v.clocks.verify data v.handler.tsigKeys).isOk = false) ↔ Unverified v data := by
    rw [Unverified, Bool.not_eq_true']
  unfold zoneTransfer at h
  cases hparse : parsePacket data with
  | error e => rw [hparse] at h; cases h
  | ok pkt =>
    simp only [hparse] at h
    cases hq : pkt.questions.head? with
    | none => rw [hq] at h; cases h
    | some q =>
      simp only [hq] at h
      split at h
      · cases h
      · next hqtype =>
        have hqtype : q.qtype = .AXFR ∨ q.qtype = .IXFR := by
          by_contra hne
          exact hqtype (not_or.mp hne)
        refine ⟨pkt, q, rfl, hq, hqtype, ?_⟩
        split at h
        · next hrefused => exact .inl ⟨hunverified.mp hrefused, (Option.some.inj h).symm⟩
        · next hserved =>
          cases hzone : v.zones.find? fun zone => zone.isAuthoritativeFor q.name with
          | none => rw [hzone] at h; cases h
          | some zone =>
            rw [hzone] at h
            exact .inr ⟨mt hunverified.mpr hserved, zone, rfl, (Option.some.inj h).symm⟩

section
variable {data : Bytes} {pkt : Packet} {q : Question} (hparse : parsePacket data = .ok pkt)
  (hq : pkt.questions.head? = some q) (hqtype : q.qtype = .AXFR ∨ q.qtype = .IXFR)
include hparse hq hqtype

theorem zoneTransfer_of_unverified (hbad : Unverified v data) : zoneTransfer v data = some (.refused
    ({ Packet.newResponse pkt.id pkt.flags with questions := pkt.questions }.setRcode RCODE_REFUSED)) := by
  have hasks : ¬ (q.qtype ≠ .AXFR ∧ q.qtype ≠ .IXFR) := fun hne => hqtype.elim hne.1 hne.2
  have hrefused : !v.handler.tsigKeys.isEmpty ∧
      (verifyMessage v.handler.hmac v.clocks.verify data v.handler.tsigKeys).isOk = false := ⟨by rw [hbad.1]; rfl, hbad.2⟩
  rw [zoneTransfer, hparse]
  simp only [hq]
  rw [if_neg hasks, if_pos hrefused]

theorem zoneTransfer_of_verified (hgood : ¬ Unverified v data) : zoneTransfer v data =
    (v.zones.find? fun zone => zone.isAuthoritativeFor q.name).map fun zone => .stream (transferStream v pkt q zone) := by
  have hasks : ¬ (q.qtype ≠ .AXFR ∧ q.qtype ≠ .IXFR) := fun hne => hqtype.elim hne.1 hne.2
  have hserved : ¬ (!v.handler.tsigKeys.isEmpty ∧
      (verifyMessage v.handler.hmac v.clocks.verify data v.handler.tsigKeys).isOk = false) := fun h =>
    hgood ⟨by simpa using h.1, h.2⟩
  rw [zoneTransfer, hparse]
  simp only [hq]
  rw [if_neg hasks, if_neg hserved]
  cases v.zones.find? fun zone => zone.isAuthoritativeFor q.name <;> rfl

end

/-- What is sent is the reply of `handle_query`, signed where a key is named. -/
theorem handleQueryPublic_eq (data : Bytes) : handleQueryPublic v data =
    if !v.admitted then none
    else
      match (handleQuery v.handler v.zones v.clocks v.peer .Inline data v.cache v.upstream).response with
      | .reply p edns => some (maybeSignResponse v.handler.hmac v.clocks.sign v.handler.tsigKeys data (serialize p edns))
      | _ => none := by
  unfold handleQueryPublic respond
  generalize handleQuery v.handler v.zones v.clocks v.peer .Inline data v.cache v.upstream = outcome
  obtain ⟨response, _, _, _, _⟩ := outcome
  split
  · rfl
  · cases response <;> rfl

/-! Connections. -/

/-- The messages sent for one query over TCP, and over TLS. -/
def tcpReplies (data : Bytes) : List Bytes :=
  match maybeZoneTransfer v data with
  | some packets => packets
  | none => (handleQueryPublic v data).toList

def tlsReplies (data : Bytes) : List Bytes := (handleQueryPublic v data).toList

end

/-- A message behind its length (`len() as u16`). -/
def frame (message : Bytes) : Bytes := be16 (UInt16.ofNat message.length) ++ message

/-- The queries that are read from a connection before it ends: each behind its length, an empty
    or incomplete one ends it. -/
def readQueries : Nat → Bytes → List Bytes
  | 0, _ => []
  | fuel + 1, input =>
    match input with
    | hi :: lo :: rest =>
      let qlen := (hi.toUInt16 <<< 8 ||| lo.toUInt16).toNat
      if qlen = 0 ∨ rest.length < qlen then [] else rest.take qlen :: readQueries fuel (rest.drop qlen)
    | _ => []

/-- Every query takes octets from the input. -/
def queriesOf (input : Bytes) : List Bytes := readQueries input.length input

/-- The octets written to a connection, while writing succeeds. -/
def handleTcp {σ : Type} (servings : Nat → Serving σ) (input : Bytes) : Bytes :=
  (queriesOf input).zipIdx.flatMap fun q => (tcpReplies (servings q.2) q.1).flatMap frame

def handleTlsStream {σ : Type} (servings : Nat → Serving σ) (input : Bytes) : Bytes :=
  (queriesOf input).zipIdx.flatMap fun q => (tlsReplies (servings q.2) q.1).flatMap frame

end Ironbind
