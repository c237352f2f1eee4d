import Ironbind.TransferSigning

/- What an unsigned request obtains. At start-up a key whose secret cannot be read
   is left out (`main.rs`), and an empty keyring turns every check off; over any
   transport but TCP a transfer request is an ordinary query, which is answered from
   the zone. `runs_fail_closed` is what holds apart from these: no message sent for
   an unsigned transfer request, or for any unsigned query when all must be signed,
   holds a record. A run is any list of requests, each meeting any state of the
   zones, the cache, the upstream and the clocks, so that reloads, evictions and
   the other workers may do anything between two of them. -/
namespace Ironbind
open Codec

/-! Start-up. -/

structure TsigKeyConfig where
  name : Text
  algorithm : Text

/-- A key of the configuration, and what came of resolving its secret. -/
abbrev ResolvedKey : Type := TsigKeyConfig × Except String Bytes

/-- A key without a secret is reported and left out. -/
def loadKey (keyring : TsigKeyring) (k : ResolvedKey) : TsigKeyring :=
  match k.2 with
  | .ok secret => keyring.insert ⟨k.1.name, k.1.algorithm, secret⟩
  | .error _ => keyring

def loadKeyring (keys : List ResolvedKey) : TsigKeyring := keys.foldl loadKey .new

/-- The server that `main` starts, whatever became of the keys. -/
def start {σ : Type} (base : Handler σ) (keys : List ResolvedKey) : Handler σ := { base with tsigKeys := loadKeyring keys }

theorem loadKey_isEmpty (keyring : TsigKeyring) (k : ResolvedKey) :
    (loadKey keyring k).isEmpty = (keyring.isEmpty && !k.2.isOk) := by
  obtain ⟨config, _ | secret⟩ := k
  · exact (Bool.and_true _).symm
  · exact (TsigKeyring.isEmpty_insert _ _).trans (Bool.and_false _).symm

/-- One secret that can be read switches the checks on. -/
theorem loadKeyring_isEmpty (keys : List ResolvedKey) : (loadKeyring keys).isEmpty = keys.all fun k => !k.2.isOk := by
  have hfold : ∀ keyring : TsigKeyring, (keys.foldl loadKey keyring).isEmpty =
      (keyring.isEmpty && keys.all fun k => !k.2.isOk) := by
    induction keys with
    | nil => exact fun keyring => (Bool.and_true _).symm
    | cons k keys ih =>
      intro keyring
      rw [List.foldl_cons, ih, loadKey_isEmpty, List.all_cons, Bool.and_assoc]
  exact hfold .new

/-! Requests and what is sent for them. -/

/-- The ways a query reaches `handle_query`. -/
inductive Transport where
  | Udp | RecursionPool | Tcp | Dot | Doh
  deriving DecidableEq, Repr

structure Request (σ : Type) where
  transport : Transport
  data : Bytes
  serving : Serving σ

section
variable {σ : Type}

/-- A datagram, when the answer is ready. -/
def datagrams (v : Serving σ) (recursion : Recursion) (data : Bytes) : List Bytes :=
  match (respond v.handler v.zones v.clocks v.peer recursion data v.cache v.upstream).1 with
  | .Ready (some resp) => [sendUdp data resp]
  | _ => []

namespace Request
variable (e : Request σ)

/-- The messages sent for a request. The pool runs queries that were admitted before. -/
def replies : List Bytes :=
  match e.transport with
  | .Udp => if !e.serving.admitted then [] else datagrams e.serving .Defer e.data
  | .RecursionPool => datagrams e.serving .Resume e.data
  | .Tcp => tcpReplies e.serving e.data
  | .Dot | .Doh => (handleQueryPublic e.serving e.data).toList

/-- It carries no valid TSIG. -/
def Unsigned : Prop :=
  (verifyMessage e.serving.handler.hmac e.serving.clocks.verify e.data e.serving.handler.tsigKeys).isOk = false

/-- It asks for a transfer. -/
structure AsksTransfer (pkt : Packet) (q : Question) : Prop where
  parse : parsePacket e.data = .ok pkt
  question : pkt.questions.head? = some q
  qtype : q.qtype = .AXFR ∨ q.qtype = .IXFR

end Request

end

/-! Messages without data. -/

/-- A packet of questions alone. -/
structure Packet.Bare (p : Packet) : Prop where
  answers : p.answers = []
  authority : p.authority = []
  additional : p.additional = []

/-- A message that holds no record but an OPT and a TSIG record. -/
def NoData (message : Bytes) : Prop := ∃ p edns, Packet.Bare p ∧
  (message = serialize p edns ∨ ∃ hmac now key, message = signMessage hmac now (serialize p edns) key)

/-- Its header counts no answers and no authority records. -/
theorem NoData.counts {message : Bytes} (h : NoData message) : u16At message 6 = 0 ∧ u16At message 8 = 0 := by
  obtain ⟨p, edns, hbare, hm⟩ := h
  have hcounts : ∀ ar body, u16At (headerOf p ar ++ body) 6 = 0 ∧ u16At (headerOf p ar ++ body) 8 = 0 := by
    intro ar body
    obtain ⟨-, -, han, hns, -⟩ := u16At_header p.id p.flags (UInt16.ofNat p.questions.length)
      (UInt16.ofNat p.answers.length) (UInt16.ofNat p.authority.length) ar body
    refine ⟨han.trans ?_, hns.trans ?_⟩
    · rw [hbare.answers]; rfl
    · rw [hbare.authority]; rfl
  rcases hm with rfl | ⟨hmac, now, key, rfl⟩
  · rw [serialize_eq_headerOf]
    exact hcounts _ _
  · rw [signMessage_eq]
    exact hcounts _ _

def Response.Bare : Response → Prop
  | reply p _ => p.Bare
  | _ => True

theorem noData_signed {p : Packet} (h : p.Bare) (hmac : Hmac) (now : Nat) (keyring : TsigKeyring) (req : Bytes)
    (edns : Bool) : NoData (maybeSignResponse hmac now keyring req (serialize p edns)) := by
  unfold maybeSignResponse
  cases signingKey keyring req with
  | none => exact ⟨p, edns, h, .inl rfl⟩
  | some key => exact ⟨p, edns, h, .inr ⟨hmac, now, key, rfl⟩⟩

theorem noData_truncated (query : Bytes) : NoData (buildTruncated query).bytes := by
  unfold buildTruncated
  cases parsePacket query with
  | error e => exact ⟨_, false, ⟨rfl, rfl, rfl⟩, .inl rfl⟩
  | ok pkt => exact ⟨_, false, ⟨rfl, rfl, rfl⟩, .inl rfl⟩

theorem noData_sendUdp {query resp : Bytes} (h : NoData resp) : NoData (sendUdp query resp) := by
  unfold sendUdp
  split
  · exact noData_truncated query
  · exact h

section
variable {σ : Type} {v : Serving σ} {data : Bytes}

theorem noData_public (h : (handleQuery v.handler v.zones v.clocks v.peer .Inline data v.cache v.upstream).response.Bare) :
    ∀ m ∈ (handleQueryPublic v data).toList, NoData m := by
  intro m hm
  rw [handleQueryPublic_eq] at hm
  split at hm
  · cases hm
  · generalize (handleQuery v.handler v.zones v.clocks v.peer .Inline data v.cache v.upstream).response = response at h hm
    cases response with
    | drop => cases hm
    | recursive => cases hm
    | reply p edns =>
      rw [Option.toList_some, List.mem_singleton] at hm
      rw [hm]
      exact noData_signed h _ _ _ _ _

theorem noData_datagrams {recursion : Recursion}
    (h : (handleQuery v.handler v.zones v.clocks v.peer recursion data v.cache v.upstream).response.Bare) :
    ∀ m ∈ datagrams v recursion data, NoData m := by
  intro m hm
  unfold datagrams respond at hm
  generalize handleQuery v.handler v.zones v.clocks v.peer recursion data v.cache v.upstream = outcome at h hm
  obtain ⟨response, _, _, _, _⟩ := outcome
  cases response with
  | drop => cases hm
  | recursive => cases hm
  | reply p edns =>
    rw [List.mem_singleton.mp hm]
    exact noData_sendUdp (noData_signed h _ _ _ _ _)

/-! What the handler refuses. -/

/-- When all queries must be signed, an unsigned one is refused or dropped. -/
theorem handleQuery_bare_of_require (hrequire : v.handler.config.tsigRequireAll = true)
    (hkeys : v.handler.tsigKeys.isEmpty = false)
    (hbad : (verifyMessage v.handler.hmac v.clocks.verify data v.handler.tsigKeys).isOk = false) (recursion : Recursion) :
    (handleQuery v.handler v.zones v.clocks v.peer recursion data v.cache v.upstream).response.Bare := by
  by_cases hstart : data.length < 3 ∨ data.getD 2 0 &&& 0x80 ≠ 0
  · rw [handleQuery, if_pos hstart]
    trivial
  · rw [handleQuery, if_neg hstart, if_pos ⟨hrequire, by rw [hkeys]; rfl, hbad⟩]
    exact ⟨rfl, rfl, rfl⟩

/-- A zone that answers a question with no record at all: it has none of the type and no CNAME at the name,
    and neither an SOA nor a proof to show for it. -/
structure Silent (h : Handler σ) (zone : Zone) (q : Question) (dnssecOk : Bool) : Prop where
  records : zone.lookup q.name q.qtype = none
  cname : (zone.lookup q.name .CNAME).bind List.head? = none
  soa : zone.soa = none
  proof : dnssecOk = true → (if zone.nameExists q.name then noDataProof zone q.name
    else nxDomainProof h.crypto h.hashOrder zone q.name) = []

theorem authoritativeAnswer_bare {h : Handler σ} {zone : Zone} {q : Question} {dnssecOk : Bool}
    (hs : Silent h zone q dnssecOk) (pkt : Packet) :
    (authoritativeAnswer h.crypto h.hashOrder zone q dnssecOk (baseResponse pkt)).1.Bare := by
  have hwalk : cnameLoop zone q.qtype dnssecOk MAX_CNAME_CHAIN q.name (baseResponse pkt).setAa.answers =
      ⟨q.name, [], false⟩ := by
    rw [MAX_CNAME_CHAIN, cnameLoop, hs.records]
    simp only [hs.cname]
    split <;> rfl
  have hauthority : soaAuthority zone dnssecOk = [] := by rw [soaAuthority, hs.soa]
  have hproof := hs.proof
  rw [authoritativeAnswer]
  simp only [hwalk, hauthority, Bool.false_eq_true, if_false]
  by_cases hexists : zone.nameExists q.name = true
  · rw [if_pos hexists] at hproof
    have hnone : (if dnssecOk = true then noDataProof zone q.name else []) = [] := by
      split
      · next hdo => exact hproof hdo
      · rfl
    simp only [if_pos hexists, hnone]
    exact ⟨rfl, rfl, rfl⟩
  · rw [if_neg hexists] at hproof
    have hnone : (if dnssecOk = true then nxDomainProof h.crypto h.hashOrder zone q.name else []) = [] := by
      split
      · next hdo => exact hproof hdo
      · rfl
    simp only [if_neg hexists, hnone]
    exact ⟨rfl, rfl, rfl⟩

/-- A standard query is answered without a record when its zone is silent. -/
theorem handleQuery_bare_of_silent {pkt : Packet} {q : Question} (hparse : parsePacket data = .ok pkt)
    (hq : pkt.questions.head? = some q) (hzone : authoritativeZone v.zones q.name ≠ none)
    (hsilent : pkt.isResponse = false → pkt.opcode = 0 → ∀ zone, authoritativeZone v.zones q.name = some zone →
      Silent v.handler zone q pkt.dnssecOk) (recursion : Recursion) :
    (handleQuery v.handler v.zones v.clocks v.peer recursion data v.cache v.upstream).response.Bare := by
  have hpacket : (handlePacket v.handler v.zones v.clocks v.peer recursion pkt v.cache v.upstream).response.Bare := by
    by_cases hresponse : pkt.isResponse = true
    · rw [handlePacket, if_pos hresponse]
      trivial
    · by_cases hopcode : pkt.opcode = 0
      · obtain ⟨zone, hzone⟩ := Option.ne_none_iff_exists'.mp hzone
        have hresponse := Bool.eq_false_iff.mpr hresponse
        rw [handlePacket_of_zone v.handler hresponse hopcode hq hzone]
        exact authoritativeAnswer_bare (hsilent hresponse hopcode zone hzone) pkt
      · rw [handlePacket, if_neg hresponse, if_pos hopcode]
        exact ⟨rfl, rfl, rfl⟩
  unfold handleQuery
  dsimp only
  split
  · trivial
  · split
    · exact ⟨rfl, rfl, rfl⟩
    · rw [hparse]
      exact hpacket

/-- No zone is found only where none is authoritative. -/
theorem not_authoritative_of_none {zones : List Zone} {name : Text} (h : authoritativeZone zones name = none) :
    ∀ zone ∈ zones, zone.isAuthoritativeFor name = false := by
  induction zones using List.reverseRecOn with
  | nil => exact fun zone hzone => absurd hzone List.not_mem_nil
  | append_singleton zones last ih =>
    rw [authoritativeZone_concat] at h
    split at h
    · cases hbest : authoritativeZone zones name with
      | none => rw [hbest] at h; cases h
      | some b => rw [hbest] at h; dsimp only at h; split at h <;> cases h
    · next hlast =>
      intro zone hzone
      rcases List.mem_append.mp hzone with hzone | hzone
      · exact ih h zone hzone
      · rw [List.mem_singleton.mp hzone]
        exact Bool.eq_false_of_not_eq_true hlast

end

/-! Runs. -/

section
variable {σ : Type}

namespace Request
variable (e : Request σ)

/-- What an unsigned request is sent: for a transfer no message with data, unless no zone is authoritative for
    the name; and none for any query when all must be signed. -/
structure FailsClosed : Prop where
  transfer : e.Unsigned → ∀ pkt q, e.AsksTransfer pkt q →
    (∀ zone ∈ e.serving.zones, zone.isAuthoritativeFor q.name = false) ∨ ∀ m ∈ e.replies, NoData m
  require_all : e.serving.handler.config.tsigRequireAll = true → e.Unsigned → ∀ m ∈ e.replies, NoData m

/-- An unsigned transfer request that does not come over TCP meets a silent zone, if it is a standard query for
    a name of a zone and signatures are not asked for. -/
def Guarded : Prop :=
  e.transport ≠ .Tcp → e.serving.handler.config.tsigRequireAll = false → e.Unsigned → ∀ pkt q, e.AsksTransfer pkt q →
    pkt.isResponse = false → pkt.opcode = 0 → ∀ zone, authoritativeZone e.serving.zones q.name = some zone →
      Silent e.serving.handler zone q pkt.dnssecOk

variable {e}

/-- Over TCP an unsigned transfer is refused. -/
theorem tcpReplies_noData (hkeys : e.serving.handler.tsigKeys.isEmpty = false) (hu : e.Unsigned)
    (hrest : zoneTransfer e.serving e.data = none → ∀ m ∈ (handleQueryPublic e.serving e.data).toList, NoData m) :
    ∀ m ∈ tcpReplies e.serving e.data, NoData m := by
  intro m hm
  unfold tcpReplies maybeZoneTransfer at hm
  cases ht : zoneTransfer e.serving e.data with
  | none =>
    rw [ht] at hm
    exact hrest ht m hm
  | some t =>
    rw [ht] at hm
    obtain ⟨pkt, q, -, -, -, ⟨-, rfl⟩ | ⟨hverified, -⟩⟩ := zoneTransfer_cases _ ht
    · rw [List.mem_singleton.mp hm]
      exact ⟨_, false, ⟨rfl, rfl, rfl⟩, .inl rfl⟩
    · exact absurd ⟨hkeys, hu⟩ hverified

/-- Where the handler has no data to give, nothing that is sent holds data. -/
theorem replies_noData (hkeys : e.serving.handler.tsigKeys.isEmpty = false) (hu : e.Unsigned)
    (hbare : ∀ recursion, (handleQuery e.serving.handler e.serving.zones e.serving.clocks e.serving.peer recursion e.data
      e.serving.cache e.serving.upstream).response.Bare) : ∀ m ∈ e.replies, NoData m := by
  intro m hm
  unfold replies at hm
  split at hm
  · split at hm
    · exact absurd hm List.not_mem_nil
    · exact noData_datagrams (hbare .Defer) m hm
  · exact noData_datagrams (hbare .Resume) m hm
  · exact tcpReplies_noData hkeys hu (fun _ => noData_public (hbare .Inline)) m hm
  · exact noData_public (hbare .Inline) m hm
  · exact noData_public (hbare .Inline) m hm

/-- A transfer request over TCP never reaches the handler unsigned. -/
theorem zoneTransfer_ne_none (hkeys : e.serving.handler.tsigKeys.isEmpty = false) (hu : e.Unsigned) {pkt : Packet}
    {q : Question} (hask : e.AsksTransfer pkt q) : zoneTransfer e.serving e.data ≠ none := by
  have hqtype : ¬ (q.qtype ≠ .AXFR ∧ q.qtype ≠ .IXFR) := by
    rcases hask.qtype with h | h <;> simp [h]
  rw [zoneTransfer, hask.parse]
  simp only [hask.question, if_neg hqtype]
  rw [if_pos ⟨by rw [hkeys]; rfl, hu⟩]
  exact Option.some_ne_none _

theorem failsClosed (hkeys : e.serving.handler.tsigKeys.isEmpty = false) (hguard : e.Guarded) : e.FailsClosed := by
  have hrequire : e.serving.handler.config.tsigRequireAll = true → e.Unsigned → ∀ m ∈ e.replies, NoData m :=
    fun hr hu => replies_noData hkeys hu (handleQuery_bare_of_require hr hkeys hu)
  refine ⟨fun hu pkt q hask => ?_, hrequire⟩
  cases hr : e.serving.handler.config.tsigRequireAll with
  | true => exact .inr (hrequire hr hu)
  | false =>
    by_cases htcp : e.transport = .Tcp
    · right
      intro m hm
      rw [replies, htcp] at hm
      exact tcpReplies_noData hkeys hu (fun hnone => absurd hnone (zoneTransfer_ne_none hkeys hu hask)) m hm
    · by_cases hzone : authoritativeZone e.serving.zones q.name = none
      · exact .inl (not_authoritative_of_none hzone)
      · exact .inr (replies_noData hkeys hu (handleQuery_bare_of_silent hask.parse hask.question hzone
          (hguard htcp hr hu pkt q hask)))

end Request

/-- A run of the server that was started: its requests all meet its handler, and any state otherwise. -/
def Run (h : Handler σ) (requests : List (Request σ)) : Prop := ∀ e ∈ requests, e.serving.handler = h

/-- **Transfers and signed queries fail closed** in every run of a server for which the secret of some key could
    be read, and in which no unsigned transfer request meets a zone outside of TCP. -/
theorem runs_fail_closed (base : Handler σ) (keys : List ResolvedKey) (hloaded : ∃ k ∈ keys, k.2.isOk = true)
    (requests : List (Request σ)) (hrun : Run (start base keys) requests) (hguard : ∀ e ∈ requests, e.Guarded) :
    ∀ e ∈ requests, e.FailsClosed := by
  intro e he
  have hkeys : (loadKeyring keys).isEmpty = false := by
    rw [loadKeyring_isEmpty, List.all_eq_false]
    obtain ⟨k, hk, hok⟩ := hloaded
    exact ⟨k, hk, by rw [hok]; decide⟩
  refine Request.failsClosed ?_ (hguard e he)
  rw [hrun e he]
  exact hkeys

end

/-! An unsigned AXFR query. -/

/-- It arrives at a server for a zone that is an SOA. -/
def axfrRequest (transport : Transport) (keys : List ResolvedKey) : Request Unit where
  transport := transport
  data := serialize axfrQuery true
  serving := { xServing plainKey with handler := start plainHandler keys }

def readKey : ResolvedKey := (⟨['k'], HMAC_SHA256⟩, .ok [1, 2, 3])
def lostKey : ResolvedKey := (⟨['k'], HMAC_SHA256⟩, .error "read secrets/tsig.b64: no such file")

theorem runs_fail_closed_tcp : (axfrRequest .Tcp [lostKey, readKey]).FailsClosed :=
  runs_fail_closed plainHandler [lostKey, readKey] ⟨readKey, by simp, rfl⟩ [axfrRequest .Tcp [lostKey, readKey]]
    (fun e he => by rw [List.mem_singleton.mp he]; rfl)
    (fun e he htcp => by rw [List.mem_singleton.mp he] at htcp; exact absurd rfl htcp) _ List.mem_cons_self

theorem axfrRequest_asks (transport : Transport) (keys : List ResolvedKey) :
    (axfrRequest transport keys).AsksTransfer axfrQuery ⟨['x'], .AXFR, CLASS_IN⟩ where
  parse := by
    have h := serialize_decodes axfrQuery_expanded fun _ h => absurd h List.not_mem_nil
    rw [axfrRequest, parsePacket, Reader.run, h.run]
  question := rfl
  qtype := .inl rfl

/-- A key without a secret leaves the zone open to anyone over TCP, and over UDP its SOA is sent even when
    the key is there. -/
theorem axfrRequests_answered :
    (Run (start plainHandler [lostKey]) [axfrRequest .Tcp [lostKey]] ∧ ¬ (axfrRequest .Tcp [lostKey]).FailsClosed) ∧
      Run (start plainHandler [readKey]) [axfrRequest .Udp [readKey]] ∧ ¬ (axfrRequest .Udp [readKey]).FailsClosed := by
  have hzone : ∀ transport keys, ¬ ∀ zone ∈ (axfrRequest transport keys).serving.zones,
      zone.isAuthoritativeFor ['x'] = false := by
    intro transport keys hall
    exact absurd (hall _ List.mem_cons_self) (by decide)
  have hrun : ∀ transport keys, Run (start plainHandler keys) [axfrRequest transport keys] := by
    intro transport keys e he
    rw [List.mem_singleton.mp he]
    rfl
  refine ⟨⟨hrun _ _, ?_⟩, hrun _ _, ?_⟩
  · intro h
    have hu : (axfrRequest .Tcp [lostKey]).Unsigned := by unfold Request.Unsigned; decide
    have hdata := (h.transfer hu _ _ (axfrRequest_asks _ _)).resolve_left (hzone _ _)
    have hcounts : (axfrRequest .Tcp [lostKey]).replies.map (fun m => u16At m 6) = [2] := by decide +kernel
    obtain ⟨m, hm, h2⟩ := List.mem_map.mp (hcounts ▸ List.mem_cons_self)
    rw [(hdata m hm).counts.1] at h2
    exact absurd h2 (by decide)
  · intro h
    have hu : (axfrRequest .Udp [readKey]).Unsigned := by unfold Request.Unsigned; decide
    have hdata := (h.transfer hu _ _ (axfrRequest_asks _ _)).resolve_left (hzone _ _)
    have hcounts : (axfrRequest .Udp [readKey]).replies.map (fun m => u16At m 8) = [1] := by decide
    obtain ⟨m, hm, h1⟩ := List.mem_map.mp (hcounts ▸ List.mem_cons_self)
    rw [(hdata m hm).counts.2] at h1
    exact absurd h1 (by decide)

end Ironbind
