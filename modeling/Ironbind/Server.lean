import Ironbind.Cache
import Ironbind.Config
import Ironbind.Tsig
import Ironbind.Zone

/- Query handling (`server.rs`): `handle_query` from the datagram to the reply, and
   `respond`, which signs the reply. The zones, the cache and the upstream are its
   state; the clocks it reads, the peer and the recursion mode are arguments. The
   upstream may answer anything: it is a pair of functions with a state of its own.
   Which counters a query moves and which chains of trust it has checked are part of
   the outcome. -/
namespace Ironbind
open Codec

/-! What the handler meets. -/

inductive ResolveResult where
  | Answer (upstream : Packet)
  | NxDomain (upstream : Packet)
  | ServFail (reason : String)

/-- The resolver, as the handler calls it. -/
structure Upstream (σ : Type) where
  resolve : Text → RType → σ → ResolveResult × σ
  fetchWithRrsig : Fetch σ

structure Handler (σ : Type) where
  crypto : Crypto
  hmac : Hmac
  config : ServerConfig
  tsigKeys : TsigKeyring
  upstream : Upstream σ
  hashOrder : HashOrder

/-- The readings of the clocks in seconds, by the verification of a request, the validator and
    the signing of the reply, and of the cache's. -/
structure Clocks where
  verify : Nat
  validator : Nat
  lookup : Nat
  insert : Nat
  sign : Nat

inductive Recursion where
  | Inline | Defer | Resume
  deriving DecidableEq, Repr

inductive Metric where
  | query | cacheHit | cacheMiss | success | nxdomain | servfail | dnssecValid | dnssecBogus | queryTime
  deriving DecidableEq, Repr

/-- What the handler sends: nothing, a packet (with its OPT record or without), or the
    request to be run again on the recursion pool. -/
inductive Response where
  | drop
  | reply (p : Packet) (edns : Bool)
  | recursive

inductive Answer where
  | Ready (resp : Option Bytes)
  | Recursive

def Response.toAnswer : Response → Answer
  | drop => .Ready none
  | reply p edns => .Ready (some (serialize p edns))
  | recursive => .Recursive

/-- A chain of trust that was checked, and what came of it. -/
structure Validation where
  owner : Text
  rrset : List Record
  rrsigs : List Record
  result : ValidationResult

structure Outcome (σ : Type) where
  response : Response
  cache : Cache
  upstream : σ
  metrics : List Metric
  validations : List Validation

/-! Reading a signed zone. -/

def covers (coveredTypeCode : UInt16) (r : Record) : Bool :=
  match parseRrsig r.rdata with
  | .ok sig => sig.typeCovered == coveredTypeCode
  | .error _ => false

/-- The RRSIGs stored at a name that cover a type. -/
def coveringRrsigs (zone : Zone) (name : Text) (coveredType : RType) : List Record :=
  ((zone.lookup name .RRSIG).map fun rrsigs => rrsigs.filter (covers coveredType.toU16)).getD []

/-- The stored NSEC at an owner together with its RRSIG. -/
def signedNsec (zone : Zone) (owner : Text) : List Record :=
  match zone.lookup owner .NSEC with
  | some nsec => nsec ++ coveringRrsigs zone owner .NSEC
  | none => []

/-! Authoritative answers. -/

/-- The most specific of the zones that hold a name; of equally long origins the last. -/
def authoritativeZone (zones : List Zone) (name : Text) : Option Zone :=
  (zones.filter fun zone => zone.isAuthoritativeFor name).foldl (fun best zone =>
    match best with
    | none => some zone
    | some b => if (utf8 b.origin).length ≤ (utf8 zone.origin).length then some zone else some b) none

theorem authoritativeZone_concat (zones : List Zone) (z : Zone) (name : Text) : authoritativeZone (zones ++ [z]) name =
    if z.isAuthoritativeFor name then
      match authoritativeZone zones name with
      | none => some z
      | some b => if (utf8 b.origin).length ≤ (utf8 z.origin).length then some z else some b
    else authoritativeZone zones name := by
  rw [authoritativeZone, List.filter_append, List.foldl_append, ← authoritativeZone, List.filter_cons, List.filter_nil]
  split <;> rfl

def MAX_CNAME_CHAIN : Nat := 8

/-- The text of the name an RDATA begins with. -/
def rdataName (rdata : Bytes) : Except ParseError Text := Parser.name.run rdata

structure CnameWalk where
  name : Text
  answers : List Record
  answered : Bool
  deriving DecidableEq, Repr

/-- The loop over the in-zone CNAMEs, with the passes left and the answers so far. -/
def cnameLoop (zone : Zone) (qtype : RType) (dnssecOk : Bool) : Nat → Text → List Record → CnameWalk
  | 0, name, answers => ⟨name, answers, false⟩
  | passes + 1, name, answers =>
    match zone.lookup name qtype with
    | some records =>
      ⟨name, answers ++ records ++ (if dnssecOk then coveringRrsigs zone name qtype else []), true⟩
    | none =>
      if qtype = .CNAME then ⟨name, answers, false⟩
      else
        match (zone.lookup name .CNAME).bind List.head? with
        | none => ⟨name, answers, false⟩
        | some cname =>
          let answers := answers ++ [cname] ++ (if dnssecOk then coveringRrsigs zone name .CNAME else [])
          match rdataName cname.rdata with
          | .error _ => ⟨name, answers, false⟩
          | .ok target =>
            if !zone.isAuthoritativeFor target then ⟨name, answers, true⟩
            else cnameLoop zone qtype dnssecOk passes target answers

/-- The SOA for a negative answer, with its signatures. -/
def soaAuthority (zone : Zone) (dnssecOk : Bool) : List Record :=
  match zone.soa with
  | some soa => soa ++ (if dnssecOk then coveringRrsigs zone zone.origin .SOA else [])
  | none => []

/-- What proves that a name has no record of a type: its own NSEC, or the one that covers it. -/
def noDataProof (zone : Zone) (name : Text) : List Record :=
  if zone.isSigned then
    let owner := if (zone.lookup name .NSEC).isSome then some name else zone.nsecCoveringOwner name
    match owner with
    | some owner => signedNsec zone owner
    | none => []
  else []

/-- `*.` in front of the closest encloser. -/
def wildcardName (zone : Zone) (name : Text) : Text := '*' :: '.' :: zone.closestEncloser name

/-- What proves that a name and the wildcard that could match it do not exist. -/
def nxDomainProof (c : Crypto) (ho : HashOrder) (zone : Zone) (name : Text) : List Record :=
  match zone.nsec3Covering c ho name with
  | some nsec3 => [nsec3]
  | none =>
    if zone.isSigned then
      let nameOwner := zone.nsecCoveringOwner name
      let wildcardOwner := zone.nsecCoveringOwner (wildcardName zone name)
      (match nameOwner with
        | some owner => signedNsec zone owner
        | none => [])
      ++ (match wildcardOwner.filter fun owner => some owner ≠ nameOwner with
        | some owner => signedNsec zone owner
        | none => [])
    else []

/-- The answer from a zone the server is authoritative for. -/
def authoritativeAnswer (c : Crypto) (ho : HashOrder) (zone : Zone) (q : Question) (dnssecOk : Bool) (resp : Packet) :
    Packet × Metric :=
  let resp := resp.setAa
  let walk := cnameLoop zone q.qtype dnssecOk MAX_CNAME_CHAIN q.name resp.answers
  let resp := { resp with answers := walk.answers }
  if walk.answered then (resp, .success)
  else
    let resp := { resp with authority := soaAuthority zone dnssecOk }
    if zone.nameExists walk.name then
      ({ resp with authority := resp.authority ++ (if dnssecOk then noDataProof zone walk.name else []) }, .success)
    else
      let resp := resp.setRcode RCODE_NXDOMAIN
      ({ resp with authority := resp.authority ++ (if dnssecOk then nxDomainProof c ho zone walk.name else []) },
        .nxdomain)

/-! Answers from upstream. -/

/-- The answers without their signatures and keys: what the chain is checked for. -/
def answerRrset (upstream : Packet) : List Record :=
  upstream.answers.filter fun r => r.rtype ≠ .RRSIG ∧ r.rtype ≠ .DNSKEY

def answerRrsigs (upstream : Packet) : List Record := upstream.answers.filter fun r => r.rtype = .RRSIG

def answerDnskeys (upstream : Packet) : List Record :=
  (upstream.additional ++ upstream.answers).filter fun r => r.rtype = .DNSKEY

section
variable {σ : Type} (h : Handler σ)

/-- The validation of an upstream answer, when it is made: not for a client that did not ask
    for it, and not without signatures and keys. -/
def validateUpstream (now : Nat) (q : Question) (dnssecOk : Bool) (upstream : Packet) (s : σ) :
    Option ValidationResult × List Validation × σ :=
  if h.config.dnssecValidate ∧ dnssecOk ∧ upstream.answers ≠ [] then
    let rrsigs := answerRrsigs upstream
    let rrset := answerRrset upstream
    let dnskeys := answerDnskeys upstream
    if rrsigs ≠ [] ∧ dnskeys ≠ [] then
      if h.config.dnssecStrict then
        let (result, s) := chainValidate h.crypto now q.name rrset rrsigs h.upstream.fetchWithRrsig s
        (some result, [⟨q.name, rrset, rrsigs, result⟩], s)
      else (some (validateRrset h.crypto now rrset rrsigs dnskeys), [], s)
    else (none, [], s)
  else (none, [], s)

/-- The lowest TTL of the records that are cached. -/
def minAnswerTtl (answers : List Record) : Option UInt32 :=
  ((answers.filter fun r => r.rtype ≠ .RRSIG ∧ r.rtype ≠ .OPT).map (·.ttl)).min?

def cacheAnswer (cache : Cache) (now : Nat) (q : Question) (answers : List Record) : Cache :=
  match minAnswerTtl answers with
  | some minTtl =>
    if minTtl > 0 then cache.insertPositive now q.name q.qtype (answers.filter fun r => r.rtype ≠ .RRSIG) minTtl
    else cache
  | none => cache

/-- The end of a query answered from upstream: successes are counted by their code. -/
def finishMetrics (resp : Packet) : List Metric := (if resp.rcode = RCODE_NOERROR then [.success] else []) ++ [.queryTime]

def recursiveAnswer (clocks : Clocks) (q : Question) (dnssecOk : Bool) (resp : Packet) (cache : Cache) (s : σ) :
    Outcome σ :=
  match h.upstream.resolve q.name q.qtype s with
  | (.Answer upstream, s) =>
    match validateUpstream h clocks.validator q dnssecOk upstream s with
    | (some (.Bogus _), validations, s) =>
      ⟨.reply (resp.setRcode RCODE_SERVFAIL) (resp.ednsUdpSize > 0), cache, s,
        [.dnssecBogus, .servfail, .queryTime], validations⟩
    | (result, validations, s) =>
      let final := { resp with
        answers := upstream.answers, authority := upstream.authority, additional := upstream.additional }.setRcode
          upstream.rcode
      ⟨.reply final (resp.ednsUdpSize > 0), cacheAnswer cache clocks.insert q upstream.answers, s,
        (if result = some .Secure then [.dnssecValid] else []) ++ finishMetrics final, validations⟩
  | (.NxDomain upstream, s) =>
    let soaTtl := ((upstream.authority.find? fun r => r.rtype = .SOA).map fun r => soaMinimumTtl r.rdata).getD
      h.config.negCacheTtl
    let final := { resp.setRcode RCODE_NXDOMAIN with authority := upstream.authority }
    ⟨.reply final (resp.ednsUdpSize > 0), cache.insertNegative clocks.insert q.name q.qtype .NxDomain soaTtl, s,
      .nxdomain :: finishMetrics final, []⟩
  | (.ServFail _, s) =>
    let final := resp.setRcode RCODE_SERVFAIL
    ⟨.reply final (resp.ednsUdpSize > 0), cache, s, .servfail :: finishMetrics final, []⟩

/-- The answer from the cache, or else from upstream. -/
def cachedAnswer (clocks : Clocks) (recursion : Recursion) (rd : Bool) (q : Question) (dnssecOk : Bool) (resp : Packet)
    (cache : Cache) (s : σ) : Outcome σ :=
  let edns : Bool := resp.ednsUdpSize > 0
  match cache.get clocks.lookup q.name q.qtype with
  | some (.Records records) =>
    ⟨.reply { resp with answers := records } edns, cache, s, [.cacheHit, .success, .queryTime], []⟩
  | some (.Negative .NxDomain) =>
    ⟨.reply (resp.setRcode RCODE_NXDOMAIN) edns, cache, s, [.cacheHit, .nxdomain, .queryTime], []⟩
  | some (.Negative .NoData) => ⟨.reply resp edns, cache, s, [.cacheHit, .success, .queryTime], []⟩
  | none =>
    let miss : List Metric := if recursion ≠ .Resume then [.cacheMiss] else []
    if !rd then ⟨.reply (resp.setRcode RCODE_REFUSED) edns, cache, s, miss, []⟩
    else if recursion = .Defer then ⟨.recursive, cache, s, miss, []⟩
    else
      let outcome := recursiveAnswer h clocks q dnssecOk resp.setRa cache s
      { outcome with metrics := miss ++ outcome.metrics }

/-! The handler. -/

def errorResponse (pkt : Packet) (rcode : UInt8) : Response :=
  .reply ({ Packet.newResponse pkt.id pkt.flags with questions := pkt.questions }.setRcode rcode) false

/-- The ID a message begins with. -/
def messageId : Bytes → UInt16
  | hi :: lo :: _ => hi.toUInt16 <<< 8 ||| lo.toUInt16
  | _ => 0

def formerrResponse (data : Bytes) : Response :=
  .reply ((Packet.newResponse (messageId data) 0).setRcode RCODE_FORMERR) false

/-- The start of every answer to a query. -/
def baseResponse (pkt : Packet) : Packet :=
  { Packet.newResponse pkt.id pkt.flags with
    questions := pkt.questions, ednsUdpSize := pkt.ednsUdpSize, dnssecOk := pkt.dnssecOk }

/-- A standard query with a question. -/
def answerQuestion (zones : List Zone) (clocks : Clocks) (peer : IpAddr) (recursion : Recursion) (pkt : Packet)
    (q : Question) (cache : Cache) (s : σ) : Outcome σ :=
  let resp := baseResponse pkt
  let edns : Bool := resp.ednsUdpSize > 0
  match authoritativeZone zones q.name with
  | some zone =>
    let (resp, metric) := authoritativeAnswer h.crypto h.hashOrder zone q pkt.dnssecOk resp
    ⟨.reply resp edns, cache, s, [metric, .queryTime], []⟩
  | none =>
    if !h.config.allowRecursion.any (fun network => network.contains peer) then
      ⟨.reply (resp.setRcode RCODE_REFUSED) edns, cache, s, [], []⟩
    else cachedAnswer h clocks recursion pkt.rd q pkt.dnssecOk resp cache s

def handlePacket (zones : List Zone) (clocks : Clocks) (peer : IpAddr) (recursion : Recursion) (pkt : Packet)
    (cache : Cache) (s : σ) : Outcome σ :=
  if pkt.isResponse then ⟨.drop, cache, s, [], []⟩
  else if pkt.opcode ≠ 0 then ⟨errorResponse pkt RCODE_NOTIMP, cache, s, [], []⟩
  else
    match pkt.questions.head? with
    | none => ⟨errorResponse pkt RCODE_NOERROR, cache, s, [], []⟩
    | some q => answerQuestion h zones clocks peer recursion pkt q cache s

/-- `handle_query`. -/
def handleQuery (zones : List Zone) (clocks : Clocks) (peer : IpAddr) (recursion : Recursion) (data : Bytes)
    (cache : Cache) (s : σ) : Outcome σ :=
  let counted : List Metric := if recursion ≠ .Resume then [.query] else []
  if data.length < 3 ∨ data.getD 2 0 &&& 0x80 ≠ 0 then ⟨.drop, cache, s, counted, []⟩
  else if h.config.tsigRequireAll ∧ !h.tsigKeys.isEmpty ∧
      (verifyMessage h.hmac clocks.verify data h.tsigKeys).isOk = false then
    ⟨.reply ((Packet.newResponse (messageId data) 0).setRcode RCODE_REFUSED) false, cache, s, counted, []⟩
  else
    match parsePacket data with
    | .error _ => ⟨formerrResponse data, cache, s, counted, []⟩
    | .ok pkt =>
      let outcome := handlePacket h zones clocks peer recursion pkt cache s
      { outcome with metrics := counted ++ outcome.metrics }

/-- A query that parses is answered by `handlePacket`, unless its signature is asked for. -/
theorem handleQuery_response_of_parse {zones : List Zone} {clocks : Clocks} {peer : IpAddr} {recursion : Recursion}
    {data : Bytes} {cache : Cache} {s : σ} {pkt : Packet} (hlen : 3 ≤ data.length) (hquery : data.getD 2 0 &&& 0x80 = 0)
    (hrequire : h.config.tsigRequireAll = false) (hparse : parsePacket data = .ok pkt) :
    (handleQuery h zones clocks peer recursion data cache s).response =
      (handlePacket h zones clocks peer recursion pkt cache s).response := by
  have hstart : ¬ (data.length < 3 ∨ data.getD 2 0 &&& 0x80 ≠ 0) := by
    rintro (hshort | hresponse)
    · omega
    · exact hresponse hquery
  rw [handleQuery, if_neg hstart, if_neg (fun hr => by rw [hrequire] at hr; exact absurd hr.1 (by decide)), hparse]

/-- A standard query for a name of a zone is answered from that zone. -/
theorem handlePacket_of_zone {zones : List Zone} {clocks : Clocks} {peer : IpAddr} {recursion : Recursion} {pkt : Packet}
    {cache : Cache} {s : σ} {q : Question} {zone : Zone} (hresponse : pkt.isResponse = false) (hopcode : pkt.opcode = 0)
    (hq : pkt.questions.head? = some q) (hzone : authoritativeZone zones q.name = some zone) :
    (handlePacket h zones clocks peer recursion pkt cache s).response =
      .reply (authoritativeAnswer h.crypto h.hashOrder zone q pkt.dnssecOk (baseResponse pkt)).1
        (pkt.ednsUdpSize > 0) := by
  rw [handlePacket, if_neg (by rw [hresponse]; decide), if_neg (by rw [hopcode]; decide), hq]
  simp only [answerQuestion, hzone]
  rfl

/-- A standard query that the handler takes up, signed if signatures are asked for. -/
structure Asks (clocks : Clocks) (data : Bytes) (pkt : Packet) (q : Question) : Prop where
  length : 3 ≤ data.length
  query : data.getD 2 0 &&& 0x80 = 0
  verified : ¬ (h.config.tsigRequireAll ∧ !h.tsigKeys.isEmpty ∧
    (verifyMessage h.hmac clocks.verify data h.tsigKeys).isOk = false)
  parse : parsePacket data = .ok pkt
  response : pkt.isResponse = false
  opcode : pkt.opcode = 0
  question : pkt.questions.head? = some q

theorem handleQuery_of_asks {h : Handler σ} {zones : List Zone} {clocks : Clocks} {peer : IpAddr} {recursion : Recursion}
    {data : Bytes} {cache : Cache} {s : σ} {pkt : Packet} {q : Question} (hask : Asks h clocks data pkt q) :
    handleQuery h zones clocks peer recursion data cache s =
      let outcome := answerQuestion h zones clocks peer recursion pkt q cache s
      { outcome with metrics := (if recursion ≠ .Resume then [.query] else []) ++ outcome.metrics } := by
  have hstart : ¬ (data.length < 3 ∨ data.getD 2 0 &&& 0x80 ≠ 0) := by
    rintro (hshort | hresponse)
    · exact absurd hask.length (by omega)
    · exact hresponse hask.query
  rw [handleQuery, if_neg hstart, if_neg hask.verified, hask.parse]
  simp only [handlePacket, hask.response, hask.opcode, hask.question, Bool.false_eq_true, if_false, ne_eq,
    not_true_eq_false]

/-! What every reply has from the start. -/

/-- A property of packets that no step of an answer touches: not the bits it sets, not the records it fills in. -/
structure Packet.Closed (P : Packet → Prop) : Prop where
  aa : ∀ p, P p → P p.setAa
  ra : ∀ p, P p → P p.setRa
  rcode : ∀ p c, P p → P (p.setRcode c)
  records : ∀ p answers authority additional, P p →
    P { p with answers := answers, authority := authority, additional := additional }

section
variable {P : Packet → Prop} (hP : Packet.Closed P) {zones : List Zone} {clocks : Clocks} {peer : IpAddr}
  {recursion : Recursion} {pkt p resp : Packet} {q : Question} {cache : Cache} {s : σ} {edns dnssecOk rd : Bool}
include hP

theorem authoritativeAnswer_closed (c : Crypto) (ho : HashOrder) (zone : Zone) (q : Question) (dnssecOk : Bool)
    (hresp : P resp) : P (authoritativeAnswer c ho zone q dnssecOk resp).1 := by
  have hwalk : ∀ answers authority, P { resp.setAa with answers := answers, authority := authority } :=
    fun answers authority => hP.records _ answers authority _ (hP.aa _ hresp)
  unfold authoritativeAnswer
  dsimp only
  split
  · exact hwalk _ _
  · split
    · exact hwalk _ _
    · exact hP.records _ _ _ _ (hP.rcode _ _ (hwalk _ _))

theorem recursiveAnswer_closed (hresp : P resp)
    (hr : (recursiveAnswer h clocks q dnssecOk resp cache s).response = .reply p edns) : P p := by
  unfold recursiveAnswer at hr
  split at hr
  · split at hr
    · cases hr; exact hP.rcode _ _ hresp
    · cases hr; exact hP.rcode _ _ (hP.records _ _ _ _ hresp)
  · cases hr; exact hP.records _ _ _ _ (hP.rcode _ _ hresp)
  · cases hr; exact hP.rcode _ _ hresp

theorem cachedAnswer_closed (hresp : P resp)
    (hr : (cachedAnswer h clocks recursion rd q dnssecOk resp cache s).response = .reply p edns) : P p := by
  unfold cachedAnswer at hr
  dsimp only at hr
  split at hr
  · cases hr; exact hP.records _ _ _ _ hresp
  · cases hr; exact hP.rcode _ _ hresp
  · cases hr; exact hresp
  · split at hr
    · cases hr; exact hP.rcode _ _ hresp
    · split at hr
      · cases hr
      · exact recursiveAnswer_closed h hP (hP.ra _ hresp) hr

theorem handlePacket_closed (hbase : P (baseResponse pkt))
    (herror : P { Packet.newResponse pkt.id pkt.flags with questions := pkt.questions })
    (hr : (handlePacket h zones clocks peer recursion pkt cache s).response = .reply p edns) : P p := by
  unfold handlePacket answerQuestion at hr
  split at hr
  · cases hr
  · split at hr
    · cases hr; exact hP.rcode _ _ herror
    · split at hr
      · cases hr; exact hP.rcode _ _ herror
      · dsimp only at hr
        split at hr
        · cases hr; exact authoritativeAnswer_closed hP _ _ _ _ _ hbase
        · split at hr
          · cases hr; exact hP.rcode _ _ hbase
          · exact cachedAnswer_closed h hP hbase hr

end

/-! Response codes. -/

theorem or_and (x y m : UInt16) : (x ||| y) &&& m = x &&& m ||| y &&& m :=
  UInt16.toBitVec_inj.mp BitVec.and_or_distrib_right

theorem rcode_setRcode (p : Packet) {c : UInt8} (h : (c.toUInt16 &&& 0xF &&& 0xF).toUInt8 = c) :
    (p.setRcode c).rcode = c := by
  have hclear : (0xFFF0 : UInt16) &&& 0xF = 0 := rfl
  rw [Packet.rcode, Packet.setRcode]
  dsimp only
  rw [or_and, UInt16.and_assoc p.flags, hclear, UInt16.and_zero, UInt16.zero_or, h]

theorem rcode_baseResponse (pkt : Packet) : (baseResponse pkt).setAa.rcode = RCODE_NOERROR := by
  have hrd : (0x0100 : UInt16) &&& 0xF = 0 := rfl
  simp only [Packet.rcode, Packet.setAa, baseResponse, Packet.newResponse, or_and]
  rw [UInt16.and_assoc pkt.flags, hrd, UInt16.and_zero]
  rfl

/-! Signing and sending the reply. -/

/-- The key a reply is signed with: the one the first TSIG record of the request names. -/
def signingKey (keyring : TsigKeyring) (req : Bytes) : Option TsigKey :=
  if keyring.isEmpty then none
  else
    match parsePacket req with
    | .error _ => none
    | .ok pkt => (pkt.additional.find? fun r => r.rtype = .TSIG).bind fun r => keyring.get r.name

def maybeSignResponse (hmac : Hmac) (now : Nat) (keyring : TsigKeyring) (req resp : Bytes) : Bytes :=
  match signingKey keyring req with
  | some key => signMessage hmac now resp key
  | none => resp

/-- `respond`: what is sent, and what `handle_query` left behind. -/
def respond (zones : List Zone) (clocks : Clocks) (peer : IpAddr) (recursion : Recursion) (data : Bytes)
    (cache : Cache) (s : σ) : Answer × Outcome σ :=
  let outcome := handleQuery h zones clocks peer recursion data cache s
  match outcome.response.toAnswer with
  | .Ready (some resp) => (.Ready (some (maybeSignResponse h.hmac clocks.sign h.tsigKeys data resp)), outcome)
  | other => (other, outcome)

end

def buildTruncated (query : Bytes) : Response :=
  match parsePacket query with
  | .ok pkt => .reply ({ Packet.newResponse pkt.id pkt.flags with questions := pkt.questions }.setTc.setRa) false
  | .error _ => formerrResponse query

/-- The octets of a reply; nothing for a dropped query. -/
def Response.bytes : Response → Bytes
  | reply p edns => serialize p edns
  | _ => []

/-- The largest datagram the client takes: its EDNS payload size, or 512 octets without one. -/
def udpLimit (query : Bytes) : Nat :=
  match parsePacket query with
  | .ok pkt => max 512 (min pkt.ednsUdpSize.toNat 4096)
  | .error _ => 512

/-- `send_udp`: the datagram handed to the socket. -/
def sendUdp (query resp : Bytes) : Bytes :=
  if resp.length > udpLimit query then (buildTruncated query).bytes else resp

end Ironbind
