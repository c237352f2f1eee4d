import Ironbind.Server

/- The resolver (`resolver.rs`): queries to forwarders, and the walk from the root
   servers down. The network is a parameter with a state of its own, so a server may
   send anything at any time. A walk is a loop over `Iteration`s, with the number of
   referrals left; a name server without glue is looked up by a walk one level deeper,
   with the number of levels left. The reasons of failures, which are only logged, are
   without the names the source puts behind them. -/
namespace Ironbind
open Codec

/-! The network. -/

structure Sockets (σ : Type) where
  /-- The ID of the next query. -/
  randomId : σ → UInt16 × σ
  /-- The datagrams that arrive from an address before the deadline, unless the socket fails. -/
  udp : Bytes → IpAddr → σ → Option (List Bytes) × σ
  /-- The message that is read over TCP. -/
  tcp : Bytes → IpAddr → σ → Option Bytes × σ

def queryPacket (id flags : UInt16) (name : Text) (qtype : RType) (dnssecOk : Bool) : Packet where
  id := id
  flags := flags
  questions := [⟨name, qtype, CLASS_IN⟩]
  answers := []
  authority := []
  additional := []
  ednsUdpSize := 4096
  dnssecOk := dnssecOk

def buildQuery (id : UInt16) (name : Text) (qtype : RType) (recurse : Bool) : Bytes :=
  serialize (queryPacket id (if recurse then 0x0100 else 0x0000) name qtype false) true

def buildQueryDnssec (id : UInt16) (name : Text) (qtype : RType) : Bytes :=
  serialize (queryPacket id 0x0100 name qtype true) true

def answersQuery (query reply : Packet) : Bool :=
  match query.questions.head?, reply.questions.head? with
  | some asked, some answered =>
    reply.isResponse && reply.id == query.id && toAsciiLowercase answered.name == toAsciiLowercase asked.name
      && answered.qtype == asked.qtype && answered.qclass == asked.qclass
  | _, _ => false

/-- The first datagram, cut to 4096 octets, that parses and answers the query. -/
def firstReply (expected : Packet) : List Bytes → Option Packet
  | [] => none
  | datagram :: datagrams =>
    match parsePacket (datagram.take 4096) with
    | .ok pkt => if answersQuery expected pkt then some pkt else firstReply expected datagrams
    | .error _ => firstReply expected datagrams

section
variable {σ : Type} (net : Sockets σ)

def tcpExchange (query : Bytes) (addr : IpAddr) (s : σ) : Option Packet × σ :=
  match net.tcp query addr s with
  | (none, s) => (none, s)
  | (some reply, s) =>
    match parsePacket reply, parsePacket query with
    | .ok pkt, .ok expected => (if answersQuery expected pkt then some pkt else none, s)
    | _, _ => (none, s)

/-- A truncated reply is asked for again over TCP. -/
def udpExchange (query : Bytes) (addr : IpAddr) (s : σ) : Option Packet × σ :=
  match net.udp query addr s with
  | (none, s) => (none, s)
  | (some datagrams, s) =>
    match parsePacket query with
    | .error _ => (none, s)
    | .ok expected =>
      match firstReply expected datagrams with
      | none => (none, s)
      | some pkt => if pkt.truncated then tcpExchange net query addr s else (some pkt, s)

end

/-! Names and addresses. -/

/-- The name is the zone or below it; "." contains everything. -/
def inBailiwick (name zone : Text) : Bool :=
  let name := toAsciiLowercase (trimEndMatches '.' name)
  let zone := toAsciiLowercase (trimEndMatches '.' zone)
  zone == [] || name == zone || ('.' :: zone).isSuffixOf name

def parseNameFromRdata (rdata : Bytes) : Text :=
  match Parser.name.run rdata with
  | .ok name => name
  | .error _ => []

def ipv4 (a b c d : UInt8) : IpAddr := .V4 (a.toBitVec ++ b.toBitVec ++ c.toBitVec ++ d.toBitVec)

/-- `ROOT_SERVERS`, by their addresses. -/
def rootServers : List IpAddr :=
  [ipv4 198 41 0 4, ipv4 199 9 14 201, ipv4 192 33 4 12, ipv4 199 7 91 13, ipv4 192 203 230 10, ipv4 192 5 5 241,
    ipv4 192 112 36 4, ipv4 198 97 190 53, ipv4 192 36 148 17, ipv4 192 58 128 30, ipv4 193 0 14 129, ipv4 199 7 83 42,
    ipv4 202 12 27 33]

/-- The address in an A record. -/
def addressOf (r : Record) : Option IpAddr :=
  match r.rtype, r.rdata with
  | .A, [a, b, c, d] => some (ipv4 a b c d)
  | _, _ => none

/-! The walk. -/

def MAX_REFERRALS : Nat := 20
def MAX_NS_LOOKUP_DEPTH : Nat := 4

/-- The state at the start of a pass of the loop. -/
structure Iteration where
  name : Text
  /-- The zone the name servers are authoritative for. -/
  zone : Text
  nameservers : List IpAddr
  visited : List (Text × IpAddr)
  cnameChain : List Text

def Iteration.start (name : Text) : Iteration := ⟨name, ['.'], rootServers, [], []⟩

/-- A pass ends the walk or goes on to the next one. -/
inductive Pass where
  | done (result : ResolveResult)
  | next (st : Iteration)

/-- A reply without the records outside the zone whose server sent it. -/
def retainBailiwick (zone : Text) (pkt : Packet) : Packet :=
  { pkt with
    answers := pkt.answers.filter fun r => inBailiwick r.name zone
    authority := pkt.authority.filter fun r => inBailiwick r.name zone
    additional := pkt.additional.filter fun r => r.rtype = .OPT || inBailiwick r.name zone }

/-- The zone a referral delegates to: below the current one, and the name in it. -/
def delegatedZone (st : Iteration) (pkt : Packet) : Option Text :=
  ((pkt.authority.find? fun r => r.rtype = .NS).map fun r => toAsciiLowercase r.name).filter fun zone =>
    zone ≠ st.zone ∧ inBailiwick st.name zone

/-- The names of the zone's servers. -/
def nsNames (zone : Text) (pkt : Packet) : List Text :=
  ((pkt.authority.filter fun r => r.rtype = .NS ∧ toAsciiLowercase r.name = toAsciiLowercase zone).map fun r =>
    parseNameFromRdata r.rdata).filter (· ≠ [])

/-- The addresses that the additional section has for the servers. -/
def glue (additional : List Record) (names : List Text) : List IpAddr :=
  names.flatMap fun ns => additional.filterMap fun add =>
    if toAsciiLowercase add.name = toAsciiLowercase ns then addressOf add else none

/-- A CNAME restarts the walk from the root, for its target. -/
def answerPass (qtype : RType) (st : Iteration) (pkt : Packet) : Pass :=
  match pkt.answers.find? fun r => r.rtype = .CNAME with
  | none => .done (.Answer pkt)
  | some cn =>
    if qtype = .CNAME then .done (.Answer pkt)
    else
      let target := parseNameFromRdata cn.rdata
      if target = [] ∨ target ∈ st.cnameChain then .done (.ServFail "CNAME loop")
      else .next ⟨target, ['.'], rootServers, st.visited, st.cnameChain ++ [st.name]⟩

section
variable {σ : Type} (net : Sockets σ)

/-- The servers are asked in turn, none of them twice for one name. -/
def askServers (query : Bytes) (name : Text) :
    List IpAddr → List (Text × IpAddr) → σ → Option Packet × List (Text × IpAddr) × σ
  | [], visited, s => (none, visited, s)
  | ns :: servers, visited, s =>
    if (name, ns) ∈ visited then askServers query name servers visited s
    else
      match udpExchange net query ns s with
      | (some pkt, s) => (some pkt, (name, ns) :: visited, s)
      | (none, s) => askServers query name servers ((name, ns) :: visited) s

/-- The addresses of the first server that can be resolved. -/
def lookupServers (nested : Text → σ → ResolveResult × σ) : List Text → σ → List IpAddr × σ
  | [], s => ([], s)
  | ns :: names, s =>
    match nested ns s with
    | (.Answer p, s) =>
      let addresses := p.answers.filterMap addressOf
      if addresses ≠ [] then (addresses, s) else lookupServers nested names s
    | (_, s) => lookupServers nested names s

def referralPass (nested : Text → σ → ResolveResult × σ) (st : Iteration) (pkt : Packet) (s : σ) : Pass × σ :=
  match delegatedZone st pkt with
  | none => (.done (.ServFail "bogus referral"), s)
  | some zone =>
    let names := nsNames zone pkt
    if names = [] then (.done (.ServFail "empty referral"), s)
    else
      let found := glue pkt.additional names
      let (addresses, s) := if found = [] then lookupServers nested names s else (found, s)
      if addresses = [] then (.done (.ServFail "could not resolve any NS for referral"), s)
      else (.next { st with zone := zone, nameservers := addresses }, s)

/-- What a reply, without what is out of bailiwick, is good for. -/
def replyPass (nested : Text → σ → ResolveResult × σ) (qtype : RType) (st : Iteration) (pkt : Packet) (s : σ) :
    Pass × σ :=
  if pkt.rcode = RCODE_NXDOMAIN then (.done (.NxDomain pkt), s)
  else if pkt.answers ≠ [] then (answerPass qtype st pkt, s)
  else if pkt.authority ≠ [] then referralPass nested st pkt s
  else (.done (.Answer pkt), s)

/-- One pass of the loop. -/
def iteration (nested : Text → σ → ResolveResult × σ) (qtype : RType) (st : Iteration) (s : σ) : Pass × σ :=
  let (id, s) := net.randomId s
  match askServers net (buildQuery id st.name qtype false) st.name st.nameservers st.visited s with
  | (none, _, s) => (.done (.ServFail "all nameservers failed"), s)
  | (some reply, visited, s) =>
    replyPass nested qtype { st with visited := visited } (retainBailiwick st.zone reply) s

/-- The loop, with the referrals left: every pass that goes on takes one. -/
def iterate (nested : Text → σ → ResolveResult × σ) (qtype : RType) : Nat → Iteration → σ → ResolveResult × σ
  | 0, _, s => (.ServFail "max referrals exceeded", s)
  | left + 1, st, s =>
    match iteration net nested qtype st s with
    | (.done result, s) => (result, s)
    | (.next st, s) => iterate nested qtype left st s

/-- `iterative_resolve`, with the levels left: `MAX_NS_LOOKUP_DEPTH + 1 - depth` of them. -/
def iterativeResolve : Nat → Text → RType → σ → ResolveResult × σ
  | 0, _, _, s => (.ServFail "NS lookup depth exceeded", s)
  | levels + 1, name, qtype, s =>
    iterate net (fun ns s => iterativeResolve levels ns .A s) qtype MAX_REFERRALS (.start name) s

/-! The resolver as the handler calls it. -/

structure ResolverConfig where
  forwarders : List IpAddr
  useForwarders : Bool

/-- The first forwarder whose reply is no failure decides. -/
def askForwarders (query : Bytes) : List IpAddr → σ → Option ResolveResult × σ
  | [], s => (none, s)
  | fwd :: forwarders, s =>
    match udpExchange net query fwd s with
    | (none, s) => askForwarders query forwarders s
    | (some pkt, s) =>
      if pkt.rcode = RCODE_SERVFAIL then askForwarders query forwarders s
      else (some (if pkt.rcode = RCODE_NXDOMAIN then .NxDomain pkt else .Answer pkt), s)

def resolve (config : ResolverConfig) (name : Text) (qtype : RType) (s : σ) : ResolveResult × σ :=
  if config.useForwarders then
    let (id, s) := net.randomId s
    match askForwarders net (buildQuery id name qtype true) config.forwarders s with
    | (some result, s) => (result, s)
    | (none, s) => iterativeResolve net (MAX_NS_LOOKUP_DEPTH + 1) name qtype s
  else iterativeResolve net (MAX_NS_LOOKUP_DEPTH + 1) name qtype s

def fetchFrom (query : Bytes) (qtype : RType) : List IpAddr → σ → (List Record × List Record) × σ
  | [], s => (([], []), s)
  | fwd :: forwarders, s =>
    match udpExchange net query fwd s with
    | (some pkt, s) =>
      ((pkt.answers.filter fun r => r.rtype = qtype, pkt.answers.filter fun r => r.rtype = .RRSIG), s)
    | (none, s) => fetchFrom query qtype forwarders s

/-- `fetch_with_rrsig`: from a forwarder, whether or not queries use them. -/
def fetchWithRrsig (config : ResolverConfig) (name : Text) (qtype : RType) (s : σ) :
    (List Record × List Record) × σ :=
  let (id, s) := net.randomId s
  fetchFrom net (buildQueryDnssec id name qtype) qtype config.forwarders s

def ResolverConfig.upstream (config : ResolverConfig) : Upstream σ where
  resolve := resolve net config
  fetchWithRrsig := fetchWithRrsig net config

end

end Ironbind
