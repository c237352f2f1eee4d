import Ironbind.Config
import Ironbind.FailClosed
import Ironbind.ZoneFile

/- The configuration file (`config.rs`): the TOML subset it is written in, read line by
   line, and the settings that `ServerConfig::load` takes from it. The file's text is
   the argument. A line gives a key a value when there is one; the getters give a value of
   the wrong type back as none, and `load` then keeps the default. Integers are
   read as `i64` and cast to the width of their field. -/
namespace Ironbind
open Codec

inductive TomlVal where
  | Str (s : Text)
  | Int (n : Int)
  | Bool (b : Bool)
  | Array (items : List Text)
  deriving DecidableEq, Repr

/-- The keys of one section with their values. -/
abbrev Section := Text → Option TomlVal

structure Toml where
  globals : Section
  sections : Text → Option Section

/-- How `load` ends without a configuration: in a slice whose end is in front of its start, or
    with the message of an `InvalidData` error. -/
inductive ConfigError where
  | sliceReversed
  | invalidData (message : Text)
  deriving DecidableEq, Repr

namespace Toml

/-! Lines. -/

def stripCommentLoop : Bool → Text → Text
  | _, [] => []
  | inStr, c :: rest => if c = '#' ∧ !inStr then [] else c :: stripCommentLoop (toggles inStr c) rest

/-- `strip_comment`: a number sign outside quotes ends the line. -/
def stripComment (line : Text) : Text := stripCommentLoop false line

/-- `str::parse::<i64>`. -/
def parseI64 (s : Text) : Option Int :=
  if s.head? = some '-' then
    if s.drop 1 = [] ∨ !(s.drop 1).all Char.isDigit then none
    else (parseUnsigned (2 ^ 63) (s.drop 1)).map fun n => -(n : Int)
  else (parseUnsigned (2 ^ 63 - 1) s).map Int.ofNat

/-- `trim_matches('"')`. -/
def trimQuotes (s : Text) : Text := (s.dropWhile (· == '"')).rdropWhile (· == '"')

/-- A value as its text spells it; an empty text is none. One quote alone is both the first and the
    last character, and there is nothing between them to cut out. -/
def parseValue (s : Text) : Except ConfigError (Option TomlVal) :=
  if s.head? = some '"' ∧ s.getLast? = some '"' then
    if s.length < 2 then .error .sliceReversed else .ok (some (.Str (s.drop 1).dropLast))
  else if s = "true".toList then .ok (some (.Bool true))
  else if s = "false".toList then .ok (some (.Bool false))
  else if s.head? = some '[' ∧ s.getLast? = some ']' then
    .ok (some (.Array ((((s.drop 1).dropLast.splitOn ',').map fun p => trimQuotes (trim p)).filter (· ≠ []))))
  else .ok (((parseI64 s).map .Int).or (if s = [] then none else some (.Str s)))

def keyText (line : Text) : Text := trim (line.takeWhile (· != '='))
def valueText (line : Text) : Text := trim ((line.dropWhile (· != '=')).drop 1)

def parseKv (line : Text) : Except ConfigError (Option (Text × TomlVal)) :=
  if '=' ∈ line then (parseValue (valueText line)).map fun v => v.map fun v => (keyText line, v)
  else .ok none

def insert (t : Toml) (currentSection : Option Text) (k : Text) (v : TomlVal) : Toml :=
  match currentSection with
  | some sec =>
    let map := (t.sections sec).getD fun _ => none
    { t with sections := Function.update t.sections sec (some (Function.update map k (some v))) }
  | none => { t with globals := Function.update t.globals k (some v) }

def isHeader (line : Text) : Bool := line.head? == some '[' && line.getLast? == some ']'

/-- The name between the brackets. -/
def headerName (line : Text) : Text := trim (line.drop 1).dropLast

def parseLine (s : Toml × Option Text) (raw : Text) : Except ConfigError (Toml × Option Text) :=
  let line := trim (stripComment raw)
  if line = [] then .ok s
  else if isHeader line then .ok (s.1, some (headerName line))
  else (parseKv line).map fun kv => kv.elim s fun kv => (s.1.insert s.2 kv.1 kv.2, s.2)

def parseStr (s : Text) : Except ConfigError Toml :=
  ((lines s).foldlM parseLine (⟨fun _ => none, fun _ => none⟩, none)).map Prod.fst

end Toml

/-! Typed values. -/

namespace Toml

def strOf : TomlVal → Option Text
  | .Str s => some s
  | _ => none

def intOf : TomlVal → Option Int
  | .Int n => some n
  | .Str s => Toml.parseI64 s
  | _ => none

def boolOf : TomlVal → Option Bool
  | .Bool b => some b
  | .Str s => if s = "true".toList then some true else if s = "false".toList then some false else none
  | _ => none

def arrayOf : TomlVal → Option (List Text)
  | .Array items => some items
  | .Str s => some [s]
  | _ => none

section
variable (t : Toml) (sec : Option String) (key : String)

def get : Option TomlVal :=
  match sec with
  | some sec => (t.sections sec.toList).bind fun section_ => section_ key.toList
  | none => t.globals key.toList

def str : Option Text := (t.get sec key).bind strOf
def int : Option Int := (t.get sec key).bind intOf
def bool : Option Bool := (t.get sec key).bind boolOf
def array : List Text := ((t.get sec key).bind arrayOf).getD []

end

end Toml

/-! Networks. -/

def bigEndian (octets : Bytes) : Nat := octets.foldl (fun n b => n * 256 + b.toNat) 0

/-- `str::parse::<IpAddr>`: an IPv6 address is looked for where no IPv4 address starts. -/
def IpAddr.parse (s : Text) : Option IpAddr :=
  (readIpv4 s).elim ((parseWith readIpv6 s).map fun octets => .V6 (BitVec.ofNat 128 (bigEndian octets)))
    fun v4 => if v4.2 = [] then some (.V4 (BitVec.ofNat 32 (bigEndian v4.1))) else none

def IpAddr.maxPrefix : IpAddr → UInt8
  | V4 _ => 32
  | V6 _ => 128

def Network.parse (text : Text) : Option Network :=
  (IpAddr.parse (trim (text.takeWhile (· != '/')))).bind fun address =>
    if '/' ∈ text then
      ((parseU8 (trim ((text.dropWhile (· != '/')).drop 1))).filter (· ≤ address.maxPrefix)).map fun p => ⟨address, p⟩
    else some ⟨address, address.maxPrefix⟩

def DEFAULT_ALLOW_RECURSION : List String :=
  ["127.0.0.0/8", "10.0.0.0/8", "172.16.0.0/12", "192.168.0.0/16",
    "169.254.0.0/16", "100.64.0.0/10", "::1/128", "fc00::/7", "fe80::/10"]

/-! Settings. -/

structure RateLimitConfig where
  queriesPerSecond : UInt32
  perIp : Bool
  globalQueriesPerSecond : UInt32
  maxTrackedSources : UInt64
  deriving DecidableEq, Repr

structure TlsListenerConfig where
  bind : Text
  certPath : Text
  keyPath : Text
  deriving DecidableEq, Repr

inductive TsigSecretSource where
  | Inline (secret : Text)
  | Keychain (service : Text)
  | File (path : Text)
  deriving DecidableEq, Repr

/-- A key with where its secret is found. -/
structure TsigKeySource extends TsigKeyConfig where
  secretSource : TsigSecretSource

/-- The settings that are loaded; those a query meets come first. `usize` has 64 bits. -/
structure ServerSettings extends ServerConfig where
  bind : Text
  port : UInt16
  useForwarders : Bool
  zoneFiles : List Text
  logLevel : Text
  logQueries : Bool
  tcpTimeoutMs : UInt64
  rateLimit : Option RateLimitConfig
  metricsPort : UInt16
  workerThreads : UInt64
  udpReceivers : UInt64
  dot : Option TlsListenerConfig
  doh : Option TlsListenerConfig
  tsigKeys : List TsigKeySource

def ServerSettings.default : ServerSettings where
  dnssecValidate := true
  dnssecStrict := false
  allowRecursion := DEFAULT_ALLOW_RECURSION.filterMap fun n => Network.parse n.toList
  cacheMax := 100000
  negCacheTtl := 300
  tsigRequireAll := false
  bind := "0.0.0.0".toList
  port := 53
  useForwarders := true
  zoneFiles := []
  logLevel := "info".toList
  logQueries := false
  tcpTimeoutMs := 5000
  rateLimit := none
  metricsPort := 0
  workerThreads := 64
  udpReceivers := 2
  dot := none
  doh := none
  tsigKeys := []

section
variable (t : Toml)

def loadNetwork (entry : Text) : Except ConfigError Network :=
  (Network.parse entry).elim
    (.error (.invalidData ("allow_recursion: '".toList ++ entry ++ "' is not an address or CIDR network".toList))) .ok

def loadNetworks : Except ConfigError (List Network) :=
  if (t.get (some "server") "allow_recursion").isSome then
    (t.array (some "server") "allow_recursion").mapM loadNetwork
  else .ok ServerSettings.default.allowRecursion

/-- A TLS listener is configured when all its keys are there. -/
def loadListener (sec : String) : Option TlsListenerConfig :=
  (t.str (some sec) "bind").bind fun b => (t.str (some sec) "cert").bind fun cert =>
    (t.str (some sec) "key").map fun key => ⟨b, cert, key⟩

/-- The secret of the TSIG key, from the first source that is named. -/
def loadSecret : Option TsigSecretSource :=
  ((t.str (some "tsig") "secret_keychain").map .Keychain).or
    (((t.str (some "tsig") "secret_file").map .File).or ((t.str (some "tsig") "secret").map .Inline))

def loadTsigKeys : List TsigKeySource :=
  ((t.str (some "tsig") "name").bind fun n => (t.str (some "tsig") "algorithm").bind fun a =>
    (loadSecret t).map fun src => ({ name := n, algorithm := a, secretSource := src } : TsigKeySource)).toList

def loadRateLimit : Option RateLimitConfig :=
  let perSource := t.int (some "ratelimit") "queries_per_second"
  let global := t.int (some "ratelimit") "global_queries_per_second"
  if perSource.isSome ∨ global.isSome then
    some { queriesPerSecond := .ofInt (max (perSource.getD 0) 0)
           perIp := (t.bool (some "ratelimit") "per_ip").getD true
           globalQueriesPerSecond := .ofInt (max (global.getD 0) 0)
           maxTrackedSources := .ofInt (max ((t.int (some "ratelimit") "max_tracked_sources").getD 100000) 1) }
  else none

/-- The settings a parsed file gives, with the networks loaded. -/
def loadSettings (allowRecursion : List Network) : ServerSettings :=
  let c := ServerSettings.default
  { dnssecValidate := (t.bool (some "server") "dnssec_validate").getD c.dnssecValidate
    dnssecStrict := (t.bool (some "server") "dnssec_strict").getD c.dnssecStrict
    allowRecursion := allowRecursion
    cacheMax := (t.int (some "cache") "max_entries").elim c.cacheMax fun v => (UInt64.ofInt v).toNat
    negCacheTtl := (t.int (some "cache") "neg_ttl").elim c.negCacheTtl .ofInt
    tsigRequireAll := (t.bool (some "tsig") "require_all_queries").getD c.tsigRequireAll
    bind := (t.str (some "server") "bind").getD c.bind
    port := (t.int (some "server") "port").elim c.port .ofInt
    useForwarders := (t.bool (some "server") "use_forwarders").getD c.useForwarders
    zoneFiles := t.array (some "zones") "files"
    logLevel := (t.str (some "server") "log_level").getD c.logLevel
    logQueries := (t.bool (some "server") "log_queries").getD c.logQueries
    tcpTimeoutMs := (t.int (some "server") "tcp_timeout_ms").elim c.tcpTimeoutMs .ofInt
    rateLimit := loadRateLimit t
    metricsPort := (t.int (some "metrics") "port").elim c.metricsPort .ofInt
    workerThreads := (t.int (some "server") "worker_threads").elim c.workerThreads .ofInt
    udpReceivers := (t.int (some "server") "udp_receivers").elim c.udpReceivers .ofInt
    dot := loadListener t "dot"
    doh := loadListener t "doh"
    tsigKeys := loadTsigKeys t }

end

/-- `ServerConfig::load`, on the text of the file. -/
def loadConfig (content : Text) : Except ConfigError ServerSettings := do
  let t ← Toml.parseStr content
  let allowRecursion ← loadNetworks t
  pure (loadSettings t allowRecursion)

end Ironbind
