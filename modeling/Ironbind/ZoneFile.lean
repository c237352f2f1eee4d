import Ironbind.Lib.Run
import Ironbind.Zone

/- The zone-file loader (`Zone::load_file`): comments, records over several lines,
   directives, owner, TTL and class fields, and the RDATA of the eleven types it
   builds. The file's text is the argument; a panic of the source (an index past
   the tokens, a slice that cuts a character) is an error of its own. Integer
   parsing, addresses and white space follow the Rust standard library. -/
namespace Ironbind
open Codec

/-- Where the loader panics. -/
inductive Panic where
  | indexOutOfBounds
  | notCharBoundary
  deriving DecidableEq, Repr

/-! Text, as the standard library cuts it. -/

/-- Unicode `White_Space`. -/
def isWhitespace (c : Char) : Bool :=
  let n := c.toNat
  (9 ≤ n && n ≤ 13) || n == 0x20 || n == 0x85 || n == 0xA0 || n == 0x1680 || (0x2000 ≤ n && n ≤ 0x200A)
    || n == 0x2028 || n == 0x2029 || n == 0x202F || n == 0x205F || n == 0x3000

def trim (s : Text) : Text := (s.dropWhile isWhitespace).rdropWhile isWhitespace

def splitWhitespace (s : Text) : List Text := (s.splitOnP isWhitespace).filter (· ≠ [])

def stripCr (line : Text) : Text := if line.getLast? = some '\r' then line.dropLast else line

/-- Lines end at a newline, with a carriage return before it or not; the last may lack one. -/
def lines (s : Text) : List Text :=
  let parts := s.splitOn '\n'
  parts.dropLast.map stripCr ++ parts.getLast?.toList.filter (· ≠ [])

/-- A character in upper case where that is ASCII; any other character is kept, and no text
    the loader compares with holds one. -/
def upperChar (c : Char) : Text :=
  match c.toNat with
  | 0x131 => ['I']
  | 0x17F => ['S']
  | 0xDF => ['S', 'S']
  | 0xFB00 => ['F', 'F']
  | 0xFB01 => ['F', 'I']
  | 0xFB02 => ['F', 'L']
  | 0xFB03 => ['F', 'F', 'I']
  | 0xFB04 => ['F', 'F', 'L']
  | 0xFB05 => ['S', 'T']
  | 0xFB06 => ['S', 'T']
  | _ => [c.toUpper]

def toUppercase (s : Text) : Text := s.flatMap upperChar

/-- `parse` of an unsigned decimal integer: a plus sign is allowed in front. -/
def parseUnsigned (max : Nat) (s : Text) : Option Nat :=
  let digits := match s with
    | '+' :: rest => rest
    | s => s
  if digits = [] ∨ !digits.all Char.isDigit then none
  else
    let n := digits.foldl (fun n c => n * 10 + (c.toNat - '0'.toNat)) 0
    if n ≤ max then some n else none

def parseU8 (s : Text) : Option UInt8 := (parseUnsigned 0xFF s).map UInt8.ofNat
def parseU16 (s : Text) : Option UInt16 := (parseUnsigned 0xFFFF s).map UInt16.ofNat
def parseU32 (s : Text) : Option UInt32 := (parseUnsigned 0xFFFFFFFF s).map UInt32.ofNat

/-! Addresses. -/

/-- Up to `maxDigits` digits of a radix, none of them past that. -/
def readNumber (radix : Nat) (maxDigits : Nat) (allowZeroPrefix : Bool) (s : Text) : Option (Nat × Text) :=
  let value (c : Char) : Option Nat := ((hexDigit c).map UInt8.toNat).filter (· < radix)
  let digits := s.takeWhile fun c => (value c).isSome
  if digits = [] ∨ digits.length > maxDigits then none
  else if !allowZeroPrefix ∧ digits.head? = some '0' ∧ digits.length > 1 then none
  else some (digits.foldl (fun n c => n * radix + (value c).getD 0) 0, s.drop digits.length)

/-- An element of a separated sequence: the first has no separator in front of it. -/
def readSeparator {α : Type} (separator : Char) (first : Bool) (inner : Text → Option (α × Text)) (s : Text) :
    Option (α × Text) :=
  if first then inner s
  else
    match s with
    | c :: s => if c = separator then inner s else none
    | [] => none

def readOctet (s : Text) : Option (UInt8 × Text) := do
  let (n, s) ← readNumber 10 3 false s
  if n ≤ 0xFF then pure (UInt8.ofNat n, s) else none

def readIpv4 (s : Text) : Option (Bytes × Text) := do
  let (a, s) ← readSeparator '.' true readOctet s
  let (b, s) ← readSeparator '.' false readOctet s
  let (c, s) ← readSeparator '.' false readOctet s
  let (d, s) ← readSeparator '.' false readOctet s
  pure ([a, b, c, d], s)

/-- The groups of one side of an IPv6 address, with whether an IPv4 address ends them; there
    is room for as many groups as the first argument says. -/
def readGroups : Nat → Bool → Text → Bytes × Bool × Text
  | 0, _, s => ([], false, s)
  | room + 1, first, s =>
    match if room = 0 then none else readSeparator ':' first readIpv4 s with
    | some (octets, s) => (octets, true, s)
    | none =>
      match readSeparator ':' first (readNumber 16 4 true) s with
      | some (group, s) =>
        let (groups, ipv4, s) := readGroups room false s
        (be16 (UInt16.ofNat group) ++ groups, ipv4, s)
      | none => ([], false, s)

def readIpv6 (s : Text) : Option (Bytes × Text) :=
  let (head, headIpv4, s) := readGroups 8 true s
  if head.length = 16 then some (head, s)
  else if headIpv4 then none
  else
    match s with
    | ':' :: ':' :: s =>
      let (tail, _, s) := readGroups (7 - head.length / 2) true s
      some (head ++ List.replicate (16 - head.length - tail.length) 0 ++ tail, s)
    | _ => none

/-- The whole text is the address. -/
def parseWith (read : Text → Option (Bytes × Text)) (s : Text) : Option Bytes :=
  match read s with
  | some (octets, []) => some octets
  | _ => none

/-! Lines and tokens. -/

/-- The quoting state the three scans of a line share: what an unescaped character does to it. -/
def toggles (quoted : Bool) (c : Char) : Bool := if c = '"' then !quoted else quoted

/-- `strip_zone_comment`: a semicolon outside quotes ends the line. -/
def stripCommentLoop : Bool → Bool → Text → Text
  | _, _, [] => []
  | quoted, true, c :: rest => c :: stripCommentLoop quoted false rest
  | quoted, false, c :: rest =>
    if c = ';' ∧ !quoted then [] else c :: stripCommentLoop (toggles quoted c) (c = '\\') rest

def stripZoneComment (line : Text) : Text := stripCommentLoop false false line

def balanceLoop : Bool → Bool → Int → Text → Int
  | _, _, balance, [] => balance
  | quoted, true, balance, _ :: rest => balanceLoop quoted false balance rest
  | quoted, false, balance, c :: rest =>
    let step : Int := if quoted then 0 else if c = '(' then 1 else if c = ')' then -1 else 0
    balanceLoop (toggles quoted c) (c = '\\') (balance + step) rest

def parenthesisBalance (line : Text) : Int := balanceLoop false false 0 line

/-- The loop of `tokenize_zone_line` with the token it is in. -/
def tokenizeLoop : Bool → Bool → Text → Text → List Text
  | _, _, current, [] => if current = [] then [] else [current]
  | quoted, true, current, c :: rest => tokenizeLoop quoted false (current ++ [c]) rest
  | quoted, false, current, c :: rest =>
    if !quoted ∧ (c = '(' ∨ c = ')' ∨ isWhitespace c) then
      if current = [] then tokenizeLoop quoted false [] rest else current :: tokenizeLoop quoted false [] rest
    else tokenizeLoop (toggles quoted c) (c = '\\') (current ++ [c]) rest

def tokenizeZoneLine (line : Text) : List Text := tokenizeLoop false false [] line

/-! Fields. -/

def isClass (s : Text) : Bool :=
  [['I', 'N'], ['A', 'N', 'Y'], ['C', 'H'], ['H', 'S']].contains (toUppercase s)

def isType (s : Text) : Bool :=
  [['A'], ['A', 'A', 'A', 'A'], ['N', 'S'], ['C', 'N', 'A', 'M', 'E'], ['S', 'O', 'A'], ['P', 'T', 'R'], ['M', 'X'],
    ['T', 'X', 'T'], ['S', 'R', 'V'], ['N', 'A', 'P', 'T', 'R'], ['D', 'S'], ['D', 'N', 'S', 'K', 'E', 'Y'],
    ['R', 'R', 'S', 'I', 'G'], ['N', 'S', 'E', 'C'], ['N', 'S', 'E', 'C', '3'], ['C', 'A', 'A']].contains
      (toUppercase s)

/-- The unit at the end of a TTL, in seconds. -/
def ttlUnit (c : Char) : Option UInt32 :=
  match c.toLower with
  | 's' => some 1
  | 'm' => some 60
  | 'h' => some 3600
  | 'd' => some 86400
  | 'w' => some 604800
  | _ => none

def parseTtl (s : Text) : UInt32 :=
  let (num, mult) := match s.getLast?.bind ttlUnit with
    | some mult => (s.dropLast, mult)
    | none => (s, 1)
  (parseU32 num).getD 3600 * mult

def strToRtype (s : Text) : RType :=
  match s with
  | ['A'] => .A
  | ['A', 'A', 'A', 'A'] => .AAAA
  | ['N', 'S'] => .NS
  | ['C', 'N', 'A', 'M', 'E'] => .CNAME
  | ['S', 'O', 'A'] => .SOA
  | ['P', 'T', 'R'] => .PTR
  | ['M', 'X'] => .MX
  | ['T', 'X', 'T'] => .TXT
  | ['S', 'R', 'V'] => .SRV
  | ['D', 'S'] => .DS
  | ['D', 'N', 'S', 'K', 'E', 'Y'] => .DNSKEY
  | ['R', 'R', 'S', 'I', 'G'] => .RRSIG
  | ['N', 'S', 'E', 'C'] => .NSEC
  | _ => .Unknown 0

def fqdn (name origin : Text) : Text :=
  let n := trimEndMatches '.' name
  if n = ['@'] then origin
  else if name.getLast? = some '.' then toAsciiLowercase n
  else toAsciiLowercase n ++ '.' :: origin

def encodeName (name : Text) : Bytes := canonicalName name

/-- A pair of hexadecimal digits as `from_str_radix` reads it: a plus sign may stand for the first. -/
def hexPair (hi lo : Char) : Option UInt8 := do
  let l ← hexDigit lo
  if hi = '+' then pure l
  else
    let h ← hexDigit hi
    pure (h * 16 + l)

/-- The pairs of octets in turn. A pair that is not whole characters is a panic, and one
    that is a single character of two octets is no number. -/
def hexPairs : Text → Except Panic (Option Bytes)
  | [] => .ok (some [])
  | hi :: rest =>
    if hi.utf8Size = 2 then .ok none
    else if hi.utf8Size ≠ 1 then .error .notCharBoundary
    else
      match rest with
      | [] => .ok none
      | lo :: rest =>
        if lo.utf8Size ≠ 1 then .error .notCharBoundary
        else
          match hexPair hi lo with
          | none => .ok none
          | some b => (hexPairs rest).map fun bs => bs.map (b :: ·)

/-- `hex_decode` of the loader. -/
def hexDecodeField (s : Text) : Except Panic (Option Bytes) :=
  let s := s.filter (· ≠ ' ')
  if (utf8 s).length % 2 ≠ 0 then .ok none else hexPairs s

def base64Value (b : UInt8) : Option UInt32 :=
  let c := Char.ofNat b.toNat
  if 'A' ≤ c ∧ c ≤ 'Z' then some (b - 65).toUInt32
  else if 'a' ≤ c ∧ c ≤ 'z' then some (b - 97 + 26).toUInt32
  else if '0' ≤ c ∧ c ≤ '9' then some (b - 48 + 52).toUInt32
  else if c = '+' then some 62
  else if c = '/' then some 63
  else if c = '=' then some 0
  else none

def base64Chunks : Bytes → Option Bytes
  | [] => some []
  | c0 :: c1 :: c2 :: c3 :: rest => do
    let a ← base64Value c0
    let b ← base64Value c1
    let c ← base64Value c2
    let d ← base64Value c3
    let n := (a <<< 18) ||| (b <<< 12) ||| (c <<< 6) ||| d
    let out ← base64Chunks rest
    pure ((n >>> 16).toUInt8 :: (if c2 ≠ 61 then [(n >>> 8).toUInt8] else [])
      ++ (if c3 ≠ 61 then [n.toUInt8] else []) ++ out)
  | _ => none

def base64Decode (s : Text) : Option Bytes := base64Chunks (utf8 (s.filter fun c => !isWhitespace c))

/-! RDATA. -/

/-- The text of a TXT field, without its quotes when it has both. -/
def unquote (token : Text) : Text :=
  match token with
  | '"' :: rest => if rest.getLast? = some '"' then rest.dropLast else token
  | _ => token

/-- Pieces of at most 255 octets, each behind its length; the fuel is the number of octets. -/
def txtChunks : Nat → Bytes → Bytes
  | 0, _ => []
  | fuel + 1, bytes =>
    if bytes = [] then []
    else
      let chunk := bytes.take 255
      UInt8.ofNat chunk.length :: chunk ++ txtChunks fuel (bytes.drop 255)

def txtField (token : Text) : Bytes :=
  let bytes := utf8 (unquote token)
  if bytes = [] then [0] else txtChunks bytes.length bytes

def soaRdata (origin : Text) : List Text → Option Bytes
  | mname :: rname :: serial :: refresh :: retry :: expire :: minimum :: _ => do
    let serial ← parseU32 serial
    pure (Builder.name (fqdn mname origin) ++ Builder.name (fqdn rname origin) ++ Builder.u32 serial
      ++ Builder.u32 (parseTtl refresh) ++ Builder.u32 (parseTtl retry) ++ Builder.u32 (parseTtl expire)
      ++ Builder.u32 (parseTtl minimum))
  | _ => none

def srvRdata (origin : Text) : List Text → Option Bytes
  | priority :: weight :: port :: target :: _ => do
    let priority ← parseU16 priority
    let weight ← parseU16 weight
    let port ← parseU16 port
    pure (Builder.u16 priority ++ Builder.u16 weight ++ Builder.u16 port ++ Builder.name (fqdn target origin))
  | _ => none

def mxRdata (origin : Text) (tokens : List Text) : Except Panic (Option Bytes) :=
  match parseU16 (tokens.headD []) with
  | none => .ok none
  | some pref =>
    match tokens[1]? with
    | none => .error .indexOutOfBounds
    | some exchange => .ok (some (Builder.u16 pref ++ Builder.name (fqdn exchange origin)))

def dsRdata : List Text → Except Panic (Option Bytes)
  | tag :: algorithm :: digestType :: digest :: _ =>
    match parseU16 tag, parseU8 algorithm, parseU8 digestType with
    | some tag, some algorithm, some digestType =>
      (hexDecodeField digest).map fun digest => digest.map fun digest =>
        Builder.u16 tag ++ Builder.u8 algorithm ++ Builder.u8 digestType ++ Builder.raw digest
    | _, _, _ => .ok none
  | _ => .ok none

def dnskeyRdata : List Text → Option Bytes
  | flags :: protocol :: algorithm :: key0 :: keys => do
    let flags ← parseU16 flags
    let protocol ← parseU8 protocol
    let algorithm ← parseU8 algorithm
    let key ← base64Decode (key0 :: keys).flatten
    pure (Builder.u16 flags ++ Builder.u8 protocol ++ Builder.u8 algorithm ++ Builder.raw key)
  | _ => none

/-- The data of a record from the tokens behind its type, of which there is at least one. -/
def buildRdata (rtype : Text) (tokens : List Text) (origin : Text) : Except Panic (Option Bytes) :=
  let first := tokens.headD []
  match strToRtype rtype with
  | .A => .ok (parseWith readIpv4 first)
  | .AAAA => .ok (parseWith readIpv6 first)
  | .NS | .CNAME | .PTR => .ok (some (encodeName (fqdn first origin)))
  | .MX => mxRdata origin tokens
  | .SOA => .ok (soaRdata origin tokens)
  | .TXT => .ok (some (tokens.flatMap txtField))
  | .SRV => .ok (srvRdata origin tokens)
  | .DS => dsRdata tokens
  | .DNSKEY => .ok (dnskeyRdata tokens)
  | _ => .ok none

/-! The loader. -/

/-- The owner field's name. -/
def ownerName (n origin : Text) : Text :=
  if n = ['@'] then origin
  else if n.getLast? = some '.' then toAsciiLowercase (trimEndMatches '.' n)
  else toAsciiLowercase n ++ '.' :: origin

/-- The optional TTL field: a number, or a token that ends in a unit. -/
def ttlField (defaultTtl : UInt32) : List Text → UInt32 × List Text
  | [] => (defaultTtl, [])
  | t :: rest =>
    match parseU32 t with
    | some n => (n, rest)
    | none => if (t.getLast?.bind ttlUnit).isSome then (parseTtl t, rest) else (defaultTtl, t :: rest)

def classField : List Text → List Text
  | [] => []
  | cls :: rest => if isClass cls then rest else cls :: rest

/-- A record line, `[name] [ttl] [class] type rdata...`: the owner for a blank field on the
    next line, and the record, if the line has one. -/
def parseRecord (origin lastName : Text) (defaultTtl : UInt32) (ownerIsBlank : Bool) (tokens : List Text) :
    Except Panic (Text × Option Record) :=
  match tokens with
  | [] | [_] => .ok (lastName, none)
  | first :: second :: rest =>
    let named := !ownerIsBlank && !isType first && !isClass first
    let name := if named then ownerName first origin else lastName
    let (ttl, fields) := ttlField defaultTtl (if named then second :: rest else first :: second :: rest)
    match classField fields with
    | [] | [_] => .ok (name, none)
    | rtypeToken :: rdataTokens =>
      let rtypeStr := toUppercase rtypeToken
      match buildRdata rtypeStr rdataTokens origin with
      | .error e => .error e
      | .ok none => .ok (name, none)
      | .ok (some rdata) =>
        .ok (name, some { name := name, rtype := strToRtype rtypeStr, rclass := CLASS_IN, ttl := ttl, rdata := rdata })

structure LoadState where
  zone : Zone
  defaultTtl : UInt32
  origin : Text
  lastName : Text
  pending : Text
  openParentheses : Int

/-- What a complete record or directive does. -/
def loadText (s : LoadState) (recordText : Text) : Except Panic LoadState :=
  let ownerIsBlank := recordText.head?.any isWhitespace
  let line := trim recordText
  if line = [] then .ok s
  else if ['$', 'O', 'R', 'I', 'G', 'I', 'N'].isPrefixOf line then
    match (splitWhitespace line)[1]? with
    | some o =>
      let origin := toAsciiLowercase (trimEndMatches '.' o)
      .ok { s with origin := origin, zone := { s.zone with origin := origin } }
    | none => .ok s
  else if ['$', 'T', 'T', 'L'].isPrefixOf line then
    match (splitWhitespace line)[1]? with
    | some t => .ok { s with defaultTtl := parseTtl t }
    | none => .ok s
  else if line.head? = some '$' then .ok s
  else
    match parseRecord s.origin s.lastName s.defaultTtl ownerIsBlank (tokenizeZoneLine line) with
    | .error e => .error e
    | .ok (lastName, none) => .ok { s with lastName := lastName }
    | .ok (lastName, some r) => .ok { s with lastName := lastName, zone := s.zone.add r }

/-- One line of the file; a record is buffered until its parentheses are closed. -/
def loadLine (s : LoadState) (rawLine : Text) : Except Panic LoadState :=
  let withoutComment := stripZoneComment rawLine
  if s.pending = [] ∧ trim withoutComment = [] then .ok s
  else
    let pending := s.pending ++ withoutComment ++ [' ']
    let openParentheses := s.openParentheses + parenthesisBalance withoutComment
    if openParentheses > 0 then .ok { s with pending := pending, openParentheses := openParentheses }
    else loadText { s with pending := [], openParentheses := 0 } pending

/-- `load_file`, on the text of the file. -/
def Zone.loadFile (z : Zone) (content : Text) : Except Panic Zone := do
  let s ← (lines content).foldlM loadLine
    { zone := z, defaultTtl := 3600, origin := z.origin, lastName := z.origin, pending := [], openParentheses := 0 }
  pure s.zone

/-! What a loaded zone holds. -/

/-- The types the loader builds records of. -/
def fileTypes : List RType := [.A, .AAAA, .NS, .CNAME, .PTR, .MX, .SOA, .TXT, .SRV, .DS, .DNSKEY]

/-- A record as the loader builds them. -/
structure FileRecord (r : Record) : Prop where
  lower : toAsciiLowercase r.name = r.name
  rclass : r.rclass = CLASS_IN
  rtype : r.rtype ∈ fileTypes

/-- A zone as a file leaves it: well formed, unsigned, its records the loader's. -/
structure Zone.Loaded (z : Zone) : Prop where
  wf : z.WF
  origin : toAsciiLowercase z.origin = z.origin
  unsigned : z.nsecOwners = []
  records : ∀ k rs, z.rrsets.lookup k = some rs → ∀ r ∈ rs, FileRecord r

theorem Zone.loaded_new (origin : Text) : (Zone.new origin).Loaded where
  wf := wf_new origin
  origin := toAsciiLowercase_idem _
  unsigned := rfl
  records := fun k rs h => by simp [Zone.new] at h

theorem Zone.Loaded.add {z : Zone} (h : z.Loaded) {r : Record} (hr : FileRecord r) : (z.add r).Loaded where
  wf := h.wf.add r
  origin := h.origin
  unsigned := h.unsigned
  records := fun k rs hk r' hr' => by
    by_cases he : k = (toAsciiLowercase r.name, r.rtype.toU16)
    · subst he
      rw [Zone.add, AList.lookup_insert, Option.some.injEq] at hk
      subst hk
      rcases List.mem_append.mp hr' with hr' | hr'
      · cases hl : z.rrsets.lookup (toAsciiLowercase r.name, r.rtype.toU16) with
        | none => rw [hl] at hr'; exact absurd hr' List.not_mem_nil
        | some rs => rw [hl] at hr'; exact h.records _ rs hl r' hr'
      · rw [List.mem_singleton.mp hr']; exact hr
    · rw [Zone.add, AList.lookup_insert_ne he] at hk
      exact h.records k rs hk r' hr'

theorem Zone.Loaded.reorigin {z : Zone} (h : z.Loaded) {origin : Text} (ho : toAsciiLowercase origin = origin) :
    ({ z with origin := origin } : Zone).Loaded := ⟨⟨h.wf.names, h.wf.records⟩, ho, h.unsigned, h.records⟩

theorem ownerName_lower {n origin : Text} (ho : toAsciiLowercase origin = origin) :
    toAsciiLowercase (ownerName n origin) = ownerName n origin := by
  unfold ownerName
  split
  · exact ho
  · split
    · exact toAsciiLowercase_idem _
    · rw [toAsciiLowercase_append, toAsciiLowercase_idem, toAsciiLowercase_cons, ho]; rfl

/-- RDATA is built for the loader's types only. -/
theorem rtype_of_buildRdata {rtype origin : Text} {tokens : List Text} {rdata : Bytes}
    (h : buildRdata rtype tokens origin = .ok (some rdata)) : strToRtype rtype ∈ fileTypes := by
  unfold buildRdata at h
  cases ht : strToRtype rtype <;> simp [ht] at h <;> decide

theorem parseRecord_fileRecord {origin lastName last : Text} {ttl : UInt32} {blank : Bool} {tokens : List Text}
    {r : Option Record} (h : parseRecord origin lastName ttl blank tokens = .ok (last, r))
    (ho : toAsciiLowercase origin = origin) (hl : toAsciiLowercase lastName = lastName) :
    toAsciiLowercase last = last ∧ ∀ r' ∈ r, FileRecord r' := by
  unfold parseRecord at h
  split at h
  · cases h; exact ⟨hl, by simp⟩
  · cases h; exact ⟨hl, by simp⟩
  · next first second rest =>
    have hname : toAsciiLowercase (if !blank && !isType first && !isClass first then ownerName first origin
        else lastName) = if !blank && !isType first && !isClass first then ownerName first origin else lastName := by
      split
      · exact ownerName_lower ho
      · exact hl
    simp only at h
    split at h
    · cases h; exact ⟨hname, by simp⟩
    · cases h; exact ⟨hname, by simp⟩
    · split at h
      · cases h
      · cases h; exact ⟨hname, by simp⟩
      · next hb =>
        cases h
        refine ⟨hname, fun r' hr' => ?_⟩
        cases hr'
        exact ⟨hname, rfl, rtype_of_buildRdata hb⟩

/-- What the loader keeps from line to line. -/
structure LoadState.Inv (s : LoadState) : Prop where
  zone : s.zone.Loaded
  origin : toAsciiLowercase s.origin = s.origin
  lastName : toAsciiLowercase s.lastName = s.lastName

theorem loadText_inv {s s' : LoadState} {text : Text} (hs : s.Inv) (h : loadText s text = .ok s') : s'.Inv := by
  simp only [loadText] at h
  split at h
  · cases h; exact hs
  split at h
  · split at h
    · cases h
      have ho := toAsciiLowercase_idem (trimEndMatches '.' ‹Text›)
      exact ⟨hs.zone.reorigin ho, ho, hs.lastName⟩
    · cases h; exact hs
  split at h
  · split at h <;> cases h <;> exact ⟨hs.zone, hs.origin, hs.lastName⟩
  split at h
  · cases h; exact hs
  split at h
  · cases h
  · next hp =>
    cases h
    exact ⟨hs.zone, hs.origin, (parseRecord_fileRecord hp hs.origin hs.lastName).1⟩
  · next hp =>
    cases h
    obtain ⟨hl, hr⟩ := parseRecord_fileRecord hp hs.origin hs.lastName
    exact ⟨hs.zone.add (hr _ rfl), hs.origin, hl⟩

theorem loadLine_inv {s s' : LoadState} {line : Text} (hs : s.Inv) (h : loadLine s line = .ok s') : s'.Inv := by
  simp only [loadLine] at h
  split at h
  · cases h; exact hs
  · split at h
    · cases h; exact ⟨hs.zone, hs.origin, hs.lastName⟩
    · have hs' : ({ s with pending := [], openParentheses := 0 } : LoadState).Inv :=
        ⟨hs.zone, hs.origin, hs.lastName⟩
      exact loadText_inv hs' h

/-- **Every file that loads leaves a zone of the loader's own records.** -/
theorem Zone.loadFile_loaded {origin content : Text} {z : Zone} (h : (Zone.new origin).loadFile content = .ok z) :
    z.Loaded := by
  unfold Zone.loadFile at h
  cases hf : (lines content).foldlM loadLine ⟨Zone.new origin, 3600, (Zone.new origin).origin,
      (Zone.new origin).origin, [], 0⟩ with
  | error e => rw [hf] at h; cases h
  | ok s =>
    rw [hf] at h
    cases h
    have hlower := (Zone.loaded_new origin).origin
    exact (Run.foldlM_preserves (fun s line s' => loadLine_inv) ⟨Zone.loaded_new origin, hlower, hlower⟩ hf).zone

end Ironbind
