import Ironbind.Lib.Text

/- The DNS wire format (`proto.rs`): record types, packets, the parser with
   label compression, and the builder. A name is text, as the source keeps it: the
   labels joined by dots, and "." for the root. The builder's methods are the
   octets they append; the parser is a `Reader`, so every method sees the whole
   packet (compression pointers lead anywhere in it) and keeps its position when
   it fails. Machine integers are Lean's fixed-width ones and wrap where `as`
   casts wrap. -/
namespace Ironbind
open Codec

inductive RType where
  | A | NS | CNAME | SOA | PTR | MX | TXT | AAAA | SRV | NAPTR | OPT | DS | RRSIG | NSEC | DNSKEY
  | NSEC3 | NSEC3PARAM | TSIG | IXFR | AXFR | ANY
  | Unknown (n : UInt16)
  deriving DecidableEq, Repr

def RType.ofU16 (n : UInt16) : RType :=
  if n = 1 then .A else if n = 2 then .NS else if n = 5 then .CNAME else if n = 6 then .SOA
  else if n = 12 then .PTR else if n = 15 then .MX else if n = 16 then .TXT else if n = 28 then .AAAA
  else if n = 33 then .SRV else if n = 35 then .NAPTR else if n = 41 then .OPT else if n = 43 then .DS
  else if n = 46 then .RRSIG else if n = 47 then .NSEC else if n = 48 then .DNSKEY
  else if n = 50 then .NSEC3 else if n = 51 then .NSEC3PARAM else if n = 250 then .TSIG
  else if n = 251 then .IXFR else if n = 252 then .AXFR else if n = 255 then .ANY else .Unknown n

def RType.toU16 : RType → UInt16
  | A => 1 | NS => 2 | CNAME => 5 | SOA => 6 | PTR => 12 | MX => 15 | TXT => 16 | AAAA => 28
  | SRV => 33 | NAPTR => 35 | OPT => 41 | DS => 43 | RRSIG => 46 | NSEC => 47 | DNSKEY => 48
  | NSEC3 => 50 | NSEC3PARAM => 51 | TSIG => 250 | IXFR => 251 | AXFR => 252 | ANY => 255
  | Unknown n => n

def CLASS_IN : UInt16 := 1
def CLASS_ANY : UInt16 := 255

def RCODE_NOERROR : UInt8 := 0
def RCODE_FORMERR : UInt8 := 1
def RCODE_SERVFAIL : UInt8 := 2
def RCODE_NXDOMAIN : UInt8 := 3
def RCODE_NOTIMP : UInt8 := 4
def RCODE_REFUSED : UInt8 := 5

structure Question where
  name : Text
  qtype : RType
  qclass : UInt16
  deriving DecidableEq, Repr

structure Record where
  name : Text
  rtype : RType
  rclass : UInt16
  ttl : UInt32
  rdata : Bytes
  deriving DecidableEq, Repr

structure Rrsig where
  typeCovered : UInt16
  algorithm : UInt8
  labels : UInt8
  origTtl : UInt32
  sigExpiry : UInt32
  sigInception : UInt32
  keyTag : UInt16
  signerName : Text
  signature : Bytes
  deriving DecidableEq, Repr

structure Dnskey where
  flags : UInt16
  protocol : UInt8
  algorithm : UInt8
  publicKey : Bytes
  deriving DecidableEq, Repr

structure Ds where
  keyTag : UInt16
  algorithm : UInt8
  digestType : UInt8
  digest : Bytes
  deriving DecidableEq, Repr

structure Packet where
  id : UInt16
  flags : UInt16
  questions : List Question
  answers : List Record
  authority : List Record
  additional : List Record
  ednsUdpSize : UInt16
  dnssecOk : Bool
  deriving DecidableEq, Repr

namespace Packet

def newResponse (id reqFlags : UInt16) : Packet where
  id := id
  flags := 0x8000 ||| (reqFlags &&& 0x0100) ||| 0x0080
  questions := []
  answers := []
  authority := []
  additional := []
  ednsUdpSize := 0
  dnssecOk := false

def isResponse (p : Packet) : Bool := p.flags &&& 0x8000 != 0
def rd (p : Packet) : Bool := p.flags &&& 0x0100 != 0
def truncated (p : Packet) : Bool := p.flags &&& 0x0200 != 0

def setAa (p : Packet) : Packet := { p with flags := p.flags ||| 0x0400 }
def setTc (p : Packet) : Packet := { p with flags := p.flags ||| 0x0200 }
def setRa (p : Packet) : Packet := { p with flags := p.flags ||| 0x0080 }

def rcode (p : Packet) : UInt8 := (p.flags &&& 0x000F).toUInt8
def setRcode (p : Packet) (c : UInt8) : Packet :=
  { p with flags := (p.flags &&& 0xFFF0) ||| (c.toUInt16 &&& 0xF) }

def opcode (p : Packet) : UInt8 := ((p.flags >>> 11) &&& 0xF).toUInt8

end Packet

/-! The parser. -/

/-- Why a parse fails: the messages of the source's `io::Error`s. -/
inductive ParseError where
  | eof | eofReadingBytes | nameOutOfBounds | ptrOob | pointerLoop | labelOob
  deriving DecidableEq, Repr

abbrev Parser (α : Type) := Reader ParseError α

namespace Parser

def peek : Parser UInt8 := fun buf pos =>
  match buf[pos]? with
  | some b => (.ok b, pos)
  | none => (.error .eof, pos)

def advance (n : Nat) : Parser Unit := fun _ pos => (.ok (), pos + n)

def u8 : Parser UInt8 := do
  let b ← peek
  advance 1
  pure b

def u16 : Parser UInt16 := do
  let hi ← u8
  let lo ← u8
  pure (hi.toUInt16 <<< 8 ||| lo.toUInt16)

def u32 : Parser UInt32 := do
  let hi ← u16
  let lo ← u16
  pure (hi.toUInt32 <<< 16 ||| lo.toUInt32)

def bytes (n : Nat) : Parser Bytes := fun buf pos =>
  if pos + n > buf.length then (.error .eofReadingBytes, pos)
  else (.ok ((buf.drop pos).take n), pos + n)

def remaining : Parser Nat := fun buf pos => (.ok (buf.length - pos), pos)

/-- A label's text: its octets as UTF-8 (a question mark when they are not), in lower case. -/
def labelText (octets : Bytes) : Text := toAsciiLowercase ((fromUtf8 octets).getD ['?'])

/-- The loop of `name`: the labels so far, the position behind the name once a pointer
    has been followed (`selfPos`), the octet under the cursor, and the pointers followed.
    Every pass moves forward or follows a pointer, and only 20 of those are followed, so
    `nameFuel` passes are enough. -/
def nameLoop (buf : Bytes) : Nat → List Text → Nat → Nat → Bool → Nat → Except ParseError (List Text) × Nat
  | 0, _, selfPos, _, _, _ => (.error .pointerLoop, selfPos)
  | fuel + 1, parts, selfPos, pos, jumped, jumps =>
    match buf[pos]? with
    | none => (.error .nameOutOfBounds, selfPos)
    | some b =>
      if b = 0 then (.ok parts, if jumped then selfPos else pos + 1)
      else if b &&& 0xC0 = 0xC0 then
        match buf[pos + 1]? with
        | none => (.error .ptrOob, selfPos)
        | some lo =>
          let selfPos := if jumped then selfPos else pos + 2
          let offset := ((b &&& 0x3F).toNat <<< 8) ||| lo.toNat
          let jumps := jumps + 1
          if jumps > 20 then (.error .pointerLoop, selfPos)
          else nameLoop buf fuel parts selfPos offset true jumps
      else
        let len := b.toNat
        let pos := pos + 1
        let stop := pos + len
        if stop > buf.length then (.error .labelOob, selfPos)
        else nameLoop buf fuel (parts ++ [labelText ((buf.drop pos).take len)]) selfPos stop jumped jumps

def nameFuel (buf : Bytes) : Nat := 21 * (buf.length + 2)

/-- The labels of a name joined by dots, "." when there are none. -/
def joinLabels (parts : List Text) : Text :=
  if parts = [] then ['.'] else ['.'].intercalate parts

def nameParts : Parser (List Text) := fun buf pos => nameLoop buf (nameFuel buf) [] pos pos false 0

def name : Parser Text := do
  let parts ← nameParts
  pure (joinLabels parts)

end Parser

/-! The builder. -/

namespace Builder

def u8 (v : UInt8) : Bytes := [v]
def u16 (v : UInt16) : Bytes := be16 v
def u32 (v : UInt32) : Bytes := be32 v
def raw (v : Bytes) : Bytes := v

/-- A label on the wire: its length (`len() as u8`) and its octets. -/
def label (l : Text) : Bytes := UInt8.ofNat (utf8 l).length :: utf8 l

def name (name : Text) : Bytes :=
  if name = ['.'] ∨ name = [] then u8 0
  else ((trimEndMatches '.' name).splitOn '.').flatMap (fun l => if l = [] then [] else label l) ++ u8 0

def question (q : Question) : Bytes := name q.name ++ u16 q.qtype.toU16 ++ u16 q.qclass

def record (r : Record) : Bytes :=
  name r.name ++ u16 r.rtype.toU16 ++ u16 r.rclass ++ u32 r.ttl ++ u16 (UInt16.ofNat r.rdata.length) ++ raw r.rdata

def opt (udpSize : UInt16) (dnssecOk : Bool) : Bytes :=
  u8 0 ++ u16 41 ++ u16 udpSize ++ u32 (if dnssecOk then 0x8000 else 0) ++ u16 0

end Builder

def serialize (pkt : Packet) (includeEdns : Bool) : Bytes :=
  let arExtra := if includeEdns && pkt.ednsUdpSize > 0 then 1 else 0
  Builder.u16 pkt.id ++ Builder.u16 pkt.flags
    ++ Builder.u16 (UInt16.ofNat pkt.questions.length)
    ++ Builder.u16 (UInt16.ofNat pkt.answers.length)
    ++ Builder.u16 (UInt16.ofNat pkt.authority.length)
    ++ Builder.u16 (UInt16.ofNat (pkt.additional.length + arExtra))
    ++ pkt.questions.flatMap Builder.question
    ++ pkt.answers.flatMap Builder.record
    ++ pkt.authority.flatMap Builder.record
    ++ pkt.additional.flatMap Builder.record
    ++ (if includeEdns && pkt.ednsUdpSize > 0 then Builder.opt pkt.ednsUdpSize pkt.dnssecOk else [])

def canonicalName (name : Text) : Bytes :=
  let lower := toAsciiLowercase name
  let trimmed := trimEndMatches '.' lower
  if trimmed = [] then [0] else (trimmed.splitOn '.').flatMap Builder.label ++ [0]

/-- The name at a position of the packet, whatever the parse of it leaves behind. -/
def nameAt (pktBuf : Bytes) (pos : Nat) : Except ParseError Text := (Parser.name pktBuf pos).1

/-- The fixed fields and names of an SOA's data, read from the packet. -/
def soaFields : Parser (Text × Text × UInt32 × UInt32 × UInt32 × UInt32 × UInt32) := do
  let mname ← Parser.name
  let rname ← Parser.name
  let serial ← Parser.u32
  let refresh ← Parser.u32
  let retry ← Parser.u32
  let expire ← Parser.u32
  let minimum ← Parser.u32
  pure (mname, rname, serial, refresh, retry, expire, minimum)

/-- Record data with the names inside it expanded: they may be compressed against the whole packet. -/
def decompressRdata (pktBuf : Bytes) (rtype : RType) (rdata : Bytes) (rdataOffset : Nat) : Bytes :=
  match rtype with
  | .NS | .CNAME | .PTR =>
    match nameAt pktBuf rdataOffset with
    | .ok name => canonicalName name
    | .error _ => rdata
  | .MX =>
    match rdata with
    | p0 :: p1 :: _ =>
      match nameAt pktBuf (rdataOffset + 2) with
      | .ok name => Builder.u16 (p0.toUInt16 <<< 8 ||| p1.toUInt16) ++ Builder.name name
      | .error _ => rdata
    | _ => rdata
  | .SOA =>
    match (soaFields pktBuf rdataOffset).1 with
    | .ok (mname, rname, serial, refresh, retry, expire, minimum) =>
      Builder.name mname ++ Builder.name rname ++ Builder.u32 serial ++ Builder.u32 refresh
        ++ Builder.u32 retry ++ Builder.u32 expire ++ Builder.u32 minimum
    | .error _ => rdata
  | .SRV =>
    match rdata with
    | a0 :: a1 :: b0 :: b1 :: c0 :: c1 :: _ =>
      match nameAt pktBuf (rdataOffset + 6) with
      | .ok name =>
        Builder.u16 (a0.toUInt16 <<< 8 ||| a1.toUInt16) ++ Builder.u16 (b0.toUInt16 <<< 8 ||| b1.toUInt16)
          ++ Builder.u16 (c0.toUInt16 <<< 8 ||| c1.toUInt16) ++ Builder.name name
      | .error _ => rdata
    | _ => rdata
  | _ => rdata

namespace Parser

def record : Parser Record := do
  let name ← name
  let rtype ← u16
  let rclass ← u16
  let ttl ← u32
  let rdlen ← u16
  let rdataOffset ← Reader.position
  let rdataRaw ← bytes rdlen.toNat
  let buf ← Reader.buffer
  pure { name := name, rtype := .ofU16 rtype, rclass := rclass, ttl := ttl,
         rdata := decompressRdata buf (.ofU16 rtype) rdataRaw rdataOffset }

def question : Parser Question := do
  let name ← name
  let qtype ← u16
  let qclass ← u16
  pure { name := name, qtype := .ofU16 qtype, qclass := qclass }

/-- The EDNS state an additional section carries: the last OPT record decides. -/
def ednsOf (additionalRaw : List Record) : UInt16 × Bool :=
  additionalRaw.foldl
    (fun acc r => if r.rtype = .OPT then (r.rclass, r.ttl &&& 0x8000 != 0) else acc) (0, false)

def parse : Parser Packet := do
  let id ← u16
  let flags ← u16
  let qdcount ← u16
  let ancount ← u16
  let nscount ← u16
  let arcount ← u16
  let questions ← Reader.times qdcount.toNat question
  let answers ← Reader.times ancount.toNat record
  let authority ← Reader.times nscount.toNat record
  let additionalRaw ← Reader.times arcount.toNat record
  pure { id := id, flags := flags, questions := questions, answers := answers, authority := authority,
         additional := additionalRaw.filter (fun r => r.rtype ≠ .OPT),
         ednsUdpSize := (ednsOf additionalRaw).1, dnssecOk := (ednsOf additionalRaw).2 }

def rrsig : Parser Rrsig := do
  let typeCovered ← u16
  let algorithm ← u8
  let labels ← u8
  let origTtl ← u32
  let sigExpiry ← u32
  let sigInception ← u32
  let keyTag ← u16
  let signerName ← name
  let signature ← bytes (← remaining)
  pure { typeCovered, algorithm, labels, origTtl, sigExpiry, sigInception, keyTag, signerName, signature }

def dnskey : Parser Dnskey := do
  let flags ← u16
  let protocol ← u8
  let algorithm ← u8
  let publicKey ← bytes (← remaining)
  pure { flags, protocol, algorithm, publicKey }

def ds : Parser Ds := do
  let keyTag ← u16
  let algorithm ← u8
  let digestType ← u8
  let digest ← bytes (← remaining)
  pure { keyTag, algorithm, digestType, digest }

end Parser

/-- `Parser::new(data).parse()`. -/
def parsePacket (data : Bytes) : Except ParseError Packet := Parser.parse.run data
def parseRrsig (rdata : Bytes) : Except ParseError Rrsig := Parser.rrsig.run rdata
def parseDnskey (rdata : Bytes) : Except ParseError Dnskey := Parser.dnskey.run rdata
def parseDs (rdata : Bytes) : Except ParseError Ds := Parser.ds.run rdata

/-- One step of the checksum: even positions count as high octets, odd ones as low. -/
def keyTagSum : Nat → UInt32 → Bytes → UInt32
  | _, ac, [] => ac
  | i, ac, b :: bs => keyTagSum (i + 1) (ac + if i &&& 1 = 0 then b.toUInt32 <<< 8 else b.toUInt32) bs

/-- The key tag over the raw DNSKEY data. -/
def keyTag (rawRdata : Bytes) : UInt16 :=
  let ac := keyTagSum 0 0 rawRdata
  let ac := ac + (ac >>> 16)
  (ac &&& 0xFFFF).toUInt16

def canonicalRr (r : Record) : Bytes :=
  Builder.name (toAsciiLowercase r.name) ++ Builder.u16 r.rtype.toU16 ++ Builder.u16 r.rclass
    ++ Builder.u32 r.ttl ++ Builder.u16 (UInt16.ofNat r.rdata.length) ++ Builder.raw r.rdata

end Ironbind
