import Ironbind.Lib.Chunks
import Ironbind.Lib.Slice
import Ironbind.Transfer
import Ironbind.ZoneFile

/- DNS over HTTPS (`doh.rs`): one HTTP request per connection, read until its headers are
   complete, and as much of its body as it announces. The connection is what the client
   sends, cut into reads, and whether it breaks off at the end or is closed. Slices of
   text and octets are checked: one out of range, or inside a character, is a panic. The
   base64 decoder of the query string is a parameter. -/
namespace Ironbind
open Codec Chunks

/-! The connection. -/

/-- What the client sends, read by read; after it reading fails, or gives nothing. -/
structure HttpStream where
  reads : List Bytes
  nonempty : ∀ read ∈ reads, read ≠ []
  fails : Bool

/-- The request as the client sent it. -/
def HttpStream.octets (s : HttpStream) : Bytes := s.reads.flatten

def CRLF_CRLF : Bytes := [13, 10, 13, 10]

/-- The position of the first blank line. -/
def findDoubleCrlf : Bytes → Option Nat
  | [] => none
  | b :: rest => if (b :: rest).take 4 = CRLF_CRLF then some 0 else (findDoubleCrlf rest).map (· + 1)

/-- The length of the buffer for the headers. -/
def HEADER_LIMIT : Nat := 8192

/-! The headers. -/

/-- `split("\r\n")`. -/
def splitCrlf : Text → List Text
  | [] => [[]]
  | '\r' :: '\n' :: rest => [] :: splitCrlf rest
  | c :: rest =>
    match splitCrlf rest with
    | [] => [[c]]
    | line :: lines => (c :: line) :: lines

/-- `&s[..n]` and `&s[n..]`. -/
def splitAt (n : Nat) (s : Text) : Except Panic (Text × Text) :=
  match splitOctets n s with
  | some cut => .ok cut
  | none => .error .notCharBoundary

/-- `&b[n..]`. -/
def octetsFrom (n : Nat) (b : Bytes) : Except Panic Bytes :=
  if n ≤ b.length then .ok (b.drop n) else .error .indexOutOfBounds

/-- The value of a header line with the prefix, in any case. -/
def stripHeader (line headerPrefix : Text) : Except Panic (Option Text) :=
  if (utf8 line).length < (utf8 headerPrefix).length then .ok none
  else do
    let (name, value) ← splitAt (utf8 headerPrefix).length line
    pure (if toAsciiLowercase name = toAsciiLowercase headerPrefix then some value else none)

def CONTENT_LENGTH : Text := "content-length:".toList
def CONTENT_TYPE : Text := "content-type:".toList
def DNS_MESSAGE : Text := "application/dns-message".toList

/-- `parse` of a `usize`. -/
def parseUsize (s : Text) : Option Nat := parseUnsigned (2 ^ 64 - 1) s

structure HttpFields where
  contentLength : Nat
  contentType : Text
  deriving DecidableEq, Repr

/-- One header line: the last of each name counts. -/
def headerLine (fields : HttpFields) (line : Text) : Except Panic HttpFields := do
  match ← stripHeader line CONTENT_LENGTH with
  | some value => pure { fields with contentLength := (parseUsize (trim value)).getD 0 }
  | none =>
    match ← stripHeader line CONTENT_TYPE with
    | some value => pure { fields with contentType := toAsciiLowercase (trim value) }
    | none => pure fields

def headerFields (lines : List Text) : Except Panic HttpFields := lines.foldlM headerLine ⟨0, []⟩

/-! The request. -/

/-- What a request comes to: no answer, an error status, or a DNS message. -/
inductive Verdict where
  | closed
  | status (code : Nat) (reason : Text) (oneLine : '\n' ∉ reason)
  | query (dnsMsg : Bytes)
  deriving DecidableEq, Repr

def headersTooLarge : Verdict := .status 431 "Request Header Fields Too Large".toList (by decide)
def badRequest : Verdict := .status 400 "Bad Request".toList (by decide)
def unsupportedMediaType : Verdict := .status 415 "Unsupported Media Type".toList (by decide)
def payloadTooLarge : Verdict := .status 413 "Payload Too Large".toList (by decide)
def notFound : Verdict := .status 404 "Not Found".toList (by decide)

/-- The request line, the first of the header text. -/
def requestLine (headerText : Text) : Text := (splitCrlf headerText).headD []

def method (headerText : Text) : Text := (splitWhitespace (requestLine headerText)).headD []
def target (headerText : Text) : Text := ((splitWhitespace (requestLine headerText))[1]?).getD []

/-- The header lines behind it. -/
def headerLines (headerText : Text) : List Text := (splitCrlf headerText).tail

/-- The first parameter `dns` of a query string. -/
def dnsParam (queryString : Text) : Option Text :=
  (queryString.splitOn '&').findSome? fun kv =>
    if "dns=".toList.isPrefixOf kv then some (kv.drop 4) else none

section
variable (decode : Text → Option Bytes)

/-- What is asked for, with the message of a POST left to be read. -/
def route (headerText : Text) (post : Nat → Except Panic Verdict) : Except Panic Verdict := do
  let fields ← headerFields (headerLines headerText)
  if method headerText = "POST".toList ∧ "/dns-query".toList.isPrefixOf (target headerText) then
    if fields.contentType ≠ DNS_MESSAGE then pure unsupportedMediaType
    else if fields.contentLength > 65535 then pure payloadTooLarge
    else post fields.contentLength
  else if method headerText = "GET".toList ∧ "/dns-query?".toList.isPrefixOf (target headerText) then
    let (_, queryString) ← splitAt (utf8 "/dns-query?".toList).length (target headerText)
    match (dnsParam queryString).bind decode with
    | some dnsMsg => pure (.query dnsMsg)
    | none => pure badRequest
  else pure notFound

/-- The body: what came with the headers, and more until it is complete. -/
def readBody (headerEnd : Nat) (buf : Bytes) (rest : List Bytes) (fails : Bool) (contentLength : Nat) :
    Except Panic Verdict := do
  let already ← octetsFrom (headerEnd + 4) buf
  match gather (fun _ => (none : Option Empty)) contentLength already rest with
  | .full body => pure (.query (body.take contentLength))
  | .ended body => pure (if fails then .closed else .query (body.take contentLength))

/-- `handle_http`, up to what it answers. -/
def readRequest (s : HttpStream) : Except Panic Verdict :=
  match gather findDoubleCrlf HEADER_LIMIT [] s.reads with
  | .ended _ => .ok .closed
  | .full _ => .ok headersTooLarge
  | .found headerEnd buf rest =>
    match fromUtf8 (buf.take headerEnd) with
    | none => .ok badRequest
    | some headerText => route decode headerText (readBody headerEnd buf rest s.fails)

end

/-! The response. -/

structure HttpResponse where
  code : Nat
  reason : Text
  contentType : Option Text
  body : Bytes
  reason_line : '\n' ∉ reason
  type_line : ∀ t ∈ contentType, '\n' ∉ t

def decimal (n : Nat) : Text := Nat.toDigits 10 n

/-- A response as it is sent: it says how long its body is, and that nothing follows. -/
def HttpResponse.bytes (r : HttpResponse) : Bytes :=
  utf8 ("HTTP/1.1 ".toList ++ decimal r.code ++ " ".toList ++ r.reason ++ "\r\n".toList
    ++ (match r.contentType with
      | some t => "Content-Type: ".toList ++ t ++ "\r\n".toList
      | none => [])
    ++ "Content-Length: ".toList ++ decimal r.body.length ++ "\r\nConnection: close\r\n\r\n".toList) ++ r.body

/-- What is written to the connection, one write after the other. -/
def Verdict.writes (answer : Bytes → Option Bytes) : Verdict → List Bytes
  | closed => []
  | status code reason _ =>
    [utf8 ("HTTP/1.1 ".toList ++ decimal code ++ " ".toList ++ reason
      ++ "\r\nContent-Length: 0\r\nConnection: close\r\n\r\n".toList)]
  | query dnsMsg =>
    let respBody := (answer dnsMsg).getD []
    [utf8 ("HTTP/1.1 200 OK\r\nContent-Type: application/dns-message\r\nContent-Length: ".toList
      ++ decimal respBody.length ++ "\r\nConnection: close\r\n\r\n".toList), respBody]

/-- `handle_http`: everything that is written before the connection is closed. -/
def handleHttp {σ : Type} (v : Serving σ) (decode : Text → Option Bytes) (s : HttpStream) : Except Panic Bytes :=
  (readRequest decode s).map fun verdict => (verdict.writes (handleQueryPublic v)).flatten

end Ironbind
