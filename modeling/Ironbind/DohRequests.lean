import Ironbind.Doh
import Ironbind.Lib.Machine
import Ironbind.TransferSigning

/- What a request to the DoH listener comes to. It is decided by the octets the client
   sends and by nothing else: a request read in one piece (`judge`) and the same request
   in any number of reads get the same answer (`readRequest_eq`). A request is answered
   with at most one response unless a header line is cut inside a character: the name of
   a header is looked for by its length in octets, at 15 and at 13 (`handleHttp_iff`).
   The message of a POST is as much of what stands behind the first blank line as it
   announces (`splits_agree`). -/
namespace Ironbind
open Codec Chunks Machine

/-! The first blank line. -/

/-- The request has its first blank line behind the header, and then its body. -/
structure FirstBlankLine (request header body : Bytes) : Prop where
  eq : request = header ++ (CRLF_CRLF ++ body)
  first : ∀ before behind, request = before ++ (CRLF_CRLF ++ behind) → header.length ≤ before.length

/-- A blank line that is found is there in full. -/
theorem findDoubleCrlf_bound {b : Bytes} {i : Nat} (hfind : findDoubleCrlf b = some i) : i + 4 ≤ b.length := by
  induction b generalizing i with
  | nil => cases hfind
  | cons x b ih =>
    rw [findDoubleCrlf] at hfind
    split at hfind
    · next hstart =>
      obtain rfl := Option.some.inj hfind
      have hlen : min 4 (x :: b).length = 4 := by rw [← List.length_take, hstart]; rfl
      omega
    · obtain ⟨j, hj, rfl⟩ := Option.map_eq_some_iff.mp hfind
      have hrest := ih hj
      rw [List.length_cons]
      omega

/-- It is found in every longer request. -/
theorem findDoubleCrlf_stable : Stable findDoubleCrlf := by
  intro b more i hfind
  induction b generalizing i with
  | nil => cases hfind
  | cons x b ih =>
    have hlen : 4 ≤ (x :: b).length := (Nat.le_add_left 4 i).trans (findDoubleCrlf_bound hfind)
    have htake : (x :: (b ++ more)).take 4 = (x :: b).take 4 := by
      rw [← List.cons_append, List.take_append_of_le_length hlen]
    rw [findDoubleCrlf] at hfind
    rw [List.cons_append, findDoubleCrlf, htake]
    split at hfind
    · next hstart => rw [if_pos hstart, hfind]
    · next hstart =>
      obtain ⟨j, hj, rfl⟩ := Option.map_eq_some_iff.mp hfind
      rw [if_neg hstart, ih j hj]
      rfl

theorem findDoubleCrlf_first {b : Bytes} {i : Nat} (hfind : findDoubleCrlf b = some i) :
    ∃ header body, FirstBlankLine b header body ∧ header.length = i := by
  induction b generalizing i with
  | nil => cases hfind
  | cons x b ih =>
    rw [findDoubleCrlf] at hfind
    split at hfind
    · next hstart =>
      refine ⟨[], (x :: b).drop 4, ⟨?_, fun _ _ _ => Nat.zero_le _⟩, Option.some.inj hfind⟩
      rw [List.nil_append, ← hstart, List.take_append_drop]
    · next hstart =>
      obtain ⟨j, hj, rfl⟩ := Option.map_eq_some_iff.mp hfind
      obtain ⟨header, body, hfirst, rfl⟩ := ih hj
      refine ⟨x :: header, body, ⟨by rw [hfirst.eq, List.cons_append], ?_⟩, rfl⟩
      intro before behind heq
      cases before with
      | nil => exact absurd (by rw [heq]; rfl) hstart
      | cons y before =>
        have hbefore := hfirst.first before behind (List.cons.inj heq).2
        rw [List.length_cons, List.length_cons]
        omega

theorem findDoubleCrlf_isSome (before behind : Bytes) :
    ∃ i, findDoubleCrlf (before ++ (CRLF_CRLF ++ behind)) = some i := by
  induction before with
  | nil => exact ⟨0, rfl⟩
  | cons x before ih =>
    obtain ⟨i, hi⟩ := ih
    rw [List.cons_append, findDoubleCrlf, hi]
    split
    · exact ⟨0, rfl⟩
    · exact ⟨i + 1, rfl⟩

theorem FirstBlankLine.unique {request header header' body body' : Bytes} (h : FirstBlankLine request header body)
    (h' : FirstBlankLine request header' body') : header = header' ∧ body = body' := by
  have hlen : header.length = header'.length := Nat.le_antisymm (h.first _ _ h'.eq) (h'.first _ _ h.eq)
  obtain ⟨hheader, hrest⟩ := List.append_inj (h.eq.symm.trans h'.eq) hlen
  exact ⟨hheader, List.append_cancel_left hrest⟩

theorem FirstBlankLine.find {request header body : Bytes} (h : FirstBlankLine request header body) :
    findDoubleCrlf request = some header.length := by
  obtain ⟨i, hi⟩ := findDoubleCrlf_isSome header body
  rw [← h.eq] at hi
  obtain ⟨header', body', h', rfl⟩ := findDoubleCrlf_first hi
  rw [hi, (h.unique h').1]

theorem FirstBlankLine.of_find {header body : Bytes}
    (hfind : findDoubleCrlf (header ++ (CRLF_CRLF ++ body)) = some header.length) :
    FirstBlankLine (header ++ (CRLF_CRLF ++ body)) header body := by
  obtain ⟨header', body', h', hlen⟩ := findDoubleCrlf_first hfind
  obtain ⟨rfl, hrest⟩ := List.append_inj h'.eq hlen.symm
  rw [List.append_cancel_left hrest]
  rwa [List.append_cancel_left hrest] at h'

/-- The blank line that is found with so much room is the first, and has room. -/
theorem find_take_iff {request : Bytes} {limit i : Nat} : findDoubleCrlf (request.take limit) = some i ↔
    ∃ header body, FirstBlankLine request header body ∧ header.length = i ∧ header.length + 4 ≤ limit := by
  constructor
  · intro hfind
    have hbound := findDoubleCrlf_bound hfind
    have hwhole := findDoubleCrlf_stable _ (request.drop limit) i hfind
    rw [List.take_append_drop] at hwhole
    obtain ⟨header, body, hfirst, rfl⟩ := findDoubleCrlf_first hwhole
    refine ⟨header, body, hfirst, rfl, ?_⟩
    rw [List.length_take] at hbound
    omega
  · intro h
    obtain ⟨header, body, hfirst, rfl, hroom⟩ := h
    have htake : request.take limit = header ++ (CRLF_CRLF ++ body.take (limit - (header.length + 4))) := by
      have hlen : (header ++ CRLF_CRLF).length = header.length + 4 := List.length_append
      rw [hfirst.eq, ← List.append_assoc, ← List.append_assoc, List.take_append,
        List.take_of_length_le (by omega), hlen]
    obtain ⟨i, hi⟩ := findDoubleCrlf_isSome header (body.take (limit - (header.length + 4)))
    rw [← htake] at hi
    have hwhole := findDoubleCrlf_stable _ (request.drop limit) i hi
    rw [List.take_append_drop, hfirst.find] at hwhole
    rw [hi, hwhole]

/-! The request in one piece. -/

section
variable (decode : Text → Option Bytes)

/-- The message of a POST, from everything that stands behind the blank line. -/
def postVerdict (body : Bytes) (fails : Bool) (contentLength : Nat) : Except Panic Verdict :=
  .ok (if fails ∧ body.length < contentLength then .closed else .query (body.take contentLength))

/-- The answer to a request, from all of its octets. -/
def judge (request : Bytes) (fails : Bool) : Except Panic Verdict :=
  match findDoubleCrlf (request.take HEADER_LIMIT) with
  | none => .ok (if HEADER_LIMIT ≤ request.length then headersTooLarge else .closed)
  | some headerEnd =>
    match fromUtf8 (request.take headerEnd) with
    | none => .ok badRequest
    | some headerText => route decode headerText (postVerdict (request.drop (headerEnd + 4)) fails)

variable {decode}

/-- The body that is read is the one that was sent, wherever the headers were cut off from it. -/
theorem readBody_eq {request buf : Bytes} {rest : List Bytes} {headerEnd : Nat} (hseen : buf ++ rest.flatten = request)
    (hfind : findDoubleCrlf buf = some headerEnd) (fails : Bool) :
    readBody headerEnd buf rest fails = postVerdict (request.drop (headerEnd + 4)) fails := by
  funext contentLength
  have hroom := findDoubleCrlf_bound hfind
  have hbody : request.drop (headerEnd + 4) = buf.drop (headerEnd + 4) ++ rest.flatten := by
    rw [← hseen, List.drop_append_of_le_length hroom]
  have hslice : octetsFrom (headerEnd + 4) buf = .ok (buf.drop (headerEnd + 4)) := if_pos hroom
  rw [readBody, hslice, postVerdict, hbody]
  obtain ⟨hlong, filled, hgather, htake⟩ | ⟨hshort, hgather⟩ :=
    gather_nothing contentLength (buf.drop (headerEnd + 4)) rest
  · rw [if_neg (by omega), ← htake]
    simp only [bind, Except.bind, hgather]
    rfl
  · simp only [bind, Except.bind, hgather, hshort, and_true]
    rfl

/-- **A request in any number of reads is answered as in one piece.** -/
theorem readRequest_eq (s : HttpStream) : readRequest decode s = judge decode s.octets s.fails := by
  have hends : Ends findDoubleCrlf HEADER_LIMIT s.octets (gather findDoubleCrlf HEADER_LIMIT [] s.reads) :=
    gather_ends findDoubleCrlf HEADER_LIMIT s.reads [] (Nat.zero_le _)
  rw [readRequest, judge]
  cases hfind : findDoubleCrlf (s.octets.take HEADER_LIMIT) with
  | none =>
    rw [hends.of_none findDoubleCrlf_stable hfind]
    by_cases hlong : HEADER_LIMIT ≤ s.octets.length
    · rw [if_pos hlong, if_pos hlong]
    · rw [if_neg hlong, if_neg hlong]
  | some headerEnd =>
    obtain ⟨buf, rest, hgather, hseen, hfound⟩ := hends.of_some findDoubleCrlf_stable hfind
    have hheader : s.octets.take headerEnd = buf.take headerEnd := by
      rw [← hseen, List.take_append_of_le_length ((Nat.le_add_right _ 4).trans (findDoubleCrlf_bound hfound))]
    rw [hgather]
    dsimp only
    rw [hheader]
    cases fromUtf8 (buf.take headerEnd) with
    | none => rfl
    | some headerText =>
      dsimp only
      rw [readBody_eq hseen hfound]

end

/-! The header lines. -/

/-- A text of so many octets has a character's end there. -/
def CutAt (n : Nat) (line : Text) : Prop :=
  n ≤ (utf8 line).length → ∃ front back, line = front ++ back ∧ (utf8 front).length = n

/-- What stands behind the name of the header, in any case. -/
def headerValue (name line : Text) : Option Text :=
  if name.isPrefixOf (toAsciiLowercase line) then some (line.drop name.length) else none

theorem headerValue_eq_some {name line value : Text} : headerValue name line = some value ↔
    ∃ front, toAsciiLowercase front = name ∧ line = front ++ value := by
  constructor
  · intro h
    unfold headerValue at h
    split at h
    · next hprefix =>
      refine ⟨line.take name.length, ?_, ?_⟩
      · rw [toAsciiLowercase, List.map_take]
        exact (List.prefix_iff_eq_take.mp (List.isPrefixOf_iff_prefix.mp hprefix)).symm
      · rw [← Option.some.inj h, List.take_append_drop]
    · cases h
  · intro h
    obtain ⟨front, rfl, rfl⟩ := h
    have hprefix : (toAsciiLowercase front).isPrefixOf (toAsciiLowercase (front ++ value)) = true := by
      rw [toAsciiLowercase_append]
      exact List.isPrefixOf_iff_prefix.mpr (List.prefix_append _ _)
    rw [headerValue, if_pos hprefix, toAsciiLowercase, List.length_map, List.drop_left]

/-- The line is sliced at the length of the name, and then compared with it. -/
theorem stripHeader_agrees {name : Text} (hname : toAsciiLowercase name = name) (line : Text) :
    Agrees (CutAt (utf8 name).length line) (stripHeader line name) (.ok (headerValue name line) : Except Panic _) := by
  unfold stripHeader splitAt
  rw [hname]
  by_cases hshort : (utf8 line).length < (utf8 name).length
  · have hnone : headerValue name line = none := by
      apply Option.eq_none_iff_forall_ne_some.mpr
      intro value hvalue
      obtain ⟨front, hfront, rfl⟩ := headerValue_eq_some.mp hvalue
      rw [← hfront, utf8_length_lower, utf8_append, List.length_append] at hshort
      omega
    rw [if_pos hshort, hnone]
    refine (Agrees.ok none).congr ⟨fun _ hlong => absurd hlong (by omega), fun _ => trivial⟩
  · rw [if_neg hshort]
    cases hcut : splitOctets (utf8 name).length line with
    | none =>
      have hinside : ¬ CutAt (utf8 name).length line := by
        intro h
        obtain ⟨front, back, hline, hlen⟩ := h (by omega)
        rw [splitOctets_eq_some.mpr ⟨hline, hlen⟩] at hcut
        cases hcut
      intro value
      constructor
      · intro h
        cases h
      · intro h
        exact absurd h.1 hinside
    | some cut =>
      obtain ⟨front, back⟩ := cut
      obtain ⟨hline, hlen⟩ := splitOctets_eq_some.mp hcut
      have hvalue : headerValue name line = if toAsciiLowercase front = name then some back else none := by
        split
        · next hfront => exact headerValue_eq_some.mpr ⟨front, hfront, hline⟩
        · next hfront =>
          apply Option.eq_none_iff_forall_ne_some.mpr
          intro value hvalue
          obtain ⟨front', hfront', hline'⟩ := headerValue_eq_some.mp hvalue
          -- both are as many octets of the line
          have hlen' : (utf8 front').length = (utf8 name).length := by rw [← hfront', utf8_length_lower]
          rw [splitOctets_eq_some.mpr ⟨hline', hlen'⟩] at hcut
          cases hcut
          exact hfront hfront'
      rw [hvalue]
      exact (Agrees.ok _).congr ⟨fun _ _ => ⟨front, back, hline, hlen⟩, fun _ => trivial⟩

/-- A line with the header can be cut within its name. -/
theorem cutAt_of_headerValue {name line value : Text} (h : headerValue name line = some value) {k : Nat}
    {n : Nat} (hk : (utf8 (name.take k)).length = n) : CutAt n line := by
  intro _
  obtain ⟨front, rfl, rfl⟩ := headerValue_eq_some.mp h
  refine ⟨front.take k, front.drop k ++ value, by rw [← List.append_assoc, List.take_append_drop], ?_⟩
  rw [← hk, ← utf8_length_lower, toAsciiLowercase, toAsciiLowercase, List.map_take]

/-- The fields behind a header line that is not cut inside a character. -/
def HttpFields.after (fields : HttpFields) (line : Text) : HttpFields :=
  match headerValue CONTENT_LENGTH line with
  | some value => { fields with contentLength := (parseUsize (trim value)).getD 0 }
  | none =>
    match headerValue CONTENT_TYPE line with
    | some value => { fields with contentType := toAsciiLowercase (trim value) }
    | none => fields

/-- The line is cut at the lengths of both names. -/
def LineCuts (line : Text) : Prop := CutAt 15 line ∧ CutAt 13 line

theorem headerLine_agrees (fields : HttpFields) (line : Text) :
    Agrees (LineCuts line) (headerLine fields line) (.ok (fields.after line) : Except Panic _) := by
  have hlength : toAsciiLowercase CONTENT_LENGTH = CONTENT_LENGTH := by decide
  have htype : toAsciiLowercase CONTENT_TYPE = CONTENT_TYPE := by decide
  unfold headerLine HttpFields.after
  have hlengths := stripHeader_agrees hlength line
  have htypes := stripHeader_agrees htype line
  cases hvalue : headerValue CONTENT_LENGTH line with
  | some value =>
    rw [hvalue] at hlengths
    -- the name is ASCII, so that the line can be cut inside it
    have hcut : CutAt 13 line := cutAt_of_headerValue (k := 13) hvalue (by decide)
    refine Agrees.congr (P := CutAt 15 line ∧ True) ?_ ⟨fun h => ⟨h.1, hcut⟩, fun h => ⟨h.1, trivial⟩⟩
    exact hlengths.bind_ok (Agrees.ok _)
  | none =>
    rw [hvalue] at hlengths
    apply hlengths.bind_ok
    refine Agrees.congr (P := CutAt 13 line ∧ True) ?_ (and_iff_left trivial)
    cases hvalue' : headerValue CONTENT_TYPE line with
    | some value =>
      rw [hvalue'] at htypes
      exact htypes.bind_ok (Agrees.ok _)
    | none =>
      rw [hvalue'] at htypes
      exact htypes.bind_ok (Agrees.ok _)

theorem foldlM_agrees : ∀ (lines : List Text) (fields : HttpFields),
    Agrees (∀ line ∈ lines, LineCuts line) (lines.foldlM headerLine fields)
      (.ok (lines.foldl HttpFields.after fields) : Except Panic _)
  | [], fields => (Agrees.ok fields).congr ⟨fun _ _ h => absurd h List.not_mem_nil, fun _ => trivial⟩
  | line :: lines, fields => by
    rw [List.foldlM_cons, List.foldl_cons]
    have hrest := foldlM_agrees lines (fields.after line)
    exact ((headerLine_agrees fields line).bind_ok hrest).congr List.forall_mem_cons.symm

/-! Requests that are answered. -/

/-- Where the first blank line comes in time, behind text, all header lines of the text can be cut. -/
def Sliceable (request : Bytes) : Prop :=
  ∀ headerText body, FirstBlankLine request (utf8 headerText) body → (utf8 headerText).length + 4 ≤ HEADER_LIMIT →
    ∀ line ∈ headerLines headerText, LineCuts line

section
variable {decode : Text → Option Bytes} {request body : Bytes} {headerText : Text} {fails : Bool}

/-- Only the header lines can fail: the target is cut behind the path that it starts with. -/
theorem route_ok_iff {post : Nat → Except Panic Verdict} (hpost : ∀ n, ∃ verdict, post n = .ok verdict) :
    (∃ verdict, route decode headerText post = .ok verdict) ↔ ∀ line ∈ headerLines headerText, LineCuts line := by
  have hagrees := foldlM_agrees (headerLines headerText) ⟨0, []⟩
  unfold route headerFields
  cases hfields : (headerLines headerText).foldlM headerLine ⟨0, []⟩ with
  | error e =>
    constructor
    · intro h
      obtain ⟨verdict, h⟩ := h
      cases h
    · intro hcuts
      rw [(hagrees _).mpr ⟨hcuts, rfl⟩] at hfields
      cases hfields
  | ok fields =>
    refine iff_of_true ?_ ((hagrees fields).mp hfields).1
    simp only [bind, Except.bind]
    split
    · split
      · exact ⟨unsupportedMediaType, rfl⟩
      · split
        · exact ⟨payloadTooLarge, rfl⟩
        · exact hpost _
    · split
      · next hget =>
        obtain ⟨queryString, htarget⟩ := List.isPrefixOf_iff_prefix.mp hget.2
        have hcut : splitAt (utf8 "/dns-query?".toList).length (target headerText) =
            .ok ("/dns-query?".toList, queryString) := by
          rw [splitAt, splitOctets_eq_some.mpr ⟨htarget.symm, rfl⟩]
        rw [hcut]
        dsimp only
        split
        · next dnsMsg hdecode => exact ⟨.query dnsMsg, rfl⟩
        · exact ⟨badRequest, rfl⟩
      · exact ⟨notFound, rfl⟩

theorem judge_of_first (hfirst : FirstBlankLine request (utf8 headerText) body)
    (hroom : (utf8 headerText).length + 4 ≤ HEADER_LIMIT) :
    judge decode request fails = route decode headerText (postVerdict body fails) := by
  have hfind := find_take_iff.mpr ⟨_, _, hfirst, rfl, hroom⟩
  have hheader : request.take (utf8 headerText).length = utf8 headerText := by rw [hfirst.eq, List.take_left]
  have hbody : request.drop ((utf8 headerText).length + 4) = body := by
    rw [hfirst.eq, ← List.append_assoc]
    exact List.drop_left' List.length_append
  rw [judge, hfind]
  dsimp only
  rw [hheader, fromUtf8_utf8]
  dsimp only
  rw [hbody]

/-- A request without such a header text is closed or refused. -/
theorem judge_of_none (decode : Text → Option Bytes) (fails : Bool)
    (hnone : ∀ headerText body, FirstBlankLine request (utf8 headerText) body →
      HEADER_LIMIT < (utf8 headerText).length + 4) :
    ∃ verdict, judge decode request fails = .ok verdict ∧ ∀ dnsMsg, verdict ≠ .query dnsMsg := by
  unfold judge
  cases hfind : findDoubleCrlf (request.take HEADER_LIMIT) with
  | none =>
    refine ⟨_, rfl, ?_⟩
    intro dnsMsg h
    split at h <;> cases h
  | some headerEnd =>
    obtain ⟨header, body, hfirst, rfl, hroom⟩ := find_take_iff.mp hfind
    have htake : request.take header.length = header := by rw [hfirst.eq, List.take_left]
    dsimp only
    rw [htake]
    cases htext : fromUtf8 header with
    | none => exact ⟨badRequest, rfl, fun dnsMsg h => by cases h⟩
    | some headerText =>
      rw [← utf8_fromUtf8 htext] at hfirst hroom
      exact absurd (hnone headerText body hfirst) (by omega)

theorem judge_ok_iff (decode : Text → Option Bytes) (fails : Bool) :
    (∃ verdict, judge decode request fails = .ok verdict) ↔ Sliceable request := by
  by_cases h : ∃ headerText body, FirstBlankLine request (utf8 headerText) body ∧
      (utf8 headerText).length + 4 ≤ HEADER_LIMIT
  · obtain ⟨headerText, body, hfirst, hroom⟩ := h
    have hpost : ∀ n, ∃ verdict, postVerdict body fails n = .ok verdict := fun n => ⟨_, rfl⟩
    rw [judge_of_first hfirst hroom, route_ok_iff hpost]
    constructor
    · intro hcuts headerText' body' hfirst' _
      rw [← utf8_injective (hfirst.unique hfirst').1]
      exact hcuts
    · intro hsliceable
      exact hsliceable headerText body hfirst hroom
  · push Not at h
    obtain ⟨verdict, hverdict, -⟩ := judge_of_none decode fails h
    refine iff_of_true ⟨verdict, hverdict⟩ ?_
    intro headerText body hfirst hroom
    exact absurd (h headerText body hfirst) (by omega)

/-- What is written is nothing, or one response. -/
theorem Verdict.writes_response (answer : Bytes → Option Bytes) (verdict : Verdict) :
    (verdict.writes answer).flatten = [] ∨ ∃ r : HttpResponse, (verdict.writes answer).flatten = r.bytes := by
  cases verdict with
  | closed => exact .inl rfl
  | status code reason hline =>
    refine .inr ⟨⟨code, reason, none, [], hline, fun t ht => by cases ht⟩, ?_⟩
    have hend : "\r\nContent-Length: 0\r\nConnection: close\r\n\r\n".toList = "\r\n".toList ++ ([] ++
        ("Content-Length: ".toList ++ (decimal 0 ++ "\r\nConnection: close\r\n\r\n".toList))) := by decide
    simp only [writes, HttpResponse.bytes, hend, List.flatten_cons, List.flatten_nil, List.append_assoc, List.length_nil]
  | query dnsMsg =>
    refine .inr ⟨⟨200, "OK".toList, some DNS_MESSAGE, (answer dnsMsg).getD [], by decide, ?_⟩, ?_⟩
    · intro t ht
      cases ht
      decide
    · have hstart : "HTTP/1.1 200 OK\r\nContent-Type: application/dns-message\r\nContent-Length: ".toList =
          "HTTP/1.1 ".toList ++ (decimal 200 ++ (" ".toList ++ ("OK".toList ++ ("\r\n".toList ++
            ("Content-Type: ".toList ++ (DNS_MESSAGE ++ ("\r\n".toList ++ "Content-Length: ".toList))))))) := by decide
      simp only [writes, HttpResponse.bytes, hstart, List.flatten_cons, List.flatten_nil, List.append_assoc,
        List.append_nil]

/-- **A request is answered with one response, or the connection is closed**, exactly when no header
    line is cut inside a character. -/
theorem handleHttp_iff {σ : Type} (v : Serving σ) (decode : Text → Option Bytes) (s : HttpStream) :
    (∃ written, handleHttp v decode s = .ok written ∧ (written = [] ∨ ∃ r : HttpResponse, written = r.bytes)) ↔
      Sliceable s.octets := by
  rw [handleHttp, readRequest_eq, ← judge_ok_iff decode s.fails]
  constructor
  · intro h
    obtain ⟨written, hwritten, -⟩ := h
    cases hverdict : judge decode s.octets s.fails with
    | error e =>
      rw [hverdict] at hwritten
      cases hwritten
    | ok verdict => exact ⟨verdict, rfl⟩
  · intro h
    obtain ⟨verdict, hverdict⟩ := h
    rw [hverdict]
    exact ⟨_, rfl, verdict.writes_response (handleQueryPublic v)⟩

end

/-- The header line has its octet 15 inside the last letter. -/
def accented : Text := "GET / HTTP/1.1\r\nX-Client-Name:é".toList

def accentedRequest : HttpStream where
  reads := [utf8 accented ++ (CRLF_CRLF ++ [])]
  nonempty := by decide
  fails := false

theorem accentedRequest_panics :
    handleHttp (xServing plainKey) (fun _ => none) accentedRequest = .error .notCharBoundary := by
  have hfind : findDoubleCrlf (utf8 accented ++ (CRLF_CRLF ++ [])) = some (utf8 accented).length := by decide
  have hfirst : FirstBlankLine accentedRequest.octets (utf8 accented) [] := by
    rw [HttpStream.octets, accentedRequest, List.flatten_singleton]
    exact .of_find hfind
  have hfields : headerFields (headerLines accented) = .error .notCharBoundary := by decide
  rw [handleHttp, readRequest_eq, judge_of_first hfirst (by decide), route, hfields]
  rfl

/-! The message of a POST. -/

/-- The last header of the name among the lines. -/
def lastHeader (name : Text) (lines : List Text) : Option Text := (lines.filterMap (headerValue name)).getLast?

def declaredLength (lines : List Text) : Nat :=
  ((lastHeader CONTENT_LENGTH lines).bind fun value => parseUsize (trim value)).getD 0

def declaredType (lines : List Text) : Text :=
  ((lastHeader CONTENT_TYPE lines).map fun value => toAsciiLowercase (trim value)).getD []

theorem lastHeader_concat (name line : Text) (lines : List Text) :
    lastHeader name (lines ++ [line]) = (headerValue name line).or (lastHeader name lines) := by
  rw [lastHeader, lastHeader, List.filterMap_append, List.getLast?_append, List.filterMap_cons, List.filterMap_nil]
  cases headerValue name line <;> rfl

/-- The names of the two headers differ in their ninth letter. -/
theorem headerValue_type {line value : Text} (h : headerValue CONTENT_LENGTH line = some value) :
    headerValue CONTENT_TYPE line = none := by
  obtain ⟨front, hfront, rfl⟩ := headerValue_eq_some.mp h
  apply Option.eq_none_iff_forall_ne_some.mpr
  intro value' h'
  obtain ⟨front', hfront', heq⟩ := headerValue_eq_some.mp h'
  have hlower := congrArg toAsciiLowercase heq
  rw [toAsciiLowercase_append, toAsciiLowercase_append, hfront, hfront'] at hlower
  have htake := congrArg (List.take 9) hlower
  rw [List.take_append_of_le_length (by decide), List.take_append_of_le_length (by decide)] at htake
  exact absurd htake (by decide)

/-- The last header of each name counts. -/
theorem foldl_after (lines : List Text) :
    lines.foldl HttpFields.after ⟨0, []⟩ = ⟨declaredLength lines, declaredType lines⟩ := by
  induction lines using List.reverseRecOn with
  | nil => rfl
  | append_singleton lines line ih =>
    rw [List.foldl_append, ih, List.foldl_cons, List.foldl_nil, HttpFields.after, declaredLength, declaredLength,
      declaredType, declaredType, lastHeader_concat, lastHeader_concat]
    cases hlength : headerValue CONTENT_LENGTH line with
    | some value => rw [headerValue_type hlength]; rfl
    | none => cases headerValue CONTENT_TYPE line <;> rfl

/-- A POST whose message is taken up. -/
structure PostAccepted (headerText : Text) : Prop where
  room : (utf8 headerText).length + 4 ≤ HEADER_LIMIT
  path : "/dns-query".toList.isPrefixOf (target headerText) = true
  type : declaredType (headerLines headerText) = DNS_MESSAGE
  length : declaredLength (headerLines headerText) ≤ 65535

section
variable {decode : Text → Option Bytes} {headerText : Text} {body : Bytes} {verdict : Verdict}

theorem route_post (hcuts : ∀ line ∈ headerLines headerText, LineCuts line)
    (hpost : method headerText = "POST".toList) (hroom : (utf8 headerText).length + 4 ≤ HEADER_LIMIT)
    (hverdict : route decode headerText (postVerdict body false) = .ok verdict) (dnsMsg : Bytes) :
    verdict = .query dnsMsg ↔
      PostAccepted headerText ∧ dnsMsg = body.take (declaredLength (headerLines headerText)) := by
  have hfields : headerFields (headerLines headerText) =
      .ok ⟨declaredLength (headerLines headerText), declaredType (headerLines headerText)⟩ :=
    (foldlM_agrees _ _ _).mpr ⟨hcuts, by rw [foldl_after]⟩
  have hget : ¬ ("POST".toList = "GET".toList ∧ "/dns-query?".toList.isPrefixOf (target headerText) = true) := by
    intro h
    exact absurd h.1 (by decide)
  rw [route, hfields] at hverdict
  simp only [bind, Except.bind, hpost, true_and, if_neg hget] at hverdict
  split at hverdict
  · next hpath =>
    split at hverdict
    · next htype =>
      obtain rfl := Except.ok.inj hverdict
      exact iff_of_false (fun h => by cases h) (fun h => htype h.1.type)
    · next htype =>
      split at hverdict
      · next hlength =>
        obtain rfl := Except.ok.inj hverdict
        exact iff_of_false (fun h => by cases h) (fun h => absurd h.1.length (by omega))
      · next hlength =>
        obtain rfl := Except.ok.inj hverdict
        have haccepted : PostAccepted headerText := ⟨hroom, hpath, not_not.mp htype, by omega⟩
        rw [if_neg (by simp)]
        constructor
        · intro h
          exact ⟨haccepted, (Verdict.query.inj h).symm⟩
        · intro h
          rw [h.2]
  · next hpath =>
    obtain rfl := Except.ok.inj hverdict
    exact iff_of_false (fun h => by cases h) (fun h => hpath h.1.path)

end

/-- **However a request is split into reads, it comes to the same**, and the message of a POST is as much
    of what stands behind the first blank line as it announces. -/
theorem splits_agree (decode : Text → Option Bytes) {s s' : HttpStream} (hsame : s.octets = s'.octets)
    (hend : s.fails = false) (hend' : s'.fails = false) (hsliceable : Sliceable s.octets) :
    ∃ verdict, readRequest decode s = .ok verdict ∧ readRequest decode s' = .ok verdict ∧
      ∀ headerText body, FirstBlankLine s.octets (utf8 headerText) body → method headerText = "POST".toList →
        declaredLength (headerLines headerText) ≤ body.length → ∀ dnsMsg, verdict = .query dnsMsg ↔
          PostAccepted headerText ∧ dnsMsg <+: body ∧ dnsMsg.length = declaredLength (headerLines headerText) := by
  obtain ⟨verdict, hverdict⟩ := (judge_ok_iff decode false).mpr hsliceable
  refine ⟨verdict, by rw [readRequest_eq, hend, hverdict], by rw [readRequest_eq, hend', ← hsame, hverdict], ?_⟩
  intro headerText body hfirst hpost hsufficient dnsMsg
  by_cases hroom : (utf8 headerText).length + 4 ≤ HEADER_LIMIT
  · rw [judge_of_first hfirst hroom] at hverdict
    have hmessage : dnsMsg = body.take (declaredLength (headerLines headerText)) ↔
        dnsMsg <+: body ∧ dnsMsg.length = declaredLength (headerLines headerText) := by
      constructor
      · intro h
        rw [h]
        exact ⟨List.take_prefix _ _, List.length_take_of_le hsufficient⟩
      · intro h
        rw [← h.2]
        exact List.prefix_iff_eq_take.mp h.1
    rw [route_post (hsliceable _ _ hfirst hroom) hpost hroom hverdict, hmessage]
  · have hnone : ∀ text rest, FirstBlankLine s.octets (utf8 text) rest → HEADER_LIMIT < (utf8 text).length + 4 := by
      intro text rest h
      rw [(h.unique hfirst).1]
      omega
    obtain ⟨verdict', hverdict', hquery⟩ := judge_of_none decode false hnone
    obtain rfl := Except.ok.inj (hverdict'.symm.trans hverdict)
    exact iff_of_false (hquery dnsMsg) (fun h => hroom h.1.room)

/-- A POST of three octets, with two more behind them. -/
def postText : Text :=
  "POST /dns-query HTTP/1.1\r\nContent-Type: application/dns-message\r\ncontent-length: 3".toList

def postOctets : Bytes := utf8 postText ++ (CRLF_CRLF ++ [1, 2, 3, 4, 5])

/-- In one piece. -/
def postWhole : HttpStream := ⟨[postOctets], by decide, false⟩

/-- Cut within the blank line and within the message. -/
def postSplit : HttpStream :=
  ⟨[postOctets.take 84, (postOctets.drop 84).take 4, (postOctets.drop 84).drop 4], by decide, false⟩

theorem postOctets_first : FirstBlankLine postOctets (utf8 postText) [1, 2, 3, 4, 5] := by
  have hfind : findDoubleCrlf (utf8 postText ++ (CRLF_CRLF ++ [1, 2, 3, 4, 5])) = some (utf8 postText).length := by
    decide
  exact .of_find hfind

theorem postText_fields : headerFields (headerLines postText) = .ok ⟨3, DNS_MESSAGE⟩ := by decide

theorem postOctets_sliceable : Sliceable postOctets := by
  intro headerText body hfirst _
  rw [utf8_injective (hfirst.unique postOctets_first).1]
  exact ((foldlM_agrees _ _ _).mp postText_fields).1

theorem postSplit_read : readRequest (fun _ => none) postWhole = .ok (.query [1, 2, 3]) ∧
    readRequest (fun _ => none) postSplit = .ok (.query [1, 2, 3]) := by
  have hwhole : postWhole.octets = postOctets := List.flatten_singleton
  have hsplit : postSplit.octets = postOctets := by
    simp only [HttpStream.octets, postSplit, List.flatten_cons, List.flatten_nil, List.append_nil, List.take_append_drop]
  obtain ⟨verdict, hread, hread', hmessage⟩ :=
    splits_agree (fun _ => none) (hwhole.trans hsplit.symm) rfl rfl (by rw [hwhole]; exact postOctets_sliceable)
  have hdeclared := Except.ok.inj ((foldlM_agrees _ _ _).mp postText_fields).2
  rw [foldl_after] at hdeclared
  obtain ⟨hlength, htype⟩ := HttpFields.mk.inj hdeclared
  have haccepted : PostAccepted postText := ⟨by decide, by decide, htype, by omega⟩
  rw [hwhole] at hmessage
  have hquery := (hmessage postText _ postOctets_first (by decide) (by rw [hlength]; decide) [1, 2, 3]).mpr
    ⟨haccepted, ⟨[4, 5], rfl⟩, hlength.symm⟩
  rw [hread, hread', hquery]
  exact ⟨rfl, rfl⟩

end Ironbind
