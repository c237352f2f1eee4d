import Ironbind.DohRequests
import Ironbind.LastField

/- An exchange over HTTPS. A message is asked for by a POST that announces its length, or by
   a GET with the message in its query string, and by no other request: which ones these are
   is read off the octets the client sends, however they are cut into reads
   (`readRequest_query_iff`). What is written back is read by a client that knows HTTP and
   not this server: it finds the answer, whole, in a body of the length that is announced
   (`handleHttp_asked`). -/
namespace Ironbind
open Codec Chunks Machine

/-! Lines with a line break between two of them. -/

def joinCrlf (lines : List Text) : Text := ['\r', '\n'].intercalate lines

theorem joinCrlf_singleton (line : Text) : joinCrlf [line] = line := List.intercalate_singleton

theorem joinCrlf_cons_cons (line next : Text) (lines : List Text) :
    joinCrlf (line :: next :: lines) = line ++ (['\r', '\n'] ++ joinCrlf (next :: lines)) :=
  List.intercalate_cons_cons.trans (List.append_assoc _ _ _)

/-- A line that holds something, and no carriage return. -/
def PlainLine (line : Text) : Prop := line ≠ [] ∧ '\r' ∉ line

/-- Lines with a number at the end of the third. -/
theorem joinCrlf_three (line next third digits : Text) : joinCrlf [line, next, third ++ digits] =
    (line ++ (['\r', '\n'] ++ (next ++ (['\r', '\n'] ++ third)))) ++ digits := by
  rw [joinCrlf_cons_cons, joinCrlf_cons_cons, joinCrlf_singleton]
  simp only [List.append_assoc]

theorem joinCrlf_concat (line : Text) : ∀ {lines : List Text}, lines ≠ [] →
    joinCrlf (lines ++ [line]) = joinCrlf lines ++ (['\r', '\n'] ++ line)
  | [], hne => absurd rfl hne
  | [first], _ => by
    rw [joinCrlf_singleton]
    exact (joinCrlf_cons_cons first line []).trans (by rw [joinCrlf_singleton])
  | first :: next :: lines, _ => by
    rw [joinCrlf_cons_cons, List.append_assoc, List.append_assoc, ← joinCrlf_concat line (List.cons_ne_nil next lines)]
    exact joinCrlf_cons_cons first next (lines ++ [line])

theorem splitCrlf_line {line rest first : Text} {lines : List Text} (h : '\r' ∉ line)
    (hrest : splitCrlf rest = first :: lines) : splitCrlf (line ++ rest) = (line ++ first) :: lines := by
  induction line with
  | nil => exact hrest
  | cons c line ih =>
    have hc : c ≠ '\r' := fun he => h (he ▸ List.mem_cons_self)
    rw [List.cons_append, splitCrlf, ih fun hm => h (List.mem_cons_of_mem _ hm)]
    · rfl
    · intro _ he
      exact absurd he hc

theorem splitCrlf_joinCrlf : ∀ {lines : List Text}, lines ≠ [] → (∀ line ∈ lines, '\r' ∉ line) →
    splitCrlf (joinCrlf lines) = lines
  | [], hne, _ => absurd rfl hne
  | [line], _, h => by
    have hline := splitCrlf_line (h line (List.mem_singleton_self line)) (show splitCrlf [] = [[]] from rfl)
    rw [joinCrlf_singleton]
    rwa [List.append_nil] at hline
  | line :: next :: lines, _, h => by
    have hrest : splitCrlf (['\r', '\n'] ++ joinCrlf (next :: lines)) = [] :: next :: lines := by
      show splitCrlf ('\r' :: '\n' :: joinCrlf (next :: lines)) = _
      rw [splitCrlf, splitCrlf_joinCrlf (List.cons_ne_nil _ _) fun l hl => h l (List.mem_cons_of_mem _ hl)]
    rw [joinCrlf_cons_cons, splitCrlf_line (h line List.mem_cons_self) hrest, List.append_nil]

theorem requestLine_joinCrlf {line : Text} {lines : List Text} (h : ∀ l ∈ line :: lines, '\r' ∉ l) :
    requestLine (joinCrlf (line :: lines)) = line ∧ headerLines (joinCrlf (line :: lines)) = lines := by
  rw [requestLine, headerLines, splitCrlf_joinCrlf (List.cons_ne_nil _ _) h]
  exact ⟨rfl, rfl⟩

/-! Where such a text ends. -/

theorem return_of_mem_ascii : ∀ n :
    Fin 128, (13 : UInt8) ∈ String.utf8EncodeChar (Char.ofNat n) → Char.ofNat n = '\r' := by
  decide

theorem return_not_mem_utf8 {t : Text} (h : '\r' ∉ t) : (13 : UInt8) ∉ utf8 t := by
  intro hmem
  obtain ⟨c, hc, hreturn⟩ := List.mem_flatMap.mp hmem
  by_cases hascii : c.val ≤ 127
  · have hof := return_of_mem_ascii ⟨c.toNat, Nat.lt_succ_of_le (UInt32.le_iff_toNat_le.mp hascii)⟩
    rw [Char.ofNat_toNat] at hof
    exact h (hof hreturn ▸ hc)
  · exact absurd (ge_of_mem_utf8EncodeChar hascii _ hreturn) (by decide)

theorem findDoubleCrlf_line {line : Bytes} (h : 13 ∉ line) (rest : Bytes) :
    findDoubleCrlf (line ++ rest) = (findDoubleCrlf rest).map (· + line.length) := by
  induction line with
  | nil => simp
  | cons b line ih =>
    have hstart : ¬ (b :: (line ++ rest)).take 4 = CRLF_CRLF := by
      intro he
      have hb : b = 13 := (List.cons.inj he).1
      exact h (hb ▸ List.mem_cons_self)
    rw [List.cons_append, findDoubleCrlf, if_neg hstart, ih fun hm => h (List.mem_cons_of_mem _ hm), Option.map_map]
    congr 1

/-- A line break with something behind it. -/
theorem findDoubleCrlf_break {b : UInt8} (h : b ≠ 13) (rest : Bytes) :
    findDoubleCrlf (13 :: 10 :: b :: rest) = (findDoubleCrlf (b :: rest)).map (· + 2) := by
  have hstart : ¬ (13 :: 10 :: b :: rest).take 4 = CRLF_CRLF := by
    intro he
    have htail := (List.cons.inj (List.cons.inj he).2).2
    exact h (List.cons.inj htail).1
  have hnewline : ¬ (10 :: b :: rest).take 4 = CRLF_CRLF := by
    intro he
    exact absurd (List.cons.inj he).1 (by decide)
  rw [findDoubleCrlf, if_neg hstart, findDoubleCrlf, if_neg hnewline, Option.map_map]
  rfl

theorem findDoubleCrlf_joinCrlf (body : Bytes) : ∀ {lines : List Text}, lines ≠ [] → (∀ line ∈ lines, PlainLine line) →
    findDoubleCrlf (utf8 (joinCrlf lines) ++ (CRLF_CRLF ++ body)) = some (utf8 (joinCrlf lines)).length
  | [], hne, _ => absurd rfl hne
  | [line], _, h => by
    have hline := return_not_mem_utf8 (h line (List.mem_singleton_self line)).2
    rw [joinCrlf_singleton, findDoubleCrlf_line hline]
    show some (0 + (utf8 line).length) = _
    rw [Nat.zero_add]
  | line :: next :: lines, _, h => by
    have ih := findDoubleCrlf_joinCrlf body (List.cons_ne_nil next lines) fun l hl => h l (List.mem_cons_of_mem _ hl)
    obtain ⟨hne, hnext⟩ := h next (List.mem_cons_of_mem _ List.mem_cons_self)
    obtain ⟨more, hmore⟩ : ∃ more, joinCrlf (next :: lines) = next ++ more := by
      cases lines with
      | nil => exact ⟨[], by rw [joinCrlf_singleton, List.append_nil]⟩
      | cons l lines => exact ⟨_, joinCrlf_cons_cons next l lines⟩
    obtain ⟨b, rest, hb⟩ := List.exists_cons_of_ne_nil (mt utf8_eq_nil.mp hne)
    have hb13 : b ≠ 13 := by
      intro he
      apply return_not_mem_utf8 hnext
      rw [hb, he]
      exact List.mem_cons_self
    have hstart : utf8 (joinCrlf (next :: lines)) ++ (CRLF_CRLF ++ body) =
        b :: (rest ++ (utf8 more ++ (CRLF_CRLF ++ body))) := by
      rw [hmore, utf8_append, hb, List.cons_append, List.cons_append, List.append_assoc]
    have hwhole : utf8 (joinCrlf (line :: next :: lines)) = utf8 line ++
        (13 :: 10 :: utf8 (joinCrlf (next :: lines))) := by
      rw [joinCrlf_cons_cons, utf8_append, utf8_append]
      rfl
    rw [hwhole, List.append_assoc, findDoubleCrlf_line (return_not_mem_utf8 (h line List.mem_cons_self).2),
      List.cons_append, List.cons_append, hstart, findDoubleCrlf_break hb13, ← hstart, ih]
    simp only [Option.map_some, List.length_append, List.length_cons]
    congr 1
    omega

/-! Lengths in text. -/

theorem decimal_digits (n : Nat) : ∀ c ∈ decimal n, c.isDigit = true :=
  fun _ hc => Nat.isDigit_of_mem_toDigits (by decide) (by decide) hc

theorem parseUsize_decimal {n : Nat} (h : n < 2 ^ 64) : parseUsize (decimal n) = some n := by
  have hdigits : unsignedDigits (decimal n) = decimal n := by
    unfold unsignedDigits
    split
    · next rest heq =>
      have hplus := decimal_digits n '+' (heq ▸ List.mem_cons_self)
      exact absurd hplus (by decide)
    · rfl
  have hif : parseUsize (decimal n) =
      if unsignedDigits (decimal n) = [] ∨ !(unsignedDigits (decimal n)).all Char.isDigit then none
      else if (unsignedDigits (decimal n)).foldl (fun n c => n * 10 + (c.toNat - '0'.toNat)) 0 ≤ 2 ^ 64 - 1 then
        some ((unsignedDigits (decimal n)).foldl (fun n c => n * 10 + (c.toNat - '0'.toNat)) 0)
      else none := rfl
  have hall : (decimal n).all Char.isDigit = true := List.all_eq_true.mpr (decimal_digits n)
  have hne : decimal n ≠ [] := Nat.toDigits_ne_nil
  have hvalue : (decimal n).foldl (fun n c => n * 10 + (c.toNat - '0'.toNat)) 0 = n := by
    calc (decimal n).foldl (fun n c => n * 10 + (c.toNat - '0'.toNat)) 0
        = Nat.ofDigitChars 10 (Nat.toDigits 10 n) 0 := by
          congr 1
          funext n c
          rw [Nat.mul_comm]
      _ = n := Nat.ofDigitChars_ten_toDigits
  rw [hif, hdigits, if_neg (by rw [hall]; simpa using hne), hvalue, if_pos (by omega)]

theorem trim_blank {t : Text} (h : ∀ c ∈ t, isWhitespace c = false) : trim (' ' :: t) = t := by
  have hstart : (' ' :: t).dropWhile isWhitespace = t := by
    rw [List.dropWhile_cons_of_pos (by decide)]
    cases t with
    | nil => rfl
    | cons c t => rw [List.dropWhile_cons_of_neg (by rw [h c List.mem_cons_self]; decide)]
  rw [trim, hstart, List.rdropWhile_eq_self_iff]
  intro hne hlast
  rw [h _ (List.getLast_mem hne)] at hlast
  cases hlast

theorem parseUsize_value {n : Nat} (h : n < 2 ^ 64) : parseUsize (trim (' ' :: decimal n)) = some n := by
  have hword : ∀ c ∈ decimal n, isWhitespace c = false := by
    intro c hc
    by_contra hblank
    have hdigit := isWhitespace_not_digit (by simpa using hblank)
    rw [decimal_digits n c hc] at hdigit
    cases hdigit
  rw [trim_blank hword, parseUsize_decimal h]

/-- The headers that say what a message is and how long. -/
def typeLine : Text := "Content-Type: application/dns-message".toList
def lengthLine (n : Nat) : Text := "Content-Length: ".toList ++ decimal n

theorem lengthLine_value (n : Nat) : headerValue CONTENT_LENGTH (lengthLine n) = some (' ' :: decimal n) :=
  headerValue_eq_some.mpr ⟨"Content-Length:".toList, by decide, rfl⟩

theorem lengthLine_plainLine (n : Nat) : PlainLine (lengthLine n) := by
  refine ⟨List.cons_ne_nil _ _, ?_⟩
  intro hmem
  rcases List.mem_append.mp hmem with hname | hdigit
  · exact absurd hname (by decide)
  · exact absurd (decimal_digits n _ hdigit) (by decide)

/-- They are read back, whatever other headers come behind them. -/
theorem declared_back {n : Nat} (h : n < 2 ^ 64) {behind : List Text}
    (hlength : ∀ line ∈ behind, headerValue CONTENT_LENGTH line = none)
    (htype : ∀ line ∈ behind, headerValue CONTENT_TYPE line = none) :
    declaredLength (typeLine :: lengthLine n :: behind) = n ∧
      declaredType (typeLine :: lengthLine n :: behind) = DNS_MESSAGE := by
  have hlast : lastHeader CONTENT_LENGTH (typeLine :: lengthLine n :: behind) = some (' ' :: decimal n) := by
    have hother : headerValue CONTENT_LENGTH typeLine = none := by decide
    rw [lastHeader, List.filterMap_cons, hother, List.filterMap_cons, lengthLine_value,
      List.filterMap_eq_nil_iff.mpr hlength]
    rfl
  have hfirst : lastHeader CONTENT_TYPE (typeLine :: lengthLine n :: behind) = some (' ' :: DNS_MESSAGE) := by
    have hvalue : headerValue CONTENT_TYPE typeLine = some (' ' :: DNS_MESSAGE) := by decide
    rw [lastHeader, List.filterMap_cons, hvalue, List.filterMap_cons, headerValue_type (lengthLine_value n),
      List.filterMap_eq_nil_iff.mpr htype]
    rfl
  rw [declaredLength, declaredType, hlast, hfirst]
  refine ⟨?_, by decide⟩
  show (parseUsize (trim (' ' :: decimal n))).getD 0 = n
  rw [parseUsize_value h]
  rfl

/-! Requests over HTTPS. -/

section
variable (decode : Text → Option Bytes) (request : Bytes) (fails : Bool) (headerText : Text) (body dnsMsg : Bytes)

/-- A POST with the message in its body, all of it unless the client stops sending. -/
structure Posts : Prop where
  method : method headerText = "POST".toList
  accepted : PostAccepted headerText
  whole : fails = true → declaredLength (headerLines headerText) ≤ body.length
  message : dnsMsg = body.take (declaredLength (headerLines headerText))

/-- A GET with the message in its query string. -/
structure Gets : Prop where
  method : method headerText = "GET".toList
  message : ∃ queryString, target headerText = "/dns-query?".toList ++ queryString ∧
    (dnsParam queryString).bind decode = some dnsMsg

/-- The request asks for the message. -/
def AsksFor : Prop :=
  ∃ headerText body, FirstBlankLine request (utf8 headerText) body ∧ (utf8 headerText).length + 4 ≤ HEADER_LIMIT ∧
    (∀ line ∈ headerLines headerText, LineCuts line) ∧
    (Posts fails headerText body dnsMsg ∨ Gets decode headerText dnsMsg)

end

section
variable {decode : Text → Option Bytes} {fails : Bool} {headerText : Text} {body dnsMsg : Bytes}

theorem postVerdict_query_iff {n : Nat} : postVerdict body fails n = .ok (.query dnsMsg) ↔
    (fails = true → n ≤ body.length) ∧ dnsMsg = body.take n := by
  unfold postVerdict
  by_cases hclosed : fails = true ∧ body.length < n
  · rw [if_pos hclosed]
    refine iff_of_false (fun h => by cases h) ?_
    intro h
    have := h.1 hclosed.1
    omega
  · rw [if_neg hclosed]
    constructor
    · intro h
      refine ⟨fun hfails => by_contra fun hlong => hclosed ⟨hfails, by omega⟩, ?_⟩
      exact (Verdict.query.inj (Except.ok.inj h)).symm
    · intro h
      rw [h.2]

theorem route_query_iff (hcuts : ∀ line ∈ headerLines headerText, LineCuts line)
    (hroom : (utf8 headerText).length + 4 ≤ HEADER_LIMIT) :
    route decode headerText (postVerdict body fails) = .ok (.query dnsMsg) ↔
      Posts fails headerText body dnsMsg ∨ Gets decode headerText dnsMsg := by
  have hfields : headerFields (headerLines headerText) =
      .ok ⟨declaredLength (headerLines headerText), declaredType (headerLines headerText)⟩ :=
    (foldlM_agrees _ _ _).mpr ⟨hcuts, by rw [foldl_after]⟩
  rw [route, hfields]
  simp only [bind, Except.bind]
  split
  · next hpost =>
    have hget : ¬ Gets decode headerText dnsMsg := by
      intro hg
      exact absurd (hpost.1.symm.trans hg.method) (by decide)
    rw [or_iff_left hget]
    split
    · next htype => exact iff_of_false (fun h => by cases h) fun hp => htype hp.accepted.type
    · next htype =>
      split
      · next hlong => exact iff_of_false (fun h => by cases h) fun hp => absurd hp.accepted.length (by omega)
      · next hlong =>
        rw [postVerdict_query_iff]
        constructor
        · intro h
          exact ⟨hpost.1, ⟨hroom, hpost.2, not_not.mp htype, by omega⟩, h.1, h.2⟩
        · intro hp
          exact ⟨hp.whole, hp.message⟩
  · next hpost =>
    have hnone : ¬ Posts fails headerText body dnsMsg := fun hp => hpost ⟨hp.method, hp.accepted.path⟩
    rw [or_iff_right hnone]
    split
    · next hget =>
      obtain ⟨queryString, htarget⟩ := List.isPrefixOf_iff_prefix.mp hget.2
      have hcut : splitAt (utf8 "/dns-query?".toList).length (target headerText) =
          .ok ("/dns-query?".toList, queryString) := by
        rw [splitAt, splitOctets_eq_some.mpr ⟨htarget.symm, rfl⟩]
      rw [hcut]
      dsimp only
      constructor
      · intro h
        refine ⟨hget.1, queryString, htarget.symm, ?_⟩
        split at h
        · next hdecode => rw [hdecode, Verdict.query.inj (Except.ok.inj h)]
        · cases h
      · intro hg
        obtain ⟨queryString', htarget', hdecode⟩ := hg.message
        rw [← htarget] at htarget'
        rw [List.append_cancel_left htarget', hdecode]
        rfl
    · next hget =>
      refine iff_of_false (fun h => by cases h) ?_
      intro hg
      obtain ⟨queryString, htarget, -⟩ := hg.message
      exact hget ⟨hg.method, List.isPrefixOf_iff_prefix.mpr ⟨queryString, htarget.symm⟩⟩

/-- **What a request over HTTPS asks for**, however it is cut into reads. -/
theorem readRequest_query_iff (s : HttpStream) :
    readRequest decode s = .ok (.query dnsMsg) ↔ AsksFor decode s.octets s.fails dnsMsg := by
  rw [readRequest_eq]
  constructor
  · intro h
    by_cases hheader : ∃ headerText body, FirstBlankLine s.octets (utf8 headerText) body ∧
        (utf8 headerText).length + 4 ≤ HEADER_LIMIT
    · obtain ⟨headerText, body, hfirst, hroom⟩ := hheader
      rw [judge_of_first hfirst hroom] at h
      have hcuts := (route_ok_iff fun n => ⟨_, rfl⟩).mp ⟨_, h⟩
      exact ⟨headerText, body, hfirst, hroom, hcuts, (route_query_iff hcuts hroom).mp h⟩
    · have hnone : ∀ headerText body, FirstBlankLine s.octets (utf8 headerText) body →
          HEADER_LIMIT < (utf8 headerText).length + 4 := by
        intro headerText body hfirst
        by_contra hroom
        exact hheader ⟨headerText, body, hfirst, by omega⟩
      obtain ⟨verdict, hverdict, hquery⟩ := judge_of_none decode s.fails hnone
      exact absurd (Except.ok.inj (hverdict.symm.trans h)) (hquery dnsMsg)
  · intro h
    obtain ⟨headerText, body, hfirst, hroom, hcuts, hasks⟩ := h
    rw [judge_of_first hfirst hroom]
    exact (route_query_iff hcuts hroom).mpr hasks

end

/-! Responses over HTTPS. -/

/-- What a client takes from a response: the body of a success that is a message of the length it announces. -/
def dohReply (response : Bytes) : Option Bytes :=
  (findDoubleCrlf response).bind fun headerEnd =>
    (fromUtf8 (response.take headerEnd)).bind fun headerText =>
      let body := response.drop (headerEnd + 4)
      if target headerText = "200".toList ∧ declaredType (headerLines headerText) = DNS_MESSAGE ∧
          declaredLength (headerLines headerText) = body.length then
        some body
      else none

def responseLines (n : Nat) : List Text :=
  ["HTTP/1.1 200 OK".toList, typeLine, lengthLine n, "Connection: close".toList]

theorem responseLines_plainLine (n : Nat) : ∀ line ∈ responseLines n, PlainLine line := by
  intro line hline
  simp only [responseLines, List.mem_cons, List.not_mem_nil, or_false] at hline
  rcases hline with rfl | rfl | rfl | rfl
  · exact ⟨by decide, by decide⟩
  · exact ⟨by decide, by decide⟩
  · exact lengthLine_plainLine n
  · exact ⟨by decide, by decide⟩

/-- The response that is written is these lines and the answer. -/
theorem writes_query (answer : Bytes → Option Bytes) (dnsMsg : Bytes) :
    ((Verdict.query dnsMsg).writes answer).flatten =
      utf8 (joinCrlf (responseLines ((answer dnsMsg).getD []).length)) ++ (CRLF_CRLF ++ (answer dnsMsg).getD []) := by
  generalize hbody : (answer dnsMsg).getD [] = body
  have hstart : "HTTP/1.1 200 OK\r\nContent-Type: application/dns-message\r\nContent-Length: ".toList =
      "HTTP/1.1 200 OK".toList ++ (['\r', '\n'] ++ (typeLine ++ (['\r', '\n'] ++ "Content-Length: ".toList))) := by
    decide
  have hend : "\r\nConnection: close\r\n\r\n".toList =
      ['\r', '\n'] ++ ("Connection: close".toList ++ "\r\n\r\n".toList) := by decide
  have htext : "HTTP/1.1 200 OK\r\nContent-Type: application/dns-message\r\nContent-Length: ".toList
      ++ decimal body.length ++ "\r\nConnection: close\r\n\r\n".toList =
        joinCrlf (responseLines body.length) ++ "\r\n\r\n".toList := by
    have hlines : joinCrlf (responseLines body.length) =
        joinCrlf ["HTTP/1.1 200 OK".toList, typeLine, "Content-Length: ".toList ++ decimal body.length] ++
          (['\r', '\n'] ++ "Connection: close".toList) :=
      @joinCrlf_concat "Connection: close".toList ["HTTP/1.1 200 OK".toList, typeLine, lengthLine body.length]
        (List.cons_ne_nil _ _)
    rw [hstart, hend, hlines, joinCrlf_three]
    exact (congrArg _ (List.append_assoc _ _ _).symm).trans (List.append_assoc _ _ _).symm
  simp only [Verdict.writes, hbody, List.flatten_cons, List.flatten_nil, List.append_nil]
  rw [htext, utf8_append, List.append_assoc]
  rfl

theorem dohReply_lines {body : Bytes} (h : body.length < 2 ^ 64) :
    dohReply (utf8 (joinCrlf (responseLines body.length)) ++ (CRLF_CRLF ++ body)) = some body := by
  obtain ⟨hline, hlines⟩ : requestLine (joinCrlf (responseLines body.length)) = "HTTP/1.1 200 OK".toList ∧
      headerLines (joinCrlf (responseLines body.length)) =
        [typeLine, lengthLine body.length, "Connection: close".toList] :=
    requestLine_joinCrlf fun l hl => (responseLines_plainLine _ l hl).2
  have hfind : findDoubleCrlf (utf8 (joinCrlf (responseLines body.length)) ++ (CRLF_CRLF ++ body)) =
      some (utf8 (joinCrlf (responseLines body.length))).length :=
    findDoubleCrlf_joinCrlf body (List.cons_ne_nil _ _) (responseLines_plainLine _)
  have hclose : headerValue CONTENT_LENGTH "Connection: close".toList = none ∧
      headerValue CONTENT_TYPE "Connection: close".toList = none := by decide
  obtain ⟨hlength, htype⟩ := @declared_back body.length h ["Connection: close".toList]
    (fun l hl => by rw [List.mem_singleton.mp hl]; exact hclose.1)
    (fun l hl => by rw [List.mem_singleton.mp hl]; exact hclose.2)
  have hdrop : (utf8 (joinCrlf (responseLines body.length)) ++ (CRLF_CRLF ++ body)).drop
      ((utf8 (joinCrlf (responseLines body.length))).length + 4) = body := by
    rw [← List.append_assoc]
    exact List.drop_left' List.length_append
  have hstatus : target (joinCrlf (responseLines body.length)) = "200".toList := by
    rw [target, hline]
    decide
  rw [dohReply, hfind, Option.bind_some, List.take_left, fromUtf8_utf8, Option.bind_some, hdrop]
  refine if_pos ⟨hstatus, ?_, ?_⟩
  · rw [hlines, htype]
  · rw [hlines, hlength]

/-- A query over HTTPS: the client reads the answer, or a body with nothing in it. -/
theorem handleHttp_asked {σ : Type} (v : Serving σ) {decode : Text → Option Bytes} {s : HttpStream} {dnsMsg : Bytes}
    (hasks : AsksFor decode s.octets s.fails dnsMsg)
    (hroom : ∀ reply, handleQueryPublic v dnsMsg = some reply → reply.length ≤ 65535) :
    ∃ written, handleHttp v decode s = .ok written ∧ dohReply written = some ((handleQueryPublic v dnsMsg).getD []) := by
  refine ⟨((Verdict.query dnsMsg).writes (handleQueryPublic v)).flatten, ?_, ?_⟩
  · rw [handleHttp, (readRequest_query_iff s).mpr hasks]
    rfl
  · rw [writes_query]
    apply dohReply_lines
    cases hreply : handleQueryPublic v dnsMsg with
    | none => decide
    | some reply =>
      have := hroom reply hreply
      show reply.length < 2 ^ 64
      omega

end Ironbind
