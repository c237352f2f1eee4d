import Ironbind.StrictRuns
import Ironbind.RrsetAcceptance

/- Validation without strict mode, of answers with several RRsets. `handle_query` hands
   the whole answer section to `validate_rrset` as one set, with all its signatures, and
   the first of them that is answered decides. Where every RRset of the section is validly
   signed, the client is spared SERVFAIL exactly when that first signature verifies over
   the section as a whole (`handleQuery_servfails_iff`); a signed CNAME with its signed
   target is refused (`signedAlias_servfails`). -/
namespace Ironbind
open Codec FirstMatch

/-! Answers whose RRsets are signed. -/

/-- The records of the answer with the owner and the type of `r`. -/
def answerSet (upstream : Packet) (r : Record) : List Record :=
  upstream.answers.filter fun r' => zoneLabels r'.name = zoneLabels r.name ∧ r'.rtype = r.rtype

/-- `sigRec` is a valid signature of the set by `key`: it parses, is in its time, has the key's tag and
    algorithm, meets every condition on records, signature and key, and verifies. -/
structure ValidSignature (c : Crypto) (now : Nat) (rrset : List Record) (sigRec key : Record) : Prop where
  eligible : candidate now sigRec key
  verifies : verification c rrset sigRec key = some true
  meets : ∀ rrsig dnskey, parseRrsig sigRec.rdata = .ok rrsig → parseDnskey key.rdata = .ok dnskey →
    ∀ condition : Condition, condition.Holds rrset sigRec rrsig key dnskey

/-- Every RRset of the answer is validly signed by one of the keys present. -/
def AnswerSigned (c : Crypto) (now : Nat) (upstream : Packet) : Prop :=
  ∀ r ∈ upstream.answers, r.rtype ≠ .RRSIG → ∃ sigRec ∈ answerRrsigs upstream, ∃ key ∈ answerDnskeys upstream,
    ValidSignature c now (answerSet upstream r) sigRec key

/-- The first signature that is answered verifies over all records of the answer at once. -/
def VerifiesWhole (c : Crypto) (now : Nat) (upstream : Packet) : Prop :=
  ∃ sigRec key, Decides (candidate now) (verification c (answerRrset upstream)) (answerRrsigs upstream)
    (answerDnskeys upstream) sigRec key true

def Response.Servfails (response : Response) : Prop := ∃ p, response.packet = some p ∧ p.rcode = RCODE_SERVFAIL

/-! The validation of a whole section. -/

section
variable {c : Crypto} {now : Nat} {upstream : Packet}

/-- Where a record is to be validated, there are signatures and keys. -/
theorem AnswerSigned.present (h : AnswerSigned c now upstream) (hsome : answerRrset upstream ≠ []) :
    answerRrsigs upstream ≠ [] ∧ answerDnskeys upstream ≠ [] := by
  obtain ⟨r, hr⟩ := List.exists_mem_of_ne_nil _ hsome
  obtain ⟨hmem, htype⟩ := List.mem_filter.mp hr
  obtain ⟨sigRec, hs, key, hk, -⟩ := h r hmem (of_decide_eq_true htype).1
  exact ⟨List.ne_nil_of_mem hs, List.ne_nil_of_mem hk⟩

/-- A search that is not decided for the signatures is decided against them. -/
theorem verdict_bogus_iff {o : Option Bool} : (∃ why, verdict o = .Bogus why) ↔ o ≠ some true := by
  rcases o with _ | _ | _ <;> simp [verdict]

/-- The section is Bogus when its first answered signature does not verify over all of it. -/
theorem validateRrset_whole (hrrset : answerRrset upstream ≠ []) (hrrsigs : answerRrsigs upstream ≠ [])
    (hkeys : answerDnskeys upstream ≠ []) :
    (∃ why, validateRrset c now (answerRrset upstream) (answerRrsigs upstream) (answerDnskeys upstream) = .Bogus why) ↔
      ¬ VerifiesWhole c now upstream := by
  rw [validateRrset_eq_search hrrset hrrsigs hkeys, verdict_bogus_iff, VerifiesWhole, ← search_eq_some_iff]
  rfl

end

/-! The reply. -/

section
variable {σ : Type} {h : Handler σ} {e : ClientQuery} {st : Resolving σ} {pkt : Packet} {q : Question}
  {upstream : Packet} {s : σ}

/-- A query that is sent upstream is answered from there. -/
theorem outcome_of_fetches (hfetch : Fetches h e st pkt q upstream s) : (e.outcome h st).response =
    (recursiveAnswer h e.clocks q pkt.dnssecOk (baseResponse pkt).setRa st.cache st.upstream).response := by
  rw [ClientQuery.outcome, handleQuery_of_asks hfetch.asks]
  simp only [answerQuestion, hfetch.zone, hfetch.allowed, cachedAnswer, hfetch.missed, hfetch.desired, Bool.not_true,
    Bool.false_eq_true, if_false, if_neg hfetch.notDeferred]

/-- Upstream's answer is validated as one set. -/
theorem validateUpstream_lenient {now : Nat} (hvalidate : h.config.dnssecValidate = true)
    (hstrict : h.config.dnssecStrict = false) (hanswers : upstream.answers ≠ []) (hrrsigs : answerRrsigs upstream ≠ [])
    (hkeys : answerDnskeys upstream ≠ []) : validateUpstream h now q true upstream s =
      (some (validateRrset h.crypto now (answerRrset upstream) (answerRrsigs upstream) (answerDnskeys upstream)),
        [], s) := by
  rw [validateUpstream, if_pos ⟨hvalidate, rfl, hanswers⟩]
  simp only [if_pos (And.intro hrrsigs hkeys), hstrict, Bool.false_eq_true, if_false]

/-- Of no records nothing is found Bogus. -/
theorem validateUpstream_of_nil {now : Nat} (hstrict : h.config.dnssecStrict = false) (hrrset : answerRrset upstream = [])
    (why : String) : (validateUpstream h now q true upstream s).1 ≠ some (.Bogus why) := by
  by_cases hon : upstream.answers ≠ [] ∧ answerRrsigs upstream ≠ [] ∧ answerDnskeys upstream ≠ []
  · by_cases hvalidate : h.config.dnssecValidate = true
    · rw [validateUpstream_lenient hvalidate hstrict hon.1 hon.2.1 hon.2.2, hrrset, validateRrset_nil]
      simp
    · rw [validateUpstream, if_neg fun hall => hvalidate hall.1]
      simp
  · rw [validateUpstream_none fun hall => hon hall.2]
    simp

theorem servfails_reply {p : Packet} {edns : Bool} : (Response.reply p edns).Servfails ↔ p.rcode = RCODE_SERVFAIL := by
  simp [Response.Servfails, Response.packet]

variable {clocks : Clocks} {dnssecOk : Bool} {resp : Packet} {cache : Cache} {s₀ : σ}

/-- What is Bogus is not sent. -/
theorem recursiveAnswer_of_bogus {why : String} (hresolve : h.upstream.resolve q.name q.qtype s₀ = (.Answer upstream, s))
    (hbogus : (validateUpstream h clocks.validator q dnssecOk upstream s).1 = some (.Bogus why)) :
    (recursiveAnswer h clocks q dnssecOk resp cache s₀).response.Servfails := by
  rw [recursiveAnswer, hresolve]
  dsimp only
  split
  · exact servfails_reply.mpr (rcode_setRcode _ (by decide))
  · next result made s' hnot hresult =>
    rw [hresult] at hbogus
    exact absurd hbogus (hnot why)

/-- Otherwise upstream's code is passed on. -/
theorem recursiveAnswer_of_not_bogus (hresolve : h.upstream.resolve q.name q.qtype s₀ = (.Answer upstream, s))
    (hnot : ∀ why, (validateUpstream h clocks.validator q dnssecOk upstream s).1 ≠ some (.Bogus why)) :
    (recursiveAnswer h clocks q dnssecOk resp cache s₀).response.Servfails ↔ upstream.rcode = RCODE_SERVFAIL := by
  rw [recursiveAnswer, hresolve]
  dsimp only
  split
  · next why made s' hbogus => exact absurd (congrArg Prod.fst hbogus) (hnot why)
  · rw [servfails_reply, rcode_setRcode_rcode]

end

/-- **One signature speaks for the section.** A client with the DO bit whose query is answered upstream, with an
    answer whose RRsets are all validly signed, is spared SERVFAIL exactly when upstream's own code is
    another and there is nothing to validate, or the first signature that is answered verifies
    over all records of the answer at once. -/
theorem handleQuery_servfails_iff {σ : Type} (h : Handler σ) (hvalidate : h.config.dnssecValidate = true)
    (hstrict : h.config.dnssecStrict = false) (e : ClientQuery) (st : Resolving σ) (pkt : Packet) (q : Question)
    (upstream : Packet) (s : σ) (hfetch : Fetches h e st pkt q upstream s) (hdo : pkt.dnssecOk = true)
    (hsigned : AnswerSigned h.crypto e.clocks.validator upstream) :
    ¬ (e.outcome h st).response.Servfails ↔ upstream.rcode ≠ RCODE_SERVFAIL ∧
      (answerRrset upstream = [] ∨ VerifiesWhole h.crypto e.clocks.validator upstream) := by
  rw [outcome_of_fetches hfetch, hdo]
  by_cases hrrset : answerRrset upstream = []
  · -- nothing but signatures and keys: Insecure, or not validated at all
    rw [recursiveAnswer_of_not_bogus hfetch.answer (validateUpstream_of_nil hstrict hrrset)]
    simp [hrrset]
  · obtain ⟨hrrsigs, hkeys⟩ := hsigned.present hrrset
    have hanswers : upstream.answers ≠ [] := fun hnil => hrrset (by rw [answerRrset, hnil, List.filter_nil])
    have hresult := @validateUpstream_lenient _ h q upstream s e.clocks.validator hvalidate hstrict hanswers hrrsigs hkeys
    have hbogus := @validateRrset_whole h.crypto e.clocks.validator upstream hrrset hrrsigs hkeys
    by_cases hwhole : VerifiesWhole h.crypto e.clocks.validator upstream
    · rw [recursiveAnswer_of_not_bogus hfetch.answer]
      · simp [hwhole]
      · intro why hwhy
        rw [hresult, Option.some.injEq] at hwhy
        exact hbogus.mp ⟨why, hwhy⟩ hwhole
    · obtain ⟨why, hwhy⟩ := hbogus.mpr hwhole
      have hbogus := (congrArg Prod.fst hresult).trans (congrArg some hwhy)
      refine iff_of_false (not_not.mpr (recursiveAnswer_of_bogus hfetch.answer hbogus)) ?_
      rintro ⟨-, hnil | hverifies⟩
      · exact hrrset hnil
      · exact hwhole hverifies

/-! An alias and its target, both signed. -/

def lenientHandler (upstream : Packet) : Handler Unit :=
  { strictHandler upstream with config := ⟨true, false, [⟨.V4 0, 0⟩], 100000, 300, false⟩ }

/-- The fields of a signature that "com." makes of names with two labels. -/
def comFields (t : RType) : Rrsig := { toyFields t 77 with labels := 2, signerName := com }

def comSig (name : Text) (t : RType) (rrset : List Record) : Record :=
  ⟨name, .RRSIG, CLASS_IN, 3600, rrsigFields (comFields t) ++ 77 :: buildSignedData (comFields t) rrset⟩

def webCom : Text := ['w', 'e', 'b', '.', 'c', 'o', 'm']

def aliasRecord : Record := ⟨wwwCom, .CNAME, CLASS_IN, 3600, canonicalName webCom⟩

def targetRecord : Record := ⟨webCom, .A, CLASS_IN, 3600, [192, 0, 2, 1]⟩

def signedAlias : Packet := upstreamReply
  [aliasRecord, comSig wwwCom .CNAME [aliasRecord], targetRecord, comSig webCom .A [targetRecord]] comKeys

def signedAddress : Packet := upstreamReply (wwwAnswer ++ [comSig wwwCom .A wwwAnswer]) comKeys

theorem wwwClient_fetches (upstream : Packet) : Fetches (lenientHandler upstream) (wwwClient true)
    (Resolving.start ()) (wwwQuery true) ⟨wwwCom, .A, CLASS_IN⟩ upstream () where
  asks := ⟨by decide, by decide, fun h => (nomatch h.1), wwwClient_parse true, rfl, rfl, rfl⟩
  zone := rfl
  allowed := rfl
  missed := by decide
  desired := rfl
  notDeferred := by decide
  answer := rfl

/-- Over one record of "com." such a signature is valid. -/
theorem comSig_valid {r : Record} (heligible : candidate 1000 (comSig r.name r.rtype [r]) (toyKey com 77))
    (hverifies : verification toyCrypto [r] (comSig r.name r.rtype [r]) (toyKey com 77) = some true)
    (hclass : r.rclass = CLASS_IN) (hlabels : 2 ≤ (labelsOf r.name).length) (hbelow : Contains com r.name) :
    ValidSignature toyCrypto 1000 [r] (comSig r.name r.rtype [r]) (toyKey com 77) := by
  have hname : ∀ l ∈ labelsOf com, WireLabel l := by
    intro l hl
    obtain rfl := List.mem_singleton.mp (show l ∈ [com] from hl)
    exact ⟨by decide, by decide⟩
  have hsig : parseRrsig (comSig r.name r.rtype [r]).rdata = .ok { comFields r.rtype with
      signerName := readName com, signature := 77 :: buildSignedData (comFields r.rtype) [r] } :=
    parseRrsig_eq (comFields r.rtype) _ hname
  have hcom : readName com = com := by decide
  have hkey : parseDnskey (toyKey com 77).rdata = .ok ⟨257, 3, 8, [1, 3, 77]⟩ := parseDnskey_eq 257 3 8 _
  -- what is parsed from the two records is what was written
  refine ⟨heligible, hverifies, fun rrsig dnskey hp hk condition => ?_⟩
  rw [hsig, hcom] at hp
  rw [hkey] at hk
  cases hp
  cases hk
  cases condition with
  | shared =>
    intro r₁ h₁ r₂ h₂
    rw [List.mem_singleton.mp h₁, List.mem_singleton.mp h₂]
    exact ⟨rfl, rfl, rfl⟩
  | owner => exact List.forall_mem_singleton.mpr rfl
  | rclass => exact List.forall_mem_singleton.mpr hclass.symm
  | covers => exact List.forall_mem_singleton.mpr rfl
  | labels => exact List.forall_mem_singleton.mpr hlabels
  | signer => exact List.forall_mem_singleton.mpr hbelow
  | keyOwner => exact rfl
  | zoneKey => exact (by decide : (257 : UInt16) &&& 0x0100 ≠ 0)
  | protocol => exact rfl

theorem signedAddress_signed : AnswerSigned toyCrypto 1000 signedAddress := by
  intro r hr htype
  have hset : answerSet signedAddress ⟨wwwCom, .A, CLASS_IN, 3600, [192, 0, 2, 1]⟩ = wwwAnswer := by decide
  rcases List.mem_cons.mp hr with rfl | hr
  · refine ⟨comSig wwwCom .A wwwAnswer, by decide, toyKey com 77, by decide, ?_⟩
    rw [hset]
    exact comSig_valid (by decide) (by decide) rfl (by decide) (by unfold Contains; decide)
  · rw [List.mem_singleton.mp hr] at htype
    exact absurd rfl htype

theorem signedAlias_signed : AnswerSigned toyCrypto 1000 signedAlias := by
  intro r hr htype
  have halias : answerSet signedAlias aliasRecord = [aliasRecord] := by decide
  have htarget : answerSet signedAlias targetRecord = [targetRecord] := by decide
  obtain rfl | rfl | rfl | rfl : r = aliasRecord ∨ r = comSig wwwCom .CNAME [aliasRecord] ∨ r = targetRecord ∨
      r = comSig webCom .A [targetRecord] := by simpa [signedAlias, upstreamReply] using hr
  · refine ⟨comSig wwwCom .CNAME [aliasRecord], by decide, toyKey com 77, by decide, ?_⟩
    rw [halias]
    exact comSig_valid (by decide) (by decide) rfl (by decide) (by unfold Contains; decide)
  · exact absurd rfl htype
  · refine ⟨comSig webCom .A [targetRecord], by decide, toyKey com 77, by decide, ?_⟩
    rw [htarget]
    exact comSig_valid (by decide) (by decide) rfl (by decide) (by unfold Contains; decide)
  · exact absurd rfl htype

/-- One signed address is sent. -/
theorem signedAddress_sent :
    ¬ ((wwwClient true).outcome (lenientHandler signedAddress) (Resolving.start ())).response.Servfails := by
  have hwhole : VerifiesWhole toyCrypto 1000 signedAddress := search_eq_some_iff.mp (by decide)
  exact (handleQuery_servfails_iff (lenientHandler signedAddress) rfl rfl (wwwClient true) (Resolving.start ())
    (wwwQuery true) ⟨wwwCom, .A, CLASS_IN⟩ signedAddress () (wwwClient_fetches signedAddress) rfl
    signedAddress_signed).mpr ⟨by decide, .inr hwhole⟩

/-- **A signed alias is refused**: upstream's NOERROR answer is a CNAME and the address of its target, each with its
    valid signature, and the client gets SERVFAIL. -/
theorem signedAlias_servfails : (lenientHandler signedAlias).config.dnssecValidate = true ∧
    (lenientHandler signedAlias).config.dnssecStrict = false ∧
    Fetches (lenientHandler signedAlias) (wwwClient true) (Resolving.start ()) (wwwQuery true) ⟨wwwCom, .A, CLASS_IN⟩
      signedAlias () ∧ AnswerSigned toyCrypto 1000 signedAlias ∧ signedAlias.rcode = RCODE_NOERROR ∧
    ((wwwClient true).outcome (lenientHandler signedAlias) (Resolving.start ())).response.Servfails := by
  refine ⟨rfl, rfl, wwwClient_fetches signedAlias, signedAlias_signed, by decide, ?_⟩
  have hbogus : (validateUpstream (lenientHandler signedAlias) 1000 ⟨wwwCom, .A, CLASS_IN⟩ true signedAlias ()).1 =
      some (.Bogus "signature mismatch") := by decide
  rw [outcome_of_fetches (wwwClient_fetches signedAlias)]
  exact recursiveAnswer_of_bogus (wwwClient_fetches signedAlias).answer hbogus

end Ironbind
