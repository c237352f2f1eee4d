import Ironbind.ChainOfTrust
import Ironbind.SignedReplies

/- Strict validation over whole runs. A run is a sequence of client queries and cache
   sweeps; its state is the cache, the upstream and the chains of trust checked so far.
   `Clean` says that every positive cache entry was checked: what a query that fetches
   needs for it to stay so, and for its own reply to be checked, is `Guarded`
   (`query_step`). In a run whose queries are all guarded every answer that a client
   with the DO bit gets without error was checked (`strictRun_checked`). -/
namespace Ironbind
open Codec

/-! Runs. -/

/-- A client's query, with what it meets of the server. -/
structure ClientQuery where
  zones : List Zone
  clocks : Clocks
  peer : IpAddr
  recursion : Recursion
  data : Bytes

inductive Event where
  | query (e : ClientQuery)
  | evict (now : Nat)

/-- The state of the server between two events, and the validations made so far. -/
structure Resolving (σ : Type) where
  cache : Cache
  upstream : σ
  checked : List Validation

section
variable {σ : Type} (h : Handler σ)

def ClientQuery.outcome (e : ClientQuery) (st : Resolving σ) : Outcome σ :=
  handleQuery h e.zones e.clocks e.peer e.recursion e.data st.cache st.upstream

namespace Resolving

/-- A server that has answered nothing yet. -/
def start (s : σ) : Resolving σ := ⟨.new, s, []⟩

def step (st : Resolving σ) : Event → Resolving σ
  | .query e =>
    let outcome := e.outcome h st
    ⟨outcome.cache, outcome.upstream, st.checked ++ outcome.validations⟩
  | .evict now => { st with cache := st.cache.evictExpired now }

def run (st : Resolving σ) (events : List Event) : Resolving σ := events.foldl (step h) st

end Resolving

/-! What was checked. -/

/-- A record of an answer for a name whose chain of trust was checked, and not found Bogus. -/
def Checked (validations : List Validation) (name : Text) (r : Record) : Prop :=
  ∃ v ∈ validations, toAsciiLowercase v.owner = name ∧ (∀ why, v.result ≠ .Bogus why) ∧ (r ∈ v.rrset ∨ r ∈ v.rrsigs)

/-- A client with the DO bit that is answered without error, other than from a zone, gets checked records only. -/
def SendsChecked (e : ClientQuery) (st : Resolving σ) : Prop :=
  ∀ pkt q p edns, parsePacket e.data = .ok pkt → pkt.questions.head? = some q → pkt.dnssecOk = true →
    authoritativeZone e.zones q.name = none → (e.outcome h st).response = .reply p edns → p.rcode = RCODE_NOERROR →
      ∀ r ∈ p.answers, Checked (st.step h (.query e)).checked (toAsciiLowercase q.name) r

/-- Every positive entry of the cache was checked. -/
def Clean (validations : List Validation) (cache : Cache) : Prop :=
  ∀ k entry records, cache.lookup k = some entry → entry.value = .Records records →
    ∀ r ∈ records, Checked validations k.1 r

/-! When it is. -/

/-- The query is sent upstream, and answered. -/
structure Fetches (e : ClientQuery) (st : Resolving σ) (pkt : Packet) (q : Question) (upstream : Packet) (s : σ) :
    Prop where
  asks : Asks h e.clocks e.data pkt q
  zone : authoritativeZone e.zones q.name = none
  allowed : h.config.allowRecursion.any (fun network => network.contains e.peer) = true
  missed : st.cache.get e.clocks.lookup q.name q.qtype = none
  desired : pkt.rd = true
  notDeferred : e.recursion ≠ .Defer
  answer : h.upstream.resolve q.name q.qtype st.upstream = (.Answer upstream, s)

/-- Answers that go into the cache. -/
def Cacheable (answers : List Record) : Prop := ∃ ttl, minAnswerTtl answers = some ttl ∧ 0 < ttl

/-- Upstream's answer is checked, and all of it: the client asked for it, there are signatures and keys, and no
    key among the answers (or the chain of trust is Bogus anyway). -/
structure CheckedWhole (now : Nat) (q : Question) (dnssecOk : Bool) (upstream : Packet) (s : σ) : Prop where
  asked : dnssecOk = true
  signed : answerRrsigs upstream ≠ []
  keyed : answerDnskeys upstream ≠ []
  keyless : (∀ r ∈ upstream.answers, r.rtype ≠ .DNSKEY) ∨ ∃ why, (chainValidate h.crypto now q.name
    (answerRrset upstream) (answerRrsigs upstream) h.upstream.fetchWithRrsig s).1 = .Bogus why

/-- An answer that is sent without error to a client with the DO bit, or cached, is checked whole. -/
def Guarded (e : ClientQuery) (st : Resolving σ) : Prop :=
  ∀ pkt q upstream s, Fetches h e st pkt q upstream s → upstream.answers ≠ [] →
    (pkt.dnssecOk = true ∧ upstream.rcode = RCODE_NOERROR ∨ Cacheable upstream.answers) →
      CheckedWhole h e.clocks.validator q pkt.dnssecOk upstream s

end

/-! The cache. -/

section
variable {validations more : List Validation} {name : Text} {r : Record} {cache : Cache}

theorem Checked.append (h : Checked validations name r) : Checked (validations ++ more) name r := by
  obtain ⟨v, hv, hrest⟩ := h
  exact ⟨v, List.mem_append_left _ hv, hrest⟩

theorem Clean.append (h : Clean validations cache) : Clean (validations ++ more) cache :=
  fun k entry records hk hvalue r hr => (h k entry records hk hvalue r hr).append

theorem clean_new : Clean validations .new := fun k entry records hk => by
  rw [show Cache.new.lookup k = none from AList.lookup_empty k] at hk
  cases hk

theorem Clean.insertValue (h : Clean validations cache) {now : Nat} {qtype : RType} {value : CacheValue} {ttl : UInt32}
    (hvalue : ∀ records, value = .Records records → ∀ r ∈ records, Checked validations (toAsciiLowercase name) r) :
    Clean validations (cache.insertValue now name qtype value ttl) := by
  intro k entry records hk hentry
  by_cases he : k = Cache.key name qtype
  · subst he
    rw [Cache.insertValue, AList.lookup_insert, Option.some.injEq] at hk
    subst hk
    exact hvalue records hentry
  · rw [Cache.insertValue, AList.lookup_insert_ne he] at hk
    exact h k entry records hk hentry

theorem Clean.evictExpired (h : Clean validations cache) (now : Nat) : Clean validations (cache.evictExpired now) := by
  intro k entry records hk
  exact h k entry records (Cache.lookup_of_evictExpired hk)

/-- What is read from a clean cache was checked. -/
theorem Clean.get (h : Clean validations cache) {now : Nat} {qtype : RType} {records : List Record}
    (hget : cache.get now name qtype = some (.Records records)) :
    ∀ r ∈ records, Checked validations (toAsciiLowercase name) r := by
  unfold Cache.get at hget
  split at hget
  · next entry hentry =>
    split at hget
    · exact h _ entry records hentry (Option.some.inj hget)
    · cases hget
  · cases hget

end

/-! One query. -/

/-- A reply made without records. -/
theorem answers_of_reply {p p' : Packet} {edns edns' : Bool} (hp : Response.reply p edns = .reply p' edns')
    (hnil : p.answers = []) : p'.answers = [] := by
  obtain ⟨rfl, -⟩ := Response.reply.inj hp
  exact hnil

theorem not_mem_of_reply {p p' : Packet} {edns edns' : Bool} {r : Record} (hp : Response.reply p edns = .reply p' edns')
    (hnil : p.answers = []) : r ∉ p'.answers := by
  rw [answers_of_reply hp hnil]
  exact List.not_mem_nil

section
variable {σ : Type} {h : Handler σ} {validations : List Validation} {cache : Cache} {s s' : σ} {q : Question}
  {dnssecOk : Bool} {upstream : Packet} {now : Nat}

/-- In strict mode a validation is a walk of the chain of trust, made when there are signatures and keys. -/
theorem validateUpstream_strict (hvalidate : h.config.dnssecValidate = true) (hstrict : h.config.dnssecStrict = true)
    (hdo : dnssecOk = true) (hanswers : upstream.answers ≠ []) (hsigned : answerRrsigs upstream ≠ [])
    (hkeyed : answerDnskeys upstream ≠ []) : validateUpstream h now q dnssecOk upstream s =
      let checked := chainValidate h.crypto now q.name (answerRrset upstream) (answerRrsigs upstream)
        h.upstream.fetchWithRrsig s
      (some checked.1, [⟨q.name, answerRrset upstream, answerRrsigs upstream, checked.1⟩], checked.2) := by
  rw [validateUpstream, if_pos ⟨hvalidate, hdo, hanswers⟩]
  simp only [if_pos (And.intro hsigned hkeyed), hstrict, if_true]

/-- Otherwise nothing is validated. -/
theorem validateUpstream_none (hnot : ¬ (dnssecOk = true ∧ upstream.answers ≠ [] ∧ answerRrsigs upstream ≠ [] ∧
    answerDnskeys upstream ≠ [])) : validateUpstream h now q dnssecOk upstream s = (none, [], s) := by
  by_cases hon : h.config.dnssecValidate ∧ dnssecOk ∧ upstream.answers ≠ []
  · have hkeys : ¬ (answerRrsigs upstream ≠ [] ∧ answerDnskeys upstream ≠ []) := fun hkeys =>
      hnot ⟨hon.2.1, hon.2.2, hkeys.1, hkeys.2⟩
    rw [validateUpstream, if_pos hon]
    simp only [if_neg hkeys]
  · rw [validateUpstream, if_neg hon]

theorem cacheAnswer_of_not_cacheable {answers : List Record} (hno : ¬ Cacheable answers) :
    cacheAnswer cache now q answers = cache := by
  unfold cacheAnswer
  split
  · next ttl httl =>
    split
    · next hpos => exact absurd ⟨ttl, httl, hpos⟩ hno
    · rfl
  · rfl

/-- An answer whose records but the signatures were checked may be cached. -/
theorem Clean.cacheAnswer (hclean : Clean validations cache) {answers : List Record}
    (hall : Cacheable answers → ∀ r ∈ answers, Checked validations (toAsciiLowercase q.name) r) :
    Clean validations (cacheAnswer cache now q answers) := by
  by_cases hcache : Cacheable answers
  · unfold Ironbind.cacheAnswer
    split
    · split
      · refine hclean.insertValue fun records hrecords r hr => hall hcache r ?_
        obtain rfl := CacheValue.Records.inj hrecords
        exact (List.mem_filter.mp hr).1
      · exact hclean
    · exact hclean
  · rw [cacheAnswer_of_not_cacheable hcache]
    exact hclean

/-- An answer without keys is its RRset and its signatures. -/
theorem mem_answers (hkeyless : ∀ r ∈ upstream.answers, r.rtype ≠ .DNSKEY) {r : Record} (hr : r ∈ upstream.answers) :
    r ∈ answerRrset upstream ∨ r ∈ answerRrsigs upstream := by
  by_cases hrrsig : r.rtype = .RRSIG
  · exact .inr (List.mem_filter.mpr ⟨hr, by simpa using hrrsig⟩)
  · exact .inl (List.mem_filter.mpr ⟨hr, by simpa using ⟨hrrsig, hkeyless r hr⟩⟩)

theorem rcode_setRcode_rcode (p : Packet) : (p.setRcode upstream.rcode).rcode = upstream.rcode := by
  refine rcode_setRcode p ?_
  rw [UInt16.and_assoc, show (0xF : UInt16) &&& 0xF = 0xF from rfl, Packet.rcode]
  apply UInt8.toNat_inj.mp
  simp only [UInt16.toNat_toUInt8, UInt16.toNat_and, UInt8.toNat_toUInt16]
  have hmask : (15 : UInt16).toNat = 2 ^ 4 - 1 := rfl
  rw [hmask, Nat.and_two_pow_sub_one_eq_mod, Nat.and_two_pow_sub_one_eq_mod]
  omega

/-- An answer that is checked where it is sent or cached leaves a clean cache and a checked reply. -/
theorem final_checked (hclean : Clean validations cache) {resp : Packet}
    (hall : (dnssecOk = true ∧ upstream.rcode = RCODE_NOERROR ∨ Cacheable upstream.answers) →
      ∀ r ∈ upstream.answers, Checked validations (toAsciiLowercase q.name) r) :
    Clean validations (cacheAnswer cache now q upstream.answers) ∧ ∀ p edns, Response.reply
      ({ resp with
        answers := upstream.answers
        authority := upstream.authority
        additional := upstream.additional }.setRcode upstream.rcode) (resp.ednsUdpSize > 0) = .reply p edns →
      dnssecOk = true → p.rcode = RCODE_NOERROR → ∀ r ∈ p.answers, Checked validations (toAsciiLowercase q.name) r := by
  refine ⟨hclean.cacheAnswer fun hcache => hall (.inr hcache), fun p edns hp hdo hrcode => ?_⟩
  obtain ⟨rfl, -⟩ := Response.reply.inj hp
  rw [rcode_setRcode_rcode] at hrcode
  exact hall (.inl ⟨hdo, hrcode⟩)

variable {clocks : Clocks} {resp : Packet} (hvalidate : h.config.dnssecValidate = true)
  (hstrict : h.config.dnssecStrict = true) (hresp : resp.answers = []) (hclean : Clean validations cache)
include hvalidate hstrict hresp hclean

/-- **What a fetch leaves**: a clean cache, and a checked reply for a client with the DO bit. -/
theorem recursiveAnswer_checked (hguard : ∀ upstream s', h.upstream.resolve q.name q.qtype s = (.Answer upstream, s') →
    upstream.answers ≠ [] → (dnssecOk = true ∧ upstream.rcode = RCODE_NOERROR ∨ Cacheable upstream.answers) →
      CheckedWhole h clocks.validator q dnssecOk upstream s') :
    let outcome := recursiveAnswer h clocks q dnssecOk resp cache s
    Clean (validations ++ outcome.validations) outcome.cache ∧
      ∀ p edns, outcome.response = .reply p edns → dnssecOk = true → p.rcode = RCODE_NOERROR →
        ∀ r ∈ p.answers, Checked (validations ++ outcome.validations) (toAsciiLowercase q.name) r := by
  unfold recursiveAnswer
  cases hres : h.upstream.resolve q.name q.qtype s with
  | mk result s' =>
    cases result with
    | NxDomain upstream =>
      exact ⟨hclean.append.insertValue (fun records hrecords => nomatch hrecords),
        fun p edns hp _ _ r hr => absurd hr (not_mem_of_reply hp hresp)⟩
    | ServFail reason =>
      exact ⟨hclean.append, fun p edns hp _ _ r hr => absurd hr (not_mem_of_reply hp hresp)⟩
    | Answer upstream =>
      have hguard := hguard upstream s' hres
      by_cases hon : dnssecOk = true ∧ upstream.answers ≠ [] ∧ answerRrsigs upstream ≠ [] ∧ answerDnskeys upstream ≠ []
      · obtain ⟨hdo, hanswers, hsigned, hkeyed⟩ := hon
        simp only [validateUpstream_strict hvalidate hstrict hdo hanswers hsigned hkeyed]
        split
        · -- Bogus: nothing is cached, nothing is sent
          refine ⟨hclean.append, fun p edns hp _ hrcode => ?_⟩
          obtain ⟨rfl, -⟩ := Response.reply.inj hp
          rw [rcode_setRcode _ (by decide)] at hrcode
          cases hrcode
        · next result made s'' hnot hresult =>
          obtain ⟨rfl, hmade⟩ := Prod.mk.inj hresult
          obtain ⟨rfl, -⟩ := Prod.mk.inj hmade
          refine final_checked hclean.append fun hneeded r hr => ?_
          rcases (hguard hanswers hneeded).keyless with hkeyless | ⟨why, hbogus⟩
          · exact ⟨_, List.mem_append_right _ List.mem_cons_self, rfl, fun why hwhy => hnot why (congrArg some hwhy),
              mem_answers hkeyless hr⟩
          · exact absurd (congrArg some hbogus) (hnot why)
      · simp only [validateUpstream_none hon]
        refine final_checked hclean.append fun hneeded r hr => ?_
        have hanswers := List.ne_nil_of_mem hr
        have hwhole := hguard hanswers hneeded
        exact absurd ⟨hwhole.asked, hanswers, hwhole.signed, hwhole.keyed⟩ hon

end

section
variable {σ : Type} {h : Handler σ}

/-- What is no query to answer changes nothing, and its reply holds no records. -/
theorem outcome_of_not_asks (e : ClientQuery) (st : Resolving σ) (hask : ¬ ∃ pkt q, Asks h e.clocks e.data pkt q) :
    (e.outcome h st).cache = st.cache ∧ (e.outcome h st).validations = [] ∧
      ∀ p edns, (e.outcome h st).response = .reply p edns → p.answers = [] := by
  unfold ClientQuery.outcome handleQuery
  dsimp only
  split
  · exact ⟨rfl, rfl, fun p edns hp => nomatch hp⟩
  · next hstart =>
    split
    · exact ⟨rfl, rfl, fun p edns hp => answers_of_reply hp rfl⟩
    · next hverified =>
      split
      · exact ⟨rfl, rfl, fun p edns hp => answers_of_reply hp rfl⟩
      · next pkt hparse =>
        unfold handlePacket
        split
        · exact ⟨rfl, rfl, fun p edns hp => nomatch hp⟩
        · next hresponse =>
          split
          · exact ⟨rfl, rfl, fun p edns hp => answers_of_reply hp rfl⟩
          · next hopcode =>
            split
            · exact ⟨rfl, rfl, fun p edns hp => answers_of_reply hp rfl⟩
            · next q hq =>
              have hlength : 3 ≤ e.data.length := by
                by_contra hshort
                exact hstart (.inl (by omega))
              have hquery : e.data.getD 2 0 &&& 0x80 = 0 := by
                by_contra hset
                exact hstart (.inr hset)
              exact absurd ⟨pkt, q, hlength, hquery, hverified, hparse, Bool.eq_false_iff.mpr hresponse,
                not_not.mp hopcode, hq⟩ hask

/-- A query is answered by the cache or from upstream, or it changes nothing and is answered from a zone or with no
    records. -/
theorem outcome_cases (e : ClientQuery) (st : Resolving σ) :
    (∃ pkt q metrics, Asks h e.clocks e.data pkt q ∧ authoritativeZone e.zones q.name = none ∧
      h.config.allowRecursion.any (fun network => network.contains e.peer) = true ∧ e.outcome h st =
        { cachedAnswer h e.clocks e.recursion pkt.rd q pkt.dnssecOk (baseResponse pkt) st.cache st.upstream with
          metrics := metrics }) ∨
    ((e.outcome h st).cache = st.cache ∧ (e.outcome h st).validations = [] ∧
      ∀ pkt q, parsePacket e.data = .ok pkt → pkt.questions.head? = some q → authoritativeZone e.zones q.name = none →
        ∀ p edns, (e.outcome h st).response = .reply p edns → p.answers = []) := by
  by_cases hask : ∃ pkt q, Asks h e.clocks e.data pkt q
  · obtain ⟨pkt, q, hask⟩ := hask
    rw [ClientQuery.outcome, handleQuery_of_asks hask]
    cases hzone : authoritativeZone e.zones q.name with
    | some zone =>
      refine .inr ⟨by simp only [answerQuestion, hzone], by simp only [answerQuestion, hzone], ?_⟩
      intro pkt' q' hparse hq hnone
      obtain rfl := Except.ok.inj (hask.parse.symm.trans hparse)
      obtain rfl := Option.some.inj (hask.question.symm.trans hq)
      rw [hzone] at hnone
      cases hnone
    | none =>
      cases hallowed : h.config.allowRecursion.any (fun network => network.contains e.peer) with
      | false =>
        simp only [answerQuestion, hzone, hallowed, Bool.not_false, if_true]
        exact .inr ⟨trivial, trivial, fun _ _ _ _ _ p edns hp => answers_of_reply hp rfl⟩
      | true =>
        have hanswer : answerQuestion h e.zones e.clocks e.peer e.recursion pkt q st.cache st.upstream =
            cachedAnswer h e.clocks e.recursion pkt.rd q pkt.dnssecOk (baseResponse pkt) st.cache st.upstream := by
          simp only [answerQuestion, hzone, hallowed, Bool.not_true, Bool.false_eq_true, if_false]
        rw [hanswer]
        exact .inl ⟨pkt, q, _, hask, hzone, rfl, rfl⟩
  · obtain ⟨hcache, hnone, hempty⟩ := outcome_of_not_asks e st hask
    exact .inr ⟨hcache, hnone, fun _ _ _ _ _ => hempty⟩

variable (hvalidate : h.config.dnssecValidate = true) (hstrict : h.config.dnssecStrict = true)
include hvalidate hstrict

/-- What the cache and upstream answer. -/
theorem cachedAnswer_checked (e : ClientQuery) (st : Resolving σ) {pkt : Packet} {q : Question}
    (hask : Asks h e.clocks e.data pkt q) (hzone : authoritativeZone e.zones q.name = none)
    (hallowed : h.config.allowRecursion.any (fun network => network.contains e.peer) = true)
    (hclean : Clean st.checked st.cache) (hguard : Guarded h e st) :
    let outcome := cachedAnswer h e.clocks e.recursion pkt.rd q pkt.dnssecOk (baseResponse pkt) st.cache st.upstream
    Clean (st.checked ++ outcome.validations) outcome.cache ∧
      ∀ p edns, outcome.response = .reply p edns → pkt.dnssecOk = true → p.rcode = RCODE_NOERROR →
        ∀ r ∈ p.answers, Checked (st.checked ++ outcome.validations) (toAsciiLowercase q.name) r := by
  unfold cachedAnswer
  cases hget : st.cache.get e.clocks.lookup q.name q.qtype with
  | some value =>
    cases value with
    | Records records =>
      refine ⟨hclean.append, fun p edns hp _ _ r hr => ?_⟩
      obtain ⟨rfl, -⟩ := Response.reply.inj hp
      exact (hclean.get hget r hr).append
    | Negative kind =>
      cases kind <;>
      · exact ⟨hclean.append, fun p edns hp _ _ r hr => absurd hr (not_mem_of_reply hp rfl)⟩
  | none =>
    dsimp only
    split
    · exact ⟨hclean.append, fun p edns hp _ _ r hr => absurd hr (not_mem_of_reply hp rfl)⟩
    · next hdesired =>
      split
      · exact ⟨hclean.append, fun p edns hp => nomatch hp⟩
      · next hdefer =>
        exact recursiveAnswer_checked hvalidate hstrict rfl hclean fun upstream s' hanswer =>
          hguard pkt q upstream s' ⟨hask, hzone, hallowed, hget, by simpa using hdesired, hdefer, hanswer⟩

/-- **The step of a query**: guarded, it keeps the cache clean and sends checked records. -/
theorem query_step (e : ClientQuery) (st : Resolving σ) (hclean : Clean st.checked st.cache) (hguard : Guarded h e st) :
    Clean (st.step h (.query e)).checked (st.step h (.query e)).cache ∧ SendsChecked h e st := by
  rcases outcome_cases e st with ⟨pkt, q, metrics, hask, hzone, hallowed, houtcome⟩ | ⟨hcache, hnone, hempty⟩
  · obtain ⟨hclean', hchecked⟩ := cachedAnswer_checked hvalidate hstrict e st hask hzone hallowed hclean hguard
    simp only [Resolving.step, SendsChecked, houtcome]
    refine ⟨hclean', fun pkt' q' p edns hparse hq hdo _ hreply hrcode => ?_⟩
    obtain rfl := Except.ok.inj (hask.parse.symm.trans hparse)
    obtain rfl := Option.some.inj (hask.question.symm.trans hq)
    exact hchecked p edns hreply hdo hrcode
  · refine ⟨?_, fun pkt q p edns hparse hq _ hzone hreply _ r hr => ?_⟩
    · simp only [Resolving.step, hcache]
      exact hclean.append
    · rw [hempty pkt q hparse hq hzone p edns hreply] at hr
      cases hr

/-- In a run whose queries are guarded every state's cache is clean. -/
theorem run_clean {s : σ} : ∀ events : List Event,
    (∀ before e after, events = before ++ .query e :: after → Guarded h e ((Resolving.start s).run h before)) →
      Clean ((Resolving.start s).run h events).checked ((Resolving.start s).run h events).cache := by
  intro events
  induction events using List.reverseRecOn with
  | nil => exact fun _ => clean_new
  | append_singleton events event ih =>
    intro hguard
    have hclean := ih fun before e after heq => hguard before e (after ++ [event]) (by rw [heq]; simp)
    rw [Resolving.run, List.foldl_append]
    cases event with
    | query e => exact (query_step hvalidate hstrict e _ hclean (hguard events e [] rfl)).1
    | evict now => exact hclean.evictExpired now

end

/-- **Strict mode checks what it sends.** In every run of queries and sweeps from an empty cache, with any upstream,
    in which every query is guarded where it stands: what any query is answered was checked. -/
theorem strictRun_checked {σ : Type} (h : Handler σ) (hvalidate : h.config.dnssecValidate = true)
    (hstrict : h.config.dnssecStrict = true) (s : σ) (events : List Event)
    (hguard : ∀ before e after, events = before ++ .query e :: after →
      Guarded h e ((Resolving.start s).run h before)) :
    ∀ before e after, events = before ++ .query e :: after → SendsChecked h e ((Resolving.start s).run h before) := by
  intro before e after heq
  have hclean := run_clean hvalidate hstrict before fun before' e' after' heq' =>
    hguard before' e' (after' ++ .query e :: after) (by rw [heq, heq']; simp)
  exact (query_step hvalidate hstrict e _ hclean (hguard before e after heq)).2

/-! A server that validates strictly, and two upstreams. -/

/-- The upstream always answers the same, and a chain of trust can be walked. -/
def strictHandler (upstream : Packet) : Handler Unit :=
  { plainHandler with
    crypto := toyCrypto
    config := ⟨true, true, [⟨.V4 0, 0⟩], 100000, 300, false⟩
    upstream := ⟨fun _ _ s => (.Answer upstream, s), comFetch⟩ }

def wwwQuery (dnssecOk : Bool) : Packet where
  id := 7
  flags := 0x0100
  questions := [⟨wwwCom, .A, CLASS_IN⟩]
  answers := []
  authority := []
  additional := []
  ednsUdpSize := 1232
  dnssecOk := dnssecOk

def wwwClient (dnssecOk : Bool) : ClientQuery := ⟨[], noClocks, .V4 0, .Inline, serialize (wwwQuery dnssecOk) true⟩

def upstreamReply (answers additional : List Record) : Packet :=
  { wwwQuery true with flags := 0x8180, answers := answers, additional := additional }

def signedReply : Packet := upstreamReply (wwwAnswer ++ [toySig wwwCom .A 77 wwwAnswer]) comKeys

theorem wwwClient_parse (dnssecOk : Bool) : parsePacket (wwwClient dnssecOk).data = .ok (wwwQuery dnssecOk) := by
  cases dnssecOk <;> decide

/-- Where upstream always sends signatures and keys, a query with the DO bit is guarded. -/
theorem wwwClient_guarded (st : Resolving Unit) : Guarded (strictHandler signedReply) (wwwClient true) st := by
  intro pkt q upstream s hfetch _ _
  obtain rfl := Except.ok.inj ((wwwClient_parse true).symm.trans hfetch.asks.parse)
  obtain rfl := ResolveResult.Answer.inj (Prod.mk.inj hfetch.answer).1
  exact ⟨rfl, by decide, by decide, .inl (by decide)⟩

/-- Asked twice, it is answered from upstream and from the cache. -/
theorem strictRun_checked_twice :
    SendsChecked (strictHandler signedReply) (wwwClient true) (Resolving.start ()) ∧
      SendsChecked (strictHandler signedReply) (wwwClient true)
        ((Resolving.start ()).run (strictHandler signedReply) [.query (wwwClient true)]) := by
  have hsends := strictRun_checked (strictHandler signedReply) rfl rfl () [.query (wwwClient true),
    .query (wwwClient true)]
    fun before e after heq => by
      have hmem : Event.query e ∈ [Event.query (wwwClient true), .query (wwwClient true)] := by rw [heq]; simp
      have he : e = wwwClient true := by simpa using hmem
      rw [he]
      exact wwwClient_guarded _
  exact ⟨hsends [] (wwwClient true) [.query (wwwClient true)] rfl,
    hsends [.query (wwwClient true)] (wwwClient true) [] rfl⟩

/-- Upstream sends no signatures to a client that does not ask for them. -/
def plainReply : Packet := upstreamReply wwwAnswer []

/-- The packet of a reply. -/
def Response.packet : Response → Option Packet
  | reply p _ => some p
  | _ => none

theorem Response.reply_of_packet {response : Response} {p : Packet} (h : response.packet = some p) :
    ∃ edns, response = .reply p edns := by
  cases response with
  | drop => cases h
  | reply p' edns => exact ⟨edns, congrArg (Response.reply · edns) (Option.some.inj h)⟩
  | recursive => cases h

/-- The second client set DO, and gets from the cache what was fetched for the first, which no chain was checked for. -/
theorem plainRun_unchecked : (strictHandler plainReply).config.dnssecValidate = true ∧
    (strictHandler plainReply).config.dnssecStrict = true ∧
    ¬ ∀ before e after, [Event.query (wwwClient false), .query (wwwClient true)] = before ++ .query e :: after →
      SendsChecked (strictHandler plainReply) e ((Resolving.start ()).run (strictHandler plainReply) before) := by
  refine ⟨rfl, rfl, fun hsends => ?_⟩
  have hsecond := hsends [.query (wwwClient false)] (wwwClient true) [] rfl
  have hreply : ((wwwClient true).outcome (strictHandler plainReply)
      ((Resolving.start ()).run (strictHandler plainReply) [.query (wwwClient false)])).response.packet =
        some { baseResponse (wwwQuery true) with answers := wwwAnswer } := by decide
  have hnone : (((Resolving.start ()).run (strictHandler plainReply) [.query (wwwClient false)]).step
      (strictHandler plainReply) (.query (wwwClient true))).checked.length = 0 := by decide
  obtain ⟨edns, hreply⟩ := Response.reply_of_packet hreply
  obtain ⟨v, hv, -⟩ := hsecond (wwwQuery true) _ _ _ (wwwClient_parse true) rfl rfl rfl hreply (by decide) _
    List.mem_cons_self
  rw [List.length_eq_zero_iff.mp hnone] at hv
  cases hv

end Ironbind
