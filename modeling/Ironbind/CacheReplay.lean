import Ironbind.CacheRuns

/- What the cache answers in place of upstream. `Repeats` says what is asked of it: as
   long as an entry would live, the same question gets the same answer, and a failure is
   never made a success. Whether it does depends on the upstream result alone
   (`repeats_iff`): the cache keeps no signatures, no authority section, no response
   code and nothing of an answer without records. -/
namespace Ironbind
open Codec

/-! What is asked of the cache. -/

def ResolveResult.rcode : ResolveResult → UInt8
  | .Answer upstream => upstream.rcode
  | .NxDomain _ => RCODE_NXDOMAIN
  | .ServFail _ => RCODE_SERVFAIL

/-- Results that are to be cached: records, that there is no such name, that the name has no such records. -/
inductive CacheableResult : ResolveResult → Prop
  | answer {upstream : Packet} (rcode : upstream.rcode = RCODE_NOERROR) (answers : upstream.answers ≠ [])
      (ttl : ∀ r ∈ upstream.answers, 0 < r.ttl) : CacheableResult (.Answer upstream)
  | nxDomain {result : ResolveResult} (rcode : result.rcode = RCODE_NXDOMAIN) : CacheableResult result
  | noData {upstream : Packet} {soa : Record} (rcode : upstream.rcode = RCODE_NOERROR) (answers : upstream.answers = [])
      (mem : soa ∈ upstream.authority) (rtype : soa.rtype = .SOA) : CacheableResult (.Answer upstream)

def Packet.HasSoa (p : Packet) : Prop := ∃ soa ∈ p.authority, soa.rtype = .SOA

def Record.withoutTtl (r : Record) : Record := { r with ttl := 0 }

/-- Two replies to one question: the same but for TTLs, and a negative one with its SOA. -/
structure SameAnswer (first second : Packet) : Prop where
  rcode : second.rcode = first.rcode
  answers : second.answers.map Record.withoutTtl = first.answers.map Record.withoutTtl
  soa : first.rcode = RCODE_NXDOMAIN ∨ first.answers = [] → first.HasSoa → second.HasSoa

/-- The cache's clock, as an event reads it. -/
def Event.reading : Event → Nat
  | .query e => e.clocks.lookup
  | .evict now => now

section
variable {σ : Type} (h : Handler σ)

/-- How many seconds the entry of a result is to live. -/
def lifetime : ResolveResult → UInt32
  | .Answer upstream =>
    match minAnswerTtl upstream.answers with
    | some ttl => max 1 (min ttl 86400)
    | none => negativeTtl h upstream
  | .NxDomain upstream => negativeTtl h upstream
  | .ServFail _ => 1

/-- The end of the entry of a result that is stored now. -/
def expiry (now : Nat) (result : ResolveResult) : Nat := now + (lifetime h result).toNat * nanosPerSec

/-- A time between two queries: from the fetch to the end of its entry. -/
structure Lives (e : ClientQuery) (result : ResolveResult) (now : Nat) : Prop where
  fetched : e.clocks.insert ≤ now
  expires : now < expiry h e.clocks.insert result

/-- No event stores anything under a key. -/
def Untouched (k : CacheKey) (st : Resolving σ) (events : List Event) : Prop :=
  ∀ before e after q value ttl, events = before ++ .query e :: after → Stores h e (st.run h before) q value ttl →
    Cache.key q.name q.qtype ≠ k

/-- **Asked again while its entry lives**, whatever comes between, the question is answered from the cache, and as it was
    the first time; and what is no answer is not answered as one. -/
def Repeats (st : Resolving σ) (e : ClientQuery) (q : Question) (result : ResolveResult) : Prop :=
  ∀ p edns between e' pkt', (e.outcome h st).response = .reply p edns →
    (∀ event ∈ between, Lives h e result event.reading) → Lives h e result e'.clocks.lookup → AsksResolver h e' pkt' q →
      let outcome := e'.outcome h ((st.step h (.query e)).run h between)
      (CacheableResult result → .cacheHit ∈ outcome.metrics ∧
        ∃ p' edns', outcome.response = .reply p' edns' ∧ SameAnswer p p') ∧
      (result.rcode ≠ RCODE_NOERROR → result.rcode ≠ RCODE_NXDOMAIN →
        Untouched h (Cache.key q.name q.qtype) (st.step h (.query e)) between → .cacheHit ∈ outcome.metrics →
          ∀ p' edns', outcome.response = .reply p' edns' → p'.rcode ≠ RCODE_NOERROR)

/-- The results the cache can repeat. -/
def Repeatable (now : Nat) (q : Question) (dnssecOk : Bool) : ResolveResult × σ → Prop
  | (.Answer upstream, s) =>
    if upstream.rcode = RCODE_NOERROR then
      (upstream.answers = [] → ¬ upstream.HasSoa) ∧
      (upstream.answers ≠ [] → (∀ r ∈ upstream.answers, 0 < r.ttl) → rejected h now q dnssecOk upstream s = false ∧
        (∀ r ∈ upstream.answers, r.rtype ≠ .RRSIG) ∧ ∃ r ∈ upstream.answers, r.rtype ≠ .OPT)
    else upstream.rcode ≠ RCODE_NXDOMAIN ∧ (rejected h now q dnssecOk upstream s = true ∨ ¬ Cacheable upstream.answers)
  | (.NxDomain upstream, _) => ¬ upstream.HasSoa
  | (.ServFail _, _) => True

end

/-! What the cache still has. -/

section
variable {σ : Type} {h : Handler σ} {st : Resolving σ} {e : ClientQuery} {pkt : Packet} {q : Question} {k : CacheKey}
  {entry : CacheEntry}

theorem Cache.get_of_lookup {cache : Cache} {now : Nat} (hentry : cache.lookup (Cache.key q.name q.qtype) = some entry) :
    cache.get now q.name q.qtype = if now < entry.expires then some entry.value else none := by
  rw [Cache.get, hentry]

/-- An entry stays until it expires. -/
theorem lookup_run {events : List Event} (hentry : st.cache.lookup k = some entry)
    (hlive : ∀ event ∈ events, event.reading < entry.expires) : (st.run h events).cache.lookup k = some entry := by
  induction events generalizing st with
  | nil => exact hentry
  | cons event events ih =>
    suffices hstep : (st.step h event).cache.lookup k = some entry from
      ih hstep fun event' hevent' => hlive event' (List.mem_cons_of_mem _ hevent')
    cases event with
    | evict now =>
      have hnow : now < entry.expires := hlive _ List.mem_cons_self
      exact AList.mem_lookup_iff.mpr (List.mem_filter.mpr ⟨AList.mem_lookup_iff.mp hentry, by simpa using hnow⟩)
    | query e =>
      rcases step_stores (h := h) e st with ⟨q, value, ttl, ⟨pkt, hrec, -⟩, hcache⟩ | ⟨-, hcache⟩
      · by_cases hkey : Cache.key q.name q.qtype = k
        · -- the key is found, so the query is not sent upstream
          have hnow : e.clocks.lookup < entry.expires := hlive _ List.mem_cons_self
          have hmissed := hrec.missed
          rw [← hkey] at hentry
          rw [Cache.get_of_lookup hentry, if_pos hnow] at hmissed
          cases hmissed
        · rwa [hcache, Cache.insertValue, AList.lookup_insert_ne (Ne.symm hkey)]
      · rwa [hcache]

/-- Where nothing is stored there is only what was there. -/
theorem lookup_of_untouched {events : List Event} (huntouched : Untouched h k st events)
    (hentry : (st.run h events).cache.lookup k = some entry) : st.cache.lookup k = some entry := by
  induction events generalizing st with
  | nil => exact hentry
  | cons event events ih =>
    have hrest : Untouched h k (st.step h event) events := fun before e after q value ttl heq hstores =>
      huntouched (event :: before) e after q value ttl (by rw [heq, List.cons_append]) hstores
    have hstep := ih hrest hentry
    cases event with
    | evict now => exact Cache.lookup_of_evictExpired hstep
    | query e =>
      rcases step_stores (h := h) e st with ⟨q, value, ttl, hstores, hcache⟩ | ⟨-, hcache⟩
      · have hkey := huntouched [] e events q value ttl rfl hstores
        rwa [hcache, Cache.insertValue, AList.lookup_insert_ne (Ne.symm hkey)] at hstep
      · rwa [hcache] at hstep

variable {result : ResolveResult} {s' : σ} {value : CacheValue} {ttl : UInt32} {now : Nat} {dnssecOk : Bool}
  {upstream : Packet}

theorem kept_lifetime (hkept : kept h now q dnssecOk (result, s') = some (value, ttl)) : ttl = lifetime h result := by
  cases result with
  | Answer upstream =>
    rw [kept] at hkept
    split at hkept
    · cases hkept
    · obtain ⟨lowest, hlowest, hpair⟩ := Option.map_eq_some_iff.mp hkept
      rw [lifetime, (Option.filter_eq_some_iff.mp hlowest).1]
      exact (Prod.mk.inj hpair).2.symm
  | NxDomain upstream => exact (Prod.mk.inj (Option.some.inj hkept)).2.symm
  | ServFail reason => cases hkept

/-- A positive answer is kept when it is accepted and has a TTL to be kept for. -/
theorem kept_answer_isSome : (kept h now q dnssecOk (.Answer upstream, s')).isSome = true ↔
    rejected h now q dnssecOk upstream s' = false ∧ Cacheable upstream.answers := by
  rw [kept, Cacheable]
  cases hrejected : rejected h now q dnssecOk upstream s' with
  | true => simp
  | false =>
    cases minAnswerTtl upstream.answers with
    | none => simp
    | some ttl => by_cases hpos : 0 < ttl <;> simp [hpos, Option.filter]

variable (hrec : Recurses h e st pkt q) (hres : h.upstream.resolve q.name q.qtype st.upstream = (result, s'))
include hrec hres

theorem step_cache_of_recurses : (st.step h (.query e)).cache =
    st.cache.keep e.clocks.insert q (kept h e.clocks.validator q pkt.dnssecOk (result, s')) := by
  obtain ⟨metrics, houtcome⟩ := outcome_of_recurses hrec
  rw [Resolving.step, houtcome, ← hres]
  exact recursiveAnswer_cache

/-- What was stored is found as long as it lives. -/
theorem get_of_kept (hkept : kept h e.clocks.validator q pkt.dnssecOk (result, s') = some (value, ttl))
    {between : List Event} (hbetween : ∀ event ∈ between, Lives h e result event.reading)
    (hnow : Lives h e result now) :
    ((st.step h (.query e)).run h between).cache.get now q.name q.qtype = some value := by
  have hentry : (st.step h (.query e)).cache.lookup (Cache.key q.name q.qtype) =
      some ⟨value, expiry h e.clocks.insert result, ttl⟩ := by
    rw [step_cache_of_recurses hrec hres, hkept, Cache.keep, Cache.insertValue, AList.lookup_insert, expiry,
      kept_lifetime hkept]
  rw [Cache.get_of_lookup (lookup_run hentry fun event hevent => (hbetween event hevent).expires), if_pos hnow.expires]

/-- Where nothing was stored, nothing is found later. -/
theorem get_of_not_kept (hkept : kept h e.clocks.validator q pkt.dnssecOk (result, s') = none) {between : List Event}
    (huntouched : Untouched h (Cache.key q.name q.qtype) (st.step h (.query e)) between) (hnow : e.clocks.lookup ≤ now) :
    ((st.step h (.query e)).run h between).cache.get now q.name q.qtype = none := by
  cases hentry : ((st.step h (.query e)).run h between).cache.lookup (Cache.key q.name q.qtype) with
  | none => rw [Cache.get, hentry]
  | some entry =>
    have hbefore : st.cache.lookup (Cache.key q.name q.qtype) = some entry := by
      have hstep := lookup_of_untouched huntouched hentry
      rwa [step_cache_of_recurses hrec hres, hkept] at hstep
    have hmissed := hrec.missed
    rw [Cache.get_of_lookup hbefore] at hmissed
    rw [Cache.get_of_lookup hentry, if_neg]
    intro hlive
    rw [if_pos (hnow.trans_lt hlive)] at hmissed
    cases hmissed

end

/-! The two replies. -/

section
variable {σ : Type} {h : Handler σ} {st : Resolving σ} {e : ClientQuery} {pkt : Packet} {q : Question}

/-- The reply that is made of what is found. -/
def fromCache (resp : Packet) : CacheValue → Packet
  | .Records records => { resp with answers := records }
  | .Negative .NxDomain => resp.setRcode RCODE_NXDOMAIN
  | .Negative .NoData => resp

theorem outcome_of_found {value : CacheValue} (hask : AsksResolver h e pkt q)
    (hfound : st.cache.get e.clocks.lookup q.name q.qtype = some value) : .cacheHit ∈ (e.outcome h st).metrics ∧
      (e.outcome h st).response = .reply (fromCache (baseResponse pkt) value) (pkt.ednsUdpSize > 0) := by
  rw [outcome_of_asksResolver hask]
  unfold cachedAnswer
  rw [hfound]
  rcases value with records | ⟨⟨⟩⟩ <;> exact ⟨List.mem_append_right _ List.mem_cons_self, rfl⟩

theorem recursiveAnswer_no_hit {clocks : Clocks} {dnssecOk : Bool} {resp : Packet} {cache : Cache} {s : σ} :
    .cacheHit ∉ (recursiveAnswer h clocks q dnssecOk resp cache s).metrics := by
  unfold recursiveAnswer
  split
  · split
    · simp
    · simp only [finishMetrics]
      split <;> split <;> simp
  · simp only [finishMetrics]
    split <;> simp
  · simp only [finishMetrics]
    split <;> simp

theorem outcome_of_not_found (hask : AsksResolver h e pkt q)
    (hnone : st.cache.get e.clocks.lookup q.name q.qtype = none) : .cacheHit ∉ (e.outcome h st).metrics := by
  rw [outcome_of_asksResolver hask]
  unfold cachedAnswer
  rw [hnone]
  have hcounted : ∀ rest : List Metric, .cacheHit ∉ rest →
      .cacheHit ∉ (if e.recursion ≠ .Resume then [Metric.query] else []) ++ rest := by
    intro rest hrest
    split <;> simpa using hrest
  apply hcounted
  have hmiss : Metric.cacheHit ∉ if e.recursion ≠ .Resume then [Metric.cacheMiss] else [] := by
    split <;> simp
  dsimp only
  split
  · exact hmiss
  · split
    · exact hmiss
    · intro hmem
      rcases List.mem_append.mp hmem with hmem | hmem
      · exact hmiss hmem
      · exact recursiveAnswer_no_hit hmem

theorem rcode_fromCache (value : CacheValue) : (fromCache (baseResponse pkt) value).rcode =
    if value = .Negative .NxDomain then RCODE_NXDOMAIN else RCODE_NOERROR := by
  have hbase : (baseResponse pkt).rcode = RCODE_NOERROR := by
    have hrd : (0x0100 : UInt16) &&& 0xF = 0 := rfl
    simp only [Packet.rcode, baseResponse, Packet.newResponse, or_and]
    rw [UInt16.and_assoc pkt.flags, hrd, UInt16.and_zero]
    rfl
  rcases value with records | ⟨⟨⟩⟩
  · exact hbase
  · exact rcode_setRcode _ (by decide)
  · exact hbase

/-- The first reply to an accepted answer. -/
theorem outcome_of_answer {upstream : Packet} {s' : σ} (hrec : Recurses h e st pkt q)
    (hres : h.upstream.resolve q.name q.qtype st.upstream = (.Answer upstream, s'))
    (haccepted : rejected h e.clocks.validator q pkt.dnssecOk upstream s' = false) :
    ∃ p edns, (e.outcome h st).response = .reply p edns ∧ p.rcode = upstream.rcode ∧ p.answers = upstream.answers ∧
      p.authority = upstream.authority := by
  obtain ⟨metrics, houtcome⟩ := outcome_of_recurses hrec
  rw [houtcome]
  unfold recursiveAnswer
  rw [hres]
  dsimp only
  split
  · next hbogus =>
    rw [rejected, hbogus] at haccepted
    cases haccepted
  · exact ⟨_, _, rfl, rcode_setRcode_rcode _, rfl, rfl⟩

/-- The first reply where there is no such name. -/
theorem outcome_of_nxDomain {upstream : Packet} {s' : σ} (hrec : Recurses h e st pkt q)
    (hres : h.upstream.resolve q.name q.qtype st.upstream = (.NxDomain upstream, s')) :
    ∃ p edns, (e.outcome h st).response = .reply p edns ∧ p.rcode = RCODE_NXDOMAIN ∧ p.answers = [] ∧
      p.authority = upstream.authority := by
  obtain ⟨metrics, houtcome⟩ := outcome_of_recurses hrec
  rw [houtcome]
  unfold recursiveAnswer
  rw [hres]
  exact ⟨_, _, rfl, rcode_setRcode _ (by decide), rfl, rfl⟩

/-- The same query, asked again at the time of the fetch. -/
def ClientQuery.again (e : ClientQuery) : ClientQuery := { e with clocks := { e.clocks with lookup := e.clocks.insert } }

theorem Recurses.again (hrec : Recurses h e st pkt q) : AsksResolver h e.again pkt q :=
  ⟨⟨hrec.asks.length, hrec.asks.query, hrec.asks.verified, hrec.asks.parse, hrec.asks.response, hrec.asks.opcode,
    hrec.asks.question⟩, hrec.zone, hrec.allowed⟩

theorem lives_again (result : ResolveResult) : Lives h e result e.again.clocks.lookup := by
  refine ⟨le_rfl, ?_⟩
  have hclamp : ∀ a b : UInt32, a = 1 ∨ b = 1 → 0 < (max a b).toNat := by
    intro a b hone
    change 0 < (if a ≤ b then b else a).toNat
    simp only [UInt32.le_iff_toNat_le]
    rcases hone with rfl | rfl <;> split <;> simp only [UInt32.toNat_one] at * <;> omega
  have hpos : 0 < (lifetime h result).toNat := by
    unfold lifetime
    split
    · split
      · exact hclamp _ _ (.inl rfl)
      · exact hclamp _ _ (.inr rfl)
    · exact hclamp _ _ (.inr rfl)
    · decide
  exact Nat.lt_add_of_pos_right (Nat.mul_pos hpos (by decide))

end

/-! When the cache repeats. -/

theorem cacheable_of_ttl {answers : List Record} (httl : ∀ r ∈ answers, 0 < r.ttl) {r : Record} (hr : r ∈ answers)
    (hunsigned : r.rtype ≠ .RRSIG) (htype : r.rtype ≠ .OPT) : Cacheable answers := by
  have hmem : r.ttl ∈ (answers.filter fun r => r.rtype ≠ .RRSIG ∧ r.rtype ≠ .OPT).map (·.ttl) :=
    List.mem_map.mpr ⟨r, List.mem_filter.mpr ⟨hr, by simpa using ⟨hunsigned, htype⟩⟩, rfl⟩
  obtain ⟨lowest, hlowest⟩ := Option.ne_none_iff_exists'.mp fun hnone =>
    List.ne_nil_of_mem hmem (List.min?_eq_none_iff.mp hnone)
  obtain ⟨r', hr', rfl⟩ := List.mem_map.mp (List.min?_mem hlowest)
  exact ⟨r'.ttl, hlowest, httl r' (List.mem_filter.mp hr').1⟩

section
variable {σ : Type} {h : Handler σ} {st : Resolving σ} {e : ClientQuery} {pkt : Packet} {q : Question}
  {result : ResolveResult} {s' : σ} (hrec : Recurses h e st pkt q)
  (hres : h.upstream.resolve q.name q.qtype st.upstream = (result, s')) (hclock : e.clocks.lookup ≤ e.clocks.insert)
include hrec hres

/-- What is kept of a result has to be the same answer. -/
theorem repeats_of_kept {value : CacheValue}
    {ttl : UInt32} (hkept : kept h e.clocks.validator q pkt.dnssecOk (result, s') = some (value, ttl))
    (hsame : CacheableResult result → ∀ p edns pkt', (e.outcome h st).response = .reply p edns →
      SameAnswer p (fromCache (baseResponse pkt') value))
    (hother : result.rcode ≠ RCODE_NOERROR → result.rcode ≠ RCODE_NXDOMAIN → value = .Negative .NxDomain) :
    Repeats h st e q result := by
  intro p edns between e' pkt' hfirst hbetween hnow hask
  obtain ⟨hhit, hsecond⟩ := outcome_of_found hask (get_of_kept hrec hres hkept hbetween hnow)
  refine ⟨fun hcacheable => ⟨hhit, _, _, hsecond, hsame hcacheable p edns pkt' hfirst⟩, ?_⟩
  intro hnoerror hnxdomain _ _ p' edns' hreply
  obtain ⟨rfl, -⟩ := Response.reply.inj (hsecond.symm.trans hreply)
  rw [rcode_fromCache, if_pos (hother hnoerror hnxdomain)]
  decide

include hclock

/-- What is not kept has to be no answer. -/
theorem repeats_of_not_kept (hkept : kept h e.clocks.validator q pkt.dnssecOk (result, s') = none)
    (hno : ¬ CacheableResult result) : Repeats h st e q result := by
  intro p edns between e' pkt' _ _ hnow hask
  refine ⟨fun hcacheable => absurd hcacheable hno, fun _ _ huntouched hhit => ?_⟩
  have hnone := get_of_not_kept hrec hres hkept huntouched (hclock.trans hnow.fetched)
  exact absurd hhit (outcome_of_not_found hask hnone)

omit hclock in
theorem exists_reply : ∃ p edns, (e.outcome h st).response = .reply p edns := by
  obtain ⟨metrics, houtcome⟩ := outcome_of_recurses hrec
  rw [houtcome]
  unfold recursiveAnswer
  rw [hres]
  cases result with
  | Answer upstream =>
    dsimp only
    split <;> exact ⟨_, _, rfl⟩
  | NxDomain upstream => exact ⟨_, _, rfl⟩
  | ServFail reason => exact ⟨_, _, rfl⟩

/-- What the cache repeats is kept, if it is to be cached. -/
theorem Repeats.isSome (hrepeats : Repeats h st e q result) (hcacheable : CacheableResult result) :
    (kept h e.clocks.validator q pkt.dnssecOk (result, s')).isSome = true := by
  cases hkept : kept h e.clocks.validator q pkt.dnssecOk (result, s') with
  | some entry => rfl
  | none =>
    have huntouched : Untouched h (Cache.key q.name q.qtype) (st.step h (.query e)) [] :=
      fun before e after q value ttl heq => by simp at heq
    have hnone := get_of_not_kept hrec hres hkept huntouched hclock
    obtain ⟨p, edns, hfirst⟩ := exists_reply hrec hres
    have hagain := hrepeats p edns [] e.again pkt hfirst (fun event hevent => nomatch hevent)
      (lives_again result) hrec.again
    exact absurd (hagain.1 hcacheable).1 (outcome_of_not_found hrec.again hnone)

omit hclock in
/-- What is kept is the same answer, and no success where there was none. -/
theorem Repeats.again (hrepeats : Repeats h st e q result) {value : CacheValue} {ttl : UInt32}
    (hkept : kept h e.clocks.validator q pkt.dnssecOk (result, s') = some (value, ttl)) :
    (∀ p edns, (e.outcome h st).response = .reply p edns → CacheableResult result →
      SameAnswer p (fromCache (baseResponse pkt) value)) ∧
    (result.rcode ≠ RCODE_NOERROR → result.rcode ≠ RCODE_NXDOMAIN → value = .Negative .NxDomain) := by
  have hlives : ∀ event ∈ ([] : List Event), Lives h e result event.reading := fun event hevent => nomatch hevent
  have huntouched : Untouched h (Cache.key q.name q.qtype) (st.step h (.query e)) [] :=
    fun before e after q value ttl heq => by simp at heq
  obtain ⟨hhit, hsecond⟩ := outcome_of_found hrec.again (get_of_kept hrec hres hkept hlives (lives_again result))
  constructor
  · intro p edns hfirst hcacheable
    obtain ⟨-, p', edns', hreply, hsame⟩ :=
      (hrepeats p edns [] e.again pkt hfirst hlives (lives_again result) hrec.again).1 hcacheable
    obtain ⟨rfl, -⟩ := Response.reply.inj (hsecond.symm.trans hreply)
    exact hsame
  · intro hnoerror hnxdomain
    obtain ⟨p, edns, hfirst⟩ := exists_reply hrec hres
    have hrcode := (hrepeats p edns [] e.again pkt hfirst hlives (lives_again result) hrec.again).2 hnoerror hnxdomain
      huntouched hhit _ _ hsecond
    rw [rcode_fromCache] at hrcode
    by_contra hvalue
    exact hrcode (if_neg hvalue)

end

section
variable {σ : Type} {h : Handler σ} {st : Resolving σ} {e : ClientQuery} {pkt : Packet} {q : Question}
  {upstream : Packet} {s' : σ} (hrec : Recurses h e st pkt q) (hclock : e.clocks.lookup ≤ e.clocks.insert)
include hrec

theorem repeats_nxDomain_iff (hres : h.upstream.resolve q.name q.qtype st.upstream = (.NxDomain upstream, s')) :
    Repeats h st e q (.NxDomain upstream) ↔ ¬ upstream.HasSoa := by
  obtain ⟨p, edns, hfirst, hrcode, hanswers, hauthority⟩ := outcome_of_nxDomain hrec hres
  constructor
  · rintro hrepeats ⟨soa, hsoa, htype⟩
    have hsame := (hrepeats.again hrec hres rfl).1 p edns hfirst (.nxDomain rfl)
    obtain ⟨soa', hsoa', -⟩ := hsame.soa (.inl hrcode) ⟨soa, by rwa [hauthority], htype⟩
    cases hsoa'
  · intro hno
    refine repeats_of_kept hrec hres rfl (fun _ p' edns' pkt' hfirst' => ?_) (fun _ hnxdomain => absurd rfl hnxdomain)
    obtain ⟨rfl, -⟩ := Response.reply.inj (hfirst.symm.trans hfirst')
    refine ⟨?_, by rw [hanswers]; rfl, fun _ ⟨soa, hsoa, htype⟩ => absurd ⟨soa, by rwa [hauthority] at hsoa, htype⟩ hno⟩
    rw [rcode_fromCache, hrcode]
    rfl

include hclock

theorem repeats_servFail {reason : String}
    (hres : h.upstream.resolve q.name q.qtype st.upstream = (.ServFail reason, s')) :
    Repeats h st e q (.ServFail reason) := by
  refine repeats_of_not_kept hrec hres hclock rfl fun hcacheable => ?_
  cases hcacheable with
  | nxDomain hrcode => exact absurd (show RCODE_SERVFAIL = RCODE_NXDOMAIN from hrcode) (by decide)

variable (hres : h.upstream.resolve q.name q.qtype st.upstream = (.Answer upstream, s'))
include hres

/-- An answer without records is not kept. -/
theorem repeats_noData_iff (hrcode : upstream.rcode = RCODE_NOERROR) (hempty : upstream.answers = []) :
    Repeats h st e q (.Answer upstream) ↔ ¬ upstream.HasSoa := by
  have hnot : ¬ (kept h e.clocks.validator q pkt.dnssecOk (.Answer upstream, s')).isSome = true := by
    rw [kept_answer_isSome, hempty]
    rintro ⟨-, hcacheable⟩
    obtain ⟨r, hr, -⟩ := Cacheable.exists_mem hcacheable
    cases hr
  constructor
  · rintro hrepeats ⟨soa, hsoa, htype⟩
    exact hnot (hrepeats.isSome hrec hres hclock (.noData hrcode hempty hsoa htype))
  · intro hno
    refine repeats_of_not_kept hrec hres hclock (Option.not_isSome_iff_eq_none.mp hnot) fun hcacheable => ?_
    cases hcacheable with
    | answer _ hanswers => exact hanswers hempty
    | nxDomain hnxdomain => exact absurd (hrcode.symm.trans hnxdomain) (by decide)
    | noData _ _ hsoa htype => exact hno ⟨_, hsoa, htype⟩

/-- Records are kept without their signatures. -/
theorem repeats_answer_iff (hrcode : upstream.rcode = RCODE_NOERROR) (hanswers : upstream.answers ≠ [])
    (httl : ∀ r ∈ upstream.answers, 0 < r.ttl) : Repeats h st e q (.Answer upstream) ↔
      rejected h e.clocks.validator q pkt.dnssecOk upstream s' = false ∧
        (∀ r ∈ upstream.answers, r.rtype ≠ .RRSIG) ∧ ∃ r ∈ upstream.answers, r.rtype ≠ .OPT := by
  constructor
  · intro hrepeats
    have hsome := hrepeats.isSome hrec hres hclock (.answer hrcode hanswers httl)
    obtain ⟨haccepted, hcacheable⟩ := kept_answer_isSome.mp hsome
    obtain ⟨⟨value, ttl⟩, hkept⟩ := Option.isSome_iff_exists.mp hsome
    obtain ⟨p, edns, hfirst, -, hsent, -⟩ := outcome_of_answer hrec hres haccepted
    have hsame := ((hrepeats.again hrec hres hkept).1 p edns hfirst (.answer hrcode hanswers httl)).answers
    rw [(kept_answer hkept).1, hsent] at hsame
    have hlength := congrArg List.length hsame
    rw [List.length_map, List.length_map] at hlength
    have hall := List.length_filter_eq_length_iff.mp hlength
    obtain ⟨r, hr, -, htype⟩ := Cacheable.exists_mem hcacheable
    exact ⟨haccepted, fun r hr => by simpa using hall r hr, r, hr, htype⟩
  · rintro ⟨haccepted, hunsigned, r, hr, htype⟩
    have hfilter : upstream.answers.filter (fun r => r.rtype ≠ .RRSIG) = upstream.answers :=
      List.filter_eq_self.mpr fun r hr => by simpa using hunsigned r hr
    obtain ⟨⟨value, ttl⟩, hkept⟩ := Option.isSome_iff_exists.mp
      (kept_answer_isSome.mpr ⟨haccepted, cacheable_of_ttl httl hr (hunsigned r hr) htype⟩)
    refine repeats_of_kept hrec hres hkept (fun _ p edns pkt' hfirst => ?_) (fun hno _ => absurd hrcode hno)
    obtain ⟨p', edns', hfirst', hfirstRcode, hsent, -⟩ := outcome_of_answer hrec hres haccepted
    obtain ⟨rfl, -⟩ := Response.reply.inj (hfirst'.symm.trans hfirst)
    rw [(kept_answer hkept).1, hfilter]
    refine ⟨?_, by rw [hsent]; rfl, ?_⟩
    · rw [rcode_fromCache, hfirstRcode, hrcode]
      rfl
    · rintro (hnxdomain | hempty)
      · exact absurd (hrcode.symm.trans (hfirstRcode.symm.trans hnxdomain)) (by decide)
      · exact absurd (hsent.symm.trans hempty) hanswers

/-- A failure must not be kept. -/
theorem repeats_failure_iff (hrcode : upstream.rcode ≠ RCODE_NOERROR) : Repeats h st e q (.Answer upstream) ↔
    upstream.rcode ≠ RCODE_NXDOMAIN ∧
      (rejected h e.clocks.validator q pkt.dnssecOk upstream s' = true ∨ ¬ Cacheable upstream.answers) := by
  constructor
  · intro hrepeats
    have hnxdomain : upstream.rcode ≠ RCODE_NXDOMAIN := by
      intro hnxdomain
      have hsome := hrepeats.isSome hrec hres hclock (.nxDomain hnxdomain)
      obtain ⟨⟨value, ttl⟩, hkept⟩ := Option.isSome_iff_exists.mp hsome
      obtain ⟨p, edns, hfirst, hfirstRcode, -⟩ := outcome_of_answer hrec hres (kept_answer_isSome.mp hsome).1
      have hsame := ((hrepeats.again hrec hres hkept).1 p edns hfirst (.nxDomain hnxdomain)).rcode
      rw [rcode_fromCache, (kept_answer hkept).1, hfirstRcode] at hsame
      exact hrcode hsame.symm
    refine ⟨hnxdomain, ?_⟩
    by_contra hboth
    rw [not_or, not_not, Bool.not_eq_true] at hboth
    obtain ⟨⟨value, ttl⟩, hkept⟩ := Option.isSome_iff_exists.mp (kept_answer_isSome.mpr hboth)
    have hvalue := (hrepeats.again hrec hres hkept).2 hrcode hnxdomain
    rw [(kept_answer hkept).1] at hvalue
    cases hvalue
  · rintro ⟨hnxdomain, hnot⟩
    have hnone : kept h e.clocks.validator q pkt.dnssecOk (.Answer upstream, s') = none := by
      rw [← Option.not_isSome_iff_eq_none, kept_answer_isSome]
      rintro ⟨haccepted, hcacheable⟩
      rcases hnot with hrejected | hnot
      · rw [haccepted] at hrejected
        cases hrejected
      · exact hnot hcacheable
    refine repeats_of_not_kept hrec hres hclock hnone fun hcacheable => ?_
    cases hcacheable with
    | answer hnoerror => exact hrcode hnoerror
    | nxDomain hrcode' => exact hnxdomain hrcode'
    | noData hnoerror => exact hrcode hnoerror

end

/-- **When cached answers repeat the fetched one.** Asked again while the entry lives, a question that was sent upstream
    is answered from the cache as it was the first time, if and only if upstream's answer has no signatures and is not
    rejected, its negative answer has no SOA, and its failures have nothing to cache. -/
theorem repeats_iff {σ : Type} (h : Handler σ) (st : Resolving σ) (e : ClientQuery) (pkt : Packet) (q : Question)
    (hrec : Recurses h e st pkt q) (hclock : e.clocks.lookup ≤ e.clocks.insert) :
    Repeats h st e q (h.upstream.resolve q.name q.qtype st.upstream).1 ↔
      Repeatable h e.clocks.validator q pkt.dnssecOk (h.upstream.resolve q.name q.qtype st.upstream) := by
  cases hres : h.upstream.resolve q.name q.qtype st.upstream with
  | mk result s' =>
    cases result with
    | NxDomain upstream => exact repeats_nxDomain_iff hrec hres
    | ServFail reason => exact iff_of_true (repeats_servFail hrec hclock hres) trivial
    | Answer upstream =>
      rw [Repeatable]
      split
      · next hrcode =>
        by_cases hempty : upstream.answers = []
        · rw [repeats_noData_iff hrec hclock hres hrcode hempty]
          exact ⟨fun hno => ⟨fun _ => hno, fun hrecords => absurd hempty hrecords⟩, fun hboth => hboth.1 hempty⟩
        · by_cases httl : ∀ r ∈ upstream.answers, 0 < r.ttl
          · rw [repeats_answer_iff hrec hclock hres hrcode hempty httl]
            exact ⟨fun hsame => ⟨fun hno => absurd hno hempty, fun _ _ => hsame⟩, fun hboth => hboth.2 hempty httl⟩
          · -- nothing is asked of such a result
            refine iff_of_true ?_ ⟨fun hno => absurd hno hempty, fun _ hall => absurd hall httl⟩
            intro p edns between e' pkt' _ _ _ _
            refine ⟨fun hcacheable => ?_, fun hno => absurd hrcode hno⟩
            cases hcacheable with
            | answer _ _ hall => exact absurd hall httl
            | nxDomain hnxdomain => exact absurd (hrcode.symm.trans hnxdomain) (by decide)
            | noData _ hanswers => exact absurd hanswers hempty
      · next hrcode => exact repeats_failure_iff hrec hclock hres hrcode

theorem repeats_iff_www : Repeats (strictHandler plainReply) (.start ()) (laterClient 0) ⟨wwwCom, .A, CLASS_IN⟩
      (.Answer plainReply) ↔
    Repeatable (strictHandler plainReply) 0 ⟨wwwCom, .A, CLASS_IN⟩ false (.Answer plainReply, ()) :=
  repeats_iff (strictHandler plainReply) (.start ()) (laterClient 0) (wwwQuery false) ⟨wwwCom, .A, CLASS_IN⟩
    (laterClient_recurses plainReply) (by decide)

/-- The name has no address, says the SOA of its zone. -/
def noDataReply : Packet :=
  { upstreamReply [] [] with
    authority := [⟨"com.".toList, .SOA, CLASS_IN, 900, [0, 0] ++ List.replicate 20 1⟩] }

/-- It is asked for upstream again, as if it had not been answered. -/
theorem noDataReply_not_repeated : noDataReply.rcode = RCODE_NOERROR ∧ CacheableResult (.Answer noDataReply) ∧
    ¬ Repeats (strictHandler noDataReply) (.start ()) (laterClient 0) ⟨wwwCom, .A, CLASS_IN⟩ (.Answer noDataReply) := by
  have hsoa : noDataReply.HasSoa := ⟨_, List.mem_cons_self, rfl⟩
  refine ⟨by decide, .noData (by decide) rfl List.mem_cons_self rfl, fun hrepeats => ?_⟩
  have hres : (strictHandler noDataReply).upstream.resolve wwwCom .A () = (.Answer noDataReply, ()) := rfl
  exact (repeats_noData_iff (laterClient_recurses noDataReply) (by decide) hres (by decide) rfl).mp hrepeats hsoa

end Ironbind
