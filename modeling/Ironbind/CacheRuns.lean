import Ironbind.StrictRuns

/- The cache over whole runs. A query that is sent upstream stores what `kept` makes of
   the result, under the name and type it asked for, and no other event adds anything
   (`step_cache`). From it come the number of entries a run can reach
   (`run_size_le_iff`), and what the records answered from the cache have left of the
   TTL they were fetched with (`run_ttl_iff`). -/
namespace Ironbind
open Codec

/-! What a query stores. -/

section
variable {σ : Type} (h : Handler σ)

/-- The query is answered from the cache or from upstream. -/
structure AsksResolver (e : ClientQuery) (pkt : Packet) (q : Question) : Prop where
  asks : Asks h e.clocks e.data pkt q
  zone : authoritativeZone e.zones q.name = none
  allowed : h.config.allowRecursion.any (fun network => network.contains e.peer) = true

/-- The query is sent upstream. -/
structure Recurses (e : ClientQuery) (st : Resolving σ) (pkt : Packet) (q : Question) : Prop
    extends AsksResolver h e pkt q where
  missed : st.cache.get e.clocks.lookup q.name q.qtype = none
  desired : pkt.rd = true
  notDeferred : e.recursion ≠ .Defer

/-- The validation finds the answer Bogus: the client gets SERVFAIL in its place. -/
def rejected (now : Nat) (q : Question) (dnssecOk : Bool) (upstream : Packet) (s : σ) : Bool :=
  match (validateUpstream h now q dnssecOk upstream s).1 with
  | some (.Bogus _) => true
  | _ => false

/-- How long a negative answer is kept, from the SOA that came with it. -/
def negativeTtl (upstream : Packet) : UInt32 :=
  max (min (((upstream.authority.find? fun r => r.rtype = .SOA).map fun r => soaMinimumTtl r.rdata).getD
    h.config.negCacheTtl) 10800) 1

/-- What the cache keeps of a result, and for how many seconds. -/
def kept (now : Nat) (q : Question) (dnssecOk : Bool) : ResolveResult × σ → Option (CacheValue × UInt32)
  | (.Answer upstream, s) =>
    if rejected h now q dnssecOk upstream s then none
    else
      ((minAnswerTtl upstream.answers).filter (0 < ·)).map fun ttl =>
        (.Records (upstream.answers.filter fun r => r.rtype ≠ .RRSIG), max 1 (min ttl 86400))
  | (.NxDomain upstream, _) => some (.Negative .NxDomain, negativeTtl h upstream)
  | (.ServFail _, _) => none

def Cache.keep (cache : Cache) (now : Nat) (q : Question) : Option (CacheValue × UInt32) → Cache
  | some (value, ttl) => cache.insertValue now q.name q.qtype value ttl
  | none => cache

/-- The query is sent upstream, and what comes back is stored. -/
def Stores (e : ClientQuery) (st : Resolving σ) (q : Question) (value : CacheValue) (ttl : UInt32) : Prop :=
  ∃ pkt, Recurses h e st pkt q ∧
    kept h e.clocks.validator q pkt.dnssecOk (h.upstream.resolve q.name q.qtype st.upstream) = some (value, ttl)

end

theorem Recurses.question_unique {σ : Type} {h : Handler σ} {e : ClientQuery} {st : Resolving σ} {pkt pkt' : Packet}
    {q q' : Question} (hrec : Recurses h e st pkt q) (hrec' : Recurses h e st pkt' q') : pkt = pkt' ∧ q = q' := by
  obtain rfl := Except.ok.inj (hrec.asks.parse.symm.trans hrec'.asks.parse)
  exact ⟨rfl, Option.some.inj (hrec.asks.question.symm.trans hrec'.asks.question)⟩

section
variable {σ : Type} {h : Handler σ} {clocks : Clocks} {q : Question} {dnssecOk : Bool} {resp : Packet} {cache : Cache}
  {s : σ} {e : ClientQuery} {st : Resolving σ}

theorem recursiveAnswer_cache : (recursiveAnswer h clocks q dnssecOk resp cache s).cache =
    cache.keep clocks.insert q (kept h clocks.validator q dnssecOk (h.upstream.resolve q.name q.qtype s)) := by
  unfold recursiveAnswer kept
  generalize h.upstream.resolve q.name q.qtype s = resolved
  obtain ⟨result, s'⟩ := resolved
  cases result with
  | Answer upstream =>
    dsimp only
    split
    · next hbogus =>
      have hrejected : rejected h clocks.validator q dnssecOk upstream s' = true := by rw [rejected, hbogus]
      rw [if_pos hrejected]
      rfl
    · next result validations s'' hnot hresult =>
      have haccepted : ¬ rejected h clocks.validator q dnssecOk upstream s' = true := by
        rw [rejected, hresult]
        split
        · next why hwhy => exact absurd hwhy (hnot why)
        · exact Bool.false_ne_true
      rw [if_neg haccepted]
      unfold cacheAnswer
      cases minAnswerTtl upstream.answers with
      | none => rfl
      | some ttl =>
        by_cases hpos : 0 < ttl
        · simp [hpos, Cache.keep, Cache.insertPositive, Option.filter]
        · simp [hpos, Cache.keep, Option.filter]
  | NxDomain upstream => rfl
  | ServFail reason => rfl

theorem outcome_of_asksResolver {pkt : Packet} (hask : AsksResolver h e pkt q) : e.outcome h st =
    let outcome := cachedAnswer h e.clocks e.recursion pkt.rd q pkt.dnssecOk (baseResponse pkt) st.cache st.upstream
    { outcome with metrics := (if e.recursion ≠ .Resume then [.query] else []) ++ outcome.metrics } := by
  rw [ClientQuery.outcome, handleQuery_of_asks hask.asks]
  simp only [answerQuestion, hask.zone, hask.allowed, Bool.not_true, Bool.false_eq_true, if_false]

/-- What a query that is sent upstream comes to. -/
theorem outcome_of_recurses {pkt : Packet} (hrec : Recurses h e st pkt q) : ∃ metrics, e.outcome h st =
    { recursiveAnswer h e.clocks q pkt.dnssecOk (baseResponse pkt).setRa st.cache st.upstream with
      metrics := metrics } := by
  rw [outcome_of_asksResolver hrec.toAsksResolver]
  simp only [cachedAnswer, hrec.missed, hrec.desired, hrec.notDeferred, Bool.not_true, Bool.false_eq_true, if_false]
  exact ⟨_, rfl⟩

/-- **The step of the cache.** A query sent upstream stores what is kept of the result; no other query stores
    anything. -/
theorem step_cache (e : ClientQuery) (st : Resolving σ) :
    (∃ pkt q, Recurses h e st pkt q ∧ (st.step h (.query e)).cache = st.cache.keep e.clocks.insert q
      (kept h e.clocks.validator q pkt.dnssecOk (h.upstream.resolve q.name q.qtype st.upstream))) ∨
    ((∀ pkt q, ¬ Recurses h e st pkt q) ∧ (st.step h (.query e)).cache = st.cache) := by
  by_cases hrec : ∃ pkt q, Recurses h e st pkt q
  · obtain ⟨pkt, q, hrec⟩ := hrec
    obtain ⟨metrics, houtcome⟩ := outcome_of_recurses hrec
    refine .inl ⟨pkt, q, hrec, ?_⟩
    rw [Resolving.step, houtcome]
    exact recursiveAnswer_cache
  · refine .inr ⟨fun pkt q h => hrec ⟨pkt, q, h⟩, ?_⟩
    rcases outcome_cases e st with ⟨pkt, q, metrics, hask, hzone, hallowed, houtcome⟩ | ⟨hcache, -⟩
    · rw [Resolving.step, houtcome]
      dsimp only
      unfold cachedAnswer
      split
      · rfl
      · rfl
      · rfl
      · next hmissed =>
        cases hdesired : pkt.rd with
        | false => rfl
        | true =>
          by_cases hdefer : e.recursion = .Defer
          · rw [hdefer]
            rfl
          · exact absurd ⟨pkt, q, ⟨hask, hzone, hallowed⟩, hmissed, hdesired, hdefer⟩ hrec
    · exact hcache

theorem step_stores (e : ClientQuery) (st : Resolving σ) :
    (∃ q value ttl, Stores h e st q value ttl ∧
      (st.step h (.query e)).cache = st.cache.insertValue e.clocks.insert q.name q.qtype value ttl) ∨
    ((∀ q value ttl, ¬ Stores h e st q value ttl) ∧ (st.step h (.query e)).cache = st.cache) := by
  rcases step_cache (h := h) e st with ⟨pkt, q, hrec, hcache⟩ | ⟨hrec, hcache⟩
  · cases hkept : kept h e.clocks.validator q pkt.dnssecOk (h.upstream.resolve q.name q.qtype st.upstream) with
    | some entry =>
      rw [hkept] at hcache
      exact .inl ⟨q, entry.1, entry.2, ⟨pkt, hrec, hkept⟩, hcache⟩
    | none =>
      rw [hkept] at hcache
      refine .inr ⟨?_, hcache⟩
      rintro q' value ttl ⟨pkt', hrec', hkept'⟩
      obtain ⟨rfl, rfl⟩ := hrec.question_unique hrec'
      rw [hkept] at hkept'
      cases hkept'
  · exact .inr ⟨fun q value ttl ⟨pkt, hrec', _⟩ => hrec pkt q hrec', hcache⟩

end

/-! How many entries there are. -/

theorem Cache.size_insertValue (cache : Cache) (now : Nat) (name : Text) (qtype : RType) (value : CacheValue)
    (ttl : UInt32) : (cache.insertValue now name qtype value ttl).size =
      if Cache.key name qtype ∈ cache then cache.size else cache.size + 1 := by
  have hsize : ∀ cache : Cache, cache.size = cache.keys.length := fun cache => (List.length_map _).symm
  rw [hsize, hsize]
  exact length_keys_insert cache _ _

section
variable {σ : Type} (h : Handler σ)

/-- The query stores something under a name and type that have no entry, not even an expired one. -/
def Grows (e : ClientQuery) (st : Resolving σ) : Prop :=
  ∃ q value ttl, Stores h e st q value ttl ∧ Cache.key q.name q.qtype ∉ st.cache

variable {h} {e : ClientQuery} {st : Resolving σ}

theorem step_size_of_grows (hgrows : Grows h e st) : (st.step h (.query e)).cache.size = st.cache.size + 1 := by
  obtain ⟨q, value, ttl, ⟨pkt, hrec, hkept⟩, hnew⟩ := hgrows
  rcases step_stores (h := h) e st with ⟨q', value', ttl', ⟨pkt', hrec', -⟩, hcache⟩ | ⟨hno, -⟩
  · obtain ⟨rfl, rfl⟩ := hrec.question_unique hrec'
    rw [hcache, Cache.size_insertValue, if_neg hnew]
  · exact absurd ⟨pkt, hrec, hkept⟩ (hno q value ttl)

theorem step_size_of_not_grows (hgrows : ¬ Grows h e st) : (st.step h (.query e)).cache.size = st.cache.size := by
  rcases step_stores (h := h) e st with ⟨q, value, ttl, hstores, hcache⟩ | ⟨-, hcache⟩
  · rw [hcache, Cache.size_insertValue, if_pos]
    by_contra hnew
    exact hgrows ⟨q, value, ttl, hstores, hnew⟩
  · rw [hcache]

theorem step_size_evict (now : Nat) : (st.step h (.evict now)).cache.size ≤ st.cache.size :=
  List.length_filter_le _ _

end

/-- **When the cache stays within its limit.** In a run of queries, upstream results and sweeps the cache never holds
    more than `max_entries` entries, if and only if no query stores something new in a full cache. -/
theorem run_size_le_iff {σ : Type} (h : Handler σ) (s : σ) (events : List Event) :
    (∀ before, before <+: events → ((Resolving.start s).run h before).cache.size ≤ h.config.cacheMax) ↔
      ∀ before e after, events = before ++ .query e :: after → Grows h e ((Resolving.start s).run h before) →
        ((Resolving.start s).run h before).cache.size < h.config.cacheMax := by
  constructor
  · rintro hle before e after rfl hgrows
    have hafter := hle (before ++ [.query e]) ⟨after, by simp⟩
    rw [Resolving.run, List.foldl_append] at hafter
    exact Nat.lt_of_succ_le ((step_size_of_grows hgrows).symm.le.trans hafter)
  · intro hroom
    refine Run.foldl_prefix (f := Resolving.step h) (P := fun st => st.cache.size ≤ h.config.cacheMax)
      (Nat.zero_le _) ?_
    intro before event after heq hle
    cases event with
    | evict now => exact (step_size_evict now).trans hle
    | query e =>
      by_cases hgrows : Grows h e ((Resolving.start s).run h before)
      · exact (step_size_of_grows hgrows).le.trans (hroom before e after heq hgrows)
      · exact (step_size_of_not_grows hgrows).le.trans hle

/-- A cache for one entry, and an upstream that knows no name. -/
def absentHandler : Handler Unit :=
  { plainHandler with
    config := ⟨false, false, [⟨.V4 0, 0⟩], 1, 300, false⟩
    upstream := ⟨fun _ _ s => (.NxDomain (upstreamReply [] []), s), comFetch⟩ }

def typeClient (qtype : RType) : ClientQuery :=
  ⟨[], noClocks, .V4 0, .Inline, serialize { wwwQuery false with questions := [⟨wwwCom, qtype, CLASS_IN⟩] } true⟩

/-- Two types of one name are two entries. -/
theorem absentRun_overfull : absentHandler.config.cacheMax = 1 ∧
    ¬ ∀ before, before <+: [Event.query (typeClient .A), .query (typeClient .AAAA)] →
      ((Resolving.start ()).run absentHandler before).cache.size ≤ absentHandler.config.cacheMax := by
  refine ⟨rfl, fun hle => ?_⟩
  have htwo : ((Resolving.start ()).run absentHandler [.query (typeClient .A), .query (typeClient .AAAA)]).cache.size =
      2 := by decide
  exact absurd (htwo.symm.le.trans (hle _ List.prefix_rfl)) (by decide)

/-! How old the answers are. -/

section
variable {σ : Type} (h : Handler σ)

/-- The query is answered with records from the cache. -/
structure Hits (e : ClientQuery) (st : Resolving σ) (pkt : Packet) (q : Question) (records : List Record) : Prop
    extends AsksResolver h e pkt q where
  found : st.cache.get e.clocks.lookup q.name q.qtype = some (.Records records)

/-- The answer that was stored last under a key in a run: when, and the records as they were fetched. -/
inductive Latest (s : σ) (k : CacheKey) : List Event → Nat → List Record → Prop
  | fetch {events : List Event} {e : ClientQuery} {pkt : Packet} {q : Question} {upstream : Packet} {s' : σ}
      (recurses : Recurses h e ((Resolving.start s).run h events) pkt q) (key : Cache.key q.name q.qtype = k)
      (answer : h.upstream.resolve q.name q.qtype ((Resolving.start s).run h events).upstream = (.Answer upstream, s'))
      (stored : (kept h e.clocks.validator q pkt.dnssecOk (.Answer upstream, s')).isSome) :
      Latest s k (events ++ [.query e]) e.clocks.insert upstream.answers
  | later {events : List Event} {event : Event} {now : Nat} {answers : List Record}
      (latest : Latest s k events now answers)
      (other : ∀ e q value ttl, event = .query e → Stores h e ((Resolving.start s).run h events) q value ttl →
        Cache.key q.name q.qtype ≠ k) : Latest s k (events ++ [event]) now answers

/-- The record that was fetched, with a TTL that is lower by the time elapsed at least. -/
structure Within (elapsed : Nat) (fetched sent : Record) : Prop where
  name : sent.name = fetched.name
  rtype : sent.rtype = fetched.rtype
  rclass : sent.rclass = fetched.rclass
  rdata : sent.rdata = fetched.rdata
  ttl : sent.ttl.toNat * nanosPerSec + elapsed ≤ fetched.ttl.toNat * nanosPerSec

/-- What a query is answered from the cache after a run is what was stored last, each record with at most what is left
    of its TTL. -/
def SendsWithin (s : σ) (before : List Event) (e : ClientQuery) : Prop :=
  ∀ pkt q records p edns, Hits h e ((Resolving.start s).run h before) pkt q records →
    (e.outcome h ((Resolving.start s).run h before)).response = .reply p edns →
      ∃ now answers, Latest h s (Cache.key q.name q.qtype) before now answers ∧
        List.Forall₂ (Within (e.clocks.lookup - now)) (answers.filter fun r => r.rtype ≠ .RRSIG) p.answers

/-- A query that is answered from the cache reads the clock no later than at the fetch. -/
def AtFetch (s : σ) (before : List Event) (e : ClientQuery) : Prop :=
  ∀ pkt q records now answers, Hits h e ((Resolving.start s).run h before) pkt q records →
    Latest h s (Cache.key q.name q.qtype) before now answers → e.clocks.lookup ≤ now

variable {h} {e : ClientQuery} {st : Resolving σ} {pkt : Packet} {q : Question} {s : σ} {k : CacheKey}
  {events : List Event}

theorem outcome_of_hits {records : List Record} (hhit : Hits h e st pkt q records) :
    (e.outcome h st).response = .reply { baseResponse pkt with answers := records } (pkt.ednsUdpSize > 0) := by
  rw [outcome_of_asksResolver hhit.toAsksResolver]
  simp only [cachedAnswer, hhit.found]
  rfl

theorem Cacheable.exists_mem {answers : List Record} (hcacheable : Cacheable answers) :
    ∃ r ∈ answers, r.rtype ≠ .RRSIG ∧ r.rtype ≠ .OPT := by
  obtain ⟨ttl, hlowest, -⟩ := hcacheable
  obtain ⟨r, hr, -⟩ := List.mem_map.mp (List.min?_mem hlowest)
  obtain ⟨hr, htype⟩ := List.mem_filter.mp hr
  exact ⟨r, hr, by simpa using htype⟩

/-- What is kept of an answer is its records without the signatures, and there are some. -/
theorem kept_answer {now : Nat} {dnssecOk : Bool} {upstream : Packet} {value : CacheValue} {ttl : UInt32}
    (hkept : kept h now q dnssecOk (.Answer upstream, s) = some (value, ttl)) :
    value = .Records (upstream.answers.filter fun r => r.rtype ≠ .RRSIG) ∧
      upstream.answers.filter (fun r => r.rtype ≠ .RRSIG) ≠ [] := by
  rw [kept] at hkept
  split at hkept
  · cases hkept
  · obtain ⟨lowest, hlowest, hpair⟩ := Option.map_eq_some_iff.mp hkept
    refine ⟨(Prod.mk.inj hpair).1.symm, ?_⟩
    obtain ⟨hlowest, hpositive⟩ := Option.filter_eq_some_iff.mp hlowest
    obtain ⟨r, hr, htype, -⟩ := Cacheable.exists_mem ⟨lowest, hlowest, by simpa using hpositive⟩
    exact List.ne_nil_of_mem (List.mem_filter.mpr ⟨hr, by simpa using htype⟩)

theorem run_append (event : Event) : (Resolving.start s).run h (events ++ [event]) =
    ((Resolving.start s).run h events).step h event := List.foldl_append

/-- An entry holds what was stored last, and since when. -/
theorem Latest.lookup {now : Nat} {answers : List Record} (hlatest : Latest h s k events now answers) :
    answers.filter (fun r => r.rtype ≠ .RRSIG) ≠ [] ∧ ∀ entry, ((Resolving.start s).run h events).cache.lookup k =
      some entry →
      entry.value = .Records (answers.filter fun r => r.rtype ≠ .RRSIG) ∧
        entry.expires = now + entry.ttl.toNat * nanosPerSec := by
  induction hlatest with
  | @fetch events e pkt q upstream s' hrec hkey hanswer hstored =>
    obtain ⟨⟨value, ttl⟩, hkept⟩ := Option.isSome_iff_exists.mp hstored
    obtain ⟨hvalue, hne⟩ := kept_answer hkept
    refine ⟨hne, fun entry hentry => ?_⟩
    rw [run_append] at hentry
    rcases step_cache (h := h) e ((Resolving.start s).run h events) with ⟨pkt', q', hrec', hcache⟩ | ⟨hno, -⟩
    · obtain ⟨rfl, rfl⟩ := hrec.question_unique hrec'
      rw [hcache, hanswer, hkept, Cache.keep, Cache.insertValue, hkey, AList.lookup_insert] at hentry
      obtain rfl := Option.some.inj hentry
      exact ⟨hvalue, rfl⟩
    · exact absurd hrec (hno pkt q)
  | @later events event now answers hlatest hother ih =>
    refine ⟨ih.1, fun entry hentry => ih.2 entry ?_⟩
    rw [run_append] at hentry
    cases event with
    | evict now => exact Cache.lookup_of_evictExpired hentry
    | query e =>
      rcases step_stores (h := h) e ((Resolving.start s).run h events) with ⟨q, value, ttl, hstores, hcache⟩ | ⟨-, hcache⟩
      · rwa [hcache, Cache.insertValue, AList.lookup_insert_ne (hother e q value ttl rfl hstores).symm] at hentry
      · rwa [hcache] at hentry

/-- Every entry with records was stored. -/
theorem latest_of_lookup : ∀ events : List Event, ∀ entry records,
    ((Resolving.start s).run h events).cache.lookup k = some entry → entry.value = .Records records →
      ∃ now answers, Latest h s k events now answers := by
  intro events
  induction events using List.reverseRecOn with
  | nil =>
    intro entry records hentry
    rw [show ((Resolving.start s).run h []).cache.lookup k = none from AList.lookup_empty k] at hentry
    cases hentry
  | append_singleton events event ih =>
    intro entry records hentry hrecords
    rw [run_append] at hentry
    cases event with
    | evict now =>
      obtain ⟨now, answers, hlatest⟩ := ih entry records (Cache.lookup_of_evictExpired hentry) hrecords
      exact ⟨now, answers, .later hlatest fun e q value ttl heq => by cases heq⟩
    | query e =>
      rcases step_stores (h := h) e ((Resolving.start s).run h events) with
        ⟨q, value, ttl, ⟨pkt, hrec, hkept⟩, hcache⟩ | ⟨hno, hcache⟩
      · by_cases hkey : Cache.key q.name q.qtype = k
        · rw [hcache, Cache.insertValue, hkey, AList.lookup_insert] at hentry
          obtain rfl := Option.some.inj hentry
          obtain rfl : value = .Records records := hrecords
          cases hres : h.upstream.resolve q.name q.qtype ((Resolving.start s).run h events).upstream with
          | mk result s' =>
            rw [hres] at hkept
            cases result with
            | Answer upstream => exact ⟨_, _, .fetch hrec hkey hres (by rw [hkept]; rfl)⟩
            | NxDomain upstream => cases (Prod.mk.inj (Option.some.inj hkept)).1
            | ServFail reason => cases hkept
        · rw [hcache, Cache.insertValue, AList.lookup_insert_ne (Ne.symm hkey)] at hentry
          obtain ⟨now, answers, hlatest⟩ := ih entry records hentry hrecords
          refine ⟨now, answers, .later hlatest fun e' q' value' ttl' heq hstores => ?_⟩
          obtain ⟨pkt', hrec', -⟩ := hstores
          obtain rfl := Event.query.inj heq
          obtain ⟨-, rfl⟩ := hrec.question_unique hrec'
          exact hkey
      · rw [hcache] at hentry
        obtain ⟨now, answers, hlatest⟩ := ih entry records hentry hrecords
        refine ⟨now, answers, .later hlatest fun e' q value ttl heq hstores => ?_⟩
        obtain rfl := Event.query.inj heq
        exact absurd hstores (hno q value ttl)

/-- A record has what is left of its own TTL only as long as no time has passed. -/
theorem within_self_iff {elapsed : Nat} {r : Record} : Within elapsed r r ↔ elapsed = 0 := by
  constructor
  · intro hwithin
    have httl := hwithin.ttl
    omega
  · rintro rfl
    exact ⟨rfl, rfl, rfl, rfl, (Nat.add_zero _).le⟩

theorem Hits.lookup {records : List Record} (hhit : Hits h e st pkt q records) :
    ∃ entry, st.cache.lookup (Cache.key q.name q.qtype) = some entry ∧ entry.value = .Records records := by
  have hfound := hhit.found
  unfold Cache.get at hfound
  split at hfound
  · next entry hentry =>
    split at hfound
    · exact ⟨entry, hentry, Option.some.inj hfound⟩
    · cases hfound
  · cases hfound

theorem sendsWithin_iff {before : List Event} : SendsWithin h s before e ↔ AtFetch h s before e := by
  constructor
  · intro hsends pkt q records now answers hhit hlatest
    obtain ⟨now', answers', hlatest', hall⟩ := hsends pkt q records _ _ hhit (outcome_of_hits hhit)
    obtain ⟨entry, hentry, hrecords⟩ := hhit.lookup
    obtain ⟨hne, hlookup'⟩ := hlatest'.lookup
    obtain ⟨hvalue', hexpires'⟩ := hlookup' entry hentry
    have hsame : now' = now := by
      have hexpires := (hlatest.lookup.2 entry hentry).2
      omega
    have hanswers : answers'.filter (fun r => r.rtype ≠ .RRSIG) = records :=
      CacheValue.Records.inj (hvalue'.symm.trans hrecords)
    rw [hanswers] at hall hne
    obtain ⟨r, hr⟩ := List.exists_mem_of_ne_nil _ hne
    have helapsed := within_self_iff.mp (List.forall₂_same.mp hall r hr)
    omega
  · intro hfetch pkt q records p edns hhit hreply
    obtain ⟨entry, hentry, hrecords⟩ := hhit.lookup
    obtain ⟨now, answers, hlatest⟩ := latest_of_lookup before entry records hentry hrecords
    have hanswers : answers.filter (fun r => r.rtype ≠ .RRSIG) = records :=
      CacheValue.Records.inj ((hlatest.lookup.2 entry hentry).1.symm.trans hrecords)
    have helapsed : e.clocks.lookup - now = 0 := Nat.sub_eq_zero_of_le (hfetch pkt q records now answers hhit hlatest)
    rw [outcome_of_hits hhit] at hreply
    obtain ⟨rfl, -⟩ := Response.reply.inj hreply
    refine ⟨now, answers, hlatest, ?_⟩
    rw [hanswers, helapsed]
    exact List.forall₂_same.mpr fun r _ => within_self_iff.mpr rfl

end

/-- **When answers are not used beyond their TTL.** In a run of fetches, cache hits and sweeps every record answered from
    the cache has at most what is left of the TTL it was fetched with, if and only if every query answered from the cache
    reads the clock at the instant of the fetch. -/
theorem run_ttl_iff {σ : Type} (h : Handler σ) (s : σ) (events : List Event) :
    (∀ before e after, events = before ++ .query e :: after → SendsWithin h s before e) ↔
      ∀ before e after, events = before ++ .query e :: after → AtFetch h s before e := by
  simp only [sendsWithin_iff]

/-- The same query, when the cache's clock has gone on. -/
def laterClient (now : Nat) : ClientQuery := { wwwClient false with clocks := { noClocks with lookup := now } }

theorem laterClient_asks (upstream : Packet) (now : Nat) :
    Asks (strictHandler upstream) (laterClient now).clocks (laterClient now).data (wwwQuery false)
      ⟨wwwCom, .A, CLASS_IN⟩ where
  length := show 3 ≤ (wwwClient false).data.length by decide
  query := show (wwwClient false).data.getD 2 0 &&& 0x80 = 0 by decide
  verified := fun hrequired => Bool.false_ne_true hrequired.1
  parse := wwwClient_parse false
  response := by decide
  opcode := by decide
  question := rfl

theorem laterClient_recurses (upstream : Packet) : Recurses (strictHandler upstream) (laterClient 0) (.start ())
    (wwwQuery false) ⟨wwwCom, .A, CLASS_IN⟩ :=
  ⟨⟨laterClient_asks upstream 0, rfl, rfl⟩, rfl, by decide, by decide⟩

/-- Read after a second, the record has the TTL it was fetched with. -/
theorem laterRun_old : ¬ ∀ before e after,
    [Event.query (laterClient 0), .query (laterClient nanosPerSec)] = before ++ .query e :: after →
      SendsWithin (strictHandler plainReply) () before e := by
  intro hsends
  have hfetch := sendsWithin_iff.mp (hsends [.query (laterClient 0)] _ [] rfl)
  have hanswer : (strictHandler plainReply).upstream.resolve wwwCom .A () = (.Answer plainReply, ()) := rfl
  have hrec : Recurses (strictHandler plainReply) (laterClient 0) ((Resolving.start ()).run (strictHandler plainReply) [])
      (wwwQuery false) ⟨wwwCom, .A, CLASS_IN⟩ := laterClient_recurses plainReply
  have hlatest := Latest.fetch hrec rfl hanswer (by decide)
  have hhit : Hits (strictHandler plainReply) (laterClient nanosPerSec)
      ((Resolving.start ()).run (strictHandler plainReply) [.query (laterClient 0)]) (wwwQuery false)
        ⟨wwwCom, .A, CLASS_IN⟩ wwwAnswer :=
    ⟨⟨laterClient_asks _ _, rfl, rfl⟩, by decide⟩
  exact absurd (hfetch _ _ _ _ _ hhit hlatest) (by decide)

end Ironbind
