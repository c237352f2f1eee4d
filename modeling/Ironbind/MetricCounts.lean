import Ironbind.CacheReplay

/- What the counters say of the queries. A query is handled in one call, or in two where a
   receiver defers it and the recursion pool resumes it later, with whatever has become of
   the zones, the cache and upstream by then (`Handling`). `Exit` lists the ways out of a
   call with what each has counted. The counters add up (`AddsUp`) but for three kinds of
   query: one without a question, one that is resumed when its answer has just been
   cached, and one whose answer from upstream has the code of a failure
   (`addsUp_iff`). -/
namespace Ironbind
open Codec

/-! What is counted. -/

/-- The counter of a response code. -/
def codeCounter (rcode : UInt8) : Option Metric :=
  if rcode = RCODE_NOERROR then some .success
  else if rcode = RCODE_NXDOMAIN then some .nxdomain
  else if rcode = RCODE_SERVFAIL then some .servfail
  else none

/-- The counter of a reply; what is dropped has none. -/
def Response.counter : Response → Option Metric
  | .reply p _ => codeCounter p.rcode
  | _ => none

/-- **The counters add up**: the query is counted once, no more than one hit or miss, and of the counters for codes the
    one of the reply's, once. -/
structure AddsUp (response : Response) (metrics : List Metric) : Prop where
  total : metrics.count .query = 1
  cache : metrics.count .cacheHit + metrics.count .cacheMiss ≤ 1
  code : ∀ m ∈ [Metric.success, .nxdomain, .servfail], metrics.count m = if response.counter = some m then 1 else 0

section
variable {σ : Type} (h : Handler σ)

/-- A query to its end: the call that answers it, or the call of a receiver and the one of the pool that resumes it. -/
inductive Handling where
  | once (e : ClientQuery) (st : Resolving σ) (mode : e.recursion ≠ .Resume)
      (ready : (e.outcome h st).response ≠ .recursive)
  | resumed (first : ClientQuery) (st : Resolving σ) (later : ClientQuery) (st' : Resolving σ)
      (mode : first.recursion = .Defer) (deferred : (first.outcome h st).response = .recursive)
      (mode' : later.recursion = .Resume) (data : later.data = first.data) (peer : later.peer = first.peer)

/-- The call that answers. -/
def Handling.query : Handling h → ClientQuery
  | .once e _ _ _ => e
  | .resumed _ _ later _ _ _ _ _ _ => later

/-- The state it finds. -/
def Handling.state : Handling h → Resolving σ
  | .once _ st _ _ => st
  | .resumed _ _ _ st' _ _ _ _ _ => st'

def Handling.response (t : Handling h) : Response := ((t.query).outcome h t.state).response

def Handling.metrics : Handling h → List Metric
  | .once e st _ _ => (e.outcome h st).metrics
  | .resumed first st later st' _ _ _ _ _ => (first.outcome h st).metrics ++ (later.outcome h st').metrics

/-- A standard query that is taken up and has no question. -/
structure Unasked (e : ClientQuery) (pkt : Packet) : Prop where
  length : 3 ≤ e.data.length
  query : e.data.getD 2 0 &&& 0x80 = 0
  verified : ¬ (h.config.tsigRequireAll ∧ !h.tsigKeys.isEmpty ∧
    (verifyMessage h.hmac e.clocks.verify e.data h.tsigKeys).isOk = false)
  parse : parsePacket e.data = .ok pkt
  response : pkt.isResponse = false
  opcode : pkt.opcode = 0
  question : pkt.questions.head? = none

/-- What upstream answers is accepted, and its code is that of a name that does not exist or of a failure. -/
def Miscoded (e : ClientQuery) (st : Resolving σ) (pkt : Packet) (q : Question) : Prop :=
  ∃ upstream s', h.upstream.resolve q.name q.qtype st.upstream = (.Answer upstream, s') ∧
    rejected h e.clocks.validator q pkt.dnssecOk upstream s' = false ∧
      (upstream.rcode = RCODE_NXDOMAIN ∨ upstream.rcode = RCODE_SERVFAIL)

/-- The query was deferred: it missed the cache then. -/
def Handling.Deferred : Handling h → Prop
  | .once _ _ _ _ => False
  | .resumed _ _ _ _ _ _ _ _ _ => True

/-- The handlings whose counters add up. -/
structure Handling.Countable (t : Handling h) : Prop where
  asked : ∀ pkt, ¬ Unasked h t.query pkt
  absent : t.Deferred → ∀ pkt q, AsksResolver h t.query pkt q →
    t.state.cache.get t.query.clocks.lookup q.name q.qtype = none
  coded : ∀ pkt q, Recurses h t.query t.state pkt q → ¬ Miscoded h t.query t.state pkt q

end

/-! The ways out of a call. -/

/-- A code is counted by its counter, once. -/
def CodeCounted (rcode : UInt8) (metrics : List Metric) : Prop :=
  ∀ m ∈ [Metric.success, .nxdomain, .servfail], metrics.count m = if codeCounter rcode = some m then 1 else 0

instance (rcode : UInt8) (metrics : List Metric) : Decidable (CodeCounted rcode metrics) :=
  inferInstanceAs (Decidable (∀ m ∈ _, _))

/-- No query, hit or miss is counted. -/
def CountsOutside (metrics : List Metric) : Prop := ∀ m ∈ [Metric.query, .cacheHit, .cacheMiss], metrics.count m = 0

instance (metrics : List Metric) : Decidable (CountsOutside metrics) := inferInstanceAs (Decidable (∀ m ∈ _, _))

/-- What the receiver counts, and the pool does not count again. -/
def Recursion.counts (recursion : Recursion) (m : Metric) : List Metric := if recursion ≠ .Resume then [m] else []

/-- How a call ends, and what it counts on the way besides the query. -/
inductive Exit {σ : Type} (h : Handler σ) (e : ClientQuery) (st : Resolving σ) : Response → List Metric → Prop
  | drop : Exit h e st .drop []
  | error {p : Packet} {edns : Bool} (code : codeCounter p.rcode = none) : Exit h e st (.reply p edns) []
  | unasked {pkt p : Packet} {edns : Bool} (unasked : Unasked h e pkt) (code : p.rcode = RCODE_NOERROR) :
      Exit h e st (.reply p edns) []
  | zone {p : Packet} {edns : Bool} {m : Metric} (code : codeCounter p.rcode = some m) :
      Exit h e st (.reply p edns) [m, .queryTime]
  | hit {pkt p : Packet} {q : Question} {edns : Bool} {value : CacheValue} {m : Metric} (asks : AsksResolver h e pkt q)
      (found : st.cache.get e.clocks.lookup q.name q.qtype = some value) (code : codeCounter p.rcode = some m) :
      Exit h e st (.reply p edns) [.cacheHit, m, .queryTime]
  | undesired {pkt p : Packet} {q : Question} {edns : Bool} (asks : AsksResolver h e pkt q)
      (missed : st.cache.get e.clocks.lookup q.name q.qtype = none) (code : codeCounter p.rcode = none) :
      Exit h e st (.reply p edns) (e.recursion.counts .cacheMiss)
  | deferred {pkt : Packet} {q : Question} (asks : AsksResolver h e pkt q)
      (missed : st.cache.get e.clocks.lookup q.name q.qtype = none) (mode : e.recursion = .Defer) :
      Exit h e st .recursive [.cacheMiss]
  | upstream {pkt p : Packet} {q : Question} {edns : Bool} {metrics : List Metric} (recurses : Recurses h e st pkt q)
      (outside : CountsOutside metrics) (code : CodeCounted p.rcode metrics ↔ ¬ Miscoded h e st pkt q) :
      Exit h e st (.reply p edns) (e.recursion.counts .cacheMiss ++ metrics)

section
variable {σ : Type} {h : Handler σ} {e : ClientQuery} {st : Resolving σ} {pkt : Packet} {q : Question}

/-- An error counts nothing but the query. -/
theorem exit_of_error {p : Packet} {edns : Bool} {rcode : UInt8} (hcode : (p.setRcode rcode).rcode = rcode)
    (hother : codeCounter rcode = none) : Exit h e st (.reply (p.setRcode rcode) edns) [] :=
  .error (by rw [hcode, hother])

/-- What is no query to answer. -/
theorem exit_of_not_asks (hask : ¬ ∃ pkt q, Asks h e.clocks e.data pkt q) :
    ∃ rest, (e.outcome h st).metrics = e.recursion.counts .query ++ rest ∧
      Exit h e st (e.outcome h st).response rest := by
  unfold ClientQuery.outcome handleQuery
  dsimp only
  split
  · exact ⟨[], (List.append_nil _).symm, .drop⟩
  · next hstart =>
    have hlength : 3 ≤ e.data.length := by
      by_contra hshort
      exact hstart (.inl (by omega))
    have hquery : e.data.getD 2 0 &&& 0x80 = 0 := by
      by_contra hset
      exact hstart (.inr hset)
    split
    · exact ⟨[], (List.append_nil _).symm, exit_of_error (rcode_setRcode _ (by decide)) (by decide)⟩
    · next hverified =>
      split
      · exact ⟨[], (List.append_nil _).symm, exit_of_error (rcode_setRcode _ (by decide)) (by decide)⟩
      · next pkt hparse =>
        unfold handlePacket
        split
        · exact ⟨[], rfl, .drop⟩
        · next hresponse =>
          split
          · exact ⟨[], rfl, exit_of_error (rcode_setRcode _ (by decide)) (by decide)⟩
          · next hopcode =>
            split
            · next hnone =>
              exact ⟨[], rfl, .unasked ⟨hlength, hquery, hverified, hparse, Bool.eq_false_iff.mpr hresponse,
                not_not.mp hopcode, hnone⟩ (rcode_setRcode _ (by decide))⟩
            · next q hq =>
              exact absurd ⟨pkt, q, hlength, hquery, hverified, hparse, Bool.eq_false_iff.mpr hresponse,
                not_not.mp hopcode, hq⟩ hask

/-- A zone answers without error, or that there is no such name. -/
theorem authoritativeAnswer_counter {zone : Zone} (c : Crypto) (ho : HashOrder) :
    let answer := authoritativeAnswer c ho zone q pkt.dnssecOk (baseResponse pkt)
    codeCounter answer.1.rcode = some answer.2 := by
  have hsuccess : codeCounter (baseResponse pkt).setAa.rcode = some .success := by rw [rcode_baseResponse]; rfl
  unfold authoritativeAnswer
  dsimp only
  split
  · exact hsuccess
  · split
    · exact hsuccess
    · rw [show ∀ p : Packet, ∀ authority, ({ p with authority := authority } : Packet).rcode = p.rcode from
        fun p authority => rfl, rcode_setRcode _ (by decide)]
      rfl

/-- The counters of an answer that is accepted: nothing is counted for a code other than NOERROR. -/
theorem accepted_counts (valid : List Metric) (hvalid : valid = [] ∨ valid = [.dnssecValid]) (p : Packet) :
    CountsOutside (valid ++ finishMetrics p) ∧ (CodeCounted p.rcode (valid ++ finishMetrics p) ↔
      ¬ (p.rcode = RCODE_NXDOMAIN ∨ p.rcode = RCODE_SERVFAIL)) := by
  unfold finishMetrics
  by_cases hok : p.rcode = RCODE_NOERROR
  · rw [hok]
    rcases hvalid with rfl | rfl <;> decide
  · rw [if_neg hok]
    have houtside : CountsOutside (valid ++ ([] ++ [.queryTime])) := by rcases hvalid with rfl | rfl <;> decide
    have hnone : ∀ m ∈ [Metric.success, .nxdomain, .servfail], (valid ++ ([] ++ [Metric.queryTime])).count m = 0 := by
      rcases hvalid with rfl | rfl <;> decide
    refine ⟨houtside, ?_⟩
    constructor
    · intro hcode hfailure
      rcases hfailure with hnx | hfail
      · rw [hnx] at hcode
        rcases hvalid with rfl | rfl <;> exact absurd hcode (by decide)
      · rw [hfail] at hcode
        rcases hvalid with rfl | rfl <;> exact absurd hcode (by decide)
    · intro hother m hm
      have hcounter : codeCounter p.rcode = none := by
        rw [codeCounter, if_neg hok, if_neg fun hnx => hother (.inl hnx), if_neg fun hfail => hother (.inr hfail)]
      rw [hnone m hm, hcounter, if_neg (fun hsome => by cases hsome)]

/-- A failure is counted by its name, and not once more as a success. -/
theorem failed_counts {p : Packet} {m : Metric}
    (hcode : p.rcode = RCODE_NXDOMAIN ∧ m = .nxdomain ∨ p.rcode = RCODE_SERVFAIL ∧ m = .servfail) :
    CountsOutside (m :: finishMetrics p) ∧ CodeCounted p.rcode (m :: finishMetrics p) := by
  unfold finishMetrics
  rcases hcode with ⟨hcode, rfl⟩ | ⟨hcode, rfl⟩ <;> rw [hcode] <;> decide

/-- The way out for a query that is sent upstream. -/
theorem recursiveAnswer_exit (h : Handler σ) (e : ClientQuery) (st : Resolving σ) (pkt : Packet) (q : Question) :
    let outcome := recursiveAnswer h e.clocks q pkt.dnssecOk (baseResponse pkt).setRa st.cache st.upstream
    ∃ p edns, outcome.response = .reply p edns ∧ CountsOutside outcome.metrics ∧
      (CodeCounted p.rcode outcome.metrics ↔ ¬ Miscoded h e st pkt q) := by
  unfold recursiveAnswer Miscoded
  cases hres : h.upstream.resolve q.name q.qtype st.upstream with
  | mk result s =>
    cases result with
    | Answer upstream =>
      dsimp only
      split
      · next hbogus =>
        have houtside : CountsOutside [.dnssecBogus, .servfail, .queryTime] := by decide
        have hcode : CodeCounted RCODE_SERVFAIL [.dnssecBogus, .servfail, .queryTime] := by decide
        refine ⟨_, _, rfl, houtside, ?_⟩
        rw [rcode_setRcode _ (by decide)]
        refine iff_of_true hcode fun hmiscoded => ?_
        obtain ⟨upstream', s', hsame, haccepted, -⟩ := hmiscoded
        obtain ⟨hupstream, rfl⟩ := Prod.mk.inj hsame
        obtain rfl := ResolveResult.Answer.inj hupstream
        rw [rejected, hbogus] at haccepted
        cases haccepted
      · next result validations s'' hnot hresult =>
        have haccepted : rejected h e.clocks.validator q pkt.dnssecOk upstream s = false := by
          rw [rejected, hresult]
          split
          · next why hwhy => exact absurd hwhy (hnot why)
          · rfl
        refine ⟨_, _, rfl, ?_⟩
        obtain ⟨houtside, hcode⟩ := accepted_counts (if result = some .Secure then [.dnssecValid] else [])
          (by split <;> simp) ({ (baseResponse pkt).setRa with
            answers := upstream.answers, authority := upstream.authority, additional := upstream.additional }.setRcode
              upstream.rcode)
        refine ⟨houtside, hcode.trans (not_congr ?_)⟩
        rw [rcode_setRcode_rcode]
        constructor
        · intro hfailure
          exact ⟨upstream, s, rfl, haccepted, hfailure⟩
        · intro hmiscoded
          obtain ⟨upstream', s', hsame, -, hfailure⟩ := hmiscoded
          obtain rfl := ResolveResult.Answer.inj (Prod.mk.inj hsame).1
          exact hfailure
    | NxDomain upstream =>
      obtain ⟨houtside, hcode⟩ := failed_counts (.inl ⟨rcode_setRcode _ (by decide), rfl⟩)
      refine ⟨_, _, rfl, houtside, iff_of_true hcode fun hmiscoded => ?_⟩
      obtain ⟨upstream', s', hsame, -⟩ := hmiscoded
      cases hsame
    | ServFail reason =>
      obtain ⟨houtside, hcode⟩ := failed_counts (.inr ⟨rcode_setRcode _ (by decide), rfl⟩)
      refine ⟨_, _, rfl, houtside, iff_of_true hcode fun hmiscoded => ?_⟩
      obtain ⟨upstream', s', hsame, -⟩ := hmiscoded
      cases hsame

/-- The code of an answer from the cache. -/
theorem codeCounter_fromCache (pkt : Packet) (value : CacheValue) :
    codeCounter (fromCache (baseResponse pkt) value).rcode =
    some (if value = .Negative .NxDomain then .nxdomain else .success) := by
  rw [rcode_fromCache]
  split <;> rfl

/-- What is counted on the way upstream. -/
theorem cachedAnswer_upstream (hrec : Recurses h e st pkt q) :
    let outcome := cachedAnswer h e.clocks e.recursion pkt.rd q pkt.dnssecOk (baseResponse pkt) st.cache st.upstream
    ∃ p edns metrics, outcome.response = .reply p edns ∧ outcome.metrics = e.recursion.counts .cacheMiss ++ metrics ∧
      CountsOutside metrics ∧ (CodeCounted p.rcode metrics ↔ ¬ Miscoded h e st pkt q) := by
  obtain ⟨p, edns, hresponse, houtside, hcode⟩ := recursiveAnswer_exit h e st pkt q
  unfold cachedAnswer
  simp only [hrec.missed, hrec.desired, hrec.notDeferred, Bool.not_true, Bool.false_eq_true, if_false]
  exact ⟨p, edns, _, hresponse, rfl, houtside, hcode⟩

/-- A query that may be answered from the cache or from upstream. -/
theorem exit_of_asksResolver (hask : AsksResolver h e pkt q) :
    let outcome := cachedAnswer h e.clocks e.recursion pkt.rd q pkt.dnssecOk (baseResponse pkt) st.cache st.upstream
    Exit h e st outcome.response outcome.metrics := by
  by_cases hrec : Recurses h e st pkt q
  · obtain ⟨p, edns, metrics, hresponse, hmetrics, houtside, hcode⟩ := cachedAnswer_upstream hrec
    dsimp only at hresponse hmetrics ⊢
    rw [hresponse, hmetrics]
    exact .upstream hrec houtside hcode
  · unfold cachedAnswer
    cases hget : st.cache.get e.clocks.lookup q.name q.qtype with
    | some value =>
      have hcode := codeCounter_fromCache pkt value
      cases value with
      | Records records => exact .hit hask hget hcode
      | Negative kind => cases kind <;> exact .hit hask hget hcode
    | none =>
      cases hdesired : pkt.rd with
      | false => exact .undesired hask hget (by rw [rcode_setRcode _ (by decide)]; rfl)
      | true =>
        have hdefer : e.recursion = .Defer := by
          by_contra hwait
          exact hrec ⟨hask, hget, hdesired, hwait⟩
        rw [hdefer]
        exact .deferred hask hget hdefer

/-- **Every call ends in one of the ways out**, with the query counted in front. -/
theorem call_exit (e : ClientQuery) (st : Resolving σ) :
    ∃ rest, (e.outcome h st).metrics = e.recursion.counts .query ++ rest ∧ Exit h e st (e.outcome h st).response rest := by
  by_cases hask : ∃ pkt q, Asks h e.clocks e.data pkt q
  · obtain ⟨pkt, q, hask⟩ := hask
    rw [ClientQuery.outcome, handleQuery_of_asks hask]
    refine ⟨_, rfl, ?_⟩
    unfold answerQuestion
    dsimp only
    cases hzone : authoritativeZone e.zones q.name with
    | some zone => exact .zone (authoritativeAnswer_counter h.crypto h.hashOrder)
    | none =>
      dsimp only
      cases hallowed : h.config.allowRecursion.any fun network => network.contains e.peer with
      | false => exact exit_of_error (rcode_setRcode _ (by decide)) (by decide)
      | true => exact exit_of_asksResolver ⟨hask, hzone, hallowed⟩
  · exact exit_of_not_asks hask

end

/-! What a call adds to what is counted in front. -/

/-- What the answering call counts behind the query adds up with what is in front: a call that resumes may count neither
    a hit nor a miss. -/
structure RestAddsUp (recursion : Recursion) (response : Response) (rest : List Metric) : Prop where
  query : rest.count .query = 0
  cache : rest.count .cacheHit + rest.count .cacheMiss ≤ (recursion.counts .cacheMiss).length
  code : ∀ m ∈ [Metric.success, .nxdomain, .servfail], rest.count m = if response.counter = some m then 1 else 0

theorem mem_of_codeCounter {rcode : UInt8} {m : Metric} (hcode : codeCounter rcode = some m) :
    m = .success ∨ m = .nxdomain ∨ m = .servfail := by
  unfold codeCounter at hcode
  split at hcode
  · exact .inl (Option.some.inj hcode).symm
  · split at hcode
    · exact .inr (.inl (Option.some.inj hcode).symm)
    · split at hcode
      · exact .inr (.inr (Option.some.inj hcode).symm)
      · cases hcode

section
variable {σ : Type} {h : Handler σ} {e : ClientQuery} {st : Resolving σ} {response : Response} {rest : List Metric}

theorem counts_miss (recursion : Recursion) : (recursion.counts .cacheMiss).count .query = 0 ∧
    (recursion.counts .cacheMiss).count .cacheHit = 0 ∧
    (recursion.counts .cacheMiss).count .cacheMiss = (recursion.counts .cacheMiss).length ∧
    ∀ m ∈ [Metric.success, .nxdomain, .servfail], (recursion.counts .cacheMiss).count m = 0 := by
  cases recursion <;> decide

/-- A way out with a reply adds up, unless it is one of the three. -/
theorem Exit.adds (hexit : Exit h e st response rest) (hready : response ≠ .recursive)
    (hasked : ∀ pkt, ¬ Unasked h e pkt)
    (habsent : e.recursion = .Resume → ∀ pkt q, AsksResolver h e pkt q →
      st.cache.get e.clocks.lookup q.name q.qtype = none)
    (hcoded : ∀ pkt q, Recurses h e st pkt q → ¬ Miscoded h e st pkt q) : RestAddsUp e.recursion response rest := by
  obtain ⟨hmissQuery, hmissHit, hmissMiss, hmissCode⟩ := counts_miss e.recursion
  cases hexit with
  | drop => exact ⟨rfl, Nat.zero_le _, fun m _ => rfl⟩
  | error hcode =>
    refine ⟨rfl, Nat.zero_le _, fun m _ => ?_⟩
    rw [Response.counter, hcode, if_neg (fun hsome => by cases hsome)]
    rfl
  | unasked hunasked => exact absurd hunasked (hasked _)
  | zone hcode =>
    rcases mem_of_codeCounter hcode with rfl | rfl | rfl <;>
      exact ⟨rfl, Nat.zero_le _, by rw [Response.counter, hcode]; decide⟩
  | hit hask hfound hcode =>
    have hfresh : e.recursion ≠ .Resume := by
      intro hresume
      rw [habsent hresume _ _ hask] at hfound
      cases hfound
    have hroom : (e.recursion.counts .cacheMiss).length = 1 := by rw [Recursion.counts, if_pos hfresh]; rfl
    rcases mem_of_codeCounter hcode with rfl | rfl | rfl <;>
      exact ⟨rfl, by rw [hroom]; decide, by rw [Response.counter, hcode]; decide⟩
  | undesired hask hmissed hcode =>
    refine ⟨hmissQuery, by rw [hmissHit, hmissMiss, Nat.zero_add], fun m hm => ?_⟩
    rw [hmissCode m hm, Response.counter, hcode, if_neg (fun hsome => by cases hsome)]
  | deferred => exact absurd rfl hready
  | upstream hrec houtside hcode =>
    have hcounted := hcode.mpr (hcoded _ _ hrec)
    refine ⟨?_, ?_, fun m hm => ?_⟩
    · rw [List.count_append, hmissQuery, houtside _ (by decide)]
    · rw [List.count_append, List.count_append, hmissHit, hmissMiss, houtside _ (by decide), houtside _ (by decide)]
      omega
    · rw [List.count_append, hmissCode m hm, Nat.zero_add, hcounted m hm]
      rfl

/-- The call of a receiver that defers has counted the query and a miss. -/
theorem deferred_metrics (hmode : e.recursion = .Defer) (hdeferred : (e.outcome h st).response = .recursive) :
    (e.outcome h st).metrics = [.query, .cacheMiss] := by
  obtain ⟨rest, hmetrics, hexit⟩ := call_exit (h := h) e st
  rw [hdeferred] at hexit
  cases hexit
  rw [hmetrics, hmode]
  rfl

/-- A receiver defers what it finds nothing for. -/
theorem recursive_of_missed {pkt : Packet} {q : Question} (hask : AsksResolver h e pkt q)
    (hmissed : st.cache.get e.clocks.lookup q.name q.qtype = none) (hdesired : pkt.rd = true)
    (hmode : e.recursion = .Defer) : (e.outcome h st).response = .recursive := by
  rw [outcome_of_asksResolver hask]
  simp only [cachedAnswer, hmissed, hdesired, hmode, Bool.not_true, Bool.false_eq_true, if_false, if_true]

/-- Only a receiver's call is deferred. -/
theorem ready_of_mode (hmode : e.recursion ≠ .Defer) : (e.outcome h st).response ≠ .recursive := by
  intro hdeferred
  obtain ⟨rest, -, hexit⟩ := call_exit (h := h) e st
  rw [hdeferred] at hexit
  cases hexit with
  | deferred hask hmissed hdefer => exact hmode hdefer

end

/-! The three exceptions. -/

section
variable {σ : Type} {h : Handler σ} {e : ClientQuery} {st : Resolving σ} {pkt : Packet} {q : Question}

/-- A query without a question is answered without error, and no success is counted. -/
theorem outcome_of_unasked (st : Resolving σ) (hunasked : Unasked h e pkt) :
    ∃ p edns, (e.outcome h st).response = .reply p edns ∧
    p.rcode = RCODE_NOERROR ∧ (e.outcome h st).metrics = e.recursion.counts .query := by
  have hstart : ¬ (e.data.length < 3 ∨ e.data.getD 2 0 &&& 0x80 ≠ 0) := by
    intro hbad
    rcases hbad with hshort | hresponse
    · exact absurd hunasked.length (by omega)
    · exact hresponse hunasked.query
  have hcode : (Packet.setRcode { Packet.newResponse pkt.id pkt.flags with questions := pkt.questions }
      RCODE_NOERROR).rcode = RCODE_NOERROR := rcode_setRcode _ (by decide)
  refine ⟨_, false, ?_, hcode, ?_⟩
  all_goals
    rw [ClientQuery.outcome, handleQuery, if_neg hstart, if_neg hunasked.verified, hunasked.parse]
    simp only [handlePacket, hunasked.response, hunasked.opcode, hunasked.question]
  · rfl
  · exact List.append_nil _

/-- What a query that is sent upstream counts. -/
theorem outcome_of_upstream (hrec : Recurses h e st pkt q) : ∃ p edns metrics,
    (e.outcome h st).response = .reply p edns ∧
      (e.outcome h st).metrics = e.recursion.counts .query ++ (e.recursion.counts .cacheMiss ++ metrics) ∧
        (CodeCounted p.rcode metrics ↔ ¬ Miscoded h e st pkt q) := by
  obtain ⟨p, edns, metrics, hresponse, hmetrics, -, hcode⟩ := cachedAnswer_upstream hrec
  rw [outcome_of_asksResolver hrec.toAsksResolver]
  exact ⟨p, edns, metrics, hresponse, congrArg (e.recursion.counts .query ++ ·) hmetrics, hcode⟩

end

/-! Two calls. -/

section
variable {σ : Type} {h : Handler σ} (t : Handling h)

theorem Handling.ready : t.response ≠ .recursive := by
  cases t with
  | once e st hmode hready => exact hready
  | resumed first st later st' hmode hdeferred hmode' hdata hpeer =>
    exact ready_of_mode (by rw [Handling.query, hmode']; decide)

theorem Handling.deferred_of_resume (hresume : t.query.recursion = .Resume) : t.Deferred := by
  cases t with
  | once e st hmode hready => exact absurd hresume hmode
  | resumed => trivial

/-- What is counted in front of the rest of the answering call: the query, and the miss of a receiver that has deferred
    it. -/
theorem Handling.front : ∃ front : List Metric, front.count .query = 1 ∧
    front.count .cacheHit + front.count .cacheMiss + (t.query.recursion.counts .cacheMiss).length = 1 ∧
    (∀ m ∈ [Metric.success, .nxdomain, .servfail], front.count m = 0) ∧
    ∀ rest, (t.query.outcome h t.state).metrics = t.query.recursion.counts .query ++ rest →
      t.metrics = front ++ rest := by
  cases t with
  | once e st hmode hready =>
    have hcounts : ∀ m, e.recursion.counts m = [m] := fun m => if_pos hmode
    refine ⟨[.query], by decide, ?_, by decide, fun rest hmetrics => ?_⟩
    · rw [Handling.query, hcounts]
      decide
    · rw [Handling.query, hcounts] at hmetrics
      exact hmetrics
  | resumed first st later st' hmode hdeferred hmode' hdata hpeer =>
    refine ⟨[.query, .cacheMiss], by decide, ?_, by decide, fun rest hmetrics => ?_⟩
    · rw [Handling.query, hmode']
      decide
    · rw [Handling.query, hmode'] at hmetrics
      exact congrArg₂ (· ++ ·) (deferred_metrics hmode hdeferred) hmetrics

/-- A success that is not counted. -/
theorem Handling.not_addsUp_of_unasked {pkt : Packet} (hunasked : Unasked h t.query pkt) :
    ¬ AddsUp t.response t.metrics := by
  intro hadds
  obtain ⟨front, -, -, hfront, hsplit⟩ := t.front
  obtain ⟨p, edns, hreply, hrcode, hmetrics⟩ := outcome_of_unasked t.state hunasked
  have hcount := hadds.code .success (by decide)
  rw [hsplit [] (hmetrics.trans (List.append_nil _).symm), List.append_nil, hfront _ (by decide), Handling.response,
    hreply, Response.counter, hrcode] at hcount
  exact absurd hcount (by decide)

/-- A miss and a hit. -/
theorem Handling.not_addsUp_of_found {pkt : Packet} {q : Question} {value : CacheValue} (hdeferred : t.Deferred)
    (hask : AsksResolver h t.query pkt q)
    (hfound : t.state.cache.get t.query.clocks.lookup q.name q.qtype = some value) :
    ¬ AddsUp t.response t.metrics := by
  intro hadds
  cases t with
  | once e st hmode hready => exact hdeferred
  | resumed first st later st' hmode hdefer hmode' hdata hpeer =>
    have hhit := List.count_pos_iff.mpr (outcome_of_found hask hfound).1
    have hcount := hadds.cache
    rw [Handling.metrics, deferred_metrics hmode hdefer, List.count_append, List.count_append] at hcount
    have hmiss : [Metric.query, .cacheMiss].count .cacheMiss = 1 := by decide
    simp only [Handling.query, Handling.state] at hhit
    omega

/-- A failure that is not counted. -/
theorem Handling.not_addsUp_of_miscoded {pkt : Packet} {q : Question} (hrec : Recurses h t.query t.state pkt q)
    (hmiscoded : Miscoded h t.query t.state pkt q) : ¬ AddsUp t.response t.metrics := by
  intro hadds
  obtain ⟨front, -, -, hfront, hsplit⟩ := t.front
  obtain ⟨p, edns, metrics, hreply, hmetrics, hcode⟩ := outcome_of_upstream hrec
  refine hcode.mp (fun m hm => ?_) hmiscoded
  have hcount := hadds.code m hm
  rwa [hsplit _ hmetrics, List.count_append, List.count_append, hfront m hm, (counts_miss _).2.2.2 m hm, Nat.zero_add,
    Nat.zero_add, Handling.response, hreply] at hcount

/-- **When the counters add up.** Of every query, answered in one call or deferred and resumed with any zones, cache and
    upstream, the query is counted once, no more than one hit or miss, and the code of the reply once and no other: if and
    only if it has a question, it is not resumed where the cache has come to know the answer, and what it is answered
    from upstream is not an answer with the code of a failure. -/
theorem Handling.addsUp_iff {σ : Type} {h : Handler σ} (t : Handling h) : AddsUp t.response t.metrics ↔ t.Countable := by
  constructor
  · intro hadds
    refine ⟨fun pkt hunasked => t.not_addsUp_of_unasked hunasked hadds, fun hdeferred pkt q hask => ?_,
      fun pkt q hrec hmiscoded => t.not_addsUp_of_miscoded hrec hmiscoded hadds⟩
    cases hget : t.state.cache.get t.query.clocks.lookup q.name q.qtype with
    | none => rfl
    | some value => exact absurd hadds (t.not_addsUp_of_found hdeferred hask hget)
  · intro hcountable
    obtain ⟨front, hquery, hcache, hcode, hsplit⟩ := t.front
    obtain ⟨rest, hmetrics, hexit⟩ := call_exit (h := h) t.query t.state
    have hrest := hexit.adds t.ready hcountable.asked
      (fun hresume => hcountable.absent (t.deferred_of_resume hresume)) hcountable.coded
    rw [hsplit rest hmetrics]
    refine ⟨?_, ?_, fun m hm => ?_⟩
    · rw [List.count_append, hquery, hrest.query]
    · have hroom := hrest.cache
      rw [List.count_append, List.count_append]
      omega
    · rw [List.count_append, hcode m hm, Nat.zero_add, hrest.code m hm]
      rfl

end

/-! One query of each kind. -/

/-- A query without a question. -/
def blankClient : ClientQuery := ⟨[], noClocks, .V4 0, .Inline, serialize { wwwQuery false with questions := [] } true⟩

def blankHandling : Handling plainHandler :=
  .once blankClient (.start ()) (by decide) (ready_of_mode (by decide))

/-- The server answers SERVFAIL, in a reply that the resolver takes for an answer. -/
def brokenHandler : Handler Unit := strictHandler { upstreamReply [] [] with flags := 0x8182 }

def brokenHandling : Handling brokenHandler :=
  .once (wwwClient false) (.start ()) (by decide) (ready_of_mode (by decide))

theorem wwwClient_asks (upstream : Packet) (recursion : Recursion) :
    AsksResolver (strictHandler upstream) { wwwClient false with recursion := recursion } (wwwQuery false)
      ⟨wwwCom, .A, CLASS_IN⟩ :=
  ⟨laterClient_asks upstream 1000, rfl, rfl⟩

/-- A query that is deferred, and resumed when another has fetched the answer. -/
def overtakenHandling : Handling (strictHandler plainReply) :=
  .resumed { wwwClient false with recursion := .Defer } (.start ()) { wwwClient false with recursion := .Resume }
    ((Resolving.start ()).step (strictHandler plainReply) (.query (wwwClient false))) rfl
    (recursive_of_missed (wwwClient_asks plainReply .Defer) rfl (by decide) rfl) rfl rfl rfl

/-- No success for the first, a miss and a hit for the second, no failure for the third. -/
theorem counters_off : ¬ AddsUp blankHandling.response blankHandling.metrics ∧
    ¬ AddsUp overtakenHandling.response overtakenHandling.metrics ∧
      ¬ AddsUp brokenHandling.response brokenHandling.metrics := by
  refine ⟨?_, ?_, ?_⟩
  · have hparse : parsePacket blankClient.data = .ok { wwwQuery false with questions := [] } := by decide
    exact blankHandling.not_addsUp_of_unasked ⟨by decide, by decide,
      fun hrequired => Bool.false_ne_true hrequired.1, hparse, by decide, by decide, rfl⟩
  · have hfound : overtakenHandling.state.cache.get overtakenHandling.query.clocks.lookup wwwCom .A =
        some (.Records wwwAnswer) := by decide
    exact overtakenHandling.not_addsUp_of_found trivial (wwwClient_asks plainReply .Resume) hfound
  · have hrec : Recurses brokenHandler brokenHandling.query brokenHandling.state (wwwQuery false)
        ⟨wwwCom, .A, CLASS_IN⟩ := ⟨wwwClient_asks _ .Inline, rfl, by decide, by decide⟩
    refine brokenHandling.not_addsUp_of_miscoded hrec ⟨_, _, rfl, ?_, .inr (by decide)⟩
    decide

end Ironbind
