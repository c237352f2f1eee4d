import Ironbind.CacheReplay
import Ironbind.Forwarding

/- A server that forwards what it is asked to another of its make, and caches what comes
   back. `Zone.told` is what a zone says of a name and a type to a client that wants no
   signatures. Every entry under that name and type holds it (`entries_told`), whoever
   asked first and whatever lies between, for what is fetched is the packet the other
   server composed (`resolve_told`) and a set without signatures is never rejected. So in
   every run the forwarder tells its clients of the zone what the zone tells
   (`forwarder_tells`): fetched or cached, also when it validates strictly. -/
namespace Ironbind
open Codec

/-! What a zone tells. -/

/-- What a zone tells of a name and a type: the records, or that there is no such name. -/
def Zone.told (z : Zone) (name : Text) (qtype : RType) : Option (List Record) :=
  let walk := cnameLoop z qtype false MAX_CNAME_CHAIN name []
  if walk.answered = true ∨ z.nameExists walk.name = true then some walk.answers else none

/-- How it is cached. -/
def toldValue : Option (List Record) → CacheValue
  | some records => .Records records
  | none => .Negative .NxDomain

/-- A reply that tells it, or refuses to look it up for a client that does not want that. -/
inductive Tells (told : Option (List Record)) (desired : Bool) (p : Packet) : Prop
  | records {rs : List Record} (h : told = some rs) (rcode : p.rcode = RCODE_NOERROR) (answers : p.answers = rs)
  | absent (h : told = none) (rcode : p.rcode = RCODE_NXDOMAIN) (answers : p.answers = [])
  | refused (h : desired = false) (rcode : p.rcode = RCODE_REFUSED) (answers : p.answers = [])

/-- A packet as the zone's own server composes it for what it tells. -/
structure Composes (told : Option (List Record)) (p : Packet) : Prop where
  absent : told = none → p.rcode = RCODE_NXDOMAIN
  records : ∀ rs, told = some rs → p.rcode = RCODE_NOERROR ∧ p.answers = rs

section
variable {z : Zone} {c : Crypto} {ho : HashOrder} {q : Question} {pkt : Packet}

theorem zoneAnswer_told (hplain : pkt.dnssecOk = false) : Composes (z.told q.name q.qtype) (zoneAnswer c ho q pkt z) := by
  have hanswers := @zoneAnswer_answers z q pkt c ho
  rw [hplain] at hanswers
  have hdenies := fun last => @denies_iff z q pkt last
  rw [hplain] at hdenies
  rw [Zone.told]
  cases hanswered : (cnameLoop z q.qtype false MAX_CNAME_CHAIN q.name []).answered with
  | true =>
    have hnever : ∀ last, ¬ z.Denies q.qtype q.name last := fun last hlast => by
      rw [((hdenies last).mp hlast).1] at hanswered
      cases hanswered
    rw [if_pos (.inl rfl)]
    exact ⟨fun h => (by cases h), fun rs h => ⟨(zoneAnswer_answered hnever).1, hanswers.trans (Option.some.inj h)⟩⟩
  | false =>
    have hlast := (hdenies _).mpr ⟨hanswered, rfl⟩
    cases hexists : z.nameExists (cnameLoop z q.qtype false MAX_CNAME_CHAIN q.name []).name with
    | true =>
      rw [if_pos (.inr rfl)]
      exact ⟨fun h => (by cases h), fun rs h => ⟨(zoneAnswer_noData hlast hexists).1, hanswers.trans (Option.some.inj h)⟩⟩
    | false =>
      rw [if_neg (by decide)]
      exact ⟨fun _ => (zoneAnswer_nxDomain hlast hexists).1, fun rs h => (by cases h)⟩

/-- In what it tells there are no signatures, but those that were asked for. -/
theorem told_unsigned (hwf : z.WF) {name : Text} {qtype : RType} {rs : List Record} (htold : z.told name qtype = some rs)
    (htype : qtype.toU16 ≠ RType.RRSIG.toU16) : ∀ r ∈ rs, r.rtype ≠ .RRSIG := by
  intro r hr hrrsig
  rw [Zone.told] at htold
  split at htold
  · obtain rfl := Option.some.inj htold
    have hwalked := Zone.walked_cnameLoop MAX_CNAME_CHAIN (fun r hr => by cases hr) r hr
    cases hwalked with
    | set ht hlookup hr =>
      have hcode := hwf.type_of_lookup hlookup hr
      rw [hrrsig] at hcode
      rcases ht with rfl | rfl
      · exact htype hcode.symm
      · cases hcode
    | signature hasked => cases hasked
  · cases htold

end
/-! Entries of one key. -/

section
variable {σ : Type} {h : Handler σ} {k : CacheKey} {v : CacheValue}

/-- Where all that is ever stored under a key is one value, its entry has that value. -/
theorem entries_of_stores (hstores : ∀ e st q value ttl, Stores h e st q value ttl → Cache.key q.name q.qtype = k →
    value = v) (s : σ) (events : List Event) (entry : CacheEntry)
    (hentry : ((Resolving.start s).run h events).cache.lookup k = some entry) : entry.value = v := by
  induction events using List.reverseRecOn with
  | nil =>
    rw [show ((Resolving.start s).run h []).cache.lookup k = none from AList.lookup_empty k] at hentry
    cases hentry
  | append_singleton events event ih =>
    rw [run_append] at hentry
    cases event with
    | evict now => exact ih (Cache.lookup_of_evictExpired hentry)
    | query e =>
      rcases step_stores (h := h) e ((Resolving.start s).run h events) with
        ⟨q, value, ttl, hstored, hcache⟩ | ⟨-, hcache⟩
      · rw [hcache, Cache.insertValue] at hentry
        by_cases hk : k = Cache.key q.name q.qtype
        · subst hk
          rw [AList.lookup_insert, Option.some.injEq] at hentry
          subst hentry
          exact hstores e _ q value ttl hstored rfl
        · rw [AList.lookup_insert_ne hk] at hentry
          exact ih hentry
      · rw [hcache] at hentry
        exact ih hentry

end

/-- The name and type of a question that was read are those of its key. -/
theorem question_of_key {data : Bytes} {pkt : Packet} {q : Question} (hparse : parsePacket data = .ok pkt)
    (hq : pkt.questions.head? = some q) : toAsciiLowercase q.name = q.name ∧ Normalised q.qtype := by
  have hmem := List.mem_of_mem_head? hq
  refine ⟨?_, ((fromWire_of_parse hparse).questions q hmem).2⟩
  obtain ⟨-, -, -, qs, -, hquestions⟩ := questions_of_parse hparse
  rw [hquestions] at hmem
  obtain ⟨wire, -, rfl⟩ := List.mem_map.mp hmem
  apply joinLabels_lower
  rw [List.map_map]
  exact List.map_congr_left fun l _ => labelText_lower l

/-! The forwarder. -/

section
variable {τ : Type} {hF : Handler Nat} {h : Handler τ} {servings : Nat → Serving τ} {ids : Nat → UInt16} {addr : IpAddr}
  {others : List IpAddr} {z : Zone} {name : Text} {qtype : RType}

/-- What a forwarder and the server behind it need for a name and a type of a zone: the server answers from the zone
    whenever it is asked, what the zone holds can be carried, and there is room for the answer. -/
structure Fronts (hF : Handler Nat) (h : Handler τ) (servings : Nat → Serving τ) (z : Zone) (name : Text)
    (qtype : RType) : Prop where
  upstream : ∃ ids addr others, hF.upstream = ResolverConfig.upstream (linked servings ids) ⟨addr :: others, true⟩
  answers : AnswersAlways h servings z name
  wf : z.WF
  portable : ∀ r, z.Holds r → Portable r
  fits : FitsWire name
  plain : qtype ≠ .AXFR ∧ qtype ≠ .IXFR ∧ qtype.toU16 ≠ RType.RRSIG.toU16
  size : ∀ id, (serialize (composed h z id name qtype false) true).length ≤ 65535

variable (hfronts : Fronts hF h servings z name qtype) (htype : Normalised qtype)
include hfronts htype

/-- **What the forwarder fetches**: what the zone tells. -/
theorem resolve_told (n : Nat) : ∃ p, Composes (z.told (readName name) qtype) p ∧
    (hF.upstream.resolve name qtype n).1 = if z.told (readName name) qtype = none then .NxDomain p else .Answer p := by
  obtain ⟨ids, addr, others, hupstream⟩ := hfronts.upstream
  have hcomposes : Composes (z.told (readName name) qtype) (composed h z (ids n) name qtype false) :=
    @zoneAnswer_told z h.crypto h.hashOrder ⟨readName name, qtype, CLASS_IN⟩
      (queryRead (ids n) 0x0100 name qtype false) rfl
  refine ⟨composed h z (ids n) name qtype false, hcomposes, ?_⟩
  rw [hupstream]
  have hresolve := resolve_composed hfronts.answers hfronts.fits htype ⟨hfronts.plain.1, hfronts.plain.2.1⟩ ids n
    (fun r hr => hfronts.portable r (answersFrom_zoneAnswer.records r hr)) (hfronts.size (ids n)) addr others
  refine hresolve.trans ?_
  cases htold : z.told (readName name) qtype with
  | none => rw [if_pos (hcomposes.absent htold), if_pos rfl]
  | some rs =>
    have hcode : (composed h z (ids n) name qtype false).rcode ≠ RCODE_NXDOMAIN := by
      rw [(hcomposes.records rs htold).1]
      decide
    rw [if_neg hcode, if_neg (by simp)]

variable {now : Nat} {dnssecOk : Bool} {value : CacheValue} {ttl : UInt32}

omit htype in
/-- A set without signatures is sent on unchecked, in every mode. -/
theorem rejected_told {q : Question} {p : Packet} {rs : List Record} {n : Nat}
    (htold : z.told (readName name) qtype = some rs) (hp : p.answers = rs) :
    rejected hF now q dnssecOk p n = false := by
  have hunsigned : answerRrsigs p = [] := by
    rw [answerRrsigs, hp, List.filter_eq_nil_iff]
    intro r hr
    simpa using told_unsigned hfronts.wf htold hfronts.plain.2.2 r hr
  rw [rejected, validateUpstream_none fun h => h.2.2.1 hunsigned]

/-- **What is stored**: what the zone tells. -/
theorem kept_told {q : Question} (hq : q.name = name) (hqtype : q.qtype = qtype) {n : Nat}
    (hkept : kept hF now q dnssecOk (hF.upstream.resolve q.name q.qtype n) = some (value, ttl)) :
    value = toldValue (z.told (readName name) qtype) := by
  obtain ⟨p, hcomposes, hresolve⟩ := resolve_told hfronts htype n
  rw [hq, hqtype] at hkept
  generalize hF.upstream.resolve name qtype n = out at hkept hresolve
  obtain ⟨result, s'⟩ := out
  dsimp only at hresolve
  cases htold : z.told (readName name) qtype with
  | none =>
    rw [htold, if_pos rfl] at hresolve
    subst hresolve
    exact (Prod.mk.inj (Option.some.inj hkept)).1.symm
  | some rs =>
    rw [htold, if_neg (by simp)] at hresolve
    subst hresolve
    have hrecords := (hcomposes.records rs htold).2
    have hall : p.answers.filter (fun r => r.rtype ≠ .RRSIG) = rs := by
      rw [hrecords, List.filter_eq_self]
      intro r hr
      simpa using told_unsigned hfronts.wf htold hfronts.plain.2.2 r hr
    rw [(kept_answer hkept).1, hall, toldValue]

/-- What is sent on tells it. -/
theorem tells_fetched {q : Question} (hq : q.name = name) (hqtype : q.qtype = qtype) {e : ClientQuery}
    {st : Resolving Nat} {pkt : Packet} (hrec : Recurses hF e st pkt q) : ∃ p edns,
      (e.outcome hF st).response = .reply p edns ∧ Tells (z.told (readName name) qtype) pkt.rd p := by
  obtain ⟨fetched, hcomposes, hresolve⟩ := resolve_told hfronts htype st.upstream
  cases hout : hF.upstream.resolve q.name q.qtype st.upstream with
  | mk result s' =>
    rw [← hq, ← hqtype, hout, hq, hqtype] at hresolve
    cases htold : z.told (readName name) qtype with
    | none =>
      rw [htold, if_pos rfl] at hresolve
      obtain rfl : result = .NxDomain fetched := hresolve
      obtain ⟨p, edns, hp, hcode, hanswers, -⟩ := outcome_of_nxDomain hrec hout
      exact ⟨p, edns, hp, .absent rfl hcode hanswers⟩
    | some rs =>
      rw [htold, if_neg (by simp)] at hresolve
      obtain rfl : result = .Answer fetched := hresolve
      obtain ⟨hcode, hrecords⟩ := hcomposes.records rs htold
      obtain ⟨p, edns, hp, hcode', hanswers, -⟩ := outcome_of_answer hrec hout (rejected_told hfronts htold hrecords)
      exact ⟨p, edns, hp, .records rfl (hcode'.trans hcode) (hanswers.trans hrecords)⟩

omit htype in
/-- The entry of the question holds what the zone tells, in every run. -/
theorem entries_told (hlower : toAsciiLowercase name = name) (hnormal : Normalised qtype) (n : Nat) (events : List Event)
    (entry : CacheEntry)
    (hentry : ((Resolving.start n).run hF events).cache.lookup (Cache.key name qtype) = some entry) :
    entry.value = toldValue (z.told (readName name) qtype) := by
  refine entries_of_stores (fun e st q value ttl hstores hkey => ?_) n events entry hentry
  obtain ⟨pkt, hrec, hkept⟩ := hstores
  obtain ⟨hqlower, hqnormal⟩ := question_of_key hrec.asks.parse hrec.asks.question
  obtain ⟨hq, hqtype⟩ := Prod.mk.inj hkey
  rw [hqlower, hlower] at hq
  have hqtype : q.qtype = qtype := by rw [← hqnormal, hqtype, hnormal]
  exact kept_told hfronts hnormal hq hqtype hkept

end

theorem get_value {cache : Cache} {now : Nat} {name : Text} {qtype : RType} {value : CacheValue}
    (h : cache.get now name qtype = some value) :
    ∃ entry, cache.lookup (Cache.key name qtype) = some entry ∧ entry.value = value := by
  rw [Cache.get] at h
  split at h
  · next entry hentry =>
    split at h
    · exact ⟨entry, hentry, Option.some.inj h⟩
    · cases h
  · cases h

/-- What is found tells it. -/
theorem tells_found (told : Option (List Record)) (desired : Bool) (pkt : Packet) :
    Tells told desired (fromCache (baseResponse pkt) (toldValue told)) := by
  cases told with
  | none => exact .absent rfl (rcode_fromCache _) rfl
  | some rs => exact .records rfl (rcode_fromCache _) rfl

/-- **A forwarder tells what the zone tells.** A server forwards to one of its make that serves a zone, and both go
    through any run: whoever asks the forwarder for a name and a type of the zone, after whatever others asked and the
    cache swept, gets the records that the zone has for it, or that there is no such name, as the zone's own server
    would say; or is refused, if it did not ask for recursion. Transfers and signatures are not asked for this way. -/
theorem forwarder_tells {τ : Type} {hF : Handler Nat} {h : Handler τ} {servings : Nat → Serving τ} {z : Zone}
    {q : Question} (hfronts : Fronts hF h servings z q.name q.qtype) (n : Nat) (events : List Event) {e : ClientQuery}
    {pkt : Packet} (hask : AsksResolver hF e pkt q) :
    let response := (e.outcome hF ((Resolving.start n).run hF events)).response
    e.recursion = .Defer ∧ response = .recursive ∨
      ∃ p edns, response = .reply p edns ∧ Tells (z.told (readName q.name) q.qtype) pkt.rd p := by
  obtain ⟨hlower, hnormal⟩ := question_of_key hask.asks.parse hask.asks.question
  have hentries := entries_told hfronts hlower hnormal n events
  generalize (Resolving.start n).run hF events = st at hentries
  dsimp only
  cases hget : st.cache.get e.clocks.lookup q.name q.qtype with
  | some value =>
    obtain ⟨entry, hentry, rfl⟩ := get_value hget
    refine .inr ⟨_, _, (outcome_of_found hask hget).2, ?_⟩
    rw [hentries entry hentry]
    exact tells_found _ _ pkt
  | none =>
    cases hdesired : pkt.rd with
    | false =>
      rw [outcome_of_asksResolver hask]
      simp only [cachedAnswer, hget, hdesired, Bool.not_false, if_true]
      exact .inr ⟨_, _, rfl, .refused rfl (rcode_setRcode _ (by decide)) rfl⟩
    | true =>
      by_cases hdefer : e.recursion = .Defer
      · rw [outcome_of_asksResolver hask]
        simp only [cachedAnswer, hget, hdesired, hdefer, Bool.not_true, Bool.false_eq_true, if_false, if_true]
        exact .inl ⟨trivial, trivial⟩
      · have htells := tells_fetched hfronts hnormal rfl rfl ⟨hask, hget, hdesired, hdefer⟩
        rw [hdesired] at htells
        exact .inr htells

/-! A forwarder that validates strictly, in front of a zone of one host. -/

def hostForwarder : Handler Nat :=
  { plainHandler with
    config := ⟨true, true, [⟨.V4 0, 0⟩], 100000, 300, false⟩
    upstream := ResolverConfig.upstream (linked (fun _ => hostServing) fun _ => 7) ⟨[.V4 0], true⟩ }

def hostClient : ClientQuery := ⟨[], noClocks, .V4 0, .Inline, queryBytes 9 ['w', '.', 'x'] .A true⟩

theorem hostForwarder_fronts :
    Fronts hostForwarder plainHandler (fun _ => hostServing) (zoneOf RecordLine.hostText) ['w', '.', 'x'] .A where
  upstream := ⟨fun _ => 7, .V4 0, [], rfl⟩
  answers := hostServing_answers
  wf := (Zone.loadFile_loaded (show (Zone.new ['x']).loadFile RecordLine.hostText = .ok _ from rfl)).wf
  portable := hostZone_portable
  fits := hostName_fits
  plain := by decide
  size := fun id => by
    have hlength :
        (serialize (composed plainHandler (zoneOf RecordLine.hostText) id ['w', '.', 'x'] .A false) true).length =
          (serialize (composed plainHandler (zoneOf RecordLine.hostText) 0 ['w', '.', 'x'] .A false) true).length := by
      rw [serialize_length, serialize_length]
      rfl
    rw [hlength]
    decide

theorem hostClient_asks : AsksResolver hostForwarder hostClient (queryRead 9 0x0100 ['w', '.', 'x'] .A true)
    ⟨['w', '.', 'x'], .A, CLASS_IN⟩ where
  asks := asks_query hostName_fits normalised_a (.inl rfl) noClocks
  zone := rfl
  allowed := by decide

/-- Asked for the second time, and with the DO bit. -/
theorem forwarder_tells_host :
    let response := (hostClient.outcome hostForwarder
      ((Resolving.start 0).run hostForwarder [.query hostClient, .evict 0])).response
    hostClient.recursion = .Defer ∧ response = .recursive ∨ ∃ p edns, response = .reply p edns ∧
      Tells ((zoneOf RecordLine.hostText).told (readName ['w', '.', 'x']) .A)
        (queryRead 9 0x0100 ['w', '.', 'x'] .A true).rd p :=
  forwarder_tells hostForwarder_fronts 0 [.query hostClient, .evict 0] hostClient_asks

end Ironbind
