import Ironbind.Bailiwick

/- What a walk makes of the replies it accepts. A pass accepts at most one, and only the
   last can end the walk, so a result is read off the list of them (`acceptedReplies`).
   Two kinds of replies are not made into what they are: one without answers whose
   authority section has an SOA record and no NS record is taken for a referral to
   nowhere (`iterativeResolve_negatives_iff`), and the CNAME records that led to the last
   reply are not in its answer section (`iterativeResolve_connected_iff`). -/
namespace Ironbind
open Codec

section
variable {σ : Type} (net : Sockets σ) (nested : Text → σ → ResolveResult × σ) (qtype : RType)

/-! The replies of a walk. -/

/-- The reply a pass accepts, without what is out of bailiwick. -/
def acceptedReply (st : Iteration) (s : σ) : Option Packet :=
  let (id, s) := net.randomId s
  (askServers net (buildQuery id st.name qtype false) st.name st.nameservers st.visited s).1.map
    (retainBailiwick st.zone)

/-- The replies of the passes of the loop, in order. -/
def loopReplies : Nat → Iteration → σ → List Packet
  | 0, _, _ => []
  | left + 1, st, s => (acceptedReply net qtype st s).toList ++
    match iteration net nested qtype st s with
    | (.done _, _) => []
    | (.next st, s) => loopReplies left st s

/-- The replies of a call of `iterative_resolve`, with the levels left. -/
def acceptedReplies : Nat → Text → RType → σ → List Packet
  | 0, _, _, _ => []
  | levels + 1, name, qtype, s =>
    loopReplies net (fun ns s => iterativeResolve net levels ns .A s) qtype MAX_REFERRALS (.start name) s

variable {net nested qtype} {st st' : Iteration} {s s' : σ} {pkt : Packet} {result : ResolveResult}

variable (nested) in
theorem iteration_none (h : acceptedReply net qtype st s = none) :
    (iteration net nested qtype st s).1 = .done (.ServFail "all nameservers failed") := by
  unfold acceptedReply at h
  unfold iteration
  dsimp only at h ⊢
  cases hask : askServers net (buildQuery (net.randomId s).1 st.name qtype false) st.name st.nameservers st.visited
      (net.randomId s).2 with
  | mk found rest =>
    obtain ⟨visited, s1⟩ := rest
    rw [hask] at h
    cases found with
    | none => rfl
    | some reply => cases h

variable (nested) in
/-- A pass with a reply does what the reply is good for. -/
theorem iteration_some (h : acceptedReply net qtype st s = some pkt) :
    ∃ visited s1, iteration net nested qtype st s = replyPass nested qtype { st with visited := visited } pkt s1 := by
  unfold acceptedReply at h
  unfold iteration
  dsimp only at h ⊢
  cases hask : askServers net (buildQuery (net.randomId s).1 st.name qtype false) st.name st.nameservers st.visited
      (net.randomId s).2 with
  | mk found rest =>
    obtain ⟨visited, s1⟩ := rest
    rw [hask] at h
    cases found with
    | none => cases h
    | some reply => exact ⟨visited, s1, by rw [← Option.some.inj h]⟩

/-- A pass that goes on had a reply. -/
theorem acceptedReply_of_next (h : iteration net nested qtype st s = (.next st', s')) :
    ∃ pkt, acceptedReply net qtype st s = some pkt := by
  cases hreply : acceptedReply net qtype st s with
  | some pkt => exact ⟨pkt, rfl⟩
  | none =>
    have hdone := iteration_none nested hreply
    rw [h] at hdone
    cases hdone

/-- **The last reply decides.** A walk that runs out of referrals fails; any other ends with a pass whose
    reply, if it has one, is the last. -/
theorem iterate_cases (net : Sockets σ) (nested : Text → σ → ResolveResult × σ) (qtype : RType) :
    ∀ (left : Nat) (st : Iteration) (s : σ),
    (iterate net nested qtype left st s).1 = .ServFail "max referrals exceeded" ∨
      ∃ v t t' result, iteration net nested qtype v t = (.done result, t') ∧
        (iterate net nested qtype left st s).1 = result ∧
        ∀ pkt, acceptedReply net qtype v t = some pkt → (loopReplies net nested qtype left st s).getLast? = some pkt
  | 0, _, _ => .inl rfl
  | left + 1, st, s => by
    rw [iterate, loopReplies]
    cases hpass : iteration net nested qtype st s with
    | mk pass s' =>
      cases pass with
      | done result => exact .inr ⟨st, s, s', result, hpass, rfl, fun pkt h => by rw [h]; rfl⟩
      | next st' =>
        rcases iterate_cases net nested qtype left st' s' with hmax | ⟨v, t, t', result, hdone, hresult, hlast⟩
        · exact .inl hmax
        · refine .inr ⟨v, t, t', result, hdone, hresult, fun pkt h => ?_⟩
          simp only [List.getLast?_append, hlast pkt h, Option.some_or]

/-! Negative replies. -/

/-- A reply that says the name has no records of the type: no error and no answers, and an SOA record but
    no NS record in the authority section. -/
structure Packet.NoData (pkt : Packet) : Prop where
  rcode : pkt.rcode = RCODE_NOERROR
  answers : pkt.answers = []
  soa : ∃ r ∈ pkt.authority, r.rtype = .SOA
  no_ns : ∀ r ∈ pkt.authority, r.rtype ≠ .NS

/-- Replies without data come to an answer without data, and NXDOMAIN comes from a reply that says so. -/
structure NegativesKept (replies : List Packet) (result : ResolveResult) : Prop where
  nodata : ∀ pkt ∈ replies, pkt.NoData → ∃ p, result = .Answer p ∧ p.rcode = RCODE_NOERROR ∧ p.answers = []
  nxdomain : ∀ p, result = .NxDomain p → ∃ pkt, replies.getLast? = some pkt ∧ pkt.rcode = RCODE_NXDOMAIN

/-- A reply without data is taken for a referral, to no zone. -/
theorem replyPass_nodata (h : pkt.NoData) : replyPass nested qtype st pkt s = (.done (.ServFail "bogus referral"), s) := by
  have hrcode : ¬ pkt.rcode = RCODE_NXDOMAIN := by rw [h.rcode]; decide
  have hauthority : pkt.authority ≠ [] := by
    obtain ⟨r, hr, -⟩ := h.soa
    exact List.ne_nil_of_mem hr
  have hzone : delegatedZone st pkt = none := by
    have hfind : pkt.authority.find? (fun r => r.rtype = .NS) = none :=
      List.find?_eq_none.mpr fun r hr hns => h.no_ns r hr (of_decide_eq_true hns)
    rw [delegatedZone, hfind]
    rfl
  rw [replyPass, if_neg hrcode, if_neg (not_not.mpr h.answers), if_pos hauthority, referralPass, hzone]

theorem replyPass_nxdomain {p : Packet} (h : replyPass nested qtype st pkt s = (.done (.NxDomain p), s')) :
    pkt.rcode = RCODE_NXDOMAIN := by
  unfold replyPass at h
  split at h
  · next hrcode => exact hrcode
  · exfalso
    split at h
    · obtain ⟨hanswer, -⟩ := Prod.mk.inj h
      unfold answerPass at hanswer
      split at hanswer
      · cases hanswer
      · split at hanswer
        · cases hanswer
        · dsimp only at hanswer
          split at hanswer <;> cases hanswer
    · split at h
      · have hnone := referralPass_done h
        cases hnone
      · cases h

/-- A walk that accepts a reply without data fails with it. -/
theorem iterate_nodata : ∀ (left : Nat) {st : Iteration} {s : σ},
    (∃ pkt ∈ loopReplies net nested qtype left st s, pkt.NoData) →
    (iterate net nested qtype left st s).1 = .ServFail "bogus referral"
  | 0, st, s, h => by
    obtain ⟨pkt, hpkt, -⟩ := h
    cases hpkt
  | left + 1, st, s, h => by
    obtain ⟨pkt, hpkt, hnodata⟩ := h
    rw [loopReplies] at hpkt
    rw [iterate]
    -- the pass that accepts the reply is the last one
    have here (hreply : acceptedReply net qtype st s = some pkt) :
        (iteration net nested qtype st s).1 = .done (.ServFail "bogus referral") := by
      obtain ⟨visited, s1, hpass⟩ := iteration_some nested hreply
      rw [hpass, replyPass_nodata hnodata]
    cases hpass : iteration net nested qtype st s with
    | mk pass s' =>
      rw [hpass] at here hpkt
      cases pass with
      | done result =>
        have hreply : acceptedReply net qtype st s = some pkt := by simpa using hpkt
        exact Pass.done.inj (here hreply)
      | next st' =>
        rcases List.mem_append.mp hpkt with hreply | hrest
        · cases here (Option.mem_toList.mp hreply)
        · exact iterate_nodata left ⟨pkt, hrest, hnodata⟩

theorem iterate_nxdomain {left : Nat} {p : Packet} (h : (iterate net nested qtype left st s).1 = .NxDomain p) :
    ∃ pkt, (loopReplies net nested qtype left st s).getLast? = some pkt ∧ pkt.rcode = RCODE_NXDOMAIN := by
  rcases iterate_cases net nested qtype left st s with
    hmax | ⟨v, t, t', result, hdone, hresult, hlast⟩
  · rw [hmax] at h
    cases h
  · obtain rfl : result = .NxDomain p := hresult.symm.trans h
    cases hreply : acceptedReply net qtype v t with
    | none =>
      have hfail := iteration_none nested hreply
      rw [hdone] at hfail
      cases hfail
    | some pkt =>
      obtain ⟨visited, s1, hpass⟩ := iteration_some nested hreply
      exact ⟨pkt, hlast pkt hreply, replyPass_nxdomain (hpass.symm.trans hdone)⟩

/-- **NODATA is not understood.** In every call, nested ones included, and however the network behaves:
    negative replies are kept as what they are exactly when none of the replies accepted is one
    without data; a call that accepts one fails. -/
theorem iterativeResolve_negatives_iff (net : Sockets σ) (levels : Nat) (name : Text) (qtype : RType) (s : σ) :
    (NegativesKept (acceptedReplies net levels name qtype s) (iterativeResolve net levels name qtype s).1 ↔
      ∀ pkt ∈ acceptedReplies net levels name qtype s, ¬ pkt.NoData) ∧
    ((∃ pkt ∈ acceptedReplies net levels name qtype s, pkt.NoData) →
      (iterativeResolve net levels name qtype s).1 = .ServFail "bogus referral") := by
  cases levels with
  | zero =>
    refine ⟨⟨fun _ _ h => ?_, fun _ => ⟨fun _ h => ?_, fun p h => ?_⟩⟩, fun ⟨_, h, _⟩ => ?_⟩
    · cases h
    · cases h
    · cases h
    · cases h
  | succ levels =>
    have hfails := @iterate_nodata σ net (fun ns s => iterativeResolve net levels ns .A s) qtype MAX_REFERRALS
      (.start name) s
    refine ⟨⟨fun hkept pkt hpkt hnodata => ?_, fun hnone => ⟨fun pkt hpkt hnodata => ?_, fun p h => ?_⟩⟩, hfails⟩
    · obtain ⟨p, hanswer, -⟩ := hkept.nodata pkt hpkt hnodata
      rw [iterativeResolve, hfails ⟨pkt, hpkt, hnodata⟩] at hanswer
      cases hanswer
    · exact absurd hnodata (hnone pkt hpkt)
    · exact iterate_nxdomain h

/-! Answers and the question. -/

/-- From a name, CNAME records lead to a record of the type. -/
inductive Connected (answers : List Record) (qtype : RType) : Text → Prop where
  | record {name : Text} {r : Record} (hr : r ∈ answers) (htype : r.rtype = qtype)
      (howner : zoneLabels r.name = zoneLabels name) : Connected answers qtype name
  | link {name : Text} {cn : Record} (hcn : cn ∈ answers) (htype : cn.rtype = .CNAME)
      (howner : zoneLabels cn.name = zoneLabels name) (rest : Connected answers qtype (parseNameFromRdata cn.rdata)) :
      Connected answers qtype name

/-- A reply whose answer section ends the walk: it has records, and no CNAME unless that is what was asked for. -/
structure Packet.Answers (pkt : Packet) (qtype : RType) : Prop where
  rcode : pkt.rcode ≠ RCODE_NXDOMAIN
  some : pkt.answers ≠ []
  no_cname : qtype ≠ .CNAME → ∀ r ∈ pkt.answers, r.rtype ≠ .CNAME

/-- Without CNAME records, or with nothing else, only a record of the name itself connects. -/
theorem connected_iff {answers : List Record} {name : Text} (h : qtype ≠ .CNAME → ∀ r ∈ answers, r.rtype ≠ .CNAME) :
    Connected answers qtype name ↔ ∃ r ∈ answers, r.rtype = qtype ∧ zoneLabels r.name = zoneLabels name := by
  constructor
  · intro hconn
    cases hconn with
    | record hr htype howner => exact ⟨_, hr, htype, howner⟩
    | link hcn htype howner _ =>
      have hq : qtype = .CNAME := by
        by_contra hne
        exact h hne _ hcn htype
      exact ⟨_, hcn, htype.trans hq.symm, howner⟩
  · rintro ⟨r, hr, htype, howner⟩
    exact .record hr htype howner

theorem answerPass_answers {p : Packet} (h : answerPass qtype st pkt = .done (.Answer p)) :
    p = pkt ∧ (qtype ≠ .CNAME → ∀ r ∈ pkt.answers, r.rtype ≠ .CNAME) := by
  unfold answerPass at h
  split at h
  · next hnone =>
    cases h
    refine ⟨rfl, fun _ r hr hcname => ?_⟩
    exact List.find?_eq_none.mp hnone r hr (decide_eq_true hcname)
  · split at h
    · next hq =>
      cases h
      exact ⟨rfl, fun hne => absurd hq hne⟩
    · dsimp only at h
      split at h <;> cases h

/-- What ends a walk with records: a reply that answers, and this reply. -/
theorem replyPass_answer {p : Packet} (h : replyPass nested qtype st pkt s = (.done (.Answer p), s'))
    (hsome : p.answers ≠ []) : p = pkt ∧ pkt.Answers qtype := by
  unfold replyPass at h
  split at h
  · cases h
  · next hrcode =>
    split at h
    · next hanswers =>
      obtain ⟨rfl, hno⟩ := answerPass_answers (Prod.mk.inj h).1
      exact ⟨rfl, hrcode, hanswers, hno⟩
    · next hanswers =>
      split at h
      · have hnone := referralPass_done h
        cases hnone
      · cases h
        exact absurd hsome hanswers

theorem replyPass_of_answers (h : pkt.Answers qtype) : replyPass nested qtype st pkt s = (.done (.Answer pkt), s) := by
  rw [replyPass, if_neg h.rcode, if_pos h.some, answerPass]
  split
  · rfl
  · next cn hcn =>
    have hq : qtype = .CNAME := by
      by_contra hne
      exact h.no_cname hne cn (List.mem_of_find?_eq_some hcn) (of_decide_eq_true (List.find?_some hcn :))
    rw [if_pos hq]

/-- A walk ends with records exactly when its last reply answers, and then with that reply. -/
theorem iterate_answer {left : Nat} {p : Packet} (hsome : p.answers ≠ []) :
    (iterate net nested qtype left st s).1 = .Answer p ↔
      (loopReplies net nested qtype left st s).getLast? = some p ∧ p.Answers qtype := by
  constructor
  · intro h
    rcases iterate_cases net nested qtype left st s with
      hmax | ⟨v, t, t', result, hdone, hresult, hlast⟩
    · rw [hmax] at h
      cases h
    · obtain rfl : result = .Answer p := hresult.symm.trans h
      cases hreply : acceptedReply net qtype v t with
      | none =>
        have hfail := iteration_none nested hreply
        rw [hdone] at hfail
        cases hfail
      | some pkt =>
        obtain ⟨visited, s1, hpass⟩ := iteration_some nested hreply
        obtain ⟨rfl, hans⟩ := replyPass_answer (hpass.symm.trans hdone) hsome
        exact ⟨hlast p hreply, hans⟩
  · induction left generalizing st s with
    | zero => rintro ⟨h, -⟩; cases h
    | succ left ih =>
      rw [iterate, loopReplies]
      rintro ⟨hlast, hans⟩
      cases hpass : iteration net nested qtype st s with
      | mk pass s' =>
        rw [hpass] at hlast
        cases pass with
        | done result =>
          have hreply : acceptedReply net qtype st s = some p := by
            cases hr : acceptedReply net qtype st s with
            | none => rw [hr] at hlast; cases hlast
            | some pkt => rw [hr] at hlast; simpa using hlast
          obtain ⟨visited, s1, hpass'⟩ := iteration_some nested hreply
          rw [hpass, replyPass_of_answers hans] at hpass'
          cases hpass'
          rfl
        | next st' =>
          apply ih
          refine ⟨?_, hans⟩
          cases hrest : (loopReplies net nested qtype left st' s').getLast? with
          | some q => simpa [List.getLast?_append, hrest] using hlast
          | none =>
            -- the reply that answers would be this pass's, which goes on
            obtain ⟨pkt, hreply⟩ := acceptedReply_of_next hpass
            change (Option.toList (acceptedReply net qtype st s) ++
              loopReplies net nested qtype left st' s').getLast? = _ at hlast
            rw [List.getLast?_eq_none_iff.mp hrest, hreply] at hlast
            obtain rfl : pkt = p := Option.some.inj hlast
            obtain ⟨visited, s1, hpass'⟩ := iteration_some nested hreply
            rw [hpass, replyPass_of_answers hans] at hpass'
            cases hpass'

/-- **CNAME links are dropped.** In every call, and however the network behaves: an answer with records
    leads from the name asked for to a record of the type exactly when the last reply accepted, if
    it answers, has a record of the type owned by that name; no link to the name the last
    reply is about is in it. -/
theorem iterativeResolve_connected_iff (net : Sockets σ) (levels : Nat) (name : Text) (qtype : RType) (s : σ) :
    (∀ p, (iterativeResolve net levels name qtype s).1 = .Answer p → p.answers ≠ [] →
      Connected p.answers qtype name) ↔
    ∀ pkt, (acceptedReplies net levels name qtype s).getLast? = some pkt → pkt.Answers qtype →
      ∃ r ∈ pkt.answers, r.rtype = qtype ∧ zoneLabels r.name = zoneLabels name := by
  cases levels with
  | zero =>
    refine ⟨fun _ pkt h => ?_, fun _ p h => ?_⟩
    · cases h
    · cases h
  | succ levels =>
    constructor
    · intro h pkt hlast hans
      exact (connected_iff hans.no_cname).mp (h pkt ((iterate_answer hans.some).mpr ⟨hlast, hans⟩) hans.some)
    · intro h p hresult hsome
      obtain ⟨hlast, hans⟩ := (iterate_answer hsome).mp hresult
      exact (connected_iff hans.no_cname).mpr (h p hlast hans)

end

/-! Two networks. -/

/-- The root's reply that "a" has no address. -/
def nodataReply : Packet where
  id := 7
  flags := 0x8400
  questions := [⟨['a'], .A, CLASS_IN⟩]
  answers := []
  authority := [⟨['.'], .SOA, CLASS_IN, 60, [0, 0] ++ List.replicate 20 0⟩]
  additional := []
  ednsUdpSize := 0
  dnssecOk := false

/-- Every server sends the same datagrams; the one that answers the query is taken. -/
def repeatingNet (replies : List Packet) : Sockets Unit where
  randomId := fun s => (7, s)
  udp := fun _ _ s => (some (replies.map fun p => serialize p true), s)
  tcp := fun _ _ s => (none, s)

/-- A reply without data, accepted from the first server, and a failure. -/
theorem nodataReply_fails : acceptedReplies (repeatingNet [nodataReply]) 5 ['a'] .A () = [nodataReply] ∧
    nodataReply.NoData ∧
    ¬ NegativesKept (acceptedReplies (repeatingNet [nodataReply]) 5 ['a'] .A ())
      (iterativeResolve (repeatingNet [nodataReply]) 5 ['a'] .A ()).1 := by
  have hreplies : acceptedReplies (repeatingNet [nodataReply]) 5 ['a'] .A () = [nodataReply] := by decide
  have hnodata : nodataReply.NoData := ⟨by decide, rfl, ⟨_, List.mem_singleton_self _, rfl⟩, by decide⟩
  have hmem : nodataReply ∈ acceptedReplies (repeatingNet [nodataReply]) 5 ['a'] .A () := by
    rw [hreplies]
    exact List.mem_singleton_self _
  have hresult : (iterativeResolve (repeatingNet [nodataReply]) 5 ['a'] .A ()).1 = .ServFail "bogus referral" :=
    iterate_nodata MAX_REFERRALS ⟨nodataReply, hmem, hnodata⟩
  refine ⟨hreplies, hnodata, fun h => ?_⟩
  obtain ⟨p, hp, -⟩ := h.nodata nodataReply hmem hnodata
  rw [hresult] at hp
  cases hp

/-- "a" is an alias of "b". -/
def aliasReply : Packet :=
  { nodataReply with answers := [⟨['a'], .CNAME, CLASS_IN, 60, [1, 98, 0]⟩], authority := [] }

/-- The address of "b". -/
def targetReply : Packet :=
  { nodataReply with questions := [⟨['b'], .A, CLASS_IN⟩], answers := [⟨['b'], .A, CLASS_IN, 60, [192, 0, 2, 1]⟩],
                     authority := [] }

/-- The answer for "a" is the address of "b", and nothing in it leads there. -/
theorem aliasReply_dropped :
    (iterativeResolve (repeatingNet [aliasReply, targetReply]) 5 ['a'] .A ()).1 = .Answer targetReply ∧
    targetReply.answers ≠ [] ∧ ¬ Connected targetReply.answers .A ['a'] := by
  have hreplies : acceptedReplies (repeatingNet [aliasReply, targetReply]) 5 ['a'] .A () = [aliasReply, targetReply] := by
    decide
  have hans : targetReply.Answers .A := ⟨by decide, List.cons_ne_nil _ _, fun _ => by decide⟩
  refine ⟨(iterate_answer hans.some).mpr ⟨congrArg List.getLast? hreplies, hans⟩, hans.some, ?_⟩
  rw [connected_iff hans.no_cname]
  decide

end Ironbind
