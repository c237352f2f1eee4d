import Ironbind.Resolver

/- `iterative_resolve` as a machine. Nothing bounds it but its own counters: a call knows
   its depth by the calls that wait for it, a frame counts the referrals and restarts it
   has followed, and a step asks one server, starts one nested lookup or returns from one.
   Frames also remember what they have sent, which no step looks at.

   The machine halts on every network, with the result of the model
   (`iterativeResolve_terminates`): by induction on the depth left, on the referrals left
   and on the lists of servers and names. Until it halts no more than
   `MAX_NS_LOOKUP_DEPTH + 1` levels are at work, none of them has followed more than
   `MAX_REFERRALS` referrals and restarts, and none has sent a query for one name to one
   address twice (`step_bounded`). -/
namespace Ironbind
open Codec StateTransition

/-! The machine. -/

/-- Where a call stands in its loop. -/
inductive Point where
  | head
  /-- The servers that are still to be asked. -/
  | asking (query : Bytes) (servers : List IpAddr)
  /-- The servers of a zone without glue that are still to be looked up. -/
  | lookup (zone : Text) (names : List Text)

/-- A call of `iterative_resolve`. -/
structure Frame where
  qtype : RType
  /-- `referral_count`. -/
  count : Nat
  st : Iteration
  point : Point
  /-- The queries sent, by name and address. -/
  sent : List (Text × IpAddr)

inductive Control where
  | call (name : Text) (qtype : RType)
  | run (frame : Frame)
  | ret (result : ResolveResult)

/-- A state of the machine: what it does, the calls that wait for it, the innermost first, and the network. -/
structure Config (σ : Type) where
  control : Control
  callers : List Frame
  net : σ

/-- What a reply is good for, before any lookup. -/
inductive ReplyTurn where
  | done (result : ResolveResult)
  | next (st : Iteration)
  | lookup (zone : Text) (names : List Text)

def Pass.decision : Pass → ReplyTurn
  | .done result => .done result
  | .next st => .next st

def referralDecision (st : Iteration) (pkt : Packet) : ReplyTurn :=
  match delegatedZone st pkt with
  | none => .done (.ServFail "bogus referral")
  | some zone =>
    let names := nsNames zone pkt
    if names = [] then .done (.ServFail "empty referral")
    else
      let found := glue pkt.additional names
      if found = [] then .lookup zone names else .next { st with zone := zone, nameservers := found }

def replyDecision (qtype : RType) (st : Iteration) (pkt : Packet) : ReplyTurn :=
  if pkt.rcode = RCODE_NXDOMAIN then .done (.NxDomain pkt)
  else if pkt.answers ≠ [] then (answerPass qtype st pkt).decision
  else if pkt.authority ≠ [] then referralDecision st pkt
  else .done (.Answer pkt)

/-- The loop goes on: one referral or restart more. -/
def Frame.follow (f : Frame) (st : Iteration) : Frame := { f with count := f.count + 1, st := st, point := .head }

def Frame.decide (f : Frame) : ReplyTurn → Control
  | .done result => .ret result
  | .next st => .run (f.follow st)
  | .lookup zone names => .run { f with point := .lookup zone names }

/-- A nested lookup comes back: with addresses, or in vain. -/
def Frame.returned (f : Frame) (result : ResolveResult) : Frame :=
  match f.point, result with
  | .lookup zone _, .Answer p =>
    let addresses := p.answers.filterMap addressOf
    if addresses = [] then f else f.follow { f.st with zone := zone, nameservers := addresses }
  | _, _ => f

/-- A server has been asked. -/
def Frame.send (f : Frame) (ns : IpAddr) : Frame :=
  { f with st := { f.st with visited := (f.st.name, ns) :: f.st.visited }, sent := (f.st.name, ns) :: f.sent }

section
variable {σ : Type} (net : Sockets σ)

def frameStep (f : Frame) (callers : List Frame) (s : σ) : Config σ :=
  match f.point with
  | .head =>
    if f.count ≥ MAX_REFERRALS then ⟨.ret (.ServFail "max referrals exceeded"), callers, s⟩
    else
      let query := buildQuery (net.randomId s).1 f.st.name f.qtype false
      ⟨.run { f with point := .asking query f.st.nameservers }, callers, (net.randomId s).2⟩
  | .asking _ [] => ⟨.ret (.ServFail "all nameservers failed"), callers, s⟩
  | .asking query (ns :: servers) =>
    if f.st.visited.contains (f.st.name, ns) then ⟨.run { f with point := .asking query servers }, callers, s⟩
    else
      let exchange := udpExchange net query ns s
      ⟨exchange.1.elim (.run { f.send ns with point := .asking query servers }) fun reply =>
        (f.send ns).decide (replyDecision f.qtype (f.send ns).st (retainBailiwick f.st.zone reply)), callers, exchange.2⟩
  | .lookup _ [] => ⟨.ret (.ServFail "could not resolve any NS for referral"), callers, s⟩
  | .lookup zone (ns :: names) => ⟨.call ns .A, { f with point := .lookup zone names } :: callers, s⟩

/-- One step; none when the outermost call has returned. -/
def step (c : Config σ) : Option (Config σ) :=
  match c.control with
  | .call name qtype =>
    if c.callers.length > MAX_NS_LOOKUP_DEPTH then
      some { c with control := .ret (.ServFail "NS lookup depth exceeded") }
    else some { c with control := .run ⟨qtype, 0, .start name, .head, []⟩ }
  | .run f => some (frameStep net f c.callers c.net)
  | .ret result =>
    match c.callers with
    | [] => none
    | f :: callers => some ⟨.run (f.returned result), callers, c.net⟩

end

/-! What the levels keep to. -/

/-- The calls that are at work, waiting ones included. -/
def Config.frames {σ : Type} (c : Config σ) : List Frame :=
  match c.control with
  | .run f => f :: c.callers
  | _ => c.callers

/-- A frame within its bounds; what it has sent is what it calls visited. -/
structure Frame.Bounded (f : Frame) : Prop where
  count : f.count ≤ MAX_REFERRALS
  going : f.point ≠ .head → f.count < MAX_REFERRALS
  sent : f.sent = f.st.visited
  once : f.sent.Nodup

structure Config.Bounded {σ : Type} (c : Config σ) : Prop where
  depth : c.callers.length ≤ MAX_NS_LOOKUP_DEPTH + 1
  levels : c.frames.length ≤ MAX_NS_LOOKUP_DEPTH + 1
  frames : ∀ f ∈ c.frames, f.Bounded

section
variable {f : Frame}

theorem Frame.Bounded.move (h : f.Bounded) (hgoing : f.point ≠ .head) (point : Point) :
    Frame.Bounded { f with point := point } :=
  ⟨h.count, fun _ => h.going hgoing, h.sent, h.once⟩

theorem Frame.Bounded.follow (h : f.Bounded) (hgoing : f.point ≠ .head) {st : Iteration}
    (hst : st.visited = f.st.visited) : (f.follow st).Bounded :=
  ⟨h.going hgoing, fun hne => absurd rfl hne, h.sent.trans hst.symm, h.once⟩

/-- A server that was not asked before may be. -/
theorem Frame.Bounded.send (h : f.Bounded) (hgoing : f.point ≠ .head) {ns : IpAddr}
    (hnew : (f.st.name, ns) ∉ f.st.visited) : (f.send ns).Bounded :=
  ⟨h.count, fun _ => h.going hgoing, congrArg ((f.st.name, ns) :: ·) h.sent,
    List.nodup_cons.mpr ⟨by rw [h.sent]; exact hnew, h.once⟩⟩

theorem Frame.Bounded.returned (h : f.Bounded) (result : ResolveResult) : (f.returned result).Bounded := by
  unfold Frame.returned
  split
  · next zone names p hpoint =>
    dsimp only
    split
    · exact h
    · exact h.follow (by rw [hpoint]; exact Point.noConfusion) rfl
  · exact h

/-- A decision to go on keeps what was visited. -/
theorem replyDecision_next {qtype : RType} {st st' : Iteration} {pkt : Packet}
    (h : replyDecision qtype st pkt = .next st') : st'.visited = st.visited := by
  unfold replyDecision at h
  split at h
  · cases h
  · split at h
    · unfold answerPass at h
      split at h
      · cases h
      · split at h
        · cases h
        · -- a CNAME starts over at the root and keeps what was asked
          dsimp only at h
          split at h
          · cases h
          · cases h
            rfl
    · split at h
      · unfold referralDecision at h
        split at h
        · cases h
        · -- glue changes the zone and its servers only
          dsimp only at h
          split at h
          · cases h
          · split at h
            · cases h
            · cases h
              rfl
      · cases h

end

section
variable {σ : Type} {net : Sockets σ}

/-- What runs below the callers, within bounds. -/
theorem bounded_run {f : Frame} {callers : List Frame} {s : σ} (hf : f.Bounded)
    (hcallers : ∀ g ∈ callers, g.Bounded) (hlength : callers.length ≤ MAX_NS_LOOKUP_DEPTH) :
    Config.Bounded ⟨.run f, callers, s⟩ :=
  ⟨Nat.le_succ_of_le hlength, Nat.succ_le_succ hlength, List.forall_mem_cons.mpr ⟨hf, hcallers⟩⟩

theorem bounded_ret {result : ResolveResult} {callers : List Frame} {s : σ} (hcallers : ∀ g ∈ callers, g.Bounded)
    (hlength : callers.length ≤ MAX_NS_LOOKUP_DEPTH + 1) : Config.Bounded ⟨.ret result, callers, s⟩ :=
  ⟨hlength, hlength, hcallers⟩

theorem frameStep_bounded {f : Frame} {callers : List Frame} {s : σ} (hf : f.Bounded)
    (hcallers : ∀ g ∈ callers, g.Bounded) (hlength : callers.length ≤ MAX_NS_LOOKUP_DEPTH) :
    (frameStep net f callers s).Bounded := by
  have hret : ∀ (result : ResolveResult) (s : σ), Config.Bounded ⟨.ret result, callers, s⟩ :=
    fun _ _ => bounded_ret hcallers (Nat.le_succ_of_le hlength)
  unfold frameStep
  split
  · split
    · exact hret _ _
    · next hcount =>
      exact bounded_run ⟨hf.count, fun _ => Nat.lt_of_not_le hcount, hf.sent, hf.once⟩ hcallers hlength
  · exact hret _ _
  · next query ns servers hpoint =>
    have hgoing : f.point ≠ .head := by rw [hpoint]; exact Point.noConfusion
    split
    · exact bounded_run (hf.move hgoing _) hcallers hlength
    · next hnew =>
      have hsend := hf.send hgoing fun hmem => hnew (List.contains_iff_mem.mpr hmem)
      dsimp only
      cases (udpExchange net query ns s).1 with
      | none => exact bounded_run (hsend.move hgoing _) hcallers hlength
      | some reply =>
        rw [Option.elim_some]
        cases hdec : replyDecision f.qtype (f.send ns).st (retainBailiwick f.st.zone reply) with
        | done result => exact hret result _
        | next st => exact bounded_run (hsend.follow hgoing (replyDecision_next hdec)) hcallers hlength
        | lookup zone names => exact bounded_run (hsend.move hgoing _) hcallers hlength
  · exact hret _ _
  · next zone ns names hpoint =>
    -- the frame waits, and the new call is one level deeper
    have hwaits := hf.move (by rw [hpoint]; exact Point.noConfusion) (.lookup zone names)
    exact ⟨Nat.succ_le_succ hlength, Nat.succ_le_succ hlength, List.forall_mem_cons.mpr ⟨hwaits, hcallers⟩⟩

/-- **Every step** keeps the bounds. -/
theorem step_bounded {c c' : Config σ} (h : c.Bounded) (hstep : step net c = some c') : c'.Bounded := by
  obtain ⟨control, callers, s⟩ := c
  unfold step at hstep
  cases control with
  | call name qtype =>
    dsimp only at hstep
    split at hstep
    · cases hstep
      exact bounded_ret h.frames h.depth
    · next hlength =>
      cases hstep
      refine bounded_run ⟨Nat.zero_le _, fun hne => absurd rfl hne, rfl, List.nodup_nil⟩ h.frames ?_
      exact Nat.le_of_not_lt hlength
  | run f =>
    cases hstep
    obtain ⟨hf, hcallers⟩ := List.forall_mem_cons.mp h.frames
    exact frameStep_bounded hf hcallers (Nat.le_of_succ_le_succ h.levels)
  | ret result =>
    cases callers with
    | nil => cases hstep
    | cons f callers =>
      cases hstep
      obtain ⟨hf, hcallers⟩ := List.forall_mem_cons.mp h.frames
      exact bounded_run (hf.returned result) hcallers (Nat.le_of_succ_le_succ h.depth)

/-- A call from outside. -/
def Config.start (name : Text) (qtype : RType) (s : σ) : Config σ := ⟨.call name qtype, [], s⟩

theorem start_bounded (name : Text) (qtype : RType) (s : σ) : (Config.start name qtype s).Bounded :=
  ⟨Nat.zero_le _, Nat.zero_le _, fun _ hf => absurd hf List.not_mem_nil⟩

/-- Every run keeps the bounds. -/
theorem reaches_bounded {c c' : Config σ} (h : c.Bounded) (hreach : Reaches (step net) c c') : c'.Bounded := by
  induction hreach with
  | refl => exact h
  | tail _ hstep ih => exact step_bounded ih hstep

end

/-! The machine runs the model. -/

section
variable {σ : Type} {net : Sockets σ} {nested : Text → σ → ResolveResult × σ} {qtype : RType}

/-- A pass that has its reply, with the lookups to come. -/
theorem replyPass_eq (st : Iteration) (pkt : Packet) (s : σ) : replyPass nested qtype st pkt s =
    match replyDecision qtype st pkt with
    | .done result => (.done result, s)
    | .next st => (.next st, s)
    | .lookup zone names =>
      let (addresses, s) := lookupServers nested names s
      if addresses = [] then (.done (.ServFail "could not resolve any NS for referral"), s)
      else (.next { st with zone := zone, nameservers := addresses }, s) := by
  unfold replyPass replyDecision
  split
  · rfl
  · split
    · cases answerPass qtype st pkt <;> rfl
    · split
      · unfold referralPass referralDecision
        cases delegatedZone st pkt with
        | none => rfl
        | some zone =>
          dsimp only
          by_cases hnames : nsNames zone pkt = []
          · simp only [if_pos hnames]
          · simp only [if_neg hnames]
            by_cases hglue : glue pkt.additional (nsNames zone pkt) = []
            · simp only [if_pos hglue]
            · simp only [if_neg hglue]
      · rfl

theorem step_run (f : Frame) (callers : List Frame) (s : σ) :
    frameStep net f callers s ∈ step net ⟨.run f, callers, s⟩ := rfl

/-- A frame that runs takes its step first. -/
theorem reaches_run {f : Frame} {callers : List Frame} {s : σ} {c : Config σ}
    (h : Reaches (step net) (frameStep net f callers s) c) : Reaches (step net) ⟨.run f, callers, s⟩ c :=
  .head (step_run f callers s) h

/-- Where a frame stands once it has asked its servers: behind the reply, or out of servers. -/
def Asked (qtype : RType) (count : Nat) (st : Iteration) (sent : List (Text × IpAddr)) :
    Option Packet → Control
  | none => .ret (.ServFail "all nameservers failed")
  | some reply =>
    Frame.decide ⟨qtype, count, st, .head, sent⟩ (replyDecision qtype st (retainBailiwick st.zone reply))

theorem decide_point (f : Frame) (point : Point) (d : ReplyTurn) :
    Frame.decide { f with point := point } d = f.decide d := by
  cases d <;> rfl

/-- The servers of a pass, asked one after the other. -/
theorem reaches_asked (count : Nat) (query : Bytes) (callers : List Frame) :
    ∀ (servers : List IpAddr) (st : Iteration) (sent : List (Text × IpAddr)) (s : σ),
    ∃ sent', Reaches (step net) ⟨.run ⟨qtype, count, st, .asking query servers, sent⟩, callers, s⟩
      ⟨Asked qtype count { st with visited := (askServers net query st.name servers st.visited s).2.1 } sent'
        (askServers net query st.name servers st.visited s).1, callers,
        (askServers net query st.name servers st.visited s).2.2⟩
  | [], st, sent, s => ⟨sent, reaches_run .refl⟩
  | ns :: servers, st, sent, s => by
    by_cases hvisited : (st.name, ns) ∈ st.visited
    · -- asked before: the step drops the server
      obtain ⟨sent', h⟩ := reaches_asked count query callers servers st sent s
      refine ⟨sent', reaches_run ?_⟩
      have hcontains : st.visited.contains (st.name, ns) = true := List.contains_iff_mem.mpr hvisited
      rw [askServers, if_pos hvisited]
      simpa only [frameStep, if_pos hcontains] using h
    · have hcontains : ¬ st.visited.contains (st.name, ns) = true := fun h => hvisited (List.contains_iff_mem.mp h)
      cases hx : udpExchange net query ns s with
      | mk found s1 =>
        cases found with
        | none =>
          -- no reply: one more is sent, and the rest of the servers follow
          obtain ⟨sent', h⟩ := reaches_asked count query callers servers
            { st with visited := (st.name, ns) :: st.visited } ((st.name, ns) :: sent) s1
          refine ⟨sent', reaches_run ?_⟩
          rw [askServers, if_neg hvisited, hx]
          simp only [frameStep, if_neg hcontains, hx]
          exact h
        | some reply =>
          refine ⟨(st.name, ns) :: sent, reaches_run ?_⟩
          rw [askServers, if_neg hvisited, hx]
          simp only [frameStep, if_neg hcontains, hx]
          rw [Asked, ← decide_point _ (.asking query (ns :: servers))]
          exact .refl

/-- Where a frame stands once its lookups are over. -/
def LookedUp (f : Frame) (zone : Text) (addresses : List IpAddr) : Control :=
  if addresses = [] then .ret (.ServFail "could not resolve any NS for referral")
  else .run (f.follow { f.st with zone := zone, nameservers := addresses })

/-- The servers of a zone, looked up one after the other, when nested calls return what `nested` says. -/
theorem reaches_lookedUp (f : Frame) (zone : Text) (callers : List Frame)
    (hnested : ∀ (ns : Text) (g : Frame) (s : σ), Reaches (step net) ⟨.call ns .A, g :: callers, s⟩
      ⟨.ret (nested ns s).1, g :: callers, (nested ns s).2⟩) :
    ∀ (names : List Text) (s : σ), Reaches (step net) ⟨.run { f with point := .lookup zone names }, callers, s⟩
      ⟨LookedUp f zone (lookupServers nested names s).1, callers, (lookupServers nested names s).2⟩
  | [], s => reaches_run .refl
  | ns :: names, s => by
    -- the caller waits with the names that are left
    set g : Frame := { f with point := .lookup zone names } with hg
    have hback : Reaches (step net) ⟨.run { f with point := .lookup zone (ns :: names) }, callers, s⟩
        ⟨.run (g.returned (nested ns s).1), callers, (nested ns s).2⟩ :=
      (reaches_run (hnested ns g s)).tail rfl
    have hrest := reaches_lookedUp f zone callers hnested names (nested ns s).2
    rw [lookupServers]
    cases hr : nested ns s with
    | mk result s1 =>
      rw [hr] at hback hrest
      cases result with
      | Answer p =>
        dsimp only
        by_cases haddresses : p.answers.filterMap addressOf = []
        · rw [if_neg (not_not.mpr haddresses)]
          have hsame : g.returned (.Answer p) = g := if_pos haddresses
          rw [hsame] at hback
          exact hback.trans hrest
        · rw [if_pos haddresses, LookedUp, if_neg haddresses]
          have hfollow : g.returned (.Answer p) =
              f.follow { f.st with zone := zone, nameservers := p.answers.filterMap addressOf } := if_neg haddresses
          rw [hfollow] at hback
          exact hback
      | NxDomain p => exact hback.trans hrest
      | ServFail why => exact hback.trans hrest

/-- What a pass of the model leaves, as a control: done, or at the head of the next pass. -/
def Passed (qtype : RType) (count : Nat) (sent : List (Text × IpAddr)) : Pass → Control
  | .done result => .ret result
  | .next st => .run ⟨qtype, count + 1, st, .head, sent⟩

/-- One pass. -/
theorem reaches_passed (callers : List Frame)
    (hnested : ∀ (ns : Text) (g : Frame) (s : σ), Reaches (step net) ⟨.call ns .A, g :: callers, s⟩
      ⟨.ret (nested ns s).1, g :: callers, (nested ns s).2⟩) {count : Nat} (hcount : count < MAX_REFERRALS)
    (st : Iteration) (sent : List (Text × IpAddr)) (s : σ) :
    ∃ sent', Reaches (step net) ⟨.run ⟨qtype, count, st, .head, sent⟩, callers, s⟩
      ⟨Passed qtype count sent' (iteration net nested qtype st s).1, callers, (iteration net nested qtype st s).2⟩ := by
  obtain ⟨sent', hasked⟩ := @reaches_asked _ net qtype count
    (buildQuery (net.randomId s).1 st.name qtype false) callers st.nameservers st sent (net.randomId s).2
  refine ⟨sent', reaches_run ?_⟩
  have hhead : frameStep net ⟨qtype, count, st, .head, sent⟩ callers s =
      ⟨.run ⟨qtype, count, st, .asking (buildQuery (net.randomId s).1 st.name qtype false) st.nameservers, sent⟩,
        callers, (net.randomId s).2⟩ := if_neg (Nat.not_le.mpr hcount)
  rw [hhead]
  -- the query is built, then the servers are asked, then the reply is judged
  refine hasked.trans ?_
  unfold iteration
  dsimp only
  cases hask : askServers net (buildQuery (net.randomId s).1 st.name qtype false) st.name st.nameservers st.visited
      (net.randomId s).2 with
  | mk found rest =>
    obtain ⟨visited, s1⟩ := rest
    cases found with
    | none => exact .refl
    | some reply =>
      dsimp only [Asked]
      rw [replyPass_eq]
      cases hdec : replyDecision qtype { st with visited := visited } (retainBailiwick st.zone reply) with
      | done result => exact .refl
      | next st' => exact .refl
      | lookup zone names =>
        have hlookup := reaches_lookedUp ⟨qtype, count, { st with visited := visited }, .head, sent'⟩ zone callers
          hnested names s1
        refine hlookup.trans ?_
        dsimp only [LookedUp]
        by_cases haddresses : (lookupServers nested names s1).1 = []
        · rw [if_pos haddresses, if_pos haddresses]
          exact .refl
        · rw [if_neg haddresses, if_neg haddresses]
          exact .refl

/-- The loop, by the referrals left. -/
theorem reaches_iterate (callers : List Frame)
    (hnested : ∀ (ns : Text) (g : Frame) (s : σ), Reaches (step net) ⟨.call ns .A, g :: callers, s⟩
      ⟨.ret (nested ns s).1, g :: callers, (nested ns s).2⟩) :
    ∀ (left count : Nat), count + left = MAX_REFERRALS → ∀ (st : Iteration) (sent : List (Text × IpAddr)) (s : σ),
    Reaches (step net) ⟨.run ⟨qtype, count, st, .head, sent⟩, callers, s⟩
      ⟨.ret (iterate net nested qtype left st s).1, callers, (iterate net nested qtype left st s).2⟩
  | 0, count, hcount, st, sent, s => by
    have hfull : frameStep net ⟨qtype, count, st, .head, sent⟩ callers s =
        ⟨.ret (.ServFail "max referrals exceeded"), callers, s⟩ := if_pos (Nat.le_of_eq hcount.symm)
    apply reaches_run
    rw [hfull]
    exact .refl
  | left + 1, count, hcount, st, sent, s => by
    obtain ⟨sent', hpass⟩ := reaches_passed callers hnested (show count < MAX_REFERRALS by omega) st sent s
    refine hpass.trans ?_
    rw [iterate]
    cases hiter : iteration net nested qtype st s with
    | mk pass s1 =>
      cases pass with
      | done result => exact .refl
      | next st' => exact reaches_iterate callers hnested left (count + 1) (by omega) st' sent' s1

end

section
variable {σ : Type}

/-- A call returns what the model says, by the levels left. -/
theorem reaches_resolve (net : Sockets σ) : ∀ (levels : Nat) (callers : List Frame),
    callers.length + levels = MAX_NS_LOOKUP_DEPTH + 1 → ∀ (name : Text) (qtype : RType) (s : σ),
    Reaches (step net) ⟨.call name qtype, callers, s⟩
      ⟨.ret (iterativeResolve net levels name qtype s).1, callers, (iterativeResolve net levels name qtype s).2⟩
  | 0, callers, hlength, name, qtype, s => by
    have hdeep : callers.length > MAX_NS_LOOKUP_DEPTH := by omega
    refine .single ?_
    simp only [step, if_pos hdeep]
    rfl
  | levels + 1, callers, hlength, name, qtype, s => by
    have hentered : (⟨.run ⟨qtype, 0, .start name, .head, []⟩, callers, s⟩ : Config σ) ∈
        step net ⟨.call name qtype, callers, s⟩ := by
      have hdepth : ¬ callers.length > MAX_NS_LOOKUP_DEPTH := by omega
      simp only [step, if_neg hdepth]
      rfl
    refine .head hentered ?_
    apply @reaches_iterate _ net (fun ns s => iterativeResolve net levels ns .A s) _ callers _ MAX_REFERRALS 0
      (Nat.zero_add _)
    intro ns g s
    exact reaches_resolve net levels (g :: callers) (by rw [List.length_cons]; omega) ns .A s

/-- **The walk terminates.** On every network, `iterative_resolve` halts, with the result of the model. In
    every state on the way at most `MAX_NS_LOOKUP_DEPTH + 1` levels are at work, and each of them has
    followed at most `MAX_REFERRALS` referrals and restarts and sent no query twice. -/
theorem iterativeResolve_terminates (net : Sockets σ) (name : Text) (qtype : RType) (s : σ) :
    (⟨.ret (iterativeResolve net (MAX_NS_LOOKUP_DEPTH + 1) name qtype s).1, [],
        (iterativeResolve net (MAX_NS_LOOKUP_DEPTH + 1) name qtype s).2⟩ : Config σ) ∈
      eval (step net) (.start name qtype s) ∧
    ∀ c, Reaches (step net) (.start name qtype s) c → c.frames.length ≤ MAX_NS_LOOKUP_DEPTH + 1 ∧
      ∀ f ∈ c.frames, f.count ≤ MAX_REFERRALS ∧ f.sent.Nodup := by
  refine ⟨mem_eval.mpr ⟨reaches_resolve net (MAX_NS_LOOKUP_DEPTH + 1) [] rfl name qtype s, rfl⟩, fun c hreach => ?_⟩
  have hbounded := reaches_bounded (start_bounded name qtype s) hreach
  exact ⟨hbounded.levels, fun f hf => ⟨(hbounded.frames f hf).count, (hbounded.frames f hf).once⟩⟩

end

end Ironbind
