import Ironbind.NameWire
import Ironbind.Resolver

/- What a walk takes from the servers it asks. A zone contains a name when its labels
   are the last ones of the name. Each pass of the loop keeps what its servers may
   speak for (`retainBailiwick`), follows a referral to a zone strictly deeper, or
   starts again from the root for a CNAME; so in a whole walk, and in the walks it
   nests, nothing comes from a server that does not answer for it
   (`iterativeResolve_bailiwick`). -/
namespace Ironbind
open Codec

/-! Zones and names. -/

/-- A name by its labels, in lower case. -/
def zoneLabels (name : Text) : List Text := labelsOf (toAsciiLowercase name)

/-- The name is the zone or below it. -/
def Contains (zone name : Text) : Prop := zoneLabels zone <:+ zoneLabels name

/-- The second zone is inside the first and has more labels. -/
structure Deeper (zone zone' : Text) : Prop where
  contains : Contains zone zone'
  length_lt : (zoneLabels zone).length < (zoneLabels zone').length

/-- "." or labels that are joined by dots, none of them empty. -/
def ProperName (name : Text) : Prop := ∃ ls : List Text, (∀ l ∈ ls, l ≠ [] ∧ '.' ∉ l) ∧ name = Parser.joinLabels ls

theorem zoneLabels_trim (name : Text) : labelsOf (toAsciiLowercase (trimEndMatches '.' name)) = zoneLabels name := by
  rw [zoneLabels, labelsOf_lower, labelsOf_lower, labelsOf_trim]

theorem zoneLabels_lower (name : Text) : zoneLabels (toAsciiLowercase name) = zoneLabels name := by
  rw [zoneLabels, zoneLabels, toAsciiLowercase_idem]

theorem contains_root (name : Text) : Contains ['.'] name := List.nil_suffix

theorem Contains.lower {zone name : Text} (h : Contains zone name) : Contains zone (toAsciiLowercase name) := by
  rw [Contains, zoneLabels_lower]
  exact h

/-- What the text comparison accepts is inside the zone. -/
theorem contains_of_inBailiwick {name zone : Text} (h : inBailiwick name zone = true) : Contains zone name := by
  rw [Contains, ← zoneLabels_trim zone, ← zoneLabels_trim name]
  simp only [inBailiwick, Bool.or_eq_true, beq_iff_eq, List.isSuffixOf_iff_suffix] at h
  rcases h with (h | h) | ⟨pre, h⟩
  · rw [h]
    exact List.nil_suffix
  · rw [h]
  · rw [← h, labelsOf_append_dot]
    exact List.suffix_append _ _

/-- A lower-case name that its labels spell. -/
def Spelt (name : Text) : Prop := name = Parser.joinLabels (zoneLabels name)

theorem spelt_root : Spelt ['.'] := by unfold Spelt; decide

theorem ProperName.spelt_lower {name : Text} (h : ProperName name) : Spelt (toAsciiLowercase name) := by
  obtain ⟨ls, hls, rfl⟩ := h
  have hlabels : labelsOf (Parser.joinLabels ls) = ls :=
    labelsOf_joinLabels (fun l hl => (hls l hl).2) fun l hl => (hls l hl).1
  rw [Spelt, zoneLabels_lower, zoneLabels, labelsOf_lower, hlabels, Parser.joinLabels, Parser.joinLabels]
  by_cases hnil : ls = []
  · rw [hnil]; rfl
  · rw [if_neg hnil, if_neg (mt List.map_eq_nil_iff.mp hnil)]
    exact toAsciiLowercase_intercalate ls

theorem Spelt.eq {name name' : Text} (h : Spelt name) (h' : Spelt name') (e : zoneLabels name = zoneLabels name') :
    name = name' := by
  rw [h, h', e]

/-- Inside a zone and not the zone itself is deeper. -/
theorem deeper_of_ne {zone zone' : Text} (h : Spelt zone) (h' : Spelt zone') (hc : Contains zone zone')
    (hne : zone' ≠ zone) :
    Deeper zone zone' := by
  refine ⟨hc, Nat.lt_of_le_of_ne hc.length_le fun hlen => hne ?_⟩
  exact (h.eq h' (hc.eq_of_length hlen)).symm

/-! What one pass does. -/

section
variable {σ : Type} (net : Sockets σ)

/-- A reply that one of the servers of a pass sent. -/
def Sent (st : Iteration) (reply : Packet) : Prop :=
  ∃ server ∈ st.nameservers, ∃ query s, (udpExchange net query server s).1 = some reply

/-- The replies of the network have proper names only. -/
def ProperReplies : Prop := ∀ query addr s reply, (udpExchange net query addr s).1 = some reply →
  ∀ r ∈ reply.answers ++ reply.authority ++ reply.additional, ProperName r.name

/-- The reply names `ns` as a server of the zone, and may do so. -/
def NamesServer (st : Iteration) (reply : Packet) (zone ns : Text) : Prop :=
  ∃ r ∈ reply.authority, r.rtype = .NS ∧ Contains st.zone r.name ∧ toAsciiLowercase r.name = toAsciiLowercase zone ∧
    ns = parseNameFromRdata r.rdata

/-- An address from an A record in bailiwick, for a server of the zone. -/
def FromGlue (st : Iteration) (reply : Packet) (zone : Text) (addr : IpAddr) : Prop :=
  ∃ ns, NamesServer st reply zone ns ∧ ∃ r ∈ reply.additional, r.rtype = .A ∧ Contains st.zone r.name ∧
    toAsciiLowercase r.name = toAsciiLowercase ns ∧ addressOf r = some addr

/-- An address from the A answer to a nested walk for a server of the zone. -/
def FromLookup (nested : Text → σ → ResolveResult × σ) (st : Iteration) (reply : Packet) (zone : Text) (addr : IpAddr) :
    Prop :=
  ∃ ns, NamesServer st reply zone ns ∧ ∃ s p, (nested ns s).1 = .Answer p ∧
    ∃ r ∈ p.answers, r.rtype = .A ∧ addressOf r = some addr

/-- A referral: the same name, a deeper zone that holds it, and addresses for it. -/
structure Refers (nested : Text → σ → ResolveResult × σ) (reply : Packet) (st st' : Iteration) : Prop where
  name : st'.name = st.name
  contains : Contains st'.zone st'.name
  deeper : Deeper st.zone st'.zone
  addresses : ∀ addr ∈ st'.nameservers, FromGlue st reply st'.zone addr ∨ FromLookup nested st reply st'.zone addr

/-- A restart from the root, for the target of a CNAME in bailiwick. -/
structure Restarts (reply : Packet) (st st' : Iteration) : Prop where
  zone : st'.zone = ['.']
  nameservers : st'.nameservers = rootServers
  cname : ∃ r ∈ reply.answers, r.rtype = .CNAME ∧ Contains st.zone r.name ∧ st'.name = parseNameFromRdata r.rdata

/-- A packet all of whose records, its OPT aside, belong to the zone. -/
def InBailiwick (zone : Text) (p : Packet) : Prop :=
  ∀ r, r ∈ p.answers ∨ r ∈ p.authority ∨ r ∈ p.additional ∧ r.rtype ≠ .OPT → Contains zone r.name

/-- The packet a walk returns, when it returns one. -/
def ResolveResult.packet : ResolveResult → Option Packet
  | Answer p => some p
  | NxDomain p => some p
  | ServFail _ => none

variable {net} {nested : Text → σ → ResolveResult × σ} {st st' : Iteration} {reply pkt p : Packet} {qtype : RType}
  {addr : IpAddr} {s s' : σ} {zone ns : Text}

theorem inBailiwick_retain (zone : Text) (reply : Packet) : InBailiwick zone (retainBailiwick zone reply) := by
  rintro r (hr | hr | ⟨hr, hopt⟩)
  · exact contains_of_inBailiwick (List.mem_filter.mp hr).2
  · exact contains_of_inBailiwick (List.mem_filter.mp hr).2
  · have hkept := (List.mem_filter.mp hr).2
    simp only [Bool.or_eq_true, decide_eq_true_eq] at hkept
    exact contains_of_inBailiwick (hkept.resolve_left hopt)

theorem addressOf_rtype {r : Record} (h : addressOf r = some addr) : r.rtype = .A := by
  unfold addressOf at h
  split at h
  · next htype _ => exact htype
  · cases h

theorem askServers_sent {query : Bytes} {name : Text} : ∀ {servers : List IpAddr} {visited visited' : List (Text × IpAddr)}
    {s s' : σ}, askServers net query name servers visited s = (some reply, visited', s') →
    ∃ server ∈ servers, ∃ s, (udpExchange net query server s).1 = some reply
  | [], _, _, _, _, h => by cases h
  | server :: servers, visited, visited', s, s', h => by
    rw [askServers] at h
    split at h
    · obtain ⟨server', hserver, hsent⟩ := askServers_sent h
      exact ⟨server', List.mem_cons_of_mem _ hserver, hsent⟩
    · cases hx : udpExchange net query server s with
      | mk found s1 =>
        rw [hx] at h
        cases found with
        | some pkt =>
          obtain rfl : pkt = reply := by cases h; rfl
          exact ⟨server, List.mem_cons_self, s, by rw [hx]⟩
        | none =>
          obtain ⟨server', hserver, hsent⟩ := askServers_sent h
          exact ⟨server', List.mem_cons_of_mem _ hserver, hsent⟩

theorem namesServer_of_mem (h : ns ∈ nsNames zone (retainBailiwick st.zone reply)) : NamesServer st reply zone ns := by
  obtain ⟨r, hr, rfl⟩ := List.mem_map.mp (List.mem_of_mem_filter h)
  obtain ⟨hr, hns⟩ := List.mem_filter.mp hr
  obtain ⟨hr, hin⟩ := List.mem_filter.mp hr
  simp only [decide_eq_true_eq] at hns
  exact ⟨r, hr, hns.1, contains_of_inBailiwick hin, hns.2, rfl⟩

theorem fromGlue_of_mem (h : addr ∈ glue (retainBailiwick st.zone reply).additional
    (nsNames zone (retainBailiwick st.zone reply))) : FromGlue st reply zone addr := by
  obtain ⟨ns, hns, h⟩ := List.mem_flatMap.mp h
  obtain ⟨r, hr, h⟩ := List.mem_filterMap.mp h
  split at h
  · next hname =>
    have htype := addressOf_rtype h
    obtain ⟨hr, hin⟩ := List.mem_filter.mp hr
    rw [htype] at hin
    exact ⟨ns, namesServer_of_mem hns, r, hr, htype, contains_of_inBailiwick hin, hname, h⟩
  · cases h

theorem lookupServers_mem : ∀ {names : List Text} {s : σ}, addr ∈ (lookupServers nested names s).1 →
    ∃ ns ∈ names, ∃ s p, (nested ns s).1 = .Answer p ∧ ∃ r ∈ p.answers, r.rtype = .A ∧ addressOf r = some addr
  | [], _, h => absurd h List.not_mem_nil
  | ns :: names, s, h => by
    have hrest : ∀ s1, addr ∈ (lookupServers nested names s1).1 → ∃ ns' ∈ ns :: names, ∃ s p,
        (nested ns' s).1 = .Answer p ∧ ∃ r ∈ p.answers, r.rtype = .A ∧ addressOf r = some addr := by
      intro s1 h
      obtain ⟨ns', hns', hfound⟩ := lookupServers_mem h
      exact ⟨ns', List.mem_cons_of_mem _ hns', hfound⟩
    rw [lookupServers] at h
    cases hn : nested ns s with
    | mk result s1 =>
      rw [hn] at h
      cases result with
      | NxDomain p => exact hrest s1 h
      | ServFail e => exact hrest s1 h
      | Answer p =>
        dsimp only at h
        split at h
        · obtain ⟨r, hr, haddr⟩ := List.mem_filterMap.mp h
          exact ⟨ns, List.mem_cons_self, s, p, by rw [hn], r, hr, addressOf_rtype haddr, haddr⟩
        · exact hrest s1 h

/-- A referral is followed to a zone below the current one that contains the name. -/
theorem delegatedZone_cases (h : delegatedZone st (retainBailiwick st.zone reply) = some zone) :
    ∃ r ∈ reply.authority, Contains st.zone r.name ∧ zone = toAsciiLowercase r.name ∧ zone ≠ st.zone ∧
      Contains zone st.name := by
  obtain ⟨h, hkeep⟩ := Option.filter_eq_some_iff.mp h
  obtain ⟨r, hr, rfl⟩ := Option.map_eq_some_iff.mp h
  obtain ⟨hr, hin⟩ := List.mem_filter.mp (List.mem_of_find?_eq_some hr)
  simp only [decide_eq_true_eq] at hkeep
  exact ⟨r, hr, contains_of_inBailiwick hin, rfl, hkeep.1, contains_of_inBailiwick hkeep.2⟩

theorem referralPass_next (hspelt : Spelt st.zone) (hproper : ∀ r ∈ reply.authority, ProperName r.name)
    (h : referralPass nested st (retainBailiwick st.zone reply) s = (.next st', s')) :
    Refers nested reply st st' ∧ Spelt st'.zone := by
  unfold referralPass at h
  split at h
  · cases h
  · next zone hzone =>
    obtain ⟨r, hr, hin, rfl, hne, hname⟩ := delegatedZone_cases hzone
    have hspelt' := (hproper r hr).spelt_lower
    have hrefers : ∀ addresses, (∀ addr ∈ addresses, FromGlue st reply (toAsciiLowercase r.name) addr ∨
        FromLookup nested st reply (toAsciiLowercase r.name) addr) →
        Refers nested reply st { st with zone := toAsciiLowercase r.name, nameservers := addresses } :=
      fun addresses hfound => ⟨rfl, hname, deeper_of_ne hspelt hspelt' hin.lower hne, hfound⟩
    dsimp only at h
    split at h
    · cases h
    · split at h
      · -- no glue
        split at h
        · cases h
        · cases h
          refine ⟨hrefers _ fun addr haddr => .inr ?_, hspelt'⟩
          obtain ⟨ns, hns, hfound⟩ := lookupServers_mem haddr
          exact ⟨ns, namesServer_of_mem hns, hfound⟩
      · cases h
        exact ⟨hrefers _ fun addr haddr => .inl (fromGlue_of_mem haddr), hspelt'⟩

theorem referralPass_done {result : ResolveResult} (h : referralPass nested st pkt s = (.done result, s')) :
    result.packet = none := by
  unfold referralPass at h
  split at h
  · cases h; rfl
  · dsimp only at h
    split at h
    · cases h; rfl
    · split at h
      · split at h <;> cases h
        rfl
      · cases h

theorem answerPass_next (h : answerPass qtype st (retainBailiwick st.zone reply) = .next st') : Restarts reply st st' := by
  unfold answerPass at h
  split at h
  · cases h
  · next r hr =>
    split at h
    · cases h
    · dsimp only at h
      split at h
      · cases h
      · cases h
        have htype := List.find?_some hr
        obtain ⟨hr, hin⟩ := List.mem_filter.mp (List.mem_of_find?_eq_some hr)
        exact ⟨rfl, rfl, r, hr, by simpa using htype, contains_of_inBailiwick hin, rfl⟩

theorem answerPass_done {result : ResolveResult} (h : answerPass qtype st pkt = .done result) :
    result.packet = none ∨ result.packet = some pkt := by
  unfold answerPass at h
  split at h
  · cases h; exact .inr rfl
  · split at h
    · cases h; exact .inr rfl
    · dsimp only at h
      split at h <;> cases h
      exact .inl rfl

/-- What a pass may go on to, from a reply of one of its servers. -/
def Follows (net : Sockets σ) (nested : Text → σ → ResolveResult × σ) (st st' : Iteration) : Prop :=
  ∃ reply, Sent net st reply ∧ (Refers nested reply st st' ∨ Restarts reply st st')

/-- **A pass goes on** by a referral or a restart. -/
theorem iteration_next (hnames : ProperReplies net) (hspelt : Spelt st.zone)
    (h : iteration net nested qtype st s = (.next st', s')) : Follows net nested st st' ∧ Spelt st'.zone := by
  unfold iteration at h
  dsimp only at h
  split at h
  · cases h
  · next reply visited s1 hask =>
    obtain ⟨server, hserver, s0, hsent⟩ := askServers_sent hask
    have hproper : ∀ r ∈ reply.authority, ProperName r.name := fun r hr =>
      hnames _ _ _ _ hsent r (List.mem_append_left _ (List.mem_append_right _ hr))
    have hst : Sent net st reply := ⟨server, hserver, _, _, hsent⟩
    unfold replyPass at h
    split at h
    · cases h
    · split at h
      · obtain ⟨hanswer, -⟩ := Prod.mk.inj h
        have hrestart : Restarts reply { st with visited := visited } st' := answerPass_next hanswer
        refine ⟨⟨reply, hst, .inr ⟨hrestart.zone, hrestart.nameservers, hrestart.cname⟩⟩, ?_⟩
        rw [hrestart.zone]
        exact spelt_root
      · split at h
        · obtain ⟨hrefers, hspelt'⟩ : Refers nested reply { st with visited := visited } st' ∧ Spelt st'.zone :=
            referralPass_next hspelt hproper h
          exact ⟨⟨reply, hst, .inl ⟨hrefers.name, hrefers.contains, hrefers.deeper, hrefers.addresses⟩⟩, hspelt'⟩
        · cases h

/-- **A pass ends** with what its servers may say, or without a packet. -/
theorem iteration_done {result : ResolveResult} (h : iteration net nested qtype st s = (.done result, s'))
    (hp : result.packet = some p) : ∃ reply, Sent net st reply ∧ p = retainBailiwick st.zone reply := by
  unfold iteration at h
  dsimp only at h
  split at h
  · cases h
    cases hp
  · next reply visited s1 hask =>
    obtain ⟨server, hserver, s0, hsent⟩ := askServers_sent hask
    refine ⟨reply, ⟨server, hserver, _, _, hsent⟩, ?_⟩
    unfold replyPass at h
    split at h
    · cases h
      exact (Option.some.inj hp).symm
    · split at h
      · obtain ⟨hanswer, -⟩ := Prod.mk.inj h
        rcases answerPass_done hanswer with hnone | hsome
        · rw [hnone] at hp
          cases hp
        · exact (Option.some.inj (hsome.symm.trans hp)).symm
      · split at h
        · rw [referralPass_done h] at hp
          cases hp
        · cases h
          exact (Option.some.inj hp).symm

/-! Whole walks. -/

variable (net nested qtype) in
/-- The states at the start of every pass of the loop. -/
def passes : Nat → Iteration → σ → List Iteration
  | 0, st, _ => [st]
  | left + 1, st, s => st ::
    match iteration net nested qtype st s with
    | (.done _, _) => []
    | (.next st, s) => passes left st s

theorem passes_head? (left : Nat) (st : Iteration) (s : σ) : (passes net nested qtype left st s).head? = some st := by
  cases left <;> rfl

theorem Follows.contains (h : Follows net nested st st') : Contains st'.zone st'.name := by
  obtain ⟨reply, -, hrefers | hrestarts⟩ := h
  · exact hrefers.contains
  · rw [hrestarts.zone]
    exact contains_root _

/-- What every pass keeps, the loop keeps. -/
theorem passes_follow (hnames : ProperReplies net) : ∀ (left : Nat) {st : Iteration} (s : σ), Spelt st.zone →
    Contains st.zone st.name → (∀ v ∈ passes net nested qtype left st s, Contains v.zone v.name) ∧
      (passes net nested qtype left st s).IsChain (Follows net nested)
  | 0, st, s, _, hc => by
    refine ⟨fun v hv => ?_, List.isChain_singleton _⟩
    rw [List.mem_singleton.mp hv]
    exact hc
  | left + 1, st, s, hspelt, hc => by
    rw [passes]
    cases hpass : iteration net nested qtype st s with
    | mk pass s' =>
      cases pass with
      | done result =>
        refine ⟨fun v hv => ?_, List.isChain_singleton _⟩
        rw [List.mem_singleton.mp hv]
        exact hc
      | next st' =>
        obtain ⟨hfollows, hspelt'⟩ := iteration_next hnames hspelt hpass
        obtain ⟨hall, hchain⟩ := passes_follow hnames left s' hspelt' hfollows.contains
        refine ⟨List.forall_mem_cons.mpr ⟨hc, hall⟩, List.isChain_cons.mpr ⟨fun v hv => ?_, hchain⟩⟩
        rw [passes_head?, Option.mem_some_iff] at hv
        rw [← hv]
        exact hfollows

/-- The packet the loop returns was sent in one of its passes. -/
theorem iterate_packet : ∀ (left : Nat) {st : Iteration} {s : σ}, (iterate net nested qtype left st s).1.packet = some p →
    ∃ v ∈ passes net nested qtype left st s, ∃ reply, Sent net v reply ∧ p = retainBailiwick v.zone reply
  | 0, _, _, h => by cases h
  | left + 1, st, s, h => by
    rw [iterate] at h
    rw [passes]
    cases hpass : iteration net nested qtype st s with
    | mk pass s' =>
      rw [hpass] at h
      cases pass with
      | done result => exact ⟨st, List.mem_cons_self, iteration_done hpass h⟩
      | next st' =>
        obtain ⟨v, hv, hsent⟩ := iterate_packet left h
        exact ⟨v, List.mem_cons_of_mem _ hv, hsent⟩

end

section
variable {σ : Type} {net : Sockets σ}

/-- The passes of a call of `iterative_resolve`, with the levels left. -/
def walk (net : Sockets σ) : Nat → Text → RType → σ → List Iteration
  | 0, _, _, _ => []
  | levels + 1, name, qtype, s =>
    passes net (fun ns s => iterativeResolve net levels ns .A s) qtype MAX_REFERRALS (.start name) s

/-- **Bailiwick safety.** However the network behaves, in every call of `iterative_resolve`, nested ones included:
    the walk starts at the root, the zone of every pass contains the name, every pass is followed by a referral
    to a strictly deeper zone with addresses from its glue or from a nested answer, or by a restart for a CNAME,
    and the packet returned was sent by a server of a zone that all its records belong to. -/
theorem iterativeResolve_bailiwick (hnames : ProperReplies net) (levels : Nat) (name : Text) (qtype : RType) (s : σ) :
    (∀ st, (walk net levels name qtype s).head? = some st → st = .start name) ∧
      (∀ st ∈ walk net levels name qtype s, Contains st.zone st.name) ∧
      (walk net levels name qtype s).IsChain (Follows net fun ns s => iterativeResolve net (levels - 1) ns .A s) ∧
      ∀ p, (iterativeResolve net levels name qtype s).1.packet = some p →
        ∃ st ∈ walk net levels name qtype s, InBailiwick st.zone p ∧
          ∃ reply, Sent net st reply ∧ p = retainBailiwick st.zone reply := by
  cases levels with
  | zero =>
    refine ⟨fun st h => ?_, fun st h => ?_, List.isChain_nil, fun p hp => ?_⟩
    · cases h
    · cases h
    · cases hp
  | succ levels =>
    obtain ⟨hall, hchain⟩ : (∀ st ∈ walk net (levels + 1) name qtype s, Contains st.zone st.name) ∧
        (walk net (levels + 1) name qtype s).IsChain (Follows net fun ns s => iterativeResolve net levels ns .A s) :=
      passes_follow hnames MAX_REFERRALS s spelt_root (contains_root name)
    refine ⟨fun st h => ?_, hall, hchain, fun p hp => ?_⟩
    · rw [walk, passes_head?] at h
      exact (Option.some.inj h).symm
    · obtain ⟨st, hst, reply, hsent, rfl⟩ := iterate_packet MAX_REFERRALS hp
      exact ⟨st, hst, inBailiwick_retain st.zone reply, reply, hsent, rfl⟩

end

/-! A network that refers to a server of its own. -/

def referralReply : Packet where
  id := 7
  flags := 0x8000
  questions := [⟨['w', '.', 'x'], .A, CLASS_IN⟩]
  answers := []
  authority := [⟨['x'], .NS, CLASS_IN, 60, [1, 110, 1, 120, 0]⟩]
  additional := [⟨['n', '.', 'x'], .A, CLASS_IN, 60, [192, 0, 2, 1]⟩]
  ednsUdpSize := 0
  dnssecOk := false

def referringNet : Sockets Unit where
  randomId := fun s => (7, s)
  udp := fun _ _ s => (some [serialize referralReply true], s)
  tcp := fun _ _ s => (none, s)

theorem referringNet_proper : ProperReplies referringNet := by
  have hparse : parsePacket ((serialize referralReply true).take 4096) = .ok referralReply := by decide
  intro query addr s reply hsent
  have hreply : reply = referralReply := by
    unfold udpExchange at hsent
    simp only [referringNet, firstReply, hparse] at hsent
    split at hsent
    · cases hsent
    · next expected _ =>
      cases hans : answersQuery expected referralReply with
      | false =>
        rw [hans] at hsent
        cases hsent
      | true =>
        rw [hans] at hsent
        exact (Option.some.inj hsent).symm
  rw [hreply]
  intro r hr
  simp only [referralReply, List.nil_append, List.cons_append, List.mem_cons, List.not_mem_nil, or_false] at hr
  rcases hr with rfl | rfl
  · exact ⟨[['x']], by decide, rfl⟩
  · exact ⟨[['n'], ['x']], by decide, rfl⟩

theorem iterativeResolve_bailiwick_referral : (walk referringNet 1 ['w', '.', 'x'] .A ()).length = 2 ∧
    ∀ st ∈ walk referringNet 1 ['w', '.', 'x'] .A (), Contains st.zone st.name :=
  ⟨by decide, (iterativeResolve_bailiwick referringNet_proper 1 ['w', '.', 'x'] .A ()).2.1⟩

end Ironbind
