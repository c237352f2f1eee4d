import Ironbind.SubtreeTests

/- What a walk finds where servers tell the truth. `NameSpace` is the world as its servers
   should describe it, with no packets in it: who serves which zone, who is up, and what is
   said of a name. In an honest network (`Honest`) a server that answers says it, or refers
   to a zone below all that it serves, with glue or with name servers that can be looked up;
   others are silent. `Finds` counts the passes a name may take, one for every label and one
   for every name its CNAMEs lead over.

   A walk keeps to a course (`OnCourse`): each pass ends it with what is said, or brings it
   to a zone further down or to the target of a CNAME (`pass_onCourse`), and a server that
   is up and was asked before does not serve the zone the walk is in. So it finds what the
   name space says, whichever of the servers are down, whenever the passes are at most
   `MAX_REFERRALS` and the lookups of name servers nest no deeper than
   `MAX_NS_LOOKUP_DEPTH` (`iterativeResolve_finds`). -/
namespace Ironbind
open Codec

/-! The name space. -/

structure NameSpace where
  /-- The questions that are asked in it. -/
  asked : Text → RType → Prop
  /-- The servers of a zone, by its name in lower case. -/
  servers : Text → IpAddr → Prop
  /-- The servers that are up. -/
  live : IpAddr → Prop
  /-- The answer section for a name and a type, or that there is no such name. -/
  said : Text → RType → Option (List Record)
  /-- How deep the lookups of name servers nest for a name. -/
  rank : Text → Nat

/-- A pass for every zone that can hold the name, from the root down. -/
def passesFor (name : Text) : Nat := (zoneLabels name).length + 1

namespace NameSpace
variable (ns : NameSpace)

/-- What is said of a name when its CNAMEs are followed, and in how many passes it is found at most. -/
inductive Finds (qtype : RType) : Nat → Text → Option (List Record) → Prop
  | absent {name : Text} (asked : ns.asked name qtype) (joined : Joined name) (said : ns.said name qtype = none) :
      Finds qtype (passesFor name) name none
  | found {name : Text} {answers : List Record} (asked : ns.asked name qtype) (joined : Joined name)
      (said : ns.said name qtype = some answers) (filled : answers ≠ [])
      (plain : qtype = .CNAME ∨ ∀ r ∈ answers, r.rtype ≠ .CNAME) : Finds qtype (passesFor name) name (some answers)
  | aliased {name : Text} {answers : List Record} {cname : Record} {k : Nat} {v : Option (List Record)}
      (asked : ns.asked name qtype) (joined : Joined name) (said : ns.said name qtype = some answers)
      (first : answers.find? (fun r => r.rtype = .CNAME) = some cname) (other : qtype ≠ .CNAME)
      (target : parseNameFromRdata cname.rdata ≠ []) (rank : ns.rank (parseNameFromRdata cname.rdata) ≤ ns.rank name)
      (rest : Finds qtype k (parseNameFromRdata cname.rdata) v) : Finds qtype (passesFor name + k) name v

/-- The server has a zone that holds the name. -/
def Speaks (a : IpAddr) (name zone : Text) : Prop := ns.servers zone a ∧ Contains zone name

/-- Addresses that are servers of a zone, and one of them up. -/
def Reach (zone : Text) (addresses : List IpAddr) : Prop :=
  (∀ a ∈ addresses, ns.servers zone a) ∧ ∃ a ∈ addresses, ns.live a

/-- A referral to a zone, by a server of zones above it: with an address that the server may give, or with none and
    name servers that can be looked up. -/
structure Delegates (a : IpAddr) (name : Text) (p : Packet) (zone : Text) : Prop where
  code : p.rcode ≠ RCODE_NXDOMAIN
  answers : p.answers = []
  joined : Joined zone
  lower : toAsciiLowercase zone = zone
  contains : Contains zone name
  above : ∀ z, ns.Speaks a name z → (Joined z ∨ z = ['.']) ∧ Deeper z zone
  owners : ∀ r ∈ p.authority, r.rtype = .NS → r.name = zone
  named : ∃ r ∈ p.authority, r.rtype = .NS ∧ parseNameFromRdata r.rdata ≠ []
  reached : ((∀ b ∈ glue p.additional (nsNames zone p), ns.servers zone b) ∧
      ∃ r ∈ p.additional, ∃ n ∈ nsNames zone p, ∃ b, toAsciiLowercase r.name = toAsciiLowercase n ∧
        addressOf r = some b ∧ ns.live b ∧ Joined r.name ∧ ∀ z, ns.Speaks a name z → Contains z r.name) ∨
    (glue p.additional (nsNames zone p) = [] ∧ ∀ n ∈ nsNames zone p, ns.rank n < ns.rank name ∧
      ∃ k answers, ns.Finds .A k n (some answers) ∧ k ≤ MAX_REFERRALS ∧ ns.Reach zone (answers.filterMap addressOf))

/-- A reply that says what the name space says, or refers on. -/
inductive Truthful (a : IpAddr) (name : Text) (qtype : RType) (p : Packet) : Prop
  | absent (code : p.rcode = RCODE_NXDOMAIN) (said : ns.said name qtype = none) : Truthful a name qtype p
  | answer (code : p.rcode ≠ RCODE_NXDOMAIN) (said : ns.said name qtype = some p.answers)
      (inside : ∀ z, ns.Speaks a name z → (Joined z ∨ z = ['.']) ∧ ∀ r ∈ p.answers, Joined r.name ∧ Contains z r.name) :
      Truthful a name qtype p
  | referral {zone : Text} (delegates : ns.Delegates a name p zone) : Truthful a name qtype p

/-- Servers that are up answer, and what servers answer about their zones is true. -/
structure Honest {σ : Type} (net : Sockets σ) : Prop where
  roots : ns.Reach ['.'] rootServers
  answers : ∀ {a name qtype}, ns.live a → ns.asked name qtype → ∀ s s',
    (udpExchange net (buildQuery (net.randomId s).1 name qtype false) a s').1.isSome
  truthful : ∀ {a name qtype zone p}, ns.asked name qtype → ns.Speaks a name zone → ∀ s s',
    (udpExchange net (buildQuery (net.randomId s).1 name qtype false) a s').1 = some p → ns.Truthful a name qtype p

variable {ns} {qtype : RType}

theorem Finds.asked {k : Nat} {name : Text} {v : Option (List Record)} (h : ns.Finds qtype k name v) :
    ns.asked name qtype := by
  cases h with
  | absent asked => exact asked
  | found asked => exact asked
  | aliased asked => exact asked

theorem Finds.joined {k : Nat} {name : Text} {v : Option (List Record)} (h : ns.Finds qtype k name v) : Joined name := by
  cases h with
  | absent asked joined => exact joined
  | found asked joined => exact joined
  | aliased asked joined => exact joined

theorem Finds.passes_le {k : Nat} {name : Text} {v : Option (List Record)} (h : ns.Finds qtype k name v) :
    passesFor name ≤ k := by
  cases h with
  | absent => exact Nat.le_refl _
  | found => exact Nat.le_refl _
  | aliased => exact Nat.le_add_right _ _

/-- A name is found in one way. -/
theorem Finds.unique {k : Nat} {name : Text} {v : Option (List Record)} (h : ns.Finds qtype k name v) :
    ∀ {k' : Nat} {v' : Option (List Record)}, ns.Finds qtype k' name v' → k = k' ∧ v = v' := by
  have hclash : ∀ {answers : List Record} {cname : Record}, (qtype = .CNAME ∨ ∀ r ∈ answers, r.rtype ≠ .CNAME) →
      answers.find? (fun r => r.rtype = .CNAME) = some cname → qtype ≠ .CNAME → False := by
    intro answers cname hplain hfirst hother
    exact hplain.resolve_left hother cname (List.mem_of_find?_eq_some hfirst) (by simpa using List.find?_some hfirst)
  induction h with
  | absent asked joined said =>
    intro k' v' h'
    cases h' with
    | absent => exact ⟨rfl, rfl⟩
    | found asked' joined' said' => rw [said] at said'; cases said'
    | aliased asked' joined' said' => rw [said] at said'; cases said'
  | found asked joined said filled plain =>
    intro k' v' h'
    cases h' with
    | absent asked' joined' said' => rw [said] at said'; cases said'
    | found asked' joined' said' => rw [said] at said'; exact ⟨rfl, said'⟩
    | aliased asked' joined' said' first other =>
      rw [said] at said'
      cases said'
      exact (hclash plain first other).elim
  | aliased asked joined said first other target rank rest ih =>
    intro k' v' h'
    cases h' with
    | absent asked' joined' said' => rw [said] at said'; cases said'
    | found asked' joined' said' filled' plain' =>
      rw [said] at said'
      cases said'
      exact (hclash plain' first other).elim
    | aliased asked' joined' said' first' other' target' rank' rest' =>
      rw [said] at said'
      cases said'
      rw [first] at first'
      cases first'
      obtain ⟨rfl, rfl⟩ := ih rest'
      exact ⟨rfl, rfl⟩

/-- What is found of a name that does not exist. -/
theorem Finds.of_absent {k : Nat} {name : Text} {v : Option (List Record)} (h : ns.Finds qtype k name v)
    (hsaid : ns.said name qtype = none) : v = none := by
  cases h with
  | absent => rfl
  | found asked joined said => rw [hsaid] at said; cases said
  | aliased asked joined said => rw [hsaid] at said; cases said

/-- What is found of a name with records: these, or what is found of the target of their CNAME. -/
theorem Finds.of_said {k : Nat} {name : Text} {v : Option (List Record)} {answers : List Record}
    (h : ns.Finds qtype k name v) (hsaid : ns.said name qtype = some answers) :
    answers ≠ [] ∧ ((v = some answers ∧ (qtype = .CNAME ∨ ∀ r ∈ answers, r.rtype ≠ .CNAME)) ∨
      ∃ cname k', answers.find? (fun r => r.rtype = .CNAME) = some cname ∧ qtype ≠ .CNAME ∧ k = passesFor name + k' ∧
        parseNameFromRdata cname.rdata ≠ [] ∧ ns.rank (parseNameFromRdata cname.rdata) ≤ ns.rank name ∧
        ns.Finds qtype k' (parseNameFromRdata cname.rdata) v) := by
  cases h with
  | absent asked joined said => rw [hsaid] at said; cases said
  | found asked joined said filled plain =>
    rw [hsaid] at said
    cases said
    exact ⟨filled, .inl ⟨rfl, plain⟩⟩
  | aliased asked joined said first other target rank rest =>
    rw [hsaid] at said
    cases said
    have hfilled := List.ne_nil_of_mem (List.mem_of_find?_eq_some first)
    exact ⟨hfilled, .inr ⟨_, _, first, other, rfl, target, rank, rest⟩⟩

end NameSpace

/-! A pass. -/

section
variable {σ : Type} {net : Sockets σ} {query : Bytes} {name : Text}

/-- A server that was not asked and answers is found, or one before it: those asked in between were silent. -/
theorem askServers_live : ∀ {servers : List IpAddr} {visited : List (Text × IpAddr)} {s : σ},
    (∃ a ∈ servers, (name, a) ∉ visited ∧ ∀ s, (udpExchange net query a s).1.isSome) →
    ∃ a ∈ servers, ∃ p visited' s', askServers net query name servers visited s = (some p, visited', s') ∧
      (∃ s, (udpExchange net query a s).1 = some p) ∧
      ∀ e ∈ visited', e ∈ visited ∨ e = (name, a) ∨ e.1 = name ∧ ∃ s, (udpExchange net query e.2 s).1 = none
  | [], _, _, h => by
    obtain ⟨a, ha, -⟩ := h
    cases ha
  | b :: servers, visited, s, h => by
    rw [askServers]
    by_cases hvisited : (name, b) ∈ visited
    · have hrest : ∃ a ∈ servers, (name, a) ∉ visited ∧ ∀ s, (udpExchange net query a s).1.isSome := by
        obtain ⟨a, ha, hnew, hup⟩ := h
        rcases List.mem_cons.mp ha with rfl | ha
        · exact absurd hvisited hnew
        · exact ⟨a, ha, hnew, hup⟩
      obtain ⟨a, ha, p, visited', s', hask, hreply, hnew⟩ := @askServers_live servers visited s hrest
      rw [if_pos hvisited]
      exact ⟨a, List.mem_cons_of_mem _ ha, p, visited', s', hask, hreply, hnew⟩
    · rw [if_neg hvisited]
      cases hexchange : udpExchange net query b s with
      | mk reply s1 =>
        cases reply with
        | some p =>
          refine ⟨b, List.mem_cons_self, p, _, s1, rfl, ⟨s, by rw [hexchange]⟩, fun e he => ?_⟩
          rcases List.mem_cons.mp he with rfl | he
          · exact .inr (.inl rfl)
          · exact .inl he
        | none =>
          have hsilent : (udpExchange net query b s).1 = none := by rw [hexchange]
          have hrest : ∃ a ∈ servers, (name, a) ∉ (name, b) :: visited ∧
              ∀ s, (udpExchange net query a s).1.isSome := by
            obtain ⟨a, ha, hnew, hup⟩ := h
            have hne : a ≠ b := by
              rintro rfl
              have hup := hup s
              rw [hsilent] at hup
              cases hup
            refine ⟨a, (List.mem_cons.mp ha).resolve_left hne, fun hmem => ?_, hup⟩
            rcases List.mem_cons.mp hmem with hmem | hmem
            · exact hne (Prod.mk.inj hmem).2
            · exact hnew hmem
          obtain ⟨a, ha, p, visited', s', hask, hreply, hnew⟩ := @askServers_live servers _ s1 hrest
          refine ⟨a, List.mem_cons_of_mem _ ha, p, visited', s', hask, hreply, fun e he => ?_⟩
          rcases hnew e he with he | he | he
          · rcases List.mem_cons.mp he with rfl | he
            · exact .inr (.inr ⟨rfl, s, hsilent⟩)
            · exact .inl he
          · exact .inr (.inl he)
          · exact .inr (.inr he)

end

section
variable {σ : Type} {net : Sockets σ} {ns : NameSpace} {nested : Text → σ → ResolveResult × σ} {qtype : RType}

/-- What a call returns when it finds this. -/
def Conveys : Option (List Record) → ResolveResult → Prop
  | none, result => ∃ p, result = .NxDomain p
  | some answers, result => ∃ p, result = .Answer p ∧ p.answers = answers

/-- A walk that is to find this, with so many levels below it and so many passes left. -/
structure OnCourse (ns : NameSpace) (qtype : RType) (v : Option (List Record)) (levels left : Nat) (st : Iteration) :
    Prop where
  finds : ∃ k, ns.Finds qtype k st.name v ∧ k ≤ left + (zoneLabels st.zone).length ∧
    ∀ x ∈ st.cnameChain, ∃ k' v', ns.Finds qtype k' x v' ∧ k < k'
  zone : Joined st.zone ∨ st.zone = ['.']
  contains : Contains st.zone st.name
  servers : ns.Reach st.zone st.nameservers
  visited : ∀ e ∈ st.visited, e.1 ∈ st.cnameChain ∨ e.1 = st.name ∧ (ns.live e.2 →
    ∀ z, ns.Speaks e.2 st.name z → (zoneLabels z).length < (zoneLabels st.zone).length)
  rank : ns.rank st.name ≤ levels

variable {v : Option (List Record)} {levels left : Nat} {st : Iteration}

/-- A server of the zone that is up was not asked for the name. -/
theorem OnCourse.unasked (h : OnCourse ns qtype v levels left st) :
    ∃ a ∈ st.nameservers, ns.live a ∧ (st.name, a) ∉ st.visited := by
  obtain ⟨a, ha, hlive⟩ := h.servers.2
  refine ⟨a, ha, hlive, fun hmem => ?_⟩
  rcases h.visited _ hmem with hchain | ⟨-, hdown⟩
  · obtain ⟨k, hfinds, -, hall⟩ := h.finds
    obtain ⟨k', v', hfinds', hlt⟩ := hall _ hchain
    exact absurd (hfinds.unique hfinds').1 (Nat.ne_of_lt hlt)
  · exact absurd (hdown hlive st.zone ⟨h.servers.1 a ha, h.contains⟩) (Nat.lt_irrefl _)

/-- A walk on its course has a pass left. -/
theorem OnCourse.left_pos (h : OnCourse ns qtype v levels left st) : 0 < left := by
  obtain ⟨k, hfinds, hle, -⟩ := h.finds
  have hpasses := hfinds.passes_le
  have hdepth := h.contains.length_le
  unfold passesFor at hpasses
  omega

/-! What the filter leaves. -/

theorem retain_answers {zone : Text} {p : Packet} (hzone : Joined zone ∨ zone = ['.'])
    (hinside : ∀ r ∈ p.answers, Joined r.name ∧ Contains zone r.name) :
    (retainBailiwick zone p).answers = p.answers := by
  apply List.filter_eq_self.mpr
  intro r hr
  obtain ⟨hjoined, hcontains⟩ := hinside r hr
  exact (inBailiwick_iff hjoined hzone).mpr hcontains

namespace NameSpace.Delegates
variable {a : IpAddr} {p : Packet} {zone : Text} (h : ns.Delegates a st.name p zone)
  (hspeaks : ns.Speaks a st.name st.zone)
include h hspeaks

/-- The records that delegate stay. -/
theorem inside : inBailiwick zone st.zone = true :=
  (inBailiwick_iff h.joined (h.above _ hspeaks).1).mpr (h.above _ hspeaks).2.contains

theorem nsNames_retain : nsNames zone (retainBailiwick st.zone p) = nsNames zone p := by
  have hkept : (p.authority.filter fun r => inBailiwick r.name st.zone).filter (fun r =>
      r.rtype = .NS ∧ toAsciiLowercase r.name = toAsciiLowercase zone) =
        p.authority.filter fun r => r.rtype = .NS ∧ toAsciiLowercase r.name = toAsciiLowercase zone := by
    rw [List.filter_filter]
    apply List.filter_congr
    intro r hr
    by_cases htype : r.rtype = .NS
    · rw [h.owners r hr htype, h.inside hspeaks, Bool.and_true]
    · simp [htype]
  rw [nsNames, retainBailiwick, hkept, nsNames]

theorem delegatedZone_retain (hname : Joined st.name) : delegatedZone st (retainBailiwick st.zone p) = some zone := by
  have hfirst : ((retainBailiwick st.zone p).authority.find? fun r => r.rtype = .NS).map
      (fun r => toAsciiLowercase r.name) =
      some zone := by
    obtain ⟨r, hr, htype, -⟩ := h.named
    have hstays : r ∈ (retainBailiwick st.zone p).authority :=
      List.mem_filter.mpr ⟨hr, by rw [h.owners r hr htype]; exact h.inside hspeaks⟩
    cases hfind : (retainBailiwick st.zone p).authority.find? fun r => r.rtype = .NS with
    | none => exact absurd (List.find?_eq_none.mp hfind r hstays) (by simp [htype])
    | some r' =>
      have htype' : r'.rtype = .NS := by simpa using List.find?_some hfind
      rw [Option.map_some, h.owners r' (List.mem_of_mem_filter (List.mem_of_find?_eq_some hfind)) htype', h.lower]
  have hne : zone ≠ st.zone := fun he => by
    have hlt := (h.above _ hspeaks).2.length_lt
    rw [he] at hlt
    exact Nat.lt_irrefl _ hlt
  rw [delegatedZone, hfirst, Option.filter, if_pos]
  simpa using ⟨hne, (inBailiwick_iff hname (.inl h.joined)).mpr h.contains⟩

omit h hspeaks in
/-- What is left of the glue. -/
theorem mem_glue_retain {b : IpAddr} {names : List Text} (hb : b ∈ glue (retainBailiwick st.zone p).additional names) :
    b ∈ glue p.additional names := by
  obtain ⟨n, hn, hb⟩ := List.mem_flatMap.mp hb
  obtain ⟨r, hr, hb⟩ := List.mem_filterMap.mp hb
  exact List.mem_flatMap.mpr ⟨n, hn, List.mem_filterMap.mpr ⟨r, List.mem_of_mem_filter hr, hb⟩⟩

/-- **A referral leads on**, to addresses of servers of the zone, one of them up. -/
theorem reach (hname : Joined st.name)
    (hnested : ∀ {n k answers}, ns.rank n < ns.rank st.name → ns.Finds .A k n (some answers) → k ≤ MAX_REFERRALS →
      ∀ s, Conveys (some answers) (nested n s).1) (s : σ) :
    ∃ addresses s', referralPass nested st (retainBailiwick st.zone p) s =
      (.next { st with zone := zone, nameservers := addresses }, s') ∧ ns.Reach zone addresses := by
  have hnonempty : nsNames zone p ≠ [] := by
    obtain ⟨r, hr, htype, htarget⟩ := h.named
    refine List.ne_nil_of_mem (List.mem_filter.mpr ⟨List.mem_map.mpr ⟨r, List.mem_filter.mpr ⟨hr, ?_⟩, rfl⟩, ?_⟩)
    · simpa using ⟨htype, congrArg toAsciiLowercase (h.owners r hr htype)⟩
    · simpa using htarget
  rw [referralPass, h.delegatedZone_retain hspeaks hname]
  dsimp only
  rw [h.nsNames_retain hspeaks, if_neg hnonempty]
  rcases h.reached with ⟨hservers, r, hr, n, hn, b, howner, hb, hlive, hjoined, hinside⟩ | ⟨hnone, hlookups⟩
  · -- glue
    have hstays : b ∈ glue (retainBailiwick st.zone p).additional (nsNames zone p) := by
      refine List.mem_flatMap.mpr ⟨n, hn, List.mem_filterMap.mpr ⟨r, List.mem_filter.mpr ⟨hr, ?_⟩, ?_⟩⟩
      · rw [(inBailiwick_iff hjoined (h.above _ hspeaks).1).mpr (hinside _ hspeaks), Bool.or_true]
      · rw [if_pos howner]
        exact hb
    have hfound := List.ne_nil_of_mem hstays
    rw [if_neg hfound, if_neg hfound]
    exact ⟨_, _, rfl, fun b hb => hservers b (mem_glue_retain hb), b, hstays, hlive⟩
  · -- no glue: the first server's name is looked up
    have hglue : glue (retainBailiwick st.zone p).additional (nsNames zone p) = [] := by
      apply List.eq_nil_iff_forall_not_mem.mpr
      intro b hb
      have hb := mem_glue_retain hb
      rw [hnone] at hb
      cases hb
    rw [hglue, if_pos rfl]
    cases hnames : nsNames zone p with
    | nil => exact absurd hnames hnonempty
    | cons n names =>
      obtain ⟨hrank, k, answers, hfinds, hk, hreach⟩ := hlookups n (by rw [hnames]; exact List.mem_cons_self)
      obtain ⟨p', hp', hanswers⟩ := hnested hrank hfinds hk s
      cases hcall : nested n s with
      | mk result s' =>
        rw [hcall] at hp'
        obtain rfl : result = .Answer p' := hp'
        have haddresses : answers.filterMap addressOf ≠ [] := by
          obtain ⟨b, hb, -⟩ := hreach.2
          exact List.ne_nil_of_mem hb
        refine ⟨answers.filterMap addressOf, s', ?_, hreach⟩
        rw [lookupServers, hcall]
        simp only [hanswers, ne_eq, haddresses, not_false_eq_true, if_true, if_false]

end NameSpace.Delegates

/-! The course. -/

/-- A referral keeps the walk on its course. -/
theorem OnCourse.refer (h : OnCourse ns qtype v levels (left + 1) st) {zone : Text} {addresses : List IpAddr}
    {visited : List (Text × IpAddr)} (hjoined : Joined zone) (hcontains : Contains zone st.name)
    (hdeeper : Deeper st.zone zone) (hreach : ns.Reach zone addresses)
    (hvisited : ∀ e ∈ visited, e ∈ st.visited ∨ e.1 = st.name ∧
      (ns.live e.2 → ∀ z, ns.Speaks e.2 st.name z → Deeper z zone)) :
    OnCourse ns qtype v levels left { st with visited := visited, zone := zone, nameservers := addresses } where
  finds := by
    obtain ⟨k, hfinds, hle, hchain⟩ := h.finds
    have hlt := hdeeper.length_lt
    exact ⟨k, hfinds, by show k ≤ left + (zoneLabels zone).length; omega, hchain⟩
  zone := .inl hjoined
  contains := hcontains
  servers := hreach
  visited := by
    intro e he
    rcases hvisited e he with he | ⟨hname, hdown⟩
    · rcases h.visited e he with hchain | ⟨hname, hdown⟩
      · exact .inl hchain
      · exact .inr ⟨hname, fun hlive z hz => (hdown hlive z hz).trans hdeeper.length_lt⟩
    · exact .inr ⟨hname, fun hlive z hz => (hdown hlive z hz).length_lt⟩
  rank := h.rank

/-- So does a restart for the target of a CNAME, which is a name the walk has not been at. -/
theorem OnCourse.restart (h : OnCourse ns qtype v levels (left + 1) st) {k k' : Nat} {target : Text}
    {visited : List (Text × IpAddr)} (hroots : ns.Reach ['.'] rootServers) (hfinds : ns.Finds qtype k st.name v)
    (hk : k = passesFor st.name + k') (hrank : ns.rank target ≤ ns.rank st.name) (hrest : ns.Finds qtype k' target v)
    (hvisited : ∀ e ∈ visited, e ∈ st.visited ∨ e.1 = st.name) :
    target ∉ st.cnameChain ∧
      OnCourse ns qtype v levels left ⟨target, ['.'], rootServers, visited, st.cnameChain ++ [st.name]⟩ := by
  obtain ⟨k₀, hfinds₀, hle, hchain⟩ := h.finds
  obtain rfl := (hfinds₀.unique hfinds).1
  have hdepth := h.contains.length_le
  have hpasses : passesFor st.name = (zoneLabels st.name).length + 1 := rfl
  have hbehind : ∀ x ∈ st.cnameChain ++ [st.name], ∃ k v, ns.Finds qtype k x v ∧ k' < k := by
    intro x hx
    rcases List.mem_append.mp hx with hx | hx
    · obtain ⟨kx, vx, hx, hlt⟩ := hchain x hx
      exact ⟨kx, vx, hx, by omega⟩
    · rw [List.mem_singleton.mp hx]
      exact ⟨k₀, v, hfinds, by omega⟩
  refine ⟨fun hmem => ?_, ⟨k', hrest, ?_, hbehind⟩, .inr rfl, contains_root _, hroots, ?_, hrank.trans h.rank⟩
  · obtain ⟨kx, vx, hx, hlt⟩ := hbehind target (List.mem_append_left _ hmem)
    exact absurd (hrest.unique hx).1 (Nat.ne_of_lt hlt)
  · show k' ≤ left + 0
    omega
  · intro e he
    rcases hvisited e he with he | hname
    · rcases h.visited e he with hmem | ⟨hname, -⟩
      · exact .inl (List.mem_append_left _ hmem)
      · exact .inl (List.mem_append_right _ (List.mem_singleton.mpr hname))
    · exact .inl (List.mem_append_right _ (List.mem_singleton.mpr hname))

/-- **A pass keeps its course**, or ends with what is said. -/
theorem pass_onCourse (hh : ns.Honest net) (h : OnCourse ns qtype v levels (left + 1) st)
    (hnested : ∀ {n k answers}, ns.rank n < levels → ns.Finds .A k n (some answers) → k ≤ MAX_REFERRALS →
      ∀ s, Conveys (some answers) (nested n s).1) (s : σ) :
    (∃ result s', iteration net nested qtype st s = (.done result, s') ∧ Conveys v result) ∨
      ∃ st' s', iteration net nested qtype st s = (.next st', s') ∧ OnCourse ns qtype v levels left st' := by
  obtain ⟨k, hfinds, -, -⟩ := h.finds
  obtain ⟨b, hb, hlive, hnew⟩ := h.unasked
  obtain ⟨a, ha, p, visited, s', hask, ⟨s₀, hreply⟩, hvisited⟩ := @askServers_live σ net
    (buildQuery (net.randomId s).1 st.name qtype false) st.name st.nameservers st.visited (net.randomId s).2
    ⟨b, hb, hnew, hh.answers hlive hfinds.asked s⟩
  have hspeaks : ns.Speaks a st.name st.zone := ⟨h.servers.1 a ha, h.contains⟩
  have htruthful := hh.truthful hfinds.asked hspeaks s s₀ hreply
  have hvisited : ∀ e ∈ visited, e ∈ st.visited ∨ e.1 = st.name ∧ (e.2 = a ∨ ¬ ns.live e.2) := by
    intro e he
    rcases hvisited e he with he | rfl | ⟨hname, s₁, hsilent⟩
    · exact .inl he
    · exact .inr ⟨rfl, .inl rfl⟩
    · refine .inr ⟨hname, .inr fun hlive => ?_⟩
      have hanswers := hh.answers hlive hfinds.asked s s₁
      rw [hsilent] at hanswers
      cases hanswers
  rw [iteration]
  simp only [hask]
  rw [replyPass]
  cases htruthful with
  | absent code said =>
    rw [if_pos (show (retainBailiwick st.zone p).rcode = RCODE_NXDOMAIN from code), hfinds.of_absent said]
    exact .inl ⟨_, _, rfl, _, rfl⟩
  | answer code said inside =>
    have hanswers := retain_answers (inside _ hspeaks).1 (inside _ hspeaks).2
    obtain ⟨hfilled, hcases⟩ := hfinds.of_said said
    rw [if_neg (show (retainBailiwick st.zone p).rcode ≠ RCODE_NXDOMAIN from code), hanswers, if_pos hfilled, answerPass,
      hanswers]
    rcases hcases with ⟨rfl, hplain⟩ | ⟨cname, k', hfirst, hother, hk, htarget, hrank, hrest⟩
    · -- the records asked for
      refine .inl ⟨.Answer (retainBailiwick st.zone p), s', ?_, _, rfl, hanswers⟩
      split
      · rfl
      · next cname hcname =>
        have hmem := List.mem_of_find?_eq_some hcname
        have htype : cname.rtype = .CNAME := by simpa using List.find?_some hcname
        rw [if_pos (hplain.resolve_right fun hnone => hnone cname hmem htype)]
    · -- a CNAME
      obtain ⟨hnew, hnext⟩ := h.restart hh.roots hfinds hk hrank hrest fun e he => (hvisited e he).imp_right And.left
      rw [hfirst]
      simp only [hother, if_false]
      rw [if_neg (by simp [htarget, hnew])]
      exact .inr ⟨_, _, rfl, hnext⟩
  | @referral zone delegates =>
    have hempty : (retainBailiwick st.zone p).answers = [] := by
      rw [retainBailiwick, delegates.answers, List.filter_nil]
    have hstays : (retainBailiwick st.zone p).authority ≠ [] := by
      obtain ⟨r, hr, htype, -⟩ := delegates.named
      refine List.ne_nil_of_mem (List.mem_filter.mpr ⟨hr, ?_⟩)
      rw [delegates.owners r hr htype]
      exact delegates.inside hspeaks
    rw [if_neg (show (retainBailiwick st.zone p).rcode ≠ RCODE_NXDOMAIN from delegates.code),
      if_neg (not_not.mpr hempty), if_pos hstays]
    obtain ⟨addresses, s'', hpass, hreach⟩ : ∃ addresses s'',
        referralPass nested { st with visited := visited } (retainBailiwick st.zone p) s' =
          (.next { st with visited := visited, zone := zone, nameservers := addresses }, s'') ∧
        ns.Reach zone addresses :=
      @NameSpace.Delegates.reach σ ns nested { st with visited := visited } a p zone delegates hspeaks hfinds.joined
        (fun hlt => hnested (hlt.trans_le h.rank)) s'
    refine .inr ⟨_, s'', hpass, h.refer delegates.joined delegates.contains (delegates.above _ hspeaks).2 hreach
      fun e he => ?_⟩
    rcases hvisited e he with he | ⟨hname, he⟩
    · exact .inl he
    · refine .inr ⟨hname, fun hlive z hz => ?_⟩
      rw [he.resolve_right (not_not.mpr hlive)] at hz
      exact (delegates.above z hz).2

/-- The loop, by the passes left. -/
theorem iterate_finds (hh : ns.Honest net)
    (hnested : ∀ {n k answers}, ns.rank n < levels → ns.Finds .A k n (some answers) → k ≤ MAX_REFERRALS →
      ∀ s, Conveys (some answers) (nested n s).1) : ∀ (left : Nat) (st : Iteration) (s : σ),
    OnCourse ns qtype v levels left st → Conveys v (iterate net nested qtype left st s).1
  | 0, st, s, h => absurd h.left_pos (Nat.lt_irrefl 0)
  | left + 1, st, s, h => by
    rw [iterate]
    rcases pass_onCourse hh h hnested s with ⟨result, s', hpass, hagrees⟩ | ⟨st', s', hpass, hcourse⟩
    · rw [hpass]
      exact hagrees
    · rw [hpass]
      exact iterate_finds hh hnested left st' s' hcourse

end

def hostDelegated : Text := ['w', '.', 'x']

def downServer : IpAddr := ipv4 198 41 0 4

def zoneServer : IpAddr := ipv4 192 0 2 53

def hostAddress : Record := ⟨hostDelegated, .A, CLASS_IN, 60, [192, 0, 2, 1]⟩

def hostReply (answers authority additional : List Record) : Packet where
  id := 7
  flags := 0x8000
  questions := [⟨hostDelegated, .A, CLASS_IN⟩]
  answers := answers
  authority := authority
  additional := additional
  ednsUdpSize := 0
  dnssecOk := false

/-- "x" is served by "n.x", which has an address. -/
def hostReferral : Packet :=
  hostReply [] [⟨['x'], .NS, CLASS_IN, 60, [1, 110, 1, 120, 0]⟩] [⟨['n', '.', 'x'], .A, CLASS_IN, 60, [192, 0, 2, 53]⟩]

def delegatingNet : Sockets Unit where
  randomId := fun s => (7, s)
  udp := fun _ addr s =>
    if addr = downServer then (none, s)
    else (some [serialize (if addr ∈ rootServers then hostReferral else hostReply [hostAddress] [] []) true], s)
  tcp := fun _ _ s => (none, s)

def delegatedSpace : NameSpace where
  asked := fun name t => name = hostDelegated ∧ t = .A
  servers := fun zone a => zone = ['.'] ∧ a ∈ rootServers ∨ zone = ['x'] ∧ a = zoneServer
  live := fun a => a ∈ rootServers ∧ a ≠ downServer ∨ a = zoneServer
  said := fun _ _ => some [hostAddress]
  rank := fun _ => 0

theorem delegating_exchange {a : IpAddr} (ha : a ≠ downServer) (s : Unit) :
    (udpExchange delegatingNet (buildQuery 7 hostDelegated .A false) a s).1 =
      some (if a ∈ rootServers then hostReferral else hostReply [hostAddress] [] []) := by
  have hquery : parsePacket (buildQuery 7 hostDelegated .A false) = .ok (queryPacket 7 0 hostDelegated .A false) := by
    decide
  have hexchange : ∀ reply : Packet, reply.truncated = false →
      firstReply (queryPacket 7 0 hostDelegated .A false) [serialize reply true] = some reply →
      delegatingNet.udp (buildQuery 7 hostDelegated .A false) a s = (some [serialize reply true], s) →
      (udpExchange delegatingNet (buildQuery 7 hostDelegated .A false) a s).1 = some reply := by
    intro reply hwhole hfirst hudp
    rw [udpExchange, hudp, hquery]
    simp only [hfirst, hwhole, Bool.false_eq_true, if_false]
  split
  · next hroot => exact hexchange _ (by decide) (by decide) (by simp only [delegatingNet, if_neg ha, if_pos hroot])
  · next hroot => exact hexchange _ (by decide) (by decide) (by simp only [delegatingNet, if_neg ha, if_neg hroot])

theorem delegated_joined : Joined ['x'] := ⟨[['x']], by decide, rfl⟩

theorem delegatingNet_honest : delegatedSpace.Honest delegatingNet where
  roots := ⟨fun a ha => .inl ⟨rfl, ha⟩, ipv4 199 9 14 201, by decide, .inl ⟨by decide, by decide⟩⟩
  answers := by
    rintro a name qtype hlive ⟨rfl, rfl⟩ s s'
    have hup : a ≠ downServer := by
      rcases hlive with ⟨-, hne⟩ | rfl
      · exact hne
      · decide
    rw [show (delegatingNet.randomId s).1 = 7 from rfl, delegating_exchange hup]
    rfl
  truthful := by
    rintro a name qtype zone p ⟨rfl, rfl⟩ hspeaks s s' hreply
    by_cases hdown : a = downServer
    · subst hdown
      cases hreply
    · rw [show (delegatingNet.randomId s).1 = 7 from rfl, delegating_exchange hdown] at hreply
      obtain rfl := Option.some.inj hreply
      have hspoken : ∀ z, delegatedSpace.Speaks a hostDelegated z →
          z = ['.'] ∧ a ∈ rootServers ∨ z = ['x'] ∧ a = zoneServer := fun z hz => hz.1
      by_cases hroot : a ∈ rootServers
      · have habove : ∀ z, delegatedSpace.Speaks a hostDelegated z → z = ['.'] := by
          intro z hz
          rcases hspoken z hz with ⟨rfl, -⟩ | ⟨-, rfl⟩
          · rfl
          · exact absurd hroot (by decide)
        rw [if_pos hroot]
        refine .referral (@NameSpace.Delegates.mk delegatedSpace a hostDelegated hostReferral ['x'] (by decide) rfl
          delegated_joined rfl ⟨[['w']], by decide⟩ (fun z hz => ?_) (by decide) ?_ (.inl ⟨?_, ?_⟩))
        · rw [habove z hz]
          exact ⟨.inr rfl, contains_root _, by decide⟩
        · exact ⟨_, List.mem_singleton_self _, rfl, by decide⟩
        · intro b hb
          refine .inr ⟨rfl, ?_⟩
          have hb : b ∈ [zoneServer] := hb
          exact List.mem_singleton.mp hb
        · refine ⟨_, List.mem_singleton_self _, ['n', '.', 'x'], by decide, zoneServer, rfl, rfl, .inr rfl,
            ⟨[['n'], ['x']], by decide, rfl⟩, fun z hz => ?_⟩
          rw [habove z hz]
          exact contains_root _
      · rw [if_neg hroot]
        refine .answer (by decide) rfl fun z hz => ?_
        rcases hspoken z hz with ⟨rfl, hroot'⟩ | ⟨rfl, -⟩
        · exact absurd hroot' hroot
        · refine ⟨.inl delegated_joined, fun r hr => ?_⟩
          obtain rfl := List.mem_singleton.mp hr
          exact ⟨⟨[['w'], ['x']], by decide, rfl⟩, [['w']], by decide⟩

end Ironbind
