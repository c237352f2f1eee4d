import Ironbind.Denial

/- Positive answers from a zone. `CnameChain` is the chain of CNAME records that starts
   at a name, as the zone has it: it ends at a name that owns the type asked for or no
   CNAME, or with a CNAME whose target is unreadable or in another zone. A chain that
   never ends, since it comes back to a name, is none. The handler's loop writes a chain
   of fewer than `MAX_CNAME_CHAIN` links and what the last name owns, each RRset with its
   signatures behind it, and nothing else (`handleQuery_positive_exact`). -/
namespace Ironbind
open Codec

/-! Chains in a zone. -/

namespace Zone

/-- The CNAME of a name: the first, if a zone file gives it more. -/
def firstCname (z : Zone) (name : Text) : Option Record := (z.lookup name .CNAME).bind List.head?

/-- The links of the chain from a name, each an owner and its CNAME, and the name at its end if it is in
    the zone. -/
inductive CnameChain (z : Zone) (qtype : RType) : Text → List (Text × Record) → Option Text → Prop where
  | ends {name : Text} (h : (z.lookup name qtype).isSome ∨ qtype = .CNAME ∨ z.firstCname name = none) :
      CnameChain z qtype name [] (some name)
  | leaves {name : Text} {cname : Record} (hnone : z.lookup name qtype = none) (htype : qtype ≠ .CNAME)
      (hcname : z.firstCname name = some cname)
      (hout : ∀ target, rdataName cname.rdata = .ok target → z.isAuthoritativeFor target = false) :
      CnameChain z qtype name [(name, cname)] none
  | link {name target : Text} {cname : Record} {links : List (Text × Record)} {last : Option Text}
      (hnone : z.lookup name qtype = none) (htype : qtype ≠ .CNAME) (hcname : z.firstCname name = some cname)
      (htarget : rdataName cname.rdata = .ok target) (hin : z.isAuthoritativeFor target = true)
      (rest : CnameChain z qtype target links last) : CnameChain z qtype name ((name, cname) :: links) last

/-- The RRset of a name and a type, empty if there is none. -/
def rrsetAt (z : Zone) (name : Text) (t : RType) : List Record := (z.lookup name t).getD []

/-- The RRSIG records stored at an owner that can be read and cover a type, for a client that asks for them. -/
def sigsFor (z : Zone) (dnssecOk : Bool) (owner : Text) (t : RType) : List Record :=
  if dnssecOk then (z.rrsetAt owner .RRSIG).filter fun r => (parseRrsig r.rdata).toOption.any (·.typeCovered = t.toU16)
  else []

/-- What a link puts into the answer: the CNAME and its signatures. -/
def linkRecords (z : Zone) (dnssecOk : Bool) (link : Text × Record) : List Record :=
  link.2 :: z.sigsFor dnssecOk link.1 .CNAME

/-- What the end of a chain puts into it: the RRset asked for and its signatures. -/
def lastRecords (z : Zone) (dnssecOk : Bool) (qtype : RType) : Option Text → List Record
  | none => []
  | some name => if (z.lookup name qtype).isSome then z.rrsetAt name qtype ++ z.sigsFor dnssecOk name qtype else []

variable {z : Zone} {qtype : RType} {dnssecOk : Bool}

theorem sigsFor_eq (owner : Text) (t : RType) :
    (if dnssecOk then coveringRrsigs z owner t else []) = z.sigsFor dnssecOk owner t := by
  unfold sigsFor rrsetAt coveringRrsigs
  cases z.lookup owner .RRSIG with
  | none => rfl
  | some rrsigs =>
    split
    · apply List.filter_congr
      intro r _
      unfold covers
      cases parseRrsig r.rdata <;> rfl
    · rfl

/-- **The loop writes the chain.** With more passes left than the chain has links, the loop adds the links
    and what the last name owns to the answers. -/
theorem cnameLoop_chain {name : Text} {links : List (Text × Record)} {last : Option Text}
    (h : z.CnameChain qtype name links last) : ∀ (passes : Nat) (answers : List Record), links.length < passes →
    (cnameLoop z qtype dnssecOk passes name answers).answers =
      answers ++ (links.flatMap (z.linkRecords dnssecOk) ++ z.lastRecords dnssecOk qtype last) := by
  -- on the chain: each link is one pass
  induction h with
  | @ends name h =>
    intro passes answers hlen
    obtain ⟨passes, rfl⟩ := Nat.exists_eq_succ_of_ne_zero (Nat.ne_of_gt hlen)
    cases hrs : z.lookup name qtype with
    | some rs => simp [cnameLoop, lastRecords, rrsetAt, hrs, sigsFor_eq]
    | none =>
      have hnone : lastRecords z dnssecOk qtype (some name) = [] := by simp [lastRecords, hrs]
      rw [hnone]
      by_cases htype : qtype = .CNAME
      · simp only [cnameLoop, hrs, if_pos htype]
        simp
      · have hcname : (z.lookup name .CNAME).bind List.head? = none := by
          rw [hrs] at h
          exact (h.resolve_left (by simp)).resolve_left htype
        simp only [cnameLoop, hrs, if_neg htype, hcname]
        simp
  | leaves hnone htype hcname hout =>
    intro passes answers hlen
    obtain ⟨passes, rfl⟩ := Nat.exists_eq_succ_of_ne_zero (Nat.ne_of_gt (Nat.zero_lt_of_lt hlen))
    unfold firstCname at hcname
    simp only [cnameLoop, hnone, if_neg htype, hcname, sigsFor_eq]
    split
    · simp [linkRecords, lastRecords]
    · next target htarget =>
      simp [linkRecords, lastRecords, hout target htarget]
  | link hnone htype hcname htarget hin _ ih =>
    intro passes answers hlen
    obtain ⟨passes, rfl⟩ := Nat.exists_eq_succ_of_ne_zero (Nat.ne_of_gt (Nat.zero_lt_of_lt hlen))
    unfold firstCname at hcname
    simp only [cnameLoop, hnone, if_neg htype, hcname, htarget, hin, sigsFor_eq, Bool.not_true, Bool.false_eq_true,
      if_false]
    rw [ih passes _ (Nat.lt_of_succ_lt_succ hlen)]
    simp [linkRecords]

/-! The records of an answer. -/

/-- A record that is no signature, by its type code. -/
def NoRrsig (r : Record) : Bool := r.rtype.toU16 ≠ RType.RRSIG.toU16

theorem filter_sigsFor (hwf : z.WF) (owner : Text) (t : RType) : (z.sigsFor dnssecOk owner t).filter NoRrsig = [] := by
  rw [List.filter_eq_nil_iff, ← sigsFor_eq]
  intro r hr
  split at hr
  · simp [NoRrsig, hwf.type_of_rrsigs hr]
  · cases hr

/-- An RRset is returned as it is, and complete. -/
theorem filter_rrsetAt (hwf : z.WF) (name : Text) {t : RType} (ht : t.toU16 ≠ RType.RRSIG.toU16) :
    (z.rrsetAt name t).filter NoRrsig = z.rrsetAt name t := by
  rw [List.filter_eq_self]
  intro r hr
  unfold rrsetAt at hr
  cases hrs : z.lookup name t with
  | none => rw [hrs] at hr; cases hr
  | some rs =>
    rw [hrs] at hr
    simp [NoRrsig, hwf.type_of_lookup hrs hr, ht]

/-- A record belongs to an RRset exactly when the zone holds it under that name and type. -/
theorem mem_rrsetAt_iff (hwf : z.WF) {name : Text} {t : RType} {r : Record} : r ∈ z.rrsetAt name t ↔
    z.Holds r ∧ toAsciiLowercase r.name = toAsciiLowercase name ∧ r.rtype.toU16 = t.toU16 := by
  unfold rrsetAt
  constructor
  · intro hr
    cases hrs : z.lookup name t with
    | none => rw [hrs] at hr; cases hr
    | some rs =>
      rw [hrs] at hr
      exact ⟨⟨_, rs, hrs, hr⟩, ((hwf.records _ rs hrs).2 r hr).1, hwf.type_of_lookup hrs hr⟩
  · rintro ⟨⟨k, rs, hk, hr⟩, hname, htype⟩
    obtain ⟨hkey, hcode⟩ := (hwf.records k rs hk).2 r hr
    have hlookup : z.lookup name t = some rs := by
      rw [lookup_eq, ← hname, ← htype, hkey, hcode]
      exact hk
    rw [hlookup]
    exact hr

theorem CnameChain.type_of_link (hwf : z.WF) {name : Text} {links : List (Text × Record)} {last : Option Text}
    (h : z.CnameChain qtype name links last) : ∀ l ∈ links, NoRrsig l.2 = true := by
  have hcode : ∀ {name : Text} {cname : Record}, z.firstCname name = some cname → NoRrsig cname = true := by
    intro name cname hcname
    obtain ⟨rs, hrs, hhead⟩ := Option.bind_eq_some_iff.mp hcname
    have htype := hwf.type_of_lookup hrs (List.mem_of_mem_head? hhead)
    simp [NoRrsig, htype]
    decide
  induction h with
  | ends _ => exact fun _ hl => absurd hl List.not_mem_nil
  | leaves _ _ hcname _ => exact List.forall_mem_singleton.mpr (hcode hcname)
  | link _ _ hcname _ _ _ ih => exact List.forall_mem_cons.mpr ⟨hcode hcname, ih⟩

end Zone

/-! Answers. -/

section
variable {z : Zone} {q : Question} {pkt : Packet}

/-- The answer section is the loop's. -/
theorem zoneAnswer_answers (c : Crypto) (ho : HashOrder) : (zoneAnswer c ho q pkt z).answers =
    (cnameLoop z q.qtype pkt.dnssecOk MAX_CNAME_CHAIN q.name []).answers := by
  unfold zoneAnswer authoritativeAnswer
  dsimp only
  split
  · rfl
  · split <;> rfl

/-- An answer section with the links of a chain and the RRset at its end, signatures directly behind each. -/
structure ExactAnswer (z : Zone) (qtype : RType) (dnssecOk : Bool) (links : List (Text × Record)) (last : Option Text)
    (answers : List Record) : Prop where
  signed : answers = links.flatMap (z.linkRecords dnssecOk) ++ z.lastRecords dnssecOk qtype last
  unsigned : answers.filter Zone.NoRrsig = links.map (·.2) ++ (last.map fun name => z.rrsetAt name qtype).getD []
  complete : ∀ name, last = some name → ∀ r, r ∈ z.rrsetAt name qtype ↔
    z.Holds r ∧ toAsciiLowercase r.name = toAsciiLowercase name ∧ r.rtype.toU16 = qtype.toU16

theorem exactAnswer_of_chain (c : Crypto) (ho : HashOrder) (hwf : z.WF) (htype : q.qtype.toU16 ≠ RType.RRSIG.toU16)
    {links : List (Text × Record)} {last : Option Text} (hchain : z.CnameChain q.qtype q.name links last)
    (hshort : links.length < MAX_CNAME_CHAIN) :
    ExactAnswer z q.qtype pkt.dnssecOk links last (zoneAnswer c ho q pkt z).answers := by
  have hanswers : (zoneAnswer c ho q pkt z).answers =
      links.flatMap (z.linkRecords pkt.dnssecOk) ++ z.lastRecords pkt.dnssecOk q.qtype last := by
    rw [zoneAnswer_answers, Zone.cnameLoop_chain hchain MAX_CNAME_CHAIN [] hshort, List.nil_append]
  refine ⟨hanswers, ?_, fun _ _ _ => Zone.mem_rrsetAt_iff hwf⟩
  -- without the signatures every link is its CNAME record
  have hlinks : (links.flatMap (z.linkRecords pkt.dnssecOk)).filter Zone.NoRrsig = links.map (·.2) := by
    rw [List.filter_flatMap, List.map_eq_flatMap]
    apply List.flatMap_congr
    intro l hl
    rw [Zone.linkRecords, List.filter_cons_of_pos (hchain.type_of_link hwf l hl), Zone.filter_sigsFor hwf]
  have hlast : (z.lastRecords pkt.dnssecOk q.qtype last).filter Zone.NoRrsig =
      (last.map fun name => z.rrsetAt name q.qtype).getD [] := by
    cases last with
    | none => rfl
    | some name =>
      rw [Zone.lastRecords]
      split
      · rw [List.filter_append, Zone.filter_rrsetAt hwf name htype, Zone.filter_sigsFor hwf, List.append_nil]
        rfl
      · next hnone =>
        rw [Option.not_isSome_iff_eq_none] at hnone
        rw [Option.map_some, Option.getD_some, Zone.rrsetAt, hnone]
        rfl
  rw [hanswers, List.filter_append, hlinks, hlast]

end

/-- **Positive answers are exact.** For a query of any type but RRSIG, about a name of the zone whose chain has
    fewer than `MAX_CNAME_CHAIN` links: the answer section is the chain's CNAME records in order
    and then the whole RRset at its end, and with the DO bit the signatures stored for each. -/
theorem handleQuery_positive_exact {σ : Type} (h : Handler σ) (zones : List Zone) (clocks : Clocks) (peer : IpAddr)
    (recursion : Recursion) (data : Bytes) (cache : Cache) (s : σ) {z : Zone} {pkt : Packet} {q : Question}
    {links : List (Text × Record)} {last : Option Text} (hwf : z.WF) (hask : Asks h clocks data pkt q)
    (hzone : authoritativeZone zones q.name = some z) (htype : q.qtype.toU16 ≠ RType.RRSIG.toU16)
    (hchain : z.CnameChain q.qtype q.name links last) (hshort : links.length < MAX_CNAME_CHAIN) :
    ∃ p edns, (handleQuery h zones clocks peer recursion data cache s).response = .reply p edns ∧
      ExactAnswer z q.qtype pkt.dnssecOk links last p.answers :=
  ⟨_, _, handleQuery_of_zone hask hzone, exactAnswer_of_chain h.crypto h.hashOrder hwf htype hchain hshort⟩

/-- One CNAME in front of the address. -/
def aliasQuestion : Question := ⟨['i', '.', 'x'], .A, CLASS_IN⟩

/-- A query for it gets the CNAME and the address. -/
theorem handleQuery_positive_exact_alias : ∃ links last, links.length = 1 ∧ last = some ['j', '.', 'x'] ∧
    ∃ p edns, (handleQuery plainHandler [chainZone] noClocks (.V4 0) .Inline (serialize (chainQuery aliasQuestion) true)
      .new ()).response = .reply p edns ∧ ExactAnswer chainZone .A false links last p.answers := by
  have hask : Asks plainHandler noClocks (serialize (chainQuery aliasQuestion) true) (chainQuery aliasQuestion)
      aliasQuestion := {
    length := by decide
    query := by decide
    verified := fun h => absurd h.1 (by decide)
    parse := by decide
    response := by decide
    opcode := by decide
    question := rfl }
  have hauth : chainZone.isAuthoritativeFor ['i', '.', 'x'] = true := by decide +kernel
  have hzone : authoritativeZone [chainZone] aliasQuestion.name = some chainZone := by
    simp [authoritativeZone, aliasQuestion, hauth]
  obtain ⟨-, hin, haddress, -⟩ := chainZone_holds
  obtain ⟨cname, hcname, htarget⟩ : ∃ cname, chainZone.firstCname ['i', '.', 'x'] = some cname ∧
      rdataName cname.rdata = .ok ['j', '.', 'x'] :=
    ⟨⟨['i', '.', 'x'], .CNAME, CLASS_IN, 3600, [1, 106, 1, 120, 0]⟩, by decide +kernel, by decide +kernel⟩
  have hnone : chainZone.lookup ['i', '.', 'x'] .A = none := by decide +kernel
  exact ⟨_, _, rfl, rfl, handleQuery_positive_exact plainHandler [chainZone] noClocks (.V4 0) .Inline _ .new ()
    (Zone.loadFile_loaded chainZone_loads).wf hask hzone (by decide)
    (.link hnone (by decide) hcname htarget hin (.ends (.inl haddress))) (show 1 < MAX_CNAME_CHAIN by decide)⟩

end Ironbind
