import Ironbind.SignedReplies
import Ironbind.SignThenValidate

/- Negative answers from a zone. `Leads` counts the CNAMEs followed inside the zone, and
   the loop of the handler ends without an answer at the one name `Denies` describes
   (`cnameLoop_denies`): the name that owns neither the type nor a CNAME with a readable
   target, or whatever name the eighth CNAME leads to, which is not looked at any more.
   Whether that name exists decides between NXDOMAIN and NODATA. What the answer then says
   is true exactly under `DenialHolds` (`handleQuery_denial_iff`). -/
namespace Ironbind
open Codec

/-! CNAMEs inside a zone. -/

namespace Zone
variable (z : Zone)

/-- The name that the CNAME of a name leads to, if the zone holds that name too. -/
def cnameTarget (name : Text) : Option Text :=
  match (z.lookup name .CNAME).bind List.head? with
  | none => none
  | some cname =>
    match rdataName cname.rdata with
    | .error _ => none
    | .ok target => if z.isAuthoritativeFor target then some target else none

/-- The in-zone CNAMEs from a name end at this one. -/
def ChainEnds (name last : Text) : Prop :=
  Relation.ReflTransGen (fun a b => z.cnameTarget a = some b) name last ∧ z.cnameTarget last = none

/-- So many CNAMEs lead from a name to another, and no name before that one owns the type. -/
def Leads (qtype : RType) : Nat → Text → Text → Prop
  | 0, name, last => last = name
  | k + 1, name, last =>
    z.lookup name qtype = none ∧ ∃ target, z.cnameTarget name = some target ∧ Leads qtype k target last

/-- A name that owns neither the type nor a CNAME whose target can be read. -/
def Lacks (qtype : RType) (name : Text) : Prop :=
  z.lookup name qtype = none ∧
    ∀ cname, (z.lookup name .CNAME).bind List.head? = some cname → ∃ e, rdataName cname.rdata = .error e

/-- The name that a negative answer is about. -/
def Denies (qtype : RType) (name last : Text) : Prop :=
  ∃ k, z.Leads qtype k name last ∧ (k = MAX_CNAME_CHAIN ∨ k < MAX_CNAME_CHAIN ∧ z.Lacks qtype last)

/-- A name owns an RRset that a query of the type asks for; ANY asks for all of them. -/
def Matches (name : Text) (qtype : RType) : Prop :=
  ∃ t rs, z.rrsets.lookup (toAsciiLowercase name, t) = some rs ∧ (qtype = .ANY ∨ t = qtype.toU16)

/-- An owner of NS records strictly below the origin stands at or above the name. -/
def Delegated (name : Text) : Prop :=
  ∃ cut, '.' :: z.origin <:+ cut ∧ (cut = toAsciiLowercase name ∨ '.' :: cut <:+ toAsciiLowercase name) ∧
    (z.lookup cut .NS).isSome

variable {z} {qtype : RType} {name last target : Text} {k : Nat}

theorem Lacks.cnameTarget (h : z.Lacks qtype last) : z.cnameTarget last = none := by
  unfold Zone.cnameTarget
  cases hc : (z.lookup last .CNAME).bind List.head? with
  | none => rfl
  | some cname =>
    obtain ⟨e, he⟩ := h.2 cname hc
    simp only [he]

theorem cnameTarget_of_lookup (h : z.lookup name .CNAME = none) : z.cnameTarget name = none := by
  unfold Zone.cnameTarget
  rw [h]
  rfl

theorem Leads.reaches : ∀ {k : Nat} {name : Text}, z.Leads qtype k name last →
    Relation.ReflTransGen (fun a b => z.cnameTarget a = some b) name last
  | 0, _, h => by
    rw [show last = _ from h]
  | k + 1, name, ⟨_, target, htarget, h⟩ => .head htarget h.reaches

/-- CNAMEs lead one way only. -/
theorem cname_unique : Relator.RightUnique fun a b => z.cnameTarget a = some b :=
  fun _ _ _ hb hc => Option.some.inj (hb.symm.trans hc)

/-- From a name on the way the end is the same. -/
theorem ChainEnds.iff_of_reaches (h : Relation.ReflTransGen (fun a b => z.cnameTarget a = some b) name target) :
    z.ChainEnds name last ↔ z.ChainEnds target last := by
  refine ⟨fun ⟨hlast, hend⟩ => ⟨?_, hend⟩, fun ⟨hlast, hend⟩ => ⟨h.trans hlast, hend⟩⟩
  rcases Relation.ReflTransGen.total_of_right_unique cname_unique hlast h with hback | hon
  · rcases Relation.ReflTransGen.cases_head hback with rfl | ⟨next, hnext, _⟩
    · exact .refl
    · exact absurd (hend.symm.trans hnext) nofun
  · exact hon

theorem ChainEnds.eq_self (hend : z.cnameTarget name = none) (h : z.ChainEnds name last) : last = name := by
  rcases Relation.ReflTransGen.cases_head h.1 with rfl | ⟨next, hnext, _⟩
  · rfl
  · exact absurd (hend.symm.trans hnext) nofun

theorem leads_succ_iff {passes : Nat} :
    (∃ k, z.Leads qtype k name last ∧ (k = passes + 1 ∨ k < passes + 1 ∧ z.Lacks qtype last)) ↔
      (last = name ∧ z.Lacks qtype name) ∨ (z.lookup name qtype = none ∧ ∃ target, z.cnameTarget name = some target ∧
        ∃ k, z.Leads qtype k target last ∧ (k = passes ∨ k < passes ∧ z.Lacks qtype last)) := by
  constructor
  · rintro ⟨k, hk, hstop⟩
    cases k with
    | zero =>
      obtain rfl : last = name := hk
      rcases hstop with h | ⟨_, hlacks⟩
      · omega
      · exact .inl ⟨rfl, hlacks⟩
    | succ k =>
      obtain ⟨hnone, target, htarget, hk⟩ := hk
      exact .inr ⟨hnone, target, htarget, k, hk, hstop.imp (by omega) (And.imp_left (by omega))⟩
  · rintro (⟨rfl, hlacks⟩ | ⟨hnone, target, htarget, k, hk, hstop⟩)
    · exact ⟨0, rfl, .inr ⟨Nat.succ_pos _, hlacks⟩⟩
    · exact ⟨k + 1, ⟨hnone, target, htarget, hk⟩, hstop.imp (by omega) (And.imp_left (by omega))⟩

/-- **Where the loop ends without an answer.** -/
theorem cnameLoop_denies (dnssecOk : Bool) : ∀ (passes : Nat) (name : Text) (answers : List Record),
    ((cnameLoop z qtype dnssecOk passes name answers).answered = false ∧
      (cnameLoop z qtype dnssecOk passes name answers).name = last) ↔
    ∃ k, z.Leads qtype k name last ∧ (k = passes ∨ k < passes ∧ z.Lacks qtype last)
  | 0, name, answers => by
    constructor
    · rintro ⟨_, rfl⟩
      exact ⟨0, rfl, .inl rfl⟩
    · rintro ⟨k, hk, rfl | ⟨hlt, _⟩⟩
      · exact ⟨rfl, (show last = name from hk).symm⟩
      · omega
  | passes + 1, name, answers => by
    rw [leads_succ_iff, cnameLoop]
    cases hrs : z.lookup name qtype with
    | some rs => simp [Lacks, hrs]
    | none =>
      cases hc : (z.lookup name .CNAME).bind List.head? with
      | none => simp [Lacks, Zone.cnameTarget, hrs, hc, eq_comm]
      | some cname =>
        have hqtype : qtype ≠ .CNAME := by
          rintro rfl
          rw [hrs] at hc
          cases hc
        cases htarget : rdataName cname.rdata with
        | error e => simp [Lacks, Zone.cnameTarget, hrs, hc, htarget, hqtype, eq_comm]
        | ok target =>
          cases hauth : z.isAuthoritativeFor target with
          | false => simp [Lacks, Zone.cnameTarget, hrs, hc, htarget, hauth, hqtype]
          | true =>
            simp only [if_neg hqtype, htarget, hauth, Bool.not_true, Bool.false_eq_true, if_false]
            rw [cnameLoop_denies dnssecOk passes target]
            simp [Lacks, Zone.cnameTarget, hrs, hc, htarget, hauth]

theorem Denies.unique {a b : Text} (ha : z.Denies qtype name a) (hb : z.Denies qtype name b) : a = b :=
  ((cnameLoop_denies false MAX_CNAME_CHAIN name []).mpr ha).2.symm.trans
    ((cnameLoop_denies false MAX_CNAME_CHAIN name []).mpr hb).2

end Zone

/-! What the answer from a zone says. -/

/-- NODATA: no error, and the SOA in the authority section. -/
def IsNoData (p : Packet) : Prop := p.rcode = RCODE_NOERROR ∧ ∃ r ∈ p.authority, r.rtype = .SOA

section
variable {z : Zone}

theorem Zone.WF.type_of_lookup (h : z.WF) {name : Text} {t : RType} {rs : List Record} (hl : z.lookup name t = some rs)
    {r : Record} (hr : r ∈ rs) : r.rtype.toU16 = t.toU16 := ((h.records _ rs hl).2 r hr).2

theorem Zone.WF.type_of_rrsigs (h : z.WF) {name : Text} {t : RType} {r : Record} (hr : r ∈ coveringRrsigs z name t) :
    r.rtype.toU16 = RType.RRSIG.toU16 := by
  rw [coveringRrsigs_eq] at hr
  exact congrArg Prod.snd (h.recordKey_eq (List.mem_filter.mp hr).1)

theorem Zone.WF.type_of_signedNsec (h : z.WF) {owner : Text} {r : Record} (hr : r ∈ signedNsec z owner) :
    r.rtype.toU16 = RType.NSEC.toU16 ∨ r.rtype.toU16 = RType.RRSIG.toU16 := by
  unfold signedNsec at hr
  split at hr
  · next nsec hnsec =>
    rcases List.mem_append.mp hr with hr | hr
    · exact .inl (h.type_of_lookup hnsec hr)
    · exact .inr (h.type_of_rrsigs hr)
  · exact absurd hr List.not_mem_nil

theorem Zone.WF.type_of_noDataProof (h : z.WF) {name : Text} {r : Record} (hr : r ∈ noDataProof z name) :
    r.rtype.toU16 = RType.NSEC.toU16 ∨ r.rtype.toU16 = RType.RRSIG.toU16 := by
  unfold noDataProof at hr
  split at hr
  · dsimp only at hr
    split at hr
    · exact h.type_of_signedNsec hr
    · exact absurd hr List.not_mem_nil
  · exact absurd hr List.not_mem_nil

variable (c : Crypto) (ho : HashOrder) (q : Question) (pkt : Packet)

/-- The answer of the zone, with the question's own flags. -/
def zoneAnswer (z : Zone) : Packet := (authoritativeAnswer c ho z q pkt.dnssecOk (baseResponse pkt)).1

/-- The loop ends without an answer at the name denied. -/
theorem denies_iff (last : Text) : z.Denies q.qtype q.name last ↔
    (cnameLoop z q.qtype pkt.dnssecOk MAX_CNAME_CHAIN q.name []).answered = false ∧
      (cnameLoop z q.qtype pkt.dnssecOk MAX_CNAME_CHAIN q.name []).name = last :=
  (Zone.cnameLoop_denies pkt.dnssecOk MAX_CNAME_CHAIN q.name []).symm

variable {c ho q pkt}

/-- A positive answer: no error and no authority. -/
theorem zoneAnswer_answered (h : ∀ last, ¬ z.Denies q.qtype q.name last) :
    (zoneAnswer c ho q pkt z).rcode = RCODE_NOERROR ∧ (zoneAnswer c ho q pkt z).authority = [] := by
  have hanswered : (cnameLoop z q.qtype pkt.dnssecOk MAX_CNAME_CHAIN q.name []).answered = true := by
    by_contra hne
    exact h _ ((denies_iff q pkt _).mpr ⟨Bool.eq_false_iff.mpr hne, rfl⟩)
  have hwalk : (cnameLoop z q.qtype pkt.dnssecOk MAX_CNAME_CHAIN q.name (baseResponse pkt).setAa.answers).answered =
      true :=
    hanswered
  rw [zoneAnswer, authoritativeAnswer]
  simp only [hwalk, if_true]
  exact ⟨rcode_baseResponse pkt, rfl⟩

variable {last : Text} (hdenies : z.Denies q.qtype q.name last)
include hdenies

/-- The name exists: the SOA, and for a client that asks for it the proof that the type does not. -/
theorem zoneAnswer_noData (hexists : z.nameExists last = true) : (zoneAnswer c ho q pkt z).rcode = RCODE_NOERROR ∧
    (zoneAnswer c ho q pkt z).authority =
      soaAuthority z pkt.dnssecOk ++ if pkt.dnssecOk then noDataProof z last else [] := by
  obtain ⟨hanswered, hname⟩ := (denies_iff q pkt last).mp hdenies
  have hwalk : (cnameLoop z q.qtype pkt.dnssecOk MAX_CNAME_CHAIN q.name (baseResponse pkt).setAa.answers).answered =
      false :=
    hanswered
  have hname : (cnameLoop z q.qtype pkt.dnssecOk MAX_CNAME_CHAIN q.name (baseResponse pkt).setAa.answers).name = last :=
    hname
  rw [zoneAnswer, authoritativeAnswer]
  simp only [hwalk, hname, hexists, if_true, Bool.false_eq_true, if_false, and_true]
  exact rcode_baseResponse pkt

/-- The name does not exist. -/
theorem zoneAnswer_nxDomain (hexists : z.nameExists last = false) : (zoneAnswer c ho q pkt z).rcode = RCODE_NXDOMAIN ∧
    (zoneAnswer c ho q pkt z).authority =
      soaAuthority z pkt.dnssecOk ++ if pkt.dnssecOk then nxDomainProof c ho z last else [] := by
  obtain ⟨hanswered, hname⟩ := (denies_iff q pkt last).mp hdenies
  have hwalk : (cnameLoop z q.qtype pkt.dnssecOk MAX_CNAME_CHAIN q.name (baseResponse pkt).setAa.answers).answered =
      false :=
    hanswered
  have hname : (cnameLoop z q.qtype pkt.dnssecOk MAX_CNAME_CHAIN q.name (baseResponse pkt).setAa.answers).name = last :=
    hname
  rw [zoneAnswer, authoritativeAnswer]
  simp only [hwalk, hname, hexists, Bool.false_eq_true, if_false]
  exact ⟨rcode_setRcode _ rfl, rfl⟩

end

section
variable {z : Zone} {c : Crypto} {ho : HashOrder} {q : Question} {pkt : Packet}

theorem Zone.Leads.denies {k : Nat} {last : Text} (h : z.Leads q.qtype k q.name last) (hk : k < MAX_CNAME_CHAIN)
    (hlacks : z.Lacks q.qtype last) : z.Denies q.qtype q.name last := ⟨k, h, .inr ⟨hk, hlacks⟩⟩

/-- NXDOMAIN is said of a name that does not exist. -/
theorem zoneAnswer_nxDomain_iff : (zoneAnswer c ho q pkt z).rcode = RCODE_NXDOMAIN ↔
    ∃ last, z.Denies q.qtype q.name last ∧ z.nameExists last = false := by
  constructor
  · intro h
    by_cases hdenies : ∃ last, z.Denies q.qtype q.name last
    · obtain ⟨last, hlast⟩ := hdenies
      refine ⟨last, hlast, Bool.eq_false_iff.mpr fun hexists => ?_⟩
      rw [(zoneAnswer_noData hlast hexists).1] at h
      cases h
    · rw [(zoneAnswer_answered fun last hlast => hdenies ⟨last, hlast⟩).1] at h
      cases h
  · rintro ⟨last, hlast, hexists⟩
    exact (zoneAnswer_nxDomain hlast hexists).1

/-- NODATA is said of a name that exists, in a zone that has a SOA. -/
theorem zoneAnswer_noData_iff (hwf : z.WF) (hsoa : ∀ rs, z.soa = some rs → ∃ r ∈ rs, r.rtype = .SOA) :
    IsNoData (zoneAnswer c ho q pkt z) ↔
      z.soa.isSome ∧ ∃ last, z.Denies q.qtype q.name last ∧ z.nameExists last = true := by
  constructor
  · rintro ⟨hrcode, r, hr, htype⟩
    by_cases hdenies : ∃ last, z.Denies q.qtype q.name last
    · obtain ⟨last, hlast⟩ := hdenies
      cases hexists : z.nameExists last with
      | false =>
        rw [(zoneAnswer_nxDomain hlast hexists).1] at hrcode
        cases hrcode
      | true =>
        refine ⟨?_, last, hlast, hexists⟩
        rw [(zoneAnswer_noData hlast hexists).2, List.mem_append] at hr
        rcases hr with hr | hr
        · unfold soaAuthority at hr
          split at hr
          · next soa hsome => rw [hsome]; rfl
          · exact absurd hr List.not_mem_nil
        · split at hr
          · rcases hwf.type_of_noDataProof hr with h | h <;> rw [htype] at h <;> cases h
          · exact absurd hr List.not_mem_nil
    · rw [(zoneAnswer_answered fun last hlast => hdenies ⟨last, hlast⟩).2] at hr
      exact absurd hr List.not_mem_nil
  · rintro ⟨hsome, last, hlast, hexists⟩
    obtain ⟨rs, hrs⟩ := Option.isSome_iff_exists.mp hsome
    obtain ⟨r, hr, htype⟩ := hsoa rs hrs
    obtain ⟨hrcode, hauthority⟩ : (zoneAnswer c ho q pkt z).rcode = RCODE_NOERROR ∧ _ := zoneAnswer_noData hlast hexists
    refine ⟨hrcode, r, ?_, htype⟩
    rw [hauthority, soaAuthority, hrs]
    exact List.mem_append_left _ (List.mem_append_left _ hr)

end

/-! The zone that a file leaves. -/

theorem Zone.Loaded.soa_type {z : Zone} (h : z.Loaded) {rs : List Record} (hrs : z.soa = some rs) :
    ∃ r ∈ rs, r.rtype = .SOA := by
  obtain ⟨hne, hall⟩ := h.wf.records _ rs hrs
  obtain ⟨r, rest, rfl⟩ := List.exists_cons_of_ne_nil hne
  have htypes : ∀ t ∈ fileTypes, t.toU16 = RType.SOA.toU16 → t = .SOA := by decide
  exact ⟨r, List.mem_cons_self, htypes _ (h.records _ _ hrs r List.mem_cons_self).rtype (hall r List.mem_cons_self).2⟩

/-- Only a query for ANY asks for more than the RRset of its type. -/
theorem Zone.Loaded.matches_iff {z : Zone} (h : z.Loaded) {name : Text} {qtype : RType} :
    z.Matches name qtype ↔
      (z.lookup name qtype).isSome ∨ qtype = .ANY ∧ toAsciiLowercase name ∈ z.names.keys := by
  simp only [Matches, h.wf.names, Zone.lookup_eq, Option.isSome_iff_exists]
  constructor
  · rintro ⟨t, rs, hrs, rfl | rfl⟩
    · exact .inr ⟨rfl, t, rs, hrs⟩
    · exact .inl ⟨rs, hrs⟩
  · rintro (⟨rs, hrs⟩ | ⟨rfl, t, rs, hrs⟩)
    · exact ⟨_, rs, hrs, .inr rfl⟩
    · exact ⟨t, rs, hrs, .inl rfl⟩

/-- The query is answered from the zone. -/
theorem handleQuery_of_zone {σ : Type} {h : Handler σ} {zones : List Zone} {clocks : Clocks} {peer : IpAddr}
    {recursion : Recursion} {data : Bytes} {cache : Cache} {s : σ} {pkt : Packet} {q : Question} {z : Zone}
    (hask : Asks h clocks data pkt q) (hzone : authoritativeZone zones q.name = some z) :
    (handleQuery h zones clocks peer recursion data cache s).response =
      .reply (zoneAnswer h.crypto h.hashOrder q pkt z) (pkt.ednsUdpSize > 0) := by
  rw [handleQuery_of_asks hask]
  simp only [answerQuestion, hzone]
  rfl

/-- What a negative answer says is true: of NXDOMAIN, that no owner name equals the name the CNAMEs end at
    or lies below it, and that no delegation stands above; of NODATA, that it owns no RRset asked for and no CNAME. -/
structure SoundDenial (z : Zone) (q : Question) (p : Packet) : Prop where
  nxDomain : p.rcode = RCODE_NXDOMAIN → ∃ last, z.ChainEnds q.name last ∧
    (∀ owner ∈ z.names.keys, owner ≠ toAsciiLowercase last ∧ ¬ '.' :: toAsciiLowercase last <:+ owner) ∧
    ¬ z.Delegated last
  noData : IsNoData p → ∃ last, z.ChainEnds q.name last ∧ ¬ z.Matches last q.qtype ∧ z.lookup last .CNAME = none

/-- When it is: the name denied is not delegated away; if it exists in a zone with a SOA, and fewer than eight
    CNAMEs lead to it, it owns no unreadable CNAME, and nothing at all for ANY; if eight lead to it, the CNAMEs
    from it end at a name without what was asked for and without a CNAME. -/
structure DenialHolds (z : Zone) (q : Question) : Prop where
  delegated : ∀ last, z.Denies q.qtype q.name last → z.nameExists last = false → ¬ z.Delegated last
  short : z.soa.isSome → ∀ k < MAX_CNAME_CHAIN, ∀ last, z.Leads q.qtype k q.name last → z.Lacks q.qtype last →
    z.nameExists last = true →
    z.lookup last .CNAME = none ∧ (q.qtype = .ANY → toAsciiLowercase last ∉ z.names.keys)
  long : z.soa.isSome → ∀ eighth, z.Leads q.qtype MAX_CNAME_CHAIN q.name eighth → z.nameExists eighth = true →
    ∃ last, z.ChainEnds eighth last ∧ ¬ z.Matches last q.qtype ∧ z.lookup last .CNAME = none

section
variable {z : Zone} {c : Crypto} {ho : HashOrder} {q : Question} {pkt : Packet} (hz : z.Loaded)
include hz

theorem Zone.Loaded.lookup_of_not_exists {name : Text} {t : RType} (hexists : z.nameExists name = false) :
    z.lookup name t = none := by
  by_contra hne
  obtain ⟨rs, hrs⟩ := Option.ne_none_iff_exists'.mp hne
  rw [Zone.nameExists_of_mem (hz.wf.mem_of_lookup hrs)] at hexists
  cases hexists

/-- **The answer from a zone is sound exactly when** `DenialHolds`. -/
theorem zoneAnswer_sound_iff : SoundDenial z q (zoneAnswer c ho q pkt z) ↔ DenialHolds z q := by
  have hnx : (zoneAnswer c ho q pkt z).rcode = RCODE_NXDOMAIN ↔ _ := zoneAnswer_nxDomain_iff
  have hnodata : IsNoData (zoneAnswer c ho q pkt z) ↔ _ := zoneAnswer_noData_iff hz.wf fun _ => hz.soa_type
  constructor
  · intro hsound
    refine ⟨fun last hdenies hexists => ?_, fun hsoa k hk last hleads hlacks hexists => ?_,
      fun hsoa eighth hleads hexists => ?_⟩
    · obtain ⟨k, hleads, -⟩ := id hdenies
      obtain ⟨last', hends, -, hcut⟩ := hsound.nxDomain (hnx.mpr ⟨last, hdenies, hexists⟩)
      have hend := Zone.cnameTarget_of_lookup (hz.lookup_of_not_exists (t := .CNAME) hexists)
      rwa [((Zone.ChainEnds.iff_of_reaches hleads.reaches).mp hends).eq_self hend] at hcut
    · obtain ⟨last', hends, hmatches, hcname⟩ :=
        hsound.noData (hnodata.mpr ⟨hsoa, last, hleads.denies hk hlacks, hexists⟩)
      obtain rfl := ((Zone.ChainEnds.iff_of_reaches hleads.reaches).mp hends).eq_self hlacks.cnameTarget
      exact ⟨hcname, fun hany hmem => hmatches (hz.matches_iff.mpr (.inr ⟨hany, hmem⟩))⟩
    · obtain ⟨last, hends, hrest⟩ :=
        hsound.noData (hnodata.mpr ⟨hsoa, eighth, ⟨_, hleads, .inl rfl⟩, hexists⟩)
      exact ⟨last, (Zone.ChainEnds.iff_of_reaches hleads.reaches).mp hends, hrest⟩
  · intro hholds
    refine ⟨fun hrcode => ?_, fun hno => ?_⟩
    · obtain ⟨last, hdenies, hexists⟩ := hnx.mp hrcode
      obtain ⟨k, hleads, -⟩ := id hdenies
      refine ⟨last, ⟨hleads.reaches, Zone.cnameTarget_of_lookup (hz.lookup_of_not_exists hexists)⟩, fun owner howner => ?_,
        hholds.delegated last hdenies hexists⟩
      rw [Bool.eq_false_iff, Ne, Zone.nameExists_iff] at hexists
      exact ⟨fun h => hexists ⟨owner, howner, .inl h⟩, fun h => hexists ⟨owner, howner, .inr h⟩⟩
    · obtain ⟨hsoa, last, ⟨k, hleads, rfl | ⟨hk, hlacks⟩⟩, hexists⟩ := hnodata.mp hno
      · obtain ⟨last', hends, hrest⟩ := hholds.long hsoa last hleads hexists
        exact ⟨last', (Zone.ChainEnds.iff_of_reaches hleads.reaches).mpr hends, hrest⟩
      · obtain ⟨hcname, hany⟩ := hholds.short hsoa k hk last hleads hlacks hexists
        refine ⟨last, ⟨hleads.reaches, hlacks.cnameTarget⟩, fun hmatches => ?_, hcname⟩
        rcases hz.matches_iff.mp hmatches with hsome | ⟨hq, hmem⟩
        · rw [hlacks.1] at hsome
          cases hsome
        · exact hany hq hmem

end

/-- **Negative answers are sound exactly when** `DenialHolds`: for every zone a file leaves, and every query
    for a name of it. -/
theorem handleQuery_denial_iff {σ : Type} (h : Handler σ) (zones : List Zone) (clocks : Clocks) (peer : IpAddr)
    (recursion : Recursion) (data : Bytes) (cache : Cache) (s : σ) {origin content : Text} {z : Zone} {pkt : Packet}
    {q : Question} (hload : (Zone.new origin).loadFile content = .ok z) (hask : Asks h clocks data pkt q)
    (hzone : authoritativeZone zones q.name = some z) :
    (∀ p edns, (handleQuery h zones clocks peer recursion data cache s).response = .reply p edns → SoundDenial z q p) ↔
      DenialHolds z q := by
  rw [handleQuery_of_zone hask hzone, ← zoneAnswer_sound_iff (Zone.loadFile_loaded hload)]
  constructor
  · exact fun hsound => hsound _ _ rfl
  · intro hsound p edns hreply
    obtain ⟨rfl, -⟩ := Response.reply.inj hreply
    exact hsound

/-! Eight CNAMEs in front of an address. -/

def chainFile : Text :=
  ("@ SOA n m 1 2 3 4 5\nb CNAME c\nc CNAME d\nd CNAME e\ne CNAME f\nf CNAME g\ng CNAME h\nh CNAME i\ni CNAME j\n" ++
    "j A 192.0.2.1\n").toList

def chainZone : Zone := ((Zone.new ['x']).loadFile chainFile).toOption.getD (Zone.new ['x'])

def chainQuestion : Question := ⟨['b', '.', 'x'], .A, CLASS_IN⟩
def serversQuestion : Question := ⟨['j', '.', 'x'], .NS, CLASS_IN⟩

def chainQuery (q : Question) : Packet where
  id := 7
  flags := 0x0100
  questions := [q]
  answers := []
  authority := []
  additional := []
  ednsUdpSize := 0
  dnssecOk := false

theorem chainQuery_asked {q : Question} (hq : q = chainQuestion ∨ q = serversQuestion) :
    Asks plainHandler noClocks (serialize (chainQuery q) true) (chainQuery q) q where
  length := by rcases hq with rfl | rfl <;> decide
  query := by rcases hq with rfl | rfl <;> decide
  verified := fun h => absurd h.1 (by decide)
  parse := by rcases hq with rfl | rfl <;> decide
  response := by rcases hq with rfl | rfl <;> decide
  opcode := by rcases hq with rfl | rfl <;> decide
  question := rfl

/-- The file loads; the walks of the two queries end at the address's name, which has the address and nothing else. -/
theorem chainZone_evaluated : ((Zone.new ['x']).loadFile chainFile).isOk = true ∧
    ((cnameLoop chainZone .A false MAX_CNAME_CHAIN ['b', '.', 'x'] []).answered = false ∧
      (cnameLoop chainZone .A false MAX_CNAME_CHAIN ['b', '.', 'x'] []).name = ['j', '.', 'x']) ∧
    (cnameLoop chainZone .NS false MAX_CNAME_CHAIN ['j', '.', 'x'] []).name = ['j', '.', 'x'] ∧
    (chainZone.isAuthoritativeFor ['b', '.', 'x'] = true ∧ chainZone.isAuthoritativeFor ['j', '.', 'x'] = true ∧
      (chainZone.lookup ['j', '.', 'x'] .A).isSome = true ∧ chainZone.nameExists ['j', '.', 'x'] = true ∧
      chainZone.soa.isSome = true) ∧
    chainZone.lookup ['j', '.', 'x'] .CNAME = none ∧ chainZone.lookup ['j', '.', 'x'] .NS = none := by
  decide +kernel

theorem chainZone_loads : (Zone.new ['x']).loadFile chainFile = .ok chainZone := eq_ok_of_isOk _ chainZone_evaluated.1

theorem chainZone_walk : (cnameLoop chainZone .A false MAX_CNAME_CHAIN ['b', '.', 'x'] []).answered = false ∧
    (cnameLoop chainZone .A false MAX_CNAME_CHAIN ['b', '.', 'x'] []).name = ['j', '.', 'x'] := chainZone_evaluated.2.1

theorem chainZone_servers : (cnameLoop chainZone .NS false MAX_CNAME_CHAIN ['j', '.', 'x'] []).name = ['j', '.', 'x'] :=
  chainZone_evaluated.2.2.1

theorem chainZone_holds : chainZone.isAuthoritativeFor ['b', '.', 'x'] = true ∧
    chainZone.isAuthoritativeFor ['j', '.', 'x'] = true ∧ (chainZone.lookup ['j', '.', 'x'] .A).isSome = true ∧
    chainZone.nameExists ['j', '.', 'x'] = true ∧ chainZone.soa.isSome = true := chainZone_evaluated.2.2.2.1

theorem chainZone_lacks : chainZone.lookup ['j', '.', 'x'] .CNAME = none ∧
    chainZone.lookup ['j', '.', 'x'] .NS = none := chainZone_evaluated.2.2.2.2

theorem chainZone_authoritative {q : Question} (hq : q = chainQuestion ∨ q = serversQuestion) :
    authoritativeZone [chainZone] q.name = some chainZone := by
  obtain ⟨hchain, hservers, -⟩ := chainZone_holds
  have hauth : chainZone.isAuthoritativeFor q.name = true := by
    rcases hq with rfl | rfl
    · exact hchain
    · exact hservers
  simp [authoritativeZone, hauth]

/-- A query for the NS records of the address's name finds none, and says so. -/
theorem handleQuery_denial_iff_servers : ∃ p edns, (handleQuery plainHandler [chainZone] noClocks (.V4 0) .Inline
    (serialize (chainQuery serversQuestion) true) .new ()).response = .reply p edns ∧
      SoundDenial chainZone serversQuestion p := by
  obtain ⟨hcname, hservers⟩ := chainZone_lacks
  have hname : ∀ {last}, chainZone.Denies .NS ['j', '.', 'x'] last → last = ['j', '.', 'x'] := fun {last} hdenies =>
    ((denies_iff serversQuestion (chainQuery serversQuestion) last).mp hdenies).2.symm.trans chainZone_servers
  have hask := chainQuery_asked (.inr rfl)
  have hzone := chainZone_authoritative (.inr rfl)
  have hreply : (handleQuery plainHandler [chainZone] noClocks (.V4 0) .Inline
      (serialize (chainQuery serversQuestion) true)
      .new ()).response = _ := handleQuery_of_zone hask hzone
  refine ⟨_, _, hreply, (handleQuery_denial_iff plainHandler [chainZone] noClocks (.V4 0) .Inline _ .new () chainZone_loads
    hask hzone).mpr ⟨fun last hdenies hmissing => ?_, fun _ k hk last hleads hlacks _ => ?_, fun _ eighth hleads _ => ?_⟩
      _ _ hreply⟩
  · rw [hname hdenies, chainZone_holds.2.2.2.1] at hmissing
    cases hmissing
  · rw [hname (hleads.denies hk hlacks)]
    exact ⟨hcname, nofun⟩
  · rw [hname ⟨_, hleads, .inl rfl⟩]
    refine ⟨['j', '.', 'x'], ⟨.refl, Zone.cnameTarget_of_lookup hcname⟩, fun hmatches => ?_, hcname⟩
    rcases (Zone.loadFile_loaded chainZone_loads).matches_iff.mp hmatches with hsome | ⟨hany, _⟩
    · rw [show chainZone.lookup ['j', '.', 'x'] serversQuestion.qtype = none from hservers] at hsome
      cases hsome
    · cases hany

/-- The query ends at the name of the address, which is not looked at. -/
theorem chainZone_denies : chainZone.Denies .A ['b', '.', 'x'] ['j', '.', 'x'] :=
  (denies_iff chainQuestion (chainQuery chainQuestion) _).mpr chainZone_walk

/-- It is answered NODATA, though the name owns an address. -/
theorem longChain_denied : (Zone.new ['x']).loadFile chainFile = .ok chainZone ∧
    Asks plainHandler noClocks (serialize (chainQuery chainQuestion) true) (chainQuery chainQuestion) chainQuestion ∧
    authoritativeZone [chainZone] chainQuestion.name = some chainZone ∧
    ¬ ∀ p edns, (handleQuery plainHandler [chainZone] noClocks (.V4 0) .Inline (serialize (chainQuery chainQuestion) true)
      .new ()).response = .reply p edns → SoundDenial chainZone chainQuestion p := by
  have hasked := chainQuery_asked (.inl rfl)
  have hzone := chainZone_authoritative (.inl rfl)
  refine ⟨chainZone_loads, hasked, hzone, fun hsound => ?_⟩
  obtain ⟨-, -, haddress, hexists, hsoa⟩ := chainZone_holds
  have hloaded := Zone.loadFile_loaded chainZone_loads
  have hnodata : IsNoData (zoneAnswer plainHandler.crypto plainHandler.hashOrder chainQuestion (chainQuery chainQuestion)
      chainZone) :=
    (zoneAnswer_noData_iff hloaded.wf fun _ => hloaded.soa_type).mpr
      ⟨hsoa, ['j', '.', 'x'], chainZone_denies, hexists⟩
  obtain ⟨last, hends, hmatches, -⟩ := (hsound _ _ (handleQuery_of_zone hasked hzone)).noData hnodata
  obtain ⟨k, hleads, -⟩ := chainZone_denies
  have hend := Zone.cnameTarget_of_lookup chainZone_lacks.1
  rw [((Zone.ChainEnds.iff_of_reaches hleads.reaches).mp hends).eq_self hend] at hmatches
  exact hmatches (hloaded.matches_iff.mpr (.inl haddress))

end Ironbind
