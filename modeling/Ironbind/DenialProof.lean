import Ironbind.Denial
import Ironbind.NsecChain

/- What proves a negative answer of a signed zone. The NSEC that the handler sends for a
   name is the one at its covering owner, so it encloses the name unless some owner has the
   name's key (`SignedAs.enclosed_iff`). NXDOMAIN needs two such names, the one denied and the
   wildcard at its closest encloser, and a zone may own that wildcard; NODATA needs the NSEC
   at the name, whose bitmap holds whatever eight CNAMEs may lead to. The proof is complete
   exactly under `ProofHolds` (`handleQuery_proof_iff`). -/
namespace Ironbind
open Codec

/-! The closest encloser. -/

namespace Zone
variable {z : Zone} {name : Text}

/-- The longest of the names above a name that exist. -/
structure ClosestEncloser (z : Zone) (name encloser : Text) : Prop where
  above : '.' :: encloser <:+ toAsciiLowercase name
  exist : z.nameExists encloser = true
  longest : ∀ other, '.' :: other <:+ toAsciiLowercase name → z.nameExists other = true → other.length ≤ encloser.length

theorem ClosestEncloser.unique {a b : Text} (ha : z.ClosestEncloser name a) (hb : z.ClosestEncloser name b) : a = b := by
  have hlen : a.length = b.length := le_antisymm (hb.longest a ha.above ha.exist) (ha.longest b hb.above hb.exist)
  have hsuffix : '.' :: a <:+ '.' :: b := List.suffix_of_suffix_length_le ha.above hb.above (by simp [hlen])
  exact (List.cons.inj (hsuffix.eq_of_length (by simp [hlen]))).2

end Zone

theorem parentName_none : ∀ {s : Text}, parentName s = none → '.' ∉ s
  | [], _ => List.not_mem_nil
  | c :: s, h => by
    rw [parentName] at h
    split at h
    · cases h
    · next hc => exact fun hmem => (List.mem_cons.mp hmem).elim (fun e => hc e.symm) (parentName_none h)

/-- The parent is the first name above, and the others are above it. -/
theorem parentName_some : ∀ {s parent : Text}, parentName s = some parent → '.' :: parent <:+ s ∧
    ∀ other, '.' :: other <:+ s → other = parent ∨ '.' :: other <:+ parent
  | c :: s, parent, h => by
    rw [parentName] at h
    split at h
    · next hc =>
      obtain rfl := Option.some.inj h
      subst hc
      refine ⟨List.suffix_refl _, fun other hother => ?_⟩
      rcases List.suffix_cons_iff.mp hother with he | hs
      · exact .inl (List.cons.inj he).2
      · exact .inr hs
    · next hc =>
      obtain ⟨habove, hall⟩ := parentName_some h
      refine ⟨habove.trans (List.suffix_cons c s), fun other hother => ?_⟩
      rcases List.suffix_cons_iff.mp hother with he | hs
      · exact absurd (List.cons.inj he).1.symm hc
      · exact hall other hs

namespace Zone
variable {z : Zone}

/-- The loop goes up to the first name that exists, and to the origin at the latest. -/
structure Climbs (z : Zone) (candidate encloser : Text) : Prop where
  above : '.' :: encloser <:+ candidate
  inside : encloser = z.origin ∨ '.' :: z.origin <:+ encloser
  longest : ∀ other, '.' :: other <:+ candidate → other = z.origin ∨ '.' :: z.origin <:+ other →
    z.nameExists other = true → z.nameExists encloser = true ∧ other.length ≤ encloser.length
  origin : z.nameExists encloser = false → encloser = z.origin

/-- Nothing above the origin is inside the zone. -/
theorem not_above_origin {other : Text} (hinside : other = z.origin ∨ '.' :: z.origin <:+ other) :
    ¬ '.' :: other <:+ z.origin := by
  intro hs
  have hlen := hs.length_le
  rcases hinside with rfl | hup
  · simp at hlen
  · have := hup.length_le
    simp only [List.length_cons] at hlen this
    omega

theorem closestEncloserLoop_climbs : ∀ (fuel : Nat) {candidate : Text}, candidate.length < fuel →
    '.' :: z.origin <:+ candidate → z.Climbs candidate (closestEncloserLoop z fuel candidate)
  | 0, _, hlen, _ => by omega
  | fuel + 1, candidate, hlen, hbelow => by
    have hne : candidate ≠ z.origin := fun e => not_above_origin (.inl rfl) (e ▸ hbelow)
    rw [closestEncloserLoop, if_neg hne]
    cases hparent : parentName candidate with
    | none => exact absurd (hbelow.subset List.mem_cons_self) (parentName_none hparent)
    | some parent =>
      obtain ⟨habove, hall⟩ := parentName_some hparent
      have hinside : parent = z.origin ∨ '.' :: z.origin <:+ parent := (hall z.origin hbelow).imp_left Eq.symm
      dsimp only
      split
      · next hexists =>
        refine ⟨habove, hinside, fun other hother _ _ => ⟨hexists, ?_⟩, fun hnone => ?_⟩
        · rcases hall other hother with rfl | hs
          · exact le_refl _
          · exact (Nat.le_succ _).trans hs.length_le
        · rw [hexists] at hnone
          cases hnone
      · next hmissing =>
        rcases hinside with rfl | hup
        · -- the next pass stops at the origin, which does not exist either
          have hstop : closestEncloserLoop z fuel z.origin = z.origin := by
            cases fuel with
            | zero => rfl
            | succ fuel => rw [closestEncloserLoop, if_pos rfl]
          rw [hstop]
          refine ⟨habove, .inl rfl, fun other hother hin hexists => ?_, fun _ => rfl⟩
          rcases hall other hother with rfl | hs
          · exact absurd hexists hmissing
          · exact absurd hs (not_above_origin hin)
        · have hshort : parent.length < fuel := by
            have := habove.length_le
            rw [List.length_cons] at this
            omega
          have ih := closestEncloserLoop_climbs fuel hshort hup
          refine ⟨(ih.above.trans (List.suffix_cons _ _)).trans habove, ih.inside, fun other hother hin hexists => ?_,
            ih.origin⟩
          rcases hall other hother with rfl | hs
          · exact absurd hexists hmissing
          · exact ih.longest other hs hin hexists

theorem closestEncloser_climbs {name : Text} (hbelow : '.' :: z.origin <:+ toAsciiLowercase name) :
    z.Climbs (toAsciiLowercase name) (z.closestEncloser name) := by
  have hlen : (toAsciiLowercase name).length < name.length + 1 := by
    rw [toAsciiLowercase, List.length_map]
    exact Nat.lt_succ_self _
  exact closestEncloserLoop_climbs (name.length + 1) hlen hbelow

/-- Where the origin exists, the loop finds the longest name above that exists. -/
theorem closestEncloser_spec {name : Text} (horigin : z.nameExists z.origin = true)
    (hbelow : '.' :: z.origin <:+ toAsciiLowercase name) : z.ClosestEncloser name (z.closestEncloser name) := by
  have hclimbs := closestEncloser_climbs hbelow
  obtain ⟨hexist, hlong⟩ := hclimbs.longest z.origin hbelow (.inl rfl) horigin
  refine ⟨hclimbs.above, hexist, fun other hother hexists => ?_⟩
  rcases List.suffix_or_suffix_of_suffix hother hbelow with hs | hs
  · -- the other is not longer than the origin
    have := hs.length_le
    simp only [List.length_cons] at this
    omega
  · rcases List.suffix_cons_iff.mp hs with he | hup
    · exact (hclimbs.longest other hother (.inl (List.cons.inj he).2.symm) hexists).2
    · exact (hclimbs.longest other hother (.inr hup) hexists).2

/-- CNAMEs are followed inside the zone only. -/
theorem Leads.isAuthoritativeFor {qtype : RType} {last : Text} : ∀ {k : Nat} {name : Text}, z.Leads qtype k name last →
    z.isAuthoritativeFor name = true → z.isAuthoritativeFor last = true
  | 0, _, h, hauth => by rwa [show last = _ from h]
  | k + 1, name, ⟨_, target, htarget, h⟩, _ => by
    refine h.isAuthoritativeFor ?_
    unfold Zone.cnameTarget at htarget
    split at htarget
    · cases htarget
    · split at htarget
      · cases htarget
      · split at htarget
        · next hauth => exact Option.some.inj htarget ▸ hauth
        · cases htarget

end Zone

/-- The zone that answers a name holds it. -/
theorem isAuthoritativeFor_of_authoritativeZone {zones : List Zone} {name : Text} {z : Zone}
    (h : authoritativeZone zones name = some z) : z.isAuthoritativeFor name = true := by
  induction zones using List.reverseRecOn with
  | nil => cases h
  | append_singleton zones zone ih =>
    rw [authoritativeZone_concat] at h
    split at h
    · next hauth =>
      cases hbest : authoritativeZone zones name with
      | none => rw [hbest] at h; exact Option.some.inj h ▸ hauth
      | some b =>
        rw [hbest] at h
        dsimp only at h
        split at h
        · exact Option.some.inj h ▸ hauth
        · exact ih (hbest.trans h)
    · exact ih h

/-! Proofs in the authority section. -/

/-- An RRSIG of the section covers the record. -/
def SignedIn (records : List Record) (r : Record) : Prop :=
  ∃ sig ∈ records, sig.rtype.toU16 = RType.RRSIG.toU16 ∧ toAsciiLowercase sig.name = toAsciiLowercase r.name ∧
    covers r.rtype.toU16 sig = true

/-- An NSEC whose interval holds a name. -/
def Encloses (r : Record) (name : Text) : Prop :=
  r.rtype = .NSEC ∧ ∃ nsec, parseNsec r.rdata = some nsec ∧
    Circle.Between (rfcKey r.name) (rfcKey nsec.next) (rfcKey name)

/-- A signed NSEC of the section encloses the name. -/
def Enclosed (records : List Record) (name : Text) : Prop :=
  ∃ nsec ∈ records, SignedIn records nsec ∧ Encloses nsec name

/-- A signed NSEC of the section stands at the name, and its bitmap lacks the type and CNAME. -/
def ProvenAbsent (records : List Record) (name : Text) (qtype : RType) : Prop :=
  ∃ r ∈ records, SignedIn records r ∧ r.rtype = .NSEC ∧ r.name = toAsciiLowercase name ∧
    ∃ nsec, parseNsec r.rdata = some nsec ∧
      bitmapContains nsec.bitmap qtype.toU16 = false ∧ bitmapContains nsec.bitmap RType.CNAME.toU16 = false

/-- The proof a negative answer carries is complete: of NXDOMAIN, for the name denied and for the wildcard at its
    closest encloser; of NODATA, at the name, or around it when it is an empty non-terminal. -/
structure ProvenDenial (z : Zone) (q : Question) (p : Packet) : Prop where
  nxDomain : p.rcode = RCODE_NXDOMAIN → ∃ last, z.Denies q.qtype q.name last ∧ Enclosed p.authority last ∧
    ∃ encloser, z.ClosestEncloser last encloser ∧ Enclosed p.authority ('*' :: '.' :: encloser)
  noData : IsNoData p → ∃ last, z.Denies q.qtype q.name last ∧ (ProvenAbsent p.authority last q.qtype ∨
    (z.nameExists last = true ∧ toAsciiLowercase last ∉ z.names.keys) ∧ Enclosed p.authority last)

/-- When it is: neither a name that does not exist nor the wildcard at its closest encloser is an owner name, as
    names compare; an owner that NODATA is said of owns neither the type nor a CNAME; and an empty non-terminal
    does not compare equal to an owner. -/
structure ProofHolds (z : Zone) (q : Question) : Prop where
  missing : ∀ last, z.Denies q.qtype q.name last → z.nameExists last = false →
    (∀ o ∈ z.names.keys, rfcKey o ≠ rfcKey last) ∧
    ∀ encloser, z.ClosestEncloser last encloser → ∀ o ∈ z.names.keys, rfcKey o ≠ rfcKey ('*' :: '.' :: encloser)
  owner : z.soa.isSome → ∀ last, z.Denies q.qtype q.name last → toAsciiLowercase last ∈ z.names.keys →
    z.lookup last q.qtype = none ∧ z.lookup last .CNAME = none
  empty : z.soa.isSome → ∀ last, z.Denies q.qtype q.name last → z.nameExists last = true →
    toAsciiLowercase last ∉ z.names.keys → ∀ o ∈ z.names.keys, rfcKey o ≠ rfcKey last

theorem Zone.WF.type_of_soaAuthority {z : Zone} (h : z.WF) {dnssecOk : Bool} {r : Record}
    (hr : r ∈ soaAuthority z dnssecOk) : r.rtype.toU16 = RType.SOA.toU16 ∨ r.rtype.toU16 = RType.RRSIG.toU16 := by
  unfold soaAuthority at hr
  split at hr
  · next soa hsoa =>
    rcases List.mem_append.mp hr with hr | hr
    · exact .inl (h.type_of_lookup hsoa hr)
    · split at hr
      · exact .inr (h.type_of_rrsigs hr)
      · exact absurd hr List.not_mem_nil
  · exact absurd hr List.not_mem_nil

namespace SignedAs
variable {rsa : Rsa} {now : UInt32} {ho : HashOrder} {z z' : Zone} (s : SignedAs rsa now ho z z')
variable (hz : z.Loaded) (hwire : ∀ n ∈ z'.names.keys, ∀ l ∈ labelsOf n, WireLabel l)
include s hz hwire

/-- Every RRset of the finished zone that was there when it was signed has a signature. -/
theorem rrsigs_ne_nil {o : Text} {t : RType} (ho : toAsciiLowercase o = o) (hrs : s.chained.recordsAt (o, t.toU16) ≠ []) :
    ∃ sig, sig ∈ coveringRrsigs z' o t := by
  have hcovering := s.covering hz (s.wireLabels hz hwire) hrs
  obtain ⟨first, more, hsigs, _⟩ := signOne_ok (s.signOne_sigs (s.mem_iterRrsets hz hrs))
  refine ⟨first, ?_⟩
  rw [coveringRrsigs_eq, ho, hcovering, show s.sigs _ = first :: more from hsigs]
  exact List.mem_cons_self

/-- What is sent for an owner: its one NSEC, and signatures that cover it. -/
theorem signedNsec_eq {o : Text} (howner : o ∈ z'.names.keys) : ∃ r nsec, nsecAt z' o = some nsec ∧
    parseNsec r.rdata = some nsec ∧ r.rtype = .NSEC ∧ r.name = o ∧
    signedNsec z' o = r :: coveringRrsigs z' o .NSEC ∧ ∃ sig, sig ∈ coveringRrsigs z' o .NSEC := by
  have hlabels := s.wireLabels hz hwire
  obtain ⟨index, hindex⟩ := List.getElem?_of_mem ((s.mem_nsecOwners hz hlabels).mpr howner)
  have hlookup := s.lookup_nsec hz hlabels hindex
  obtain ⟨next, _, hnsec⟩ := s.nsecAt_eq hz hwire hindex
  refine ⟨_, _, hnsec, ?_, rfl, rfl, by rw [signedNsec, hlookup]; rfl,
    s.rrsigs_ne_nil hz hwire ((s.wf hz).lower howner) ?_⟩
  · rw [nsecAt, hlookup] at hnsec
    exact hnsec
  · have hat : z'.recordsAt (o, RType.NSEC.toU16) = [_] := ((s.wf hz).lookup_iff.mp (by
      rw [← (s.wf hz).lower howner]
      exact hlookup)).1
    rw [← s.recordsAt hz hlabels (show RType.NSEC.toU16 ≠ RType.RRSIG.toU16 by decide), hat]
    exact List.cons_ne_nil _ _

/-- The NSEC among them is signed by the rest. -/
theorem signedIn_signedNsec {o : Text} (howner : o ∈ z'.names.keys) {records : List Record}
    (hsub : ∀ r ∈ signedNsec z' o, r ∈ records) : ∃ r ∈ records, ∃ nsec, nsecAt z' o = some nsec ∧
      parseNsec r.rdata = some nsec ∧ r.rtype = .NSEC ∧ r.name = o ∧ SignedIn records r := by
  obtain ⟨r, nsec, hnsec, hparse, htype, hname, heq, sig, hsig⟩ := s.signedNsec_eq hz hwire howner
  rw [heq] at hsub
  refine ⟨r, hsub r List.mem_cons_self, nsec, hnsec, hparse, htype, hname, sig,
    hsub sig (List.mem_cons_of_mem _ hsig), (s.wf hz).type_of_rrsigs hsig, ?_, ?_⟩
  · rw [coveringRrsigs_eq, (s.wf hz).lower howner] at hsig
    rw [hname, (s.wf hz).lower howner]
    exact congrArg Prod.fst ((s.wf hz).recordKey_eq (List.mem_filter.mp hsig).1)
  · rw [coveringRrsigs_eq] at hsig
    rw [htype]
    exact (List.mem_filter.mp hsig).2

/-- An NSEC sent for an owner is the one at the owner. -/
theorem nsec_of_signedNsec {o : Text} (howner : o ∈ z'.names.keys) {r : Record} (hr : r ∈ signedNsec z' o)
    (htype : r.rtype = .NSEC) : r.name = o ∧ parseNsec r.rdata = nsecAt z' o := by
  obtain ⟨r', nsec, hnsec, hparse, -, hname, heq, -⟩ := s.signedNsec_eq hz hwire howner
  rw [heq] at hr
  rcases List.mem_cons.mp hr with rfl | hr
  · exact ⟨hname, hparse.trans hnsec.symm⟩
  · have hrrsig := (s.wf hz).type_of_rrsigs hr
    rw [htype] at hrrsig
    cases hrrsig

/-- A name that is no owner is enclosed by what is sent for its covering owner. -/
theorem enclosed_of_sent {name o : Text} {records : List Record} (hcover : z'.nsecCoveringOwner name = some o)
    (hsub : ∀ r ∈ signedNsec z' o, r ∈ records) (hname : ∀ owner ∈ z'.names.keys, rfcKey owner ≠ rfcKey name) :
    Enclosed records name := by
  obtain ⟨o', howner, hcover', nsec', hnsec', hbetween⟩ := s.nsec_covers hz hwire hname
  obtain rfl := Option.some.inj (hcover.symm.trans hcover')
  obtain ⟨r, hr, nsec, hnsec, hparse, htype, hat, hsigned⟩ := s.signedIn_signedNsec hz hwire howner hsub
  obtain rfl := Option.some.inj (hnsec.symm.trans hnsec')
  exact ⟨r, hr, hsigned, htype, nsec, hparse, hat ▸ hbetween⟩

/-- Where every NSEC is one of a covering owner, an enclosed name is no owner. -/
theorem ne_of_enclosed {name : Text} {records : List Record} (hfrom : ∀ r ∈ records, r.rtype = .NSEC →
    ∃ other o, z'.nsecCoveringOwner other = some o ∧ r ∈ signedNsec z' o) (h : Enclosed records name) :
    ∀ owner ∈ z'.names.keys, rfcKey owner ≠ rfcKey name := by
  obtain ⟨r, hr, -, htype, nsec, hparse, hbetween⟩ := h
  obtain ⟨other, o, hcover, hmem⟩ := hfrom r hr htype
  obtain ⟨a, b, hcover', ha, -⟩ := s.nsec_arc hz hwire other
  obtain rfl := Option.some.inj (hcover.symm.trans hcover')
  have howner := (s.mem_nsecOwners hz (s.wireLabels hz hwire)).mp (List.mem_of_getElem? ha)
  obtain ⟨hname, hnsec⟩ := s.nsec_of_signedNsec hz hwire howner hmem htype
  rw [hname] at hbetween
  exact s.nsec_ne_owner hz hwire hcover (hnsec.symm.trans hparse) hbetween

theorem isSigned : z'.isSigned = true := by
  rw [Zone.isSigned, Bool.not_eq_true', List.isEmpty_eq_false_iff]
  exact s.owners_ne_nil hz hwire

/-- Other than keys, NSECs and signatures, the finished zone holds what the file holds. -/
theorem recordsAt_file {n : Text} {t : UInt16} (hsig : t ≠ RType.RRSIG.toU16) (hnsec : t ≠ RType.NSEC.toU16)
    (hkey : t ≠ RType.DNSKEY.toU16) : z'.recordsAt (n, t) = z.recordsAt (n, t) := by
  rw [s.recordsAt hz (s.wireLabels hz hwire) hsig, s.recordsAt_chained hz hnsec, s.recordsAt_keyed hz,
    if_neg fun h => hkey (congrArg Prod.snd h), List.append_nil]

/-- Nothing is proved by NSEC3. -/
theorem nsec3Covering (c : Crypto) (ho' : HashOrder) (name : Text) : z'.nsec3Covering c ho' name = none := by
  have hnone : z'.lookup z'.origin .NSEC3PARAM = none := by
    by_contra hne
    obtain ⟨rs, hrs⟩ := Option.ne_none_iff_exists'.mp hne
    obtain ⟨hat, hrs⟩ := (s.wf hz).lookup_iff.mp hrs
    rw [s.recordsAt_file hz hwire (by decide) (by decide) (by decide), hz.recordsAt_eq_nil (by decide)] at hat
    exact hrs hat.symm
  rw [Zone.nsec3Covering, Zone.nsec3Params, hnone]
  rfl

theorem soa_type {rs : List Record} (hrs : z'.soa = some rs) : ∃ r ∈ rs, r.rtype = .SOA := by
  obtain ⟨hat, hne⟩ := (s.wf hz).lookup_iff.mp hrs
  rw [s.recordsAt_file hz hwire (by decide) (by decide) (by decide)] at hat
  obtain ⟨r, rest, rfl⟩ := List.exists_cons_of_ne_nil hne
  have hlook := hz.wf.lookup_iff.mpr ⟨hat, hne⟩
  have htypes : ∀ t ∈ fileTypes, t.toU16 = RType.SOA.toU16 → t = .SOA := by decide
  exact ⟨r, List.mem_cons_self, htypes _ (hz.records _ _ hlook r List.mem_cons_self).rtype
    ((hz.wf.records _ _ hlook).2 r List.mem_cons_self).2⟩

/-- What proves NXDOMAIN: what is sent for the covering owners of the name and of the wildcard. -/
theorem mem_nxDomainProof {c : Crypto} {ho' : HashOrder} {name o w : Text} (ho : z'.nsecCoveringOwner name = some o)
    (hw : z'.nsecCoveringOwner (wildcardName z' name) = some w) {r : Record} :
    r ∈ nxDomainProof c ho' z' name ↔ r ∈ signedNsec z' o ∨ r ∈ signedNsec z' w := by
  rw [nxDomainProof, s.nsec3Covering hz hwire]
  simp only [s.isSigned hz hwire, if_true, ho, hw, List.mem_append, Option.filter]
  by_cases hsame : w = o
  · simp [hsame]
  · simp [hsame]

/-- What proves NODATA at an owner: what is sent for it. -/
theorem noDataProof_owner {name : Text} (hmem : toAsciiLowercase name ∈ z'.names.keys) :
    noDataProof z' name = signedNsec z' (toAsciiLowercase name) := by
  obtain ⟨index, hindex⟩ := List.getElem?_of_mem ((s.mem_nsecOwners hz (s.wireLabels hz hwire)).mpr hmem)
  have hlookup := s.lookup_nsec hz (s.wireLabels hz hwire) hindex
  have hname := hlookup
  rw [Zone.lookup_lower] at hname
  rw [noDataProof, if_pos (s.isSigned hz hwire)]
  simp only [hname, Option.isSome_some, if_true, signedNsec, hlookup, coveringRrsigs_eq, toAsciiLowercase_idem]

/-- At an empty non-terminal: what is sent for its covering owner. -/
theorem noDataProof_empty {name o : Text} (hmem : toAsciiLowercase name ∉ z'.names.keys)
    (ho : z'.nsecCoveringOwner name = some o) : noDataProof z' name = signedNsec z' o := by
  have hnone : z'.lookup name .NSEC = none := by
    by_contra hne
    obtain ⟨rs, hrs⟩ := Option.ne_none_iff_exists'.mp hne
    exact hmem ((s.wf hz).mem_of_lookup hrs)
  rw [noDataProof, if_pos (s.isSigned hz hwire)]
  simp only [hnone, Option.isSome_none, Bool.false_eq_true, if_false, ho]

variable {c : Crypto} {ho' : HashOrder} {q : Question} {pkt : Packet} {last : Text}

/-- **NXDOMAIN is proved exactly when** neither the name nor the wildcard at its closest encloser is an owner. -/
theorem nxDomain_proven_iff (hdo : pkt.dnssecOk = true) (hauth : z'.isAuthoritativeFor last = true)
    (hdenies : z'.Denies q.qtype q.name last) (hexists : z'.nameExists last = false) :
    (Enclosed (zoneAnswer c ho' q pkt z').authority last ∧ ∃ encloser, z'.ClosestEncloser last encloser ∧
      Enclosed (zoneAnswer c ho' q pkt z').authority ('*' :: '.' :: encloser)) ↔
    (∀ o ∈ z'.names.keys, rfcKey o ≠ rfcKey last) ∧
      ∀ encloser, z'.ClosestEncloser last encloser → ∀ o ∈ z'.names.keys, rfcKey o ≠ rfcKey ('*' :: '.' :: encloser) := by
  have horigin : z'.nameExists z'.origin = true := by
    refine Zone.nameExists_of_mem ?_
    rw [s.origin hz, hz.origin]
    exact s.origin_mem hz hwire
  have hbelow : '.' :: z'.origin <:+ toAsciiLowercase last := by
    rw [Zone.isAuthoritativeFor, Bool.or_eq_true, beq_iff_eq, List.isSuffixOf_iff_suffix] at hauth
    refine hauth.resolve_left fun e => ?_
    rw [← e, Zone.nameExists, toAsciiLowercase_idem] at horigin
    rw [Zone.nameExists, horigin] at hexists
    cases hexists
  have hencloser := Zone.closestEncloser_spec horigin hbelow
  obtain ⟨o, -, ho, -⟩ := s.nsec_arc hz hwire last
  obtain ⟨w, -, hw, -⟩ := s.nsec_arc hz hwire (wildcardName z' last)
  have hauthority : (zoneAnswer c ho' q pkt z').authority = _ := (zoneAnswer_nxDomain hdenies hexists).2
  rw [hdo, if_pos rfl] at hauthority
  have hsent : ∀ r, r ∈ signedNsec z' o ∨ r ∈ signedNsec z' w → r ∈ (zoneAnswer c ho' q pkt z').authority := fun r hr => by
    rw [hauthority]
    exact List.mem_append_right _ ((s.mem_nxDomainProof hz hwire ho hw).mpr hr)
  have hfrom : ∀ r ∈ (zoneAnswer c ho' q pkt z').authority, r.rtype = .NSEC →
      ∃ other o, z'.nsecCoveringOwner other = some o ∧ r ∈ signedNsec z' o := fun r hr htype => by
    rw [hauthority, List.mem_append, s.mem_nxDomainProof hz hwire ho hw] at hr
    rcases hr with hr | hr | hr
    · rcases (s.wf hz).type_of_soaAuthority hr with h | h <;> rw [htype] at h <;> cases h
    · exact ⟨_, o, ho, hr⟩
    · exact ⟨_, w, hw, hr⟩
  constructor
  · rintro ⟨hlast, encloser, hce, hwild⟩
    refine ⟨s.ne_of_enclosed hz hwire hfrom hlast, fun encloser' hce' => ?_⟩
    rw [hce'.unique hce]
    exact s.ne_of_enclosed hz hwire hfrom hwild
  · rintro ⟨hlast, hwild⟩
    exact ⟨s.enclosed_of_sent hz hwire ho (fun r hr => hsent r (.inl hr)) hlast, _, hencloser,
      s.enclosed_of_sent hz hwire hw (fun r hr => hsent r (.inr hr)) (hwild _ hencloser)⟩

/-- NODATA of an owner is proved exactly when it owns neither the type nor a CNAME. -/
theorem noData_owner_proven_iff (hdo : pkt.dnssecOk = true) (hdenies : z'.Denies q.qtype q.name last)
    (hmem : toAsciiLowercase last ∈ z'.names.keys) :
    (ProvenAbsent (zoneAnswer c ho' q pkt z').authority last q.qtype ∨
      (z'.nameExists last = true ∧ toAsciiLowercase last ∉ z'.names.keys) ∧
        Enclosed (zoneAnswer c ho' q pkt z').authority last) ↔
    z'.lookup last q.qtype = none ∧ z'.lookup last .CNAME = none := by
  have hauthority : (zoneAnswer c ho' q pkt z').authority = _ :=
    (zoneAnswer_noData hdenies (Zone.nameExists_of_mem hmem)).2
  rw [hdo, if_pos rfl, s.noDataProof_owner hz hwire hmem] at hauthority
  obtain ⟨nsec, hnsec, hbits⟩ := s.nsec_bitmap hz hwire hmem
  have hlacks : ∀ t : RType, bitmapContains nsec.bitmap t.toU16 = false ↔ z'.lookup last t = none := fun t => by
    rw [← Bool.not_eq_true, hbits, Zone.lookup_eq, Option.not_isSome_iff_eq_none]
  constructor
  · rintro (⟨r, hr, -, htype, hname, nsec', hparse, hqtype, hcname⟩ | ⟨⟨-, hnot⟩, -⟩)
    · rw [hauthority] at hr
      rcases List.mem_append.mp hr with hr | hr
      · rcases (s.wf hz).type_of_soaAuthority hr with h | h <;> rw [htype] at h <;> cases h
      · have hat := (s.nsec_of_signedNsec hz hwire hmem hr htype).2
        obtain rfl := Option.some.inj (hnsec.symm.trans (hat.symm.trans hparse))
        exact ⟨(hlacks _).mp hqtype, (hlacks _).mp hcname⟩
    · exact absurd hmem hnot
  · rintro ⟨hqtype, hcname⟩
    have hsub : ∀ r ∈ signedNsec z' (toAsciiLowercase last), r ∈ (zoneAnswer c ho' q pkt z').authority := fun r hr => by
      rw [hauthority]
      exact List.mem_append_right _ hr
    obtain ⟨r, hr, nsec', hnsec', hparse, htype, hname, hsigned⟩ := s.signedIn_signedNsec hz hwire hmem hsub
    obtain rfl := Option.some.inj (hnsec.symm.trans hnsec')
    exact .inl ⟨r, hr, hsigned, htype, hname, nsec, hparse, (hlacks _).mpr hqtype, (hlacks _).mpr hcname⟩

/-- NODATA of an empty non-terminal is proved exactly when no owner compares equal to it. -/
theorem noData_empty_proven_iff (hdo : pkt.dnssecOk = true) (hdenies : z'.Denies q.qtype q.name last)
    (hexists : z'.nameExists last = true) (hmem : toAsciiLowercase last ∉ z'.names.keys) :
    (ProvenAbsent (zoneAnswer c ho' q pkt z').authority last q.qtype ∨
      (z'.nameExists last = true ∧ toAsciiLowercase last ∉ z'.names.keys) ∧
        Enclosed (zoneAnswer c ho' q pkt z').authority last) ↔
    ∀ o ∈ z'.names.keys, rfcKey o ≠ rfcKey last := by
  obtain ⟨o, -, ho, ha, -⟩ := s.nsec_arc hz hwire last
  have howner := (s.mem_nsecOwners hz (s.wireLabels hz hwire)).mp (List.mem_of_getElem? ha)
  have hauthority : (zoneAnswer c ho' q pkt z').authority = _ := (zoneAnswer_noData hdenies hexists).2
  rw [hdo, if_pos rfl, s.noDataProof_empty hz hwire hmem ho] at hauthority
  have hfrom : ∀ r ∈ (zoneAnswer c ho' q pkt z').authority, r.rtype = .NSEC → r ∈ signedNsec z' o := fun r hr htype => by
    rw [hauthority] at hr
    rcases List.mem_append.mp hr with hr | hr
    · rcases (s.wf hz).type_of_soaAuthority hr with h | h <;> rw [htype] at h <;> cases h
    · exact hr
  constructor
  · rintro (⟨r, hr, -, htype, hname, -⟩ | ⟨-, henclosed⟩)
    · -- the one NSEC sent stands at an owner, the name is none
      rw [(s.nsec_of_signedNsec hz hwire howner (hfrom r hr htype) htype).1] at hname
      exact absurd (hname ▸ howner) hmem
    · exact s.ne_of_enclosed hz hwire (fun r hr htype => ⟨_, o, ho, hfrom r hr htype⟩) henclosed
  · intro hname
    refine .inr ⟨⟨hexists, hmem⟩, s.enclosed_of_sent hz hwire ho (fun r hr => ?_) hname⟩
    rw [hauthority]
    exact List.mem_append_right _ hr

/-- **The answer carries a complete proof exactly when** `ProofHolds`. -/
theorem zoneAnswer_proven_iff (hdo : pkt.dnssecOk = true) (hauth : z'.isAuthoritativeFor q.name = true) :
    ProvenDenial z' q (zoneAnswer c ho' q pkt z') ↔ ProofHolds z' q := by
  have hnx : (zoneAnswer c ho' q pkt z').rcode = RCODE_NXDOMAIN ↔ _ := zoneAnswer_nxDomain_iff
  have hnodata : IsNoData (zoneAnswer c ho' q pkt z') ↔ _ :=
    zoneAnswer_noData_iff (s.wf hz) fun _ => s.soa_type hz hwire
  have hauth' : ∀ {last}, z'.Denies q.qtype q.name last → z'.isAuthoritativeFor last = true :=
    fun ⟨k, hleads, _⟩ => hleads.isAuthoritativeFor hauth
  constructor
  · intro hproven
    refine ⟨fun last hdenies hexists => ?_, fun hsoa last hdenies hmem => ?_, fun hsoa last hdenies hexists hmem => ?_⟩
    · obtain ⟨last', hdenies', hproof⟩ := hproven.nxDomain (hnx.mpr ⟨last, hdenies, hexists⟩)
      obtain rfl := hdenies.unique hdenies'
      exact (s.nxDomain_proven_iff hz hwire hdo (hauth' hdenies) hdenies hexists).mp hproof
    · obtain ⟨last', hdenies', hproof⟩ :=
        hproven.noData (hnodata.mpr ⟨hsoa, last, hdenies, Zone.nameExists_of_mem hmem⟩)
      obtain rfl := hdenies.unique hdenies'
      exact (s.noData_owner_proven_iff hz hwire hdo hdenies hmem).mp hproof
    · obtain ⟨last', hdenies', hproof⟩ := hproven.noData (hnodata.mpr ⟨hsoa, last, hdenies, hexists⟩)
      obtain rfl := hdenies.unique hdenies'
      exact (s.noData_empty_proven_iff hz hwire hdo hdenies hexists hmem).mp hproof
  · intro hholds
    refine ⟨fun hrcode => ?_, fun hno => ?_⟩
    · obtain ⟨last, hdenies, hexists⟩ := hnx.mp hrcode
      exact ⟨last, hdenies, (s.nxDomain_proven_iff hz hwire hdo (hauth' hdenies) hdenies hexists).mpr
        (hholds.missing last hdenies hexists)⟩
    · obtain ⟨hsoa, last, hdenies, hexists⟩ := hnodata.mp hno
      refine ⟨last, hdenies, ?_⟩
      by_cases hmem : toAsciiLowercase last ∈ z'.names.keys
      · exact (s.noData_owner_proven_iff hz hwire hdo hdenies hmem).mpr (hholds.owner hsoa last hdenies hmem)
      · exact (s.noData_empty_proven_iff hz hwire hdo hdenies hexists hmem).mpr
          (hholds.empty hsoa last hdenies hexists hmem)

end SignedAs

/-- **Authenticated denial is complete exactly when** `ProofHolds`: for every zone that a file leaves and a signing
    in which nothing fails finishes, its owner names made of labels that the wire can carry, and every query with
    the DO bit for a name of it. -/
theorem handleQuery_proof_iff {σ : Type} (h : Handler σ) (zones : List Zone) (clocks : Clocks) (peer : IpAddr)
    (recursion : Recursion) (data : Bytes) (cache : Cache) (s : σ) (rsa : Rsa) (files : Files) (now : UInt32)
    (ho : HashOrder) {origin content keyDir : Text} {z z' : Zone} {count : Nat} {pkt : Packet} {q : Question}
    (hload : (Zone.new origin).loadFile content = .ok z) (hkey : z.lookup z.origin .DNSKEY = none)
    (hsign : signZone rsa files now ho z keyDir = ⟨z', .ok count, []⟩)
    (hwire : ∀ n ∈ z'.names.keys, ∀ l ∈ labelsOf n, WireLabel l) (hask : Asks h clocks data pkt q)
    (hdo : pkt.dnssecOk = true) (hzone : authoritativeZone zones q.name = some z') :
    (∀ p edns, (handleQuery h zones clocks peer recursion data cache s).response = .reply p edns → ProvenDenial z' q p) ↔
      ProofHolds z' q := by
  obtain ⟨signed⟩ := signZone_signed hkey hsign
  have hauth := isAuthoritativeFor_of_authoritativeZone hzone
  have hiff : ProvenDenial z' q (zoneAnswer h.crypto h.hashOrder q pkt z') ↔ _ :=
    signed.zoneAnswer_proven_iff (Zone.loadFile_loaded hload) hwire hdo hauth
  rw [handleQuery_of_zone hask hzone, ← hiff]
  constructor
  · exact fun hproven => hproven _ _ rfl
  · intro hproven p edns hreply
    obtain ⟨rfl, -⟩ := Response.reply.inj hreply
    exact hproven

/-! A signed zone with a name, and one with a wildcard. -/

def missingQuestion : Question := ⟨['a', '.', 'x'], .A, CLASS_IN⟩

def dnssecQuery : Packet where
  id := 7
  flags := 0x0100
  questions := [missingQuestion]
  answers := []
  authority := []
  additional := []
  ednsUdpSize := 1232
  dnssecOk := true

theorem dnssecQuery_asked : Asks plainHandler noClocks (serialize dnssecQuery true) dnssecQuery missingQuestion where
  length := by decide
  query := by decide
  verified := fun h => absurd h.1 (by decide)
  parse := by decide
  response := by decide
  opcode := by decide
  question := rfl

def wildFile : Text := "@ SOA n m 1 2 3 4 5\n* A 192.0.2.1\n".toList

def wildZone : Zone := ((Zone.new ['x']).loadFile wildFile).toOption.getD (Zone.new ['x'])

def wildSigning : Signing := signZone sampleRsa sampleFiles 1000000 listOrder wildZone ['k']

theorem wildZone_loads : (Zone.new ['x']).loadFile wildFile = .ok wildZone := eq_ok_of_isOk _ (by decide)

theorem wildSigning_names : wildSigning.zone.names.keys = [['*', '.', 'x'], ['x']] := by decide

theorem wildSigning_succeeds : wildSigning = ⟨wildSigning.zone, .ok 6, []⟩ :=
  Signing.eq_of_result (by decide) (by decide)

/-- Both zones are asked for `a.x`, which they do not hold. -/
theorem missing_authoritative {z : Zone} (hauth : z.isAuthoritativeFor missingQuestion.name = true) :
    authoritativeZone [z] missingQuestion.name = some z := by simp [authoritativeZone, hauth]

theorem sampleSigning_walk :
    (cnameLoop sampleSigning.zone .A true MAX_CNAME_CHAIN ['a', '.', 'x'] []).name = ['a', '.', 'x'] ∧
      sampleSigning.zone.isAuthoritativeFor ['a', '.', 'x'] = true ∧
      sampleSigning.zone.nameExists ['a', '.', 'x'] = false ∧
      sampleSigning.zone.nameExists sampleSigning.zone.origin = true ∧ sampleSigning.zone.origin = ['x'] ∧
      sampleSigning.zone.closestEncloser ['a', '.', 'x'] = ['x'] := by decide

theorem wildSigning_walk : ((cnameLoop wildSigning.zone .A true MAX_CNAME_CHAIN ['a', '.', 'x'] []).answered = false ∧
      (cnameLoop wildSigning.zone .A true MAX_CNAME_CHAIN ['a', '.', 'x'] []).name = ['a', '.', 'x']) ∧
      wildSigning.zone.isAuthoritativeFor ['a', '.', 'x'] = true ∧
      wildSigning.zone.nameExists ['a', '.', 'x'] = false ∧
      wildSigning.zone.nameExists wildSigning.zone.origin = true ∧ wildSigning.zone.origin = ['x'] ∧
      wildSigning.zone.closestEncloser ['a', '.', 'x'] = ['x'] := by decide

/-- Where no wildcard exists the denial of `a.x` is proved. -/
theorem handleQuery_proof_iff_sample : ∃ p edns, (handleQuery plainHandler [sampleSigning.zone] noClocks (.V4 0) .Inline
    (serialize dnssecQuery true) .new ()).response = .reply p edns ∧
      ProvenDenial sampleSigning.zone missingQuestion p := by
  obtain ⟨hwalk, hauth, hmissing, horigin, hx, hce⟩ := sampleSigning_walk
  have hname : ∀ {last}, sampleSigning.zone.Denies .A ['a', '.', 'x'] last → last = ['a', '.', 'x'] :=
    fun {last} hdenies =>
    ((denies_iff missingQuestion dnssecQuery last).mp hdenies).2.symm.trans hwalk
  have hreply : (handleQuery plainHandler [sampleSigning.zone] noClocks (.V4 0) .Inline (serialize dnssecQuery true) .new
      ()).response = _ := handleQuery_of_zone dnssecQuery_asked (missing_authoritative hauth)
  refine ⟨_, _, hreply,
    (handleQuery_proof_iff plainHandler [sampleSigning.zone] noClocks (.V4 0) .Inline _ .new () sampleRsa
    sampleFiles 1000000 listOrder sampleZone_loads (by decide) sampleSigning_succeeds
    (fun n hn => (sampleSigning_dotted n hn).wireLabels) dnssecQuery_asked rfl (missing_authoritative hauth)).mpr
      ⟨fun last hdenies _ => ?_, fun _ last hdenies hmem => ?_, fun _ last hdenies hexists _ => ?_⟩ _ _ hreply⟩
  · rw [hname hdenies, sampleSigning_names]
    refine ⟨by decide, fun encloser hencloser => ?_⟩
    have hspec : sampleSigning.zone.ClosestEncloser ['a', '.', 'x'] _ :=
      Zone.closestEncloser_spec horigin (by rw [hx]; decide)
    rw [hencloser.unique hspec, hce]
    decide
  · rw [hname hdenies] at hmem
    rw [Zone.nameExists_of_mem hmem] at hmissing
    cases hmissing
  · rw [hname hdenies, hmissing] at hexists
    cases hexists

/-- Where `*.x` exists the answer is NXDOMAIN too, and nothing in it encloses `*.x`. -/
theorem wildcard_not_proven : (Zone.new ['x']).loadFile wildFile = .ok wildZone ∧
    signZone sampleRsa sampleFiles 1000000 listOrder wildZone ['k'] = ⟨wildSigning.zone, .ok 6, []⟩ ∧
    Asks plainHandler noClocks (serialize dnssecQuery true) dnssecQuery missingQuestion ∧
    authoritativeZone [wildSigning.zone] missingQuestion.name = some wildSigning.zone ∧
    ¬ ∀ p edns, (handleQuery plainHandler [wildSigning.zone] noClocks (.V4 0) .Inline (serialize dnssecQuery true)
      .new ()).response = .reply p edns → ProvenDenial wildSigning.zone missingQuestion p := by
  obtain ⟨hwalk, hauth, hmissing, horigin, hx, hce⟩ := wildSigning_walk
  refine ⟨wildZone_loads, wildSigning_succeeds, dnssecQuery_asked, missing_authoritative hauth, fun hproven => ?_⟩
  obtain ⟨signed⟩ := signZone_signed (by decide) wildSigning_succeeds
  have hwire : ∀ n ∈ wildSigning.zone.names.keys, ∀ l ∈ labelsOf n, WireLabel l := by
    rw [wildSigning_names]
    unfold WireLabel
    decide
  have hdenies : wildSigning.zone.Denies .A ['a', '.', 'x'] ['a', '.', 'x'] :=
    (denies_iff missingQuestion dnssecQuery _).mpr hwalk
  have hholds := (signed.zoneAnswer_proven_iff (Zone.loadFile_loaded wildZone_loads) hwire rfl hauth).mp
    (hproven _ _ (handleQuery_of_zone dnssecQuery_asked (missing_authoritative hauth)))
  have hspec : wildSigning.zone.ClosestEncloser ['a', '.', 'x'] _ := Zone.closestEncloser_spec horigin (by rw [hx]; decide)
  rw [hce] at hspec
  refine (hholds.missing _ hdenies hmissing).2 _ hspec ['*', '.', 'x'] ?_ rfl
  rw [wildSigning_names]
  exact List.mem_cons_self

end Ironbind
