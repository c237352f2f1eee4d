import Ironbind.Server
import Ironbind.ZoneManager

/- What signing does to a zone. The records under each key are read through
   `Zone.recordsAt`; entering a list of records appends those of the key
   (`recordsAt_foldl_add`). A signing that succeeds adds the DNSKEY records, the
   NSEC chain over every owner name, and for every RRset then in the zone at least
   the ZSK's signature (`signZone_signed`). -/
namespace Ironbind
open Codec

namespace Zone
variable {z : Zone}

def recordKey (r : Record) : RrsetKey := (toAsciiLowercase r.name, r.rtype.toU16)

/-- The records under a key; none for a key the map does not have. -/
def recordsAt (z : Zone) (k : RrsetKey) : List Record := (z.rrsets.lookup k).getD []

theorem recordsAt_add (z : Zone) (r : Record) (k : RrsetKey) :
    (z.add r).recordsAt k = if recordKey r = k then z.recordsAt k ++ [r] else z.recordsAt k := by
  unfold recordsAt
  split
  · next h => rw [← h, recordKey, Zone.add, AList.lookup_insert]; rfl
  · next h =>
    have hne : k ≠ (toAsciiLowercase r.name, r.rtype.toU16) := fun e => h e.symm
    rw [Zone.add, AList.lookup_insert_ne hne]

theorem recordsAt_foldl_add (k : RrsetKey) : ∀ (l : List Record) (z : Zone),
    (l.foldl Zone.add z).recordsAt k = z.recordsAt k ++ l.filter fun r => recordKey r = k
  | [], z => by simp
  | r :: l, z => by
    rw [List.foldl_cons, recordsAt_foldl_add k l, recordsAt_add]
    by_cases h : recordKey r = k <;> simp [h]

theorem holds_iff_recordsAt {z : Zone} {r : Record} : z.Holds r ↔ ∃ k, r ∈ z.recordsAt k := by
  constructor
  · rintro ⟨k, rs, hk, hr⟩
    exact ⟨k, by rw [recordsAt, hk]; exact hr⟩
  · rintro ⟨k, hr⟩
    cases hk : z.rrsets.lookup k with
    | none => rw [recordsAt, hk] at hr; exact absurd hr List.not_mem_nil
    | some rs => rw [recordsAt, hk] at hr; exact ⟨k, rs, hk, hr⟩

theorem holds_foldl_add {r : Record} (rs : List Record) (z : Zone) :
    (rs.foldl Zone.add z).Holds r ↔ z.Holds r ∨ r ∈ rs := by
  simp only [holds_iff_recordsAt, recordsAt_foldl_add, List.mem_append, List.mem_filter, decide_eq_true_eq, exists_or,
    exists_and_left, exists_eq', and_true]

theorem mem_names_foldl_add (n : Text) : ∀ (l : List Record) (z : Zone),
    n ∈ (l.foldl Zone.add z).names.keys ↔ n ∈ z.names.keys ∨ ∃ r ∈ l, toAsciiLowercase r.name = n
  | [], z => by simp
  | r :: l, z => by
    rw [List.foldl_cons, mem_names_foldl_add n l, mem_names_add]
    simp only [List.mem_cons, exists_eq_or_imp, @eq_comm _ n]
    tauto

theorem origin_foldl_add : ∀ (l : List Record) (z : Zone), (l.foldl Zone.add z).origin = z.origin
  | [], _ => rfl
  | r :: l, z => by rw [List.foldl_cons, origin_foldl_add l]; rfl

theorem nsecOwners_foldl_add : ∀ (l : List Record) (z : Zone), (l.foldl Zone.add z).nsecOwners = z.nsecOwners
  | [], _ => rfl
  | r :: l, z => by rw [List.foldl_cons, nsecOwners_foldl_add l]; rfl

theorem WF.foldl_add : ∀ (l : List Record) {z : Zone}, z.WF → (l.foldl Zone.add z).WF
  | [], _, h => h
  | r :: l, _, h => WF.foldl_add l (h.add r)

theorem WF.lookup_iff (h : z.WF) {k : RrsetKey} {rs : List Record} :
    z.rrsets.lookup k = some rs ↔ z.recordsAt k = rs ∧ rs ≠ [] := by
  unfold recordsAt
  constructor
  · intro hl
    exact ⟨by rw [hl]; rfl, (h.records k rs hl).1⟩
  · rintro ⟨hr, hne⟩
    cases hl : z.rrsets.lookup k with
    | none => rw [hl] at hr; exact absurd hr.symm hne
    | some rs' => rw [hl] at hr; exact congrArg some hr

theorem WF.mem_names_iff (h : z.WF) {n : Text} : n ∈ z.names.keys ↔ ∃ t, z.recordsAt (n, t) ≠ [] := by
  rw [h.names]
  refine exists_congr fun t => ?_
  cases hl : z.rrsets.lookup (n, t) with
  | none => simp [recordsAt, hl]
  | some rs => simp [recordsAt, hl, (h.records _ rs hl).1]

/-- A record under a key has that key. -/
theorem WF.recordKey_eq (h : z.WF) {k : RrsetKey} {r : Record} (hr : r ∈ z.recordsAt k) : recordKey r = k := by
  have hne : z.recordsAt k ≠ [] := List.ne_nil_of_mem hr
  obtain ⟨hname, htype⟩ := (h.records k _ (h.lookup_iff.mpr ⟨rfl, hne⟩)).2 r hr
  rw [recordKey, hname, htype]

theorem mem_typesAt {o : Text} {t : UInt16} : t ∈ z.typesAt o ↔ (z.rrsets.lookup (o, t)).isSome := by
  simp only [typesAt, List.mem_map, List.mem_filter, decide_eq_true_eq, Option.isSome_iff_exists]
  constructor
  · rintro ⟨⟨⟨n, t'⟩, rs⟩, ⟨he, rfl⟩, rfl⟩
    exact ⟨rs, AList.mem_lookup_iff.mpr he⟩
  · rintro ⟨rs, hrs⟩
    exact ⟨⟨(o, t), rs⟩, ⟨AList.mem_lookup_iff.mp hrs, rfl⟩, rfl⟩

/-! The NSEC chain. -/

/-- The owner names in canonical order. -/
def sortedOwners (z : Zone) : List Text := z.names.keys.insertionSort fun a b => canonicalOrder a b ≠ .gt

theorem mem_sortedOwners {n : Text} : n ∈ z.sortedOwners ↔ n ∈ z.names.keys := List.mem_insertionSort _

theorem sortedOwners_nodup (z : Zone) : z.sortedOwners.Nodup :=
  (List.perm_insertionSort _ z.names.keys).nodup_iff.mpr z.names.nodup

/-- The NSEC records `build_nsec_chain` enters, as the zone stands when it starts. -/
def nsecRecords (z : Zone) (ttl : UInt32) : List Record :=
  z.sortedOwners.zipIdx.map fun o => z.nsecRecord z.sortedOwners ttl o.2 o.1

theorem filter_eraseP {α : Type} {p q : α → Bool} (h : ∀ a, p a = true → q a = false) :
    ∀ l : List α, (l.eraseP p).filter q = l.filter q
  | [] => rfl
  | a :: l => by
    by_cases hp : p a = true
    · rw [List.eraseP_cons_of_pos hp, List.filter_cons_of_neg (by rw [h a hp]; decide)]
    · rw [List.eraseP_cons_of_neg hp, List.filter_cons, List.filter_cons, filter_eraseP h l]

/-- Entering a record leaves the types at other owners as they are. -/
theorem typesAt_add {r : Record} {o : Text} (h : toAsciiLowercase r.name ≠ o) : (z.add r).typesAt o = z.typesAt o := by
  unfold typesAt Zone.add
  rw [AList.entries_insert, List.filter_cons_of_neg (by simpa using h), List.kerase, filter_eraseP]
  rintro ⟨⟨n, t⟩, rs⟩ he
  simp only [decide_eq_true_eq, decide_eq_false_iff_not, Prod.mk.injEq] at he ⊢
  exact fun hn => h (he.1.trans hn)

/-- The bitmaps do not depend on the NSEC records entered before them. -/
theorem foldl_nsecRecord (z : Zone) (owners : List Text) (ttl : UInt32) : ∀ (l : List (Text × Nat)) (z' : Zone),
    (l.map Prod.fst).Nodup → (∀ o ∈ l, toAsciiLowercase o.1 = o.1) → (∀ o ∈ l, z'.typesAt o.1 = z.typesAt o.1) →
    l.foldl (fun z o => z.add (z.nsecRecord owners ttl o.2 o.1)) z' =
      (l.map fun o => z.nsecRecord owners ttl o.2 o.1).foldl Zone.add z'
  | [], _, _, _, _ => rfl
  | o :: l, z', hnd, hlow, ht => by
    obtain ⟨hnotin, hnd⟩ := List.nodup_cons.mp hnd
    have hrec : z'.nsecRecord owners ttl o.2 o.1 = z.nsecRecord owners ttl o.2 o.1 := by
      rw [nsecRecord, nsecRecord, ht o List.mem_cons_self]
    rw [List.foldl_cons, List.map_cons, List.foldl_cons, hrec]
    refine foldl_nsecRecord z owners ttl l _ hnd (fun p hp => hlow p (List.mem_cons_of_mem o hp)) fun p hp => ?_
    have hne : toAsciiLowercase (z.nsecRecord owners ttl o.2 o.1).name ≠ p.1 := fun e => by
      have hp1 : p.1 = o.1 := e.symm.trans (hlow o List.mem_cons_self)
      exact hnotin (hp1 ▸ List.mem_map_of_mem hp)
    rw [typesAt_add hne, ht p (List.mem_cons_of_mem o hp)]

theorem WF.buildNsecChain_eq (h : z.WF) (ttl : UInt32) :
    z.buildNsecChain ttl = { (z.nsecRecords ttl).foldl Zone.add z with nsecOwners := z.sortedOwners } := by
  have hfst : z.sortedOwners.zipIdx.map Prod.fst = z.sortedOwners := List.zipIdx_map_fst 0 z.sortedOwners
  have hmem : ∀ o ∈ z.sortedOwners.zipIdx, o.1 ∈ z.names.keys := fun o ho =>
    mem_sortedOwners.mp (hfst ▸ List.mem_map_of_mem ho)
  have hfold := foldl_nsecRecord z z.sortedOwners ttl z.sortedOwners.zipIdx z
    (by rw [hfst]; exact z.sortedOwners_nodup) (fun o ho => h.lower (hmem o ho)) fun _ _ => rfl
  exact congrArg (fun z' : Zone => { z' with nsecOwners := z.sortedOwners }) hfold

/-- Only one element of the list contributes. -/
theorem filter_flatMap_of_unique {α β : Type} {f : α → List β} {p : β → Bool} {l : List α} {a : α} (ha : a ∈ l)
    (hnd : l.Nodup) (hu : ∀ b ∈ l, b ≠ a → (f b).filter p = []) : (l.flatMap f).filter p = (f a).filter p := by
  obtain ⟨before, after, rfl⟩ := List.append_of_mem ha
  obtain ⟨_, hafter, hdisj⟩ := List.nodup_append.mp hnd
  have hnil : ∀ part : List α, (∀ b ∈ part, b ∈ before ++ a :: after ∧ b ≠ a) → (part.flatMap f).filter p = [] := by
    intro part hpart
    rw [List.filter_flatMap, List.flatMap_eq_nil_iff]
    exact fun b hb => hu b (hpart b hb).1 (hpart b hb).2
  have hbefore := hnil before fun b hb =>
    ⟨List.mem_append_left _ hb, hdisj b hb a List.mem_cons_self⟩
  have hafter := hnil after fun b hb =>
    ⟨List.mem_append_right _ (List.mem_cons_of_mem a hb), fun e => (List.nodup_cons.mp hafter).1 (e ▸ hb)⟩
  rw [List.flatMap_append, List.flatMap_cons, List.filter_append, List.filter_append, hbefore, hafter,
    List.nil_append, List.append_nil]

theorem WF.recordKey_nsecRecord (h : z.WF) (ttl : UInt32) (index : Nat) {owner : Text} (ho : owner ∈ z.sortedOwners) :
    recordKey (z.nsecRecord z.sortedOwners ttl index owner) = (owner, RType.NSEC.toU16) :=
  congrArg (·, RType.NSEC.toU16) (h.lower (mem_sortedOwners.mp ho))

/-- The chain has one record at every owner. -/
theorem WF.nsecRecords_filter (h : z.WF) {ttl : UInt32} {index : Nat} {owner : Text}
    (ho : z.sortedOwners[index]? = some owner) :
    (z.nsecRecords ttl).filter (fun r => recordKey r = (owner, RType.NSEC.toU16)) =
      [z.nsecRecord z.sortedOwners ttl index owner] := by
  have hfst : z.sortedOwners.zipIdx.map Prod.fst = z.sortedOwners := List.zipIdx_map_fst 0 z.sortedOwners
  have hnd : z.sortedOwners.zipIdx.Nodup := List.Nodup.of_map Prod.fst (by rw [hfst]; exact z.sortedOwners_nodup)
  have hmem : (owner, index) ∈ z.sortedOwners.zipIdx := List.mk_mem_zipIdx_iff_getElem?.mpr ho
  have hkey : ∀ o ∈ z.sortedOwners.zipIdx, recordKey (z.nsecRecord z.sortedOwners ttl o.2 o.1) =
      (o.1, RType.NSEC.toU16) := fun o hmem =>
    h.recordKey_nsecRecord ttl o.2 (hfst ▸ List.mem_map_of_mem hmem)
  have hother : ∀ o ∈ z.sortedOwners.zipIdx, o ≠ (owner, index) → o.1 ≠ owner := by
    rintro ⟨o, i⟩ hoi hne rfl
    have hi := List.mk_mem_zipIdx_iff_getElem?.mp hoi
    have hlt := (List.getElem?_eq_some_iff.mp hi).1
    exact hne (congrArg (o, ·) ((List.getElem?_inj hlt z.sortedOwners_nodup).mp (hi.trans ho.symm)))
  rw [nsecRecords, List.map_eq_flatMap, filter_flatMap_of_unique hmem hnd]
  · rw [List.filter_cons_of_pos (by rw [hkey _ hmem]; simp), List.filter_nil]
  · intro o ho' hne
    rw [List.filter_cons_of_neg (by rw [hkey o ho']; simpa using hother o ho' hne), List.filter_nil]

/-- Under a key that is no NSEC the chain changes nothing. -/
theorem WF.recordsAt_buildNsecChain (h : z.WF) (ttl : UInt32) {k : RrsetKey} (hk : k.2 ≠ RType.NSEC.toU16) :
    (z.buildNsecChain ttl).recordsAt k = z.recordsAt k := by
  rw [h.buildNsecChain_eq]
  show ((z.nsecRecords ttl).foldl Zone.add z).recordsAt k = _
  rw [recordsAt_foldl_add, List.filter_eq_nil_iff.mpr, List.append_nil]
  intro r hr
  obtain ⟨o, _, rfl⟩ := List.mem_map.mp hr
  rw [decide_eq_true_eq]
  exact fun e => hk (congrArg Prod.snd e).symm

/-- At an owner the chain enters one NSEC, whose next name is the owner that follows. -/
theorem WF.nsecAt_buildNsecChain (h : z.WF) (ttl : UInt32) {index : Nat} {owner : Text}
    (ho : z.sortedOwners[index]? = some owner) (hnone : z.recordsAt (owner, RType.NSEC.toU16) = []) :
    (z.buildNsecChain ttl).recordsAt (owner, RType.NSEC.toU16) = [z.nsecRecord z.sortedOwners ttl index owner] := by
  rw [h.buildNsecChain_eq]
  show ((z.nsecRecords ttl).foldl Zone.add z).recordsAt _ = _
  rw [recordsAt_foldl_add, h.nsecRecords_filter ho, hnone, List.nil_append]

theorem WF.mem_names_buildNsecChain (h : z.WF) (ttl : UInt32) {n : Text} :
    n ∈ (z.buildNsecChain ttl).names.keys ↔ n ∈ z.names.keys := by
  rw [h.buildNsecChain_eq]
  show n ∈ ((z.nsecRecords ttl).foldl Zone.add z).names.keys ↔ _
  rw [mem_names_foldl_add, or_iff_left_iff_imp]
  rintro ⟨r, hr, rfl⟩
  obtain ⟨o, ho, rfl⟩ := List.mem_map.mp hr
  have hmem : o.1 ∈ z.names.keys := mem_sortedOwners.mp (List.fst_mem_of_mem_zipIdx ho)
  exact (h.lower hmem).symm ▸ hmem

theorem WF.wf_buildNsecChain (h : z.WF) (ttl : UInt32) : (z.buildNsecChain ttl).WF := by
  rw [h.buildNsecChain_eq]
  have hfold := h.foldl_add (z.nsecRecords ttl)
  exact ⟨hfold.names, hfold.records⟩

theorem WF.origin_buildNsecChain (h : z.WF) (ttl : UInt32) : (z.buildNsecChain ttl).origin = z.origin := by
  rw [h.buildNsecChain_eq]
  exact origin_foldl_add _ z

end Zone

/-! Signatures. -/

section
variable {rsa : Rsa} {signer : ZoneSigner} {origin : Text} {zskTag : UInt16} {kskTag : Option UInt16}

/-- The signatures made for an RRset. -/
def sigsOf (rsa : Rsa) (signer : ZoneSigner) (origin : Text) (zskTag : UInt16) (kskTag : Option UInt16)
    (rrset : List Record) : List Record :=
  match signOne rsa signer origin zskTag kskTag rrset with
  | .ok (sigs, _) => sigs
  | .error _ => []

theorem signEach_ok : ∀ {rrsets : List (List Record)} {rrsigs : List Record},
    signEach rsa signer origin zskTag kskTag rrsets = .ok (rrsigs, []) →
    rrsigs = rrsets.flatMap (sigsOf rsa signer origin zskTag kskTag) ∧ ∀ rrset ∈ rrsets,
      signOne rsa signer origin zskTag kskTag rrset = .ok (sigsOf rsa signer origin zskTag kskTag rrset, [])
  | [], _, h => by cases h; simp
  | rrset :: rest, rrsigs, h => by
    rw [signEach] at h
    cases ho : signOne rsa signer origin zskTag kskTag rrset with
    | error e => rw [ho] at h; cases h
    | ok one =>
      obtain ⟨oneSigs, oneFailures⟩ := one
      cases hr : signEach rsa signer origin zskTag kskTag rest with
      | error e => rw [ho, hr] at h; cases h
      | ok more =>
        obtain ⟨moreSigs, moreFailures⟩ := more
        rw [ho, hr] at h
        have h : (Except.ok (oneSigs ++ moreSigs, oneFailures ++ moreFailures) : Except String _) = .ok (rrsigs, []) := h
        obtain ⟨hsigs, hfail⟩ := Prod.mk.inj (Except.ok.inj h)
        obtain ⟨rfl, rfl⟩ := List.append_eq_nil_iff.mp hfail
        obtain ⟨hmore, hall⟩ := signEach_ok hr
        have hone : sigsOf rsa signer origin zskTag kskTag rrset = oneSigs := by rw [sigsOf, ho]
        refine ⟨by rw [List.flatMap_cons, hone, ← hmore, hsigs], fun r hmem => ?_⟩
        rcases List.mem_cons.mp hmem with rfl | hmem
        · rw [hone]; exact ho
        · exact hall r hmem

theorem kskSigs_ok {rrset sigs : List Record} (h : kskSigs rsa signer origin kskTag rrset = .ok sigs) :
    ∀ s ∈ sigs, ∃ key tag, signer.signRrsetWithKey rsa key rrset origin tag = .ok s := by
  unfold kskSigs at h
  split at h
  · cases hk : signer.ksk with
    | none => rw [hk] at h; cases h; simp
    | some key =>
      cases ht : kskTag with
      | none => rw [hk, ht] at h; cases h; simp
      | some tag =>
        rw [hk, ht] at h
        cases hs : signer.signRrsetWithKey rsa key rrset origin tag with
        | error e => simp only [hs] at h; cases h
        | ok sig =>
          simp only [hs] at h
          cases h
          intro s hmem
          exact ⟨key, tag, by rw [List.mem_singleton.mp hmem, hs]⟩
  · cases h; simp

/-- An RRset signed without a failure carries the ZSK's signature first; those behind it are
    made over the same RRset. -/
theorem signOne_ok {rrset sigs : List Record} (h : signOne rsa signer origin zskTag kskTag rrset = .ok (sigs, [])) :
    ∃ first more, sigs = first :: more ∧ signer.signRrset rsa rrset origin zskTag = .ok first ∧
      ∀ s ∈ more, ∃ key tag, signer.signRrsetWithKey rsa key rrset origin tag = .ok s := by
  rw [signOne] at h
  cases hk : kskSigs rsa signer origin kskTag rrset with
  | error e => rw [hk] at h; cases h
  | ok more =>
    cases hz : signer.signRrset rsa rrset origin zskTag with
    | error e => rw [hk, hz] at h; cases h
    | ok first =>
      rw [hk, hz] at h
      cases h
      exact ⟨first, more, rfl, rfl, kskSigs_ok hk⟩

end

/-! What a signing leaves. -/

/-- The zone with its DNSKEY records and its NSEC chain, as it stands when the signatures are made. -/
def chainedZone (z : Zone) (keys : List Record) (ttl : UInt32) : Zone := (keys.foldl Zone.add z).buildNsecChain ttl

/-- How a signing in which nothing fails comes about: its keys, the chained zone, and the
    signatures of every RRset of that zone. -/
structure SignedAs (rsa : Rsa) (now : UInt32) (ho : HashOrder) (z z' : Zone) where
  zsk : DnsKey
  ksk : Option DnsKey
  kskTag : Option UInt16
  zskRec : Record
  kskRecs : List Record
  ttl : UInt32
  algorithm : zsk.algorithm = 8
  zskRdata : zsk.dnskeyRdata rsa = .ok zskRec.rdata
  keyRecs : ∀ r ∈ zskRec :: kskRecs, r.name = z.origin ∧ r.rtype = .DNSKEY
  signed : ∀ rrset ∈ (chainedZone z (zskRec :: kskRecs) ttl).iterRrsets ho,
    signOne rsa (.new now zsk ksk) z.origin (keyTag zskRec.rdata) kskTag rrset =
      .ok (sigsOf rsa (.new now zsk ksk) z.origin (keyTag zskRec.rdata) kskTag rrset, [])
  result : z' = (((chainedZone z (zskRec :: kskRecs) ttl).iterRrsets ho).flatMap
    (sigsOf rsa (.new now zsk ksk) z.origin (keyTag zskRec.rdata) kskTag)).foldl Zone.add
      (chainedZone z (zskRec :: kskRecs) ttl)

theorem dnskeyRecord_ok {rsa : Rsa} {key : DnsKey} {ttl : UInt32} {r : Record} (h : key.dnskeyRecord rsa ttl = .ok r) :
    key.dnskeyRdata rsa = .ok r.rdata ∧ r.name = key.keyName ∧ r.rtype = .DNSKEY := by
  rw [DnsKey.dnskeyRecord] at h
  cases hr : key.dnskeyRdata rsa with
  | error e => rw [hr] at h; cases h
  | ok rdata => rw [hr] at h; cases h; exact ⟨rfl, rfl, rfl⟩

/-- The records entered for the keys, when publishing them succeeds. -/
theorem publishKeys_ok {rsa : Rsa} {z zone : Zone} {ttl : UInt32} {zsk : DnsKey} {ksk : Option DnsKey}
    {kskTag : Option UInt16} (h : publishKeys rsa z ttl zsk ksk = (zone, .ok kskTag)) :
    ∃ zskRec kskRecs, zone = (zskRec :: kskRecs).foldl Zone.add z ∧ zsk.dnskeyRdata rsa = .ok zskRec.rdata ∧
      ∀ r ∈ zskRec :: kskRecs, r.rtype = .DNSKEY ∧ (r.name = zsk.keyName ∨ ∃ key ∈ ksk, r.name = key.keyName) := by
  rw [publishKeys] at h
  cases hz : zsk.dnskeyRecord rsa ttl with
  | error e => rw [hz] at h; cases (Prod.mk.inj h).2
  | ok zskRec =>
    obtain ⟨hrdata, hname, htype⟩ := dnskeyRecord_ok hz
    rw [hz] at h
    cases ksk with
    | none =>
      obtain ⟨rfl, _⟩ := Prod.mk.inj h
      refine ⟨zskRec, [], rfl, hrdata, fun r hr => ?_⟩
      rw [List.mem_singleton.mp hr]
      exact ⟨htype, .inl hname⟩
    | some key =>
      cases hk : key.dnskeyRecord rsa ttl with
      | error e => simp only [hk] at h; cases (Prod.mk.inj h).2
      | ok kskRec =>
        obtain ⟨_, hkname, hktype⟩ := dnskeyRecord_ok hk
        simp only [hk] at h
        obtain ⟨rfl, _⟩ := Prod.mk.inj h
        refine ⟨zskRec, [kskRec], rfl, hrdata, fun r hr => ?_⟩
        rcases List.mem_cons.mp hr with rfl | hr
        · exact ⟨htype, .inl hname⟩
        · rw [List.mem_singleton.mp hr]
          exact ⟨hktype, .inr ⟨key, rfl, hkname⟩⟩

theorem signingKeys_ok {rsa : Rsa} {files : Files} {keyDir origin : Text} {zsk : DnsKey} {ksk : Option DnsKey}
    (h : signingKeys rsa files keyDir origin = .ok (zsk, ksk)) :
    zsk.algorithm = 8 ∧ zsk.keyName = origin ∧ ∀ key ∈ ksk, key.keyName = origin := by
  rw [signingKeys] at h
  cases hz : DnsKey.fromPemFile rsa files (keyPath keyDir origin "zsk".toList) with
  | error e => rw [hz] at h; cases h
  | ok key =>
    have halg : key.algorithm = 8 := by
      rw [DnsKey.fromPemFile] at hz
      cases hc : files.read (keyPath keyDir origin "zsk".toList) with
      | error e => rw [hc] at hz; cases hz
      | ok content =>
        cases hder : DnsKey.pemToDer rsa content with
        | error e => rw [hc] at hz; simp only [bind, Except.bind, hder] at hz; cases hz
        | ok bytes => rw [hc] at hz; simp only [bind, Except.bind, hder] at hz; cases hz; rfl
    rw [hz] at h
    obtain ⟨rfl, rfl⟩ := Prod.mk.inj (Except.ok.inj h)
    refine ⟨halg, rfl, fun key' hkey' => ?_⟩
    cases hk : DnsKey.fromPemFile rsa files (keyPath keyDir origin "ksk".toList) with
    | error e => rw [hk] at hkey'; cases hkey'
    | ok key'' => rw [hk] at hkey'; cases hkey'; rfl

/-- **A signing that succeeds and prints no failure.** -/
theorem signZone_signed {rsa : Rsa} {files : Files} {now : UInt32} {ho : HashOrder} {z z' : Zone} {keyDir : Text}
    {count : Nat} (hkey : z.lookup z.origin .DNSKEY = none)
    (h : signZone rsa files now ho z keyDir = ⟨z', .ok count, []⟩) : Nonempty (SignedAs rsa now ho z z') := by
  have hnot : ¬(z.lookup z.origin .DNSKEY).isSome := by rw [hkey]; simp
  simp only [signZone, if_neg hnot] at h
  cases hk : signingKeys rsa files keyDir z.origin with
  | error e => simp only [hk] at h; cases (Signing.mk.inj h).2.1
  | ok keys =>
    obtain ⟨zsk, ksk⟩ := keys
    obtain ⟨halg, hzname, hkname⟩ := signingKeys_ok hk
    cases ht : zsk.keyTag rsa with
    | error e => simp only [hk, ht] at h; cases (Signing.mk.inj h).2.1
    | ok zskTag =>
      cases hp : publishKeys rsa z (soaTtl z) zsk ksk with
      | mk zone published =>
        cases published with
        | error e => simp only [hk, ht, hp] at h; cases (Signing.mk.inj h).2.1
        | ok kskTag =>
          obtain ⟨zskRec, kskRecs, rfl, hrdata, hrecs⟩ := publishKeys_ok hp
          have htag : zskTag = keyTag zskRec.rdata := by
            rw [DnsKey.keyTag, hrdata] at ht
            exact (Except.ok.inj ht).symm
          cases hs : signEach rsa (.new now zsk ksk) z.origin zskTag kskTag
              ((chainedZone z (zskRec :: kskRecs) (nsecTtl ((zskRec :: kskRecs).foldl Zone.add z))).iterRrsets ho) with
          | error e => simp only [chainedZone] at hs; simp only [hk, ht, hp, hs] at h; cases (Signing.mk.inj h).2.1
          | ok made =>
            obtain ⟨rrsigs, failures⟩ := made
            simp only [chainedZone] at hs
            simp only [hk, ht, hp, hs] at h
            obtain ⟨hzone, _, rfl⟩ := Signing.mk.inj h
            obtain ⟨hsigs, hall⟩ := signEach_ok hs
            rw [htag] at hsigs hall
            refine ⟨⟨zsk, ksk, kskTag, zskRec, kskRecs, _, halg, hrdata, fun r hr => ?_, hall, ?_⟩⟩
            · obtain ⟨htype, hname | ⟨key, hmem, hname⟩⟩ := hrecs r hr
              · exact ⟨hname.trans hzname, htype⟩
              · exact ⟨hname.trans (hkname key hmem), htype⟩
            · rw [← hzone, hsigs]; rfl

/-! What a signed zone holds. -/

theorem coveringRrsigs_eq (zone : Zone) (name : Text) (coveredType : RType) : coveringRrsigs zone name coveredType =
    (zone.recordsAt (toAsciiLowercase name, RType.RRSIG.toU16)).filter (covers coveredType.toU16) := by
  rw [coveringRrsigs, Zone.recordsAt, Zone.lookup]
  cases zone.rrsets.lookup (toAsciiLowercase name, RType.RRSIG.toU16) <;> rfl

/-- The loader builds no record of this type. -/
theorem Zone.Loaded.recordsAt_eq_nil {z : Zone} (h : z.Loaded) {n : Text} {t : UInt16}
    (ht : ∀ rt ∈ fileTypes, rt.toU16 ≠ t) : z.recordsAt (n, t) = [] := by
  by_contra hne
  obtain ⟨r, rest, hr⟩ := List.exists_cons_of_ne_nil hne
  have hmem : r ∈ z.recordsAt (n, t) := by rw [hr]; exact List.mem_cons_self
  have hlook := h.wf.lookup_iff.mpr ⟨rfl, hne⟩
  exact ht r.rtype (h.records _ _ hlook r hmem).rtype (congrArg Prod.snd (h.wf.recordKey_eq hmem))

namespace SignedAs
variable {rsa : Rsa} {now : UInt32} {ho : HashOrder} {z z' : Zone} (s : SignedAs rsa now ho z z')

def keys : List Record := s.zskRec :: s.kskRecs
def keyed : Zone := s.keys.foldl Zone.add z
def chained : Zone := chainedZone z s.keys s.ttl
def signer : ZoneSigner := .new now s.zsk s.ksk
def sigs (rrset : List Record) : List Record :=
  sigsOf rsa s.signer z.origin (keyTag s.zskRec.rdata) s.kskTag rrset
def rrsigs : List Record := (s.chained.iterRrsets ho).flatMap s.sigs

theorem result_eq : z' = s.rrsigs.foldl Zone.add s.chained := s.result

section
variable (hz : z.Loaded)
include s hz

theorem wf_keyed : s.keyed.WF := hz.wf.foldl_add s.keys
theorem wf_chained : s.chained.WF := (s.wf_keyed hz).wf_buildNsecChain s.ttl
theorem wf : z'.WF := s.result_eq ▸ (s.wf_chained hz).foldl_add s.rrsigs

theorem origin : z'.origin = z.origin := by
  have hsigned := congrArg Zone.origin s.result_eq
  rw [Zone.origin_foldl_add] at hsigned
  exact hsigned.trans <| ((s.wf_keyed hz).origin_buildNsecChain s.ttl).trans (Zone.origin_foldl_add s.keys z)

theorem nsecOwners : z'.nsecOwners = s.keyed.sortedOwners := by
  have hsigned := congrArg Zone.nsecOwners s.result_eq
  rw [Zone.nsecOwners_foldl_add] at hsigned
  exact hsigned.trans (congrArg Zone.nsecOwners ((s.wf_keyed hz).buildNsecChain_eq s.ttl))

theorem recordKey_key {r : Record} (hr : r ∈ s.keys) : Zone.recordKey r = (z.origin, RType.DNSKEY.toU16) := by
  obtain ⟨hname, htype⟩ := s.keyRecs r hr
  rw [Zone.recordKey, hname, htype, hz.origin]

/-- The DNSKEY records stand behind those the file had at the apex. -/
theorem recordsAt_keyed (k : RrsetKey) :
    s.keyed.recordsAt k = z.recordsAt k ++ if k = (z.origin, RType.DNSKEY.toU16) then s.keys else [] := by
  rw [keyed, Zone.recordsAt_foldl_add]
  congr 1
  split
  · next h => exact List.filter_eq_self.mpr fun r hr => by rw [s.recordKey_key hz hr, h]; simp
  · next h =>
    exact List.filter_eq_nil_iff.mpr fun r hr => by rw [s.recordKey_key hz hr]; simpa using Ne.symm h

theorem mem_names_keyed {n : Text} : n ∈ s.keyed.names.keys ↔ n ∈ z.names.keys ∨ n = z.origin := by
  rw [keyed, Zone.mem_names_foldl_add]
  refine or_congr_right ⟨?_, ?_⟩
  · rintro ⟨r, hr, rfl⟩
    rw [(s.keyRecs r hr).1, hz.origin]
  · rintro rfl
    exact ⟨s.zskRec, List.mem_cons_self, by rw [(s.keyRecs _ List.mem_cons_self).1, hz.origin]⟩

theorem recordsAt_chained {k : RrsetKey} (hk : k.2 ≠ RType.NSEC.toU16) : s.chained.recordsAt k = s.keyed.recordsAt k :=
  (s.wf_keyed hz).recordsAt_buildNsecChain s.ttl hk

theorem nsecAt_keyed (n : Text) : s.keyed.recordsAt (n, RType.NSEC.toU16) = [] := by
  rw [s.recordsAt_keyed hz, hz.recordsAt_eq_nil (by decide),
    if_neg fun h => (by decide : RType.NSEC.toU16 ≠ RType.DNSKEY.toU16) (congrArg Prod.snd h), List.append_nil]

theorem rrsigAt_chained (n : Text) : s.chained.recordsAt (n, RType.RRSIG.toU16) = [] := by
  rw [s.recordsAt_chained hz (by decide : RType.RRSIG.toU16 ≠ RType.NSEC.toU16), s.recordsAt_keyed hz,
    hz.recordsAt_eq_nil (by decide),
    if_neg fun h => (by decide : RType.RRSIG.toU16 ≠ RType.DNSKEY.toU16) (congrArg Prod.snd h), List.append_nil]

theorem mem_names_chained {n : Text} : n ∈ s.chained.names.keys ↔ n ∈ s.keyed.names.keys :=
  (s.wf_keyed hz).mem_names_buildNsecChain s.ttl

/-- Every RRset of the chained zone is among those signed. -/
theorem mem_iterRrsets {k : RrsetKey} (hk : s.chained.recordsAt k ≠ []) :
    ⟨k, s.chained.recordsAt k⟩ ∈ ho.entries s.chained.rrsets.entries := by
  rw [(ho.perm _).mem_iff]
  exact AList.mem_lookup_iff.mp ((s.wf_chained hz).lookup_iff.mpr ⟨rfl, hk⟩)

theorem entry_eq {e : Sigma fun _ : RrsetKey => List Record} (he : e ∈ ho.entries s.chained.rrsets.entries) :
    e.2 = s.chained.recordsAt e.1 ∧ e.2 ≠ [] := by
  rw [(ho.perm _).mem_iff] at he
  obtain ⟨hr, hne⟩ := (s.wf_chained hz).lookup_iff.mp (AList.mem_lookup_iff.mpr he)
  exact ⟨hr.symm, hne⟩

omit hz in
theorem signOne_sigs {e : Sigma fun _ : RrsetKey => List Record} (he : e ∈ ho.entries s.chained.rrsets.entries) :
    signOne rsa s.signer z.origin (keyTag s.zskRec.rdata) s.kskTag e.2 = .ok (s.sigs e.2, []) :=
  s.signed e.2 (List.mem_map_of_mem he)

variable (hlabels : ∀ l ∈ labelsOf z.origin, WireLabel l)
include hlabels

/-- A signature made for an RRset lies at its owner and covers its type. -/
theorem sigs_spec {e : Sigma fun _ : RrsetKey => List Record} (he : e ∈ ho.entries s.chained.rrsets.entries)
    {r : Record} (hr : r ∈ s.sigs e.2) :
    Zone.recordKey r = (e.1.1, RType.RRSIG.toU16) ∧ ∀ t, covers t r = (e.1.2 == t) := by
  obtain ⟨first, more, hsigs, hfirst, hmore⟩ := signOne_ok (s.signOne_sigs he)
  have hmade : ∃ key tag, s.signer.signRrsetWithKey rsa key e.2 z.origin tag = .ok r := by
    rw [hsigs] at hr
    rcases List.mem_cons.mp hr with rfl | hr
    · exact ⟨s.signer.zsk, _, hfirst⟩
    · exact hmore r hr
  obtain ⟨key, tag, hmade⟩ := hmade
  obtain ⟨head, rest, rrsig, hrs, hname, htype, _, _, hparse, hcovered, _⟩ := signRrsetWithKey_spec hmade hlabels
  obtain ⟨hat, _⟩ := s.entry_eq hz he
  have hkey : Zone.recordKey head = e.1 := (s.wf_chained hz).recordKey_eq (by rw [← hat, hrs]; exact List.mem_cons_self)
  refine ⟨?_, fun t => ?_⟩
  · rw [Zone.recordKey, hname, htype, ← hkey]; rfl
  · rw [covers, hparse, ← hkey, Zone.recordKey]
    exact congrArg (· == t) hcovered

omit hz hlabels in
theorem sigs_rrsigs {r : Record} (hr : r ∈ s.rrsigs) : ∃ e ∈ ho.entries s.chained.rrsets.entries, r ∈ s.sigs e.2 := by
  obtain ⟨rs, hrs, hr⟩ := List.mem_flatMap.mp hr
  obtain ⟨e, he, rfl⟩ := List.mem_map.mp hrs
  exact ⟨e, he, hr⟩

/-- The signatures change nothing but the RRSIG sets. -/
theorem recordsAt {k : RrsetKey} (hk : k.2 ≠ RType.RRSIG.toU16) : z'.recordsAt k = s.chained.recordsAt k := by
  conv_lhs => rw [s.result_eq]
  rw [Zone.recordsAt_foldl_add, List.filter_eq_nil_iff.mpr, List.append_nil]
  intro r hr
  obtain ⟨e, he, hr⟩ := s.sigs_rrsigs hr
  rw [decide_eq_true_eq, (s.sigs_spec hz hlabels he hr).1]
  exact fun h => hk (congrArg Prod.snd h).symm

/-- **The RRSIGs at an owner that cover a type are those made for that RRset.** -/
theorem covering {k : RrsetKey} (hk : s.chained.recordsAt k ≠ []) :
    (z'.recordsAt (k.1, RType.RRSIG.toU16)).filter (covers k.2) = s.sigs (s.chained.recordsAt k) := by
  have hentry := s.mem_iterRrsets hz hk
  have hnd : (ho.entries s.chained.rrsets.entries).Nodup :=
    (ho.perm _).nodup_iff.mpr (s.chained.rrsets.nodupKeys.nodup)
  have hrrsigs : s.rrsigs = (ho.entries s.chained.rrsets.entries).flatMap fun e => s.sigs e.2 :=
    List.flatMap_map _ _ _
  conv_lhs => rw [s.result_eq]
  rw [Zone.recordsAt_foldl_add, s.rrsigAt_chained hz, List.nil_append, List.filter_filter, hrrsigs,
    Zone.filter_flatMap_of_unique hentry hnd]
  · refine List.filter_eq_self.mpr fun r hr => ?_
    obtain ⟨hkey, hcov⟩ := s.sigs_spec hz hlabels hentry hr
    rw [hcov, hkey]
    simp
  · intro e he hne
    refine List.filter_eq_nil_iff.mpr fun r hr hpass => hne ?_
    obtain ⟨hkey, hcov⟩ := s.sigs_spec hz hlabels he hr
    rw [hcov, hkey, Bool.and_eq_true, beq_iff_eq, decide_eq_true_eq] at hpass
    have hk' : e.1 = k := Prod.ext (Prod.mk.inj hpass.2).1 hpass.1
    have hat := (s.entry_eq hz he).1
    exact Sigma.ext hk' (heq_of_eq (hat.trans (by rw [hk'])))

theorem mem_names {n : Text} : n ∈ z'.names.keys ↔ n ∈ s.keyed.names.keys := by
  conv_lhs => rw [s.result_eq]
  rw [Zone.mem_names_foldl_add, s.mem_names_chained hz, or_iff_left_iff_imp]
  rintro ⟨r, hr, rfl⟩
  obtain ⟨e, he, hr⟩ := s.sigs_rrsigs hr
  have hkey := (s.sigs_spec hz hlabels he hr).1
  rw [show toAsciiLowercase r.name = e.1.1 from congrArg Prod.fst hkey, ← s.mem_names_chained hz,
    (s.wf_chained hz).mem_names_iff]
  obtain ⟨hat, hne⟩ := s.entry_eq hz he
  exact ⟨e.1.2, by rw [← hat]; exact hne⟩

end

end SignedAs

end Ironbind
