import Ironbind.Ixfr
import Ironbind.Transfer

/- The history of differences as the loads of a run write it. A run writes well-formed
   differences only (`formed_of_run`), so that what a transfer sends of them tells them
   apart (`records_injective`). -/
namespace Ironbind
open Codec

/-! What a run writes. -/

/-- A zone file and its signing enter no record of an unnamed type under the SOA's type code. -/
def Zone.SoaTyped (z : Zone) : Prop :=
  ∀ k rs, z.rrsets.lookup k = some rs → k.2 = RType.SOA.toU16 → ∀ r ∈ rs, r.rtype = .SOA

namespace Zone

theorem SoaTyped.add {z : Zone} (h : z.SoaTyped) {r : Record} (hr : r.rtype.toU16 ≠ RType.SOA.toU16) :
    (z.add r).SoaTyped := fun k rs hk hsoa => by
  have hne : k ≠ (toAsciiLowercase r.name, r.rtype.toU16) := fun he => hr (by rw [← hsoa, he])
  rw [Zone.add, AList.lookup_insert_ne hne] at hk
  exact h k rs hk hsoa

theorem Loaded.soaTyped {z : Zone} (h : z.Loaded) : z.SoaTyped := fun k rs hk hsoa r hr => by
  have hcode : r.rtype.toU16 = RType.SOA.toU16 := (((h.wf.records k rs hk).2 r hr).2).trans hsoa
  have hall : ∀ t ∈ fileTypes, t.toU16 = RType.SOA.toU16 → t = .SOA := by decide
  exact hall r.rtype (h.records k rs hk r hr).rtype hcode

theorem SoaTyped.apexSoa {z : Zone} (h : z.SoaTyped) {soa : Record} (hsoa : z.apexSoa = some soa) : soa.rtype = .SOA := by
  obtain ⟨rs, hrs, hmem⟩ := Option.bind_eq_some_iff.mp hsoa
  exact h _ rs hrs rfl soa (List.mem_of_mem_head? hmem)

end Zone

/-! Signing, however far it gets, adds keys, signatures and the NSEC chain. -/

section
variable {rsa : Rsa} {signer : ZoneSigner} {origin : Text} {zskTag : UInt16} {kskTag : Option UInt16}

theorem rtype_signRrsetWithKey {key : DnsKey} {rrset : List Record} {tag : UInt16} {sig : Record}
    (h : signer.signRrsetWithKey rsa key rrset origin tag = .ok sig) : sig.rtype = .RRSIG := by
  cases rrset with
  | nil => cases h
  | cons first rest =>
    rw [ZoneSigner.signRrsetWithKey] at h
    cases hs : ZoneSigner.signData rsa key
      (buildSignedData (signer.rrsigTemplate key first origin tag) (first :: rest)) with
    | error e => simp only [hs] at h; cases h
    | ok signature => simp only [hs] at h; cases h; rfl

theorem rtype_signOne {rrset sigs : List Record} {failures : List String}
    (h : signOne rsa signer origin zskTag kskTag rrset = .ok (sigs, failures)) : ∀ sig ∈ sigs, sig.rtype = .RRSIG := by
  rw [signOne] at h
  cases hk : kskSigs rsa signer origin kskTag rrset with
  | error e => rw [hk] at h; cases h
  | ok more =>
    have hmore : ∀ sig ∈ more, sig.rtype = .RRSIG := fun sig hsig => by
      obtain ⟨key, tag, hsig⟩ := kskSigs_ok hk sig hsig
      exact rtype_signRrsetWithKey hsig
    cases hz : signer.signRrset rsa rrset origin zskTag with
    | error e => rw [hk, hz] at h; cases h; exact hmore
    | ok first =>
      rw [hk, hz] at h
      cases h
      exact List.forall_mem_cons.mpr ⟨rtype_signRrsetWithKey hz, hmore⟩

theorem rtype_signEach : ∀ {rrsets : List (List Record)} {sigs : List Record} {failures : List String},
    signEach rsa signer origin zskTag kskTag rrsets = .ok (sigs, failures) → ∀ sig ∈ sigs, sig.rtype = .RRSIG
  | [], sigs, failures, h => by cases h; exact fun sig hsig => absurd hsig List.not_mem_nil
  | rrset :: rest, sigs, failures, h => by
    rw [signEach] at h
    cases ho : signOne rsa signer origin zskTag kskTag rrset with
    | error e => rw [ho] at h; cases h
    | ok one =>
      obtain ⟨oneSigs, oneFailures⟩ := one
      cases hr : signEach rsa signer origin zskTag kskTag rest with
      | error e => rw [ho, hr] at h; cases h
      | ok more =>
        obtain ⟨moreSigs, moreFailures⟩ := more
        rw [ho, hr] at h
        cases h
        exact List.forall_mem_append.mpr ⟨rtype_signOne ho, rtype_signEach hr⟩

end

section
variable {P : Zone → Prop} (hadd : ∀ z r, r.rtype ∈ [RType.DNSKEY, RType.NSEC, RType.RRSIG] → P z → P (z.add r))
include hadd

theorem publishKeys_induct {rsa : Rsa} {zone : Zone} {ttl : UInt32} {zsk : DnsKey} {ksk : Option DnsKey} (hz : P zone) :
    P (publishKeys rsa zone ttl zsk ksk).1 := by
  have hkey : ∀ {key : DnsKey} {r : Record} {z : Zone}, key.dnskeyRecord rsa ttl = .ok r → P z → P (z.add r) :=
    fun hr hz => hadd _ _ (by rw [(dnskeyRecord_ok hr).2.2]; decide) hz
  rw [publishKeys]
  cases hzsk : zsk.dnskeyRecord rsa ttl with
  | error e => exact hz
  | ok zskRec =>
    cases ksk with
    | none => exact hkey hzsk hz
    | some key =>
      dsimp only
      cases hksk : key.dnskeyRecord rsa ttl with
      | error e => exact hkey hzsk hz
      | ok kskRec => exact hkey hksk (hkey hzsk hz)

/-- What entering keys, NSEC records and signatures keeps, and setting the owners of the chain, a signing keeps. -/
theorem signZone_induct (howners : ∀ z owners, P z → P { z with nsecOwners := owners }) {rsa : Rsa} {files : Files}
    {now : UInt32} {ho : HashOrder} {zone : Zone} {keyDir : Text} (hz : P zone) :
    P (signZone rsa files now ho zone keyDir).zone := by
  have hchain : ∀ {z : Zone} {ttl : UInt32}, P z → P (z.buildNsecChain ttl) := fun {z ttl} hz =>
    howners _ _ (List.foldlRecOn _ _ hz fun z' hz' o _ => hadd z' _ (List.mem_cons_of_mem _ List.mem_cons_self) hz')
  rw [signZone]
  split
  · exact hz
  · cases hk : signingKeys rsa files keyDir zone.origin with
    | error e => exact hz
    | ok keys =>
      obtain ⟨zsk, ksk⟩ := keys
      dsimp only
      cases zsk.keyTag rsa with
      | error e => exact hz
      | ok zskTag =>
        have hpublished : P (publishKeys rsa zone (soaTtl zone) zsk ksk).1 := publishKeys_induct hadd hz
        dsimp only
        generalize publishKeys rsa zone (soaTtl zone) zsk ksk = published at hpublished
        obtain ⟨keyed, kskTag⟩ := published
        cases kskTag with
        | error e => exact hpublished
        | ok kskTag =>
          dsimp only
          split
          · exact hchain hpublished
          · next rrsigs failures hsigs =>
            refine List.foldlRecOn _ _ (hchain hpublished) fun z' hz' r hr => hadd z' r ?_ hz'
            rw [rtype_signEach hsigs r hr]
            decide

end

theorem readZone_soaTyped {env : LoadEnv} {origin path : Text} {z : Zone}
    (h : ZoneManager.readZone env origin path = .ok z) : z.SoaTyped := by
  rw [ZoneManager.readZone] at h
  cases hread : env.files.read path with
  | error e => rw [hread] at h; cases h
  | ok content =>
    rw [hread] at h
    cases hload : (Zone.new origin).loadFile content with
    | error e => simp only [Except.mapError, hload, bind, Except.bind] at h; cases h
    | ok loaded =>
      have hloaded := (Zone.loadFile_loaded hload).soaTyped
      simp only [Except.mapError, hload, bind, Except.bind] at h
      split at h
      · cases h
        refine signZone_induct (fun z r hr hz => hz.add ?_) (fun _ _ hz => hz) hloaded
        have hnamed : ∀ t ∈ [RType.DNSKEY, RType.NSEC, RType.RRSIG], t.toU16 ≠ RType.SOA.toU16 := by decide
        exact hnamed _ hr
      · cases h
        exact hloaded

/-! Well-formed differences. -/

/-- A difference as two zones make it: SOA records with its serials, and no SOA record between them. -/
structure ZoneDelta.Formed (d : ZoneDelta) : Prop where
  fromSoa : d.fromSoa.rtype = .SOA
  toSoa : d.toSoa.rtype = .SOA
  removed : ∀ r ∈ d.removed, r.rtype ≠ .SOA
  added : ∀ r ∈ d.added, r.rtype ≠ .SOA
  fromSerial : soaSerial d.fromSoa.rdata = some d.fromSerial
  toSerial : soaSerial d.toSoa.rdata = some d.toSerial

theorem formed_of_buildDelta {ho ho' : HashOrder} {old new : Zone} {d : ZoneDelta} (hold : old.SoaTyped)
    (hnew : new.SoaTyped)
    (h : buildDelta ho ho' old new = some d) : d.Formed := by
  obtain ⟨hfrom, hto, hs, ht, hremoved, hadded⟩ := buildDelta_eq_some h
  have hplain : ∀ {ho ho' : HashOrder} {a b : Zone} {r : Record}, r ∈ without (diffRecords ho a) (diffRecords ho' b) →
      r.rtype ≠ .SOA := fun hr => (mem_diffRecords.mp (List.mem_of_mem_filter hr)).2
  rw [Zone.serial, hfrom, Option.bind_some] at hs
  rw [Zone.serial, hto, Option.bind_some] at ht
  exact ⟨hold.apexSoa hfrom, hnew.apexSoa hto, fun r hr => hplain (hremoved ▸ hr),
    fun r hr => hplain (hadded ▸ hr), hs, ht⟩

/-- The zones in place are typed, and the differences kept are well formed. -/
structure ZoneManager.Formed (m : ZoneManager) : Prop where
  zones : ∀ origin z, m.getZone origin = some z → z.SoaTyped
  history : ∀ origin d, d ∈ m.queue origin → d.Formed

theorem ZoneManager.formed_new : ZoneManager.new.Formed where
  zones := fun _ _ h => by cases h
  history := fun _ _ h => absurd h List.not_mem_nil

theorem ZoneManager.Formed.install {m : ZoneManager} (h : m.Formed) {env : LoadEnv} {origin path : Text} {z : Zone}
    (hz : z.SoaTyped) : (ZoneManager.install env origin path m z).Formed where
  zones := fun origin' z' hz' => by
    by_cases ho : origin = origin'
    · subst ho
      rw [getZone_install, Option.some.injEq] at hz'
      exact hz' ▸ hz
    · exact h.zones origin' z' ((install_other ho).1 ▸ hz')
  history := fun origin' d hd => by
    by_cases ho : origin = origin'
    · subst ho
      cases hrec : recordedDelta env m origin z with
      | none => exact h.history origin d (queue_install_none hrec ▸ hd)
      | some new =>
        rw [queue_install_some hrec] at hd
        rcases List.mem_append.mp ((pushDelta_suffix _ _ _).subset hd) with hd | hd
        · exact h.history origin d hd
        · obtain ⟨old, hold, hnew, -⟩ := recordedDelta_some hrec
          rw [List.mem_singleton.mp hd]
          exact formed_of_buildDelta (h.zones origin old hold) hz hnew
    · exact h.history origin' d ((install_other ho).2 ▸ hd)

/-- Every run leaves the manager so. -/
theorem formed_of_run (ops : List ManagerOp) : (ops.foldl ManagerOp.run .new).Formed := by
  rw [ManagerOp.runs_eq]
  refine List.foldlRecOn _ _ ZoneManager.formed_new fun m hm l _ => ?_
  rw [ZoneManager.attempt]
  cases hread : l.read with
  | error e => exact hm
  | ok z => exact hm.install (readZone_soaTyped hread)

/-! What is sent of them. -/

/-- The first record of a list, if any, is a SOA record. -/
def StartsWithSoa (rs : List Record) : Prop := ∀ r ∈ rs.head?, r.rtype = .SOA

/-- The records in front of the next SOA record are determined. -/
theorem plain_append_inj {a b rs rs' : List Record} (ha : ∀ r ∈ a, r.rtype ≠ .SOA) (hb : ∀ r ∈ b, r.rtype ≠ .SOA)
    (hrs : StartsWithSoa rs) (hrs' : StartsWithSoa rs') (h : a ++ rs = b ++ rs') : a = b ∧ rs = rs' := by
  have htake : ∀ {c rest : List Record}, (∀ r ∈ c, r.rtype ≠ .SOA) → StartsWithSoa rest →
      (c ++ rest).takeWhile (fun r => r.rtype ≠ .SOA) = c := fun {c rest} hc hrest => by
    rw [List.takeWhile_append_of_pos fun r hr => decide_eq_true (hc r hr)]
    cases rest with
    | nil => exact List.append_nil c
    | cons r rest =>
      have hr : r.rtype = .SOA := hrest r rfl
      rw [List.takeWhile_cons_of_neg (by simp [hr]), List.append_nil]
  obtain rfl : a = b := by rw [← htake ha hrs, h, htake hb hrs']
  exact ⟨rfl, List.append_cancel_left h⟩

theorem startsWithSoa_records {ds : List ZoneDelta} (h : ∀ d ∈ ds, d.Formed) :
    StartsWithSoa (ds.flatMap ZoneDelta.records) := by
  cases ds with
  | nil => exact fun r hr => nomatch hr
  | cons d ds =>
    intro r hr
    obtain rfl : d.fromSoa = r := Option.some.inj hr
    exact (h d List.mem_cons_self).fromSoa

/-- The records that are sent of well-formed differences determine these. -/
theorem records_injective : ∀ {ds ds' : List ZoneDelta}, (∀ d ∈ ds, d.Formed) → (∀ d ∈ ds', d.Formed) →
    ds.flatMap ZoneDelta.records = ds'.flatMap ZoneDelta.records → ds = ds'
  | [], [], _, _, _ => rfl
  | [], _ :: _, _, _, h => by cases h
  | _ :: _, [], _, _, h => by cases h
  | d :: ds, d' :: ds', hf, hf', h => by
    have hd := hf d List.mem_cons_self
    have hd' := hf' d' List.mem_cons_self
    have hrest := startsWithSoa_records fun x hx => hf x (List.mem_cons_of_mem _ hx)
    have hrest' := startsWithSoa_records fun x hx => hf' x (List.mem_cons_of_mem _ hx)
    have hto : ∀ {x : ZoneDelta} {rs : List Record}, x.Formed → StartsWithSoa (x.toSoa :: rs) := fun hx r hr => by
      obtain rfl := Option.some.inj hr
      exact hx.toSoa
    -- SOA, removed records, SOA, added records, and the next difference
    rw [List.flatMap_cons, List.flatMap_cons, ZoneDelta.records, ZoneDelta.records, List.cons_append, List.cons_append,
      List.append_assoc, List.append_assoc, List.cons_append, List.cons_append] at h
    obtain ⟨hfromSoa, h⟩ := List.cons.inj h
    obtain ⟨hremoved, h⟩ := plain_append_inj hd.removed hd'.removed (hto hd) (hto hd') h
    obtain ⟨htoSoa, h⟩ := List.cons.inj h
    obtain ⟨hadded, h⟩ := plain_append_inj hd.added hd'.added hrest hrest' h
    have hfromSerial : d.fromSerial = d'.fromSerial :=
      Option.some.inj (hd.fromSerial.symm.trans ((congrArg (fun r => soaSerial r.rdata) hfromSoa).trans hd'.fromSerial))
    have htoSerial : d.toSerial = d'.toSerial :=
      Option.some.inj (hd.toSerial.symm.trans ((congrArg (fun r => soaSerial r.rdata) htoSoa).trans hd'.toSerial))
    rw [records_injective (fun x hx => hf x (List.mem_cons_of_mem _ hx)) (fun x hx => hf' x (List.mem_cons_of_mem _ hx)) h]
    obtain ⟨_, _, _, _, _, _⟩ := d
    obtain ⟨_, _, _, _, _, _⟩ := d'
    simp only at hfromSerial htoSerial hfromSoa htoSoa hremoved hadded
    rw [hfromSerial, htoSerial, hfromSoa, htoSoa, hremoved, hadded]

end Ironbind
