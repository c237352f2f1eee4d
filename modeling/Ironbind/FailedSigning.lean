import Ironbind.SignThenValidate

/- What a signing that fails leaves behind. `sign_zone` enters the DNSKEY records and the
   NSEC chain before it signs, and `load_zone` publishes whatever it left. So a zone is
   published as it was read only when the signing fails before the first record is
   entered; after that nothing may fail: a KSK that is not read, or cannot be published,
   and an RRset that a key does not sign leave a zone signed in part
   (`readZone_whole_iff`, `shortKeys_halfSigned`). -/
namespace Ironbind
open Codec

/-! What a load is to publish. -/

/-- A file is there: it is found, or it can be read. -/
def Files.Holds (files : Files) (path : Text) : Prop := files.present path = true ∨ (files.read path).isOk = true

section
variable (rsa : Rsa) (now : UInt32) (origin : Text)

/-- `s` is the RRSIG that the key, under its own tag, makes of an RRset. -/
def MadeBy (key : DnsKey) (rrset : List Record) (s : Record) : Prop :=
  ∃ tag, key.keyTag rsa = .ok tag ∧ (ZoneSigner.new now key none).signRrsetWithKey rsa key rrset origin tag = .ok s

/-- The key signs the RRset. -/
def CanSign (key : DnsKey) (rrset : List Record) : Prop := ∃ s, MadeBy rsa now origin key rrset s

/-- At the owner of the RRset stands an RRSIG of it by the key. -/
def SignedBy (key : DnsKey) (z : Zone) (k : RrsetKey) : Prop :=
  ∃ s ∈ z.recordsAt (k.1, RType.RRSIG.toU16), MadeBy rsa now origin key (z.recordsAt k) s

end

section
variable (rsa : Rsa) (files : Files) (now : UInt32) (keyDir : Text)

/-- Every RRset but the RRSIG sets has an RRSIG by the ZSK, and the DNSKEY set at the apex one by the KSK when its
    file is there. -/
def FullySigned (z : Zone) : Prop :=
  ∃ zsk ksk, signingKeys rsa files keyDir z.origin = .ok (zsk, ksk) ∧
    (∀ k, k.2 ≠ RType.RRSIG.toU16 → z.recordsAt k ≠ [] → SignedBy rsa now z.origin zsk z k) ∧
    (files.Holds (keyPath keyDir z.origin "ksk".toList) →
      ∃ key ∈ ksk, SignedBy rsa now z.origin key z (z.origin, RType.DNSKEY.toU16))

/-- `z'`, left of `z` by a signing with this result, is signed throughout or not at all. -/
def Whole (z : Zone) (result : Except String Nat) (z' : Zone) : Prop :=
  (result.isOk = true ∧ FullySigned rsa files now keyDir z') ∨ (z' = z ∧ z'.isSigned = false)

/-! When it does. -/

/-- The signing ends before a record is entered: there are DNSKEY records at the apex, or the ZSK is not read or has
    no DNSKEY data. -/
def EndsUntouched (z : Zone) : Prop :=
  (z.lookup z.origin .DNSKEY).isSome = true ∨
    ∀ zsk ksk, signingKeys rsa files keyDir z.origin = .ok (zsk, ksk) → (zsk.dnskeyRdata rsa).isOk = false

/-- The zone whose RRsets are signed: the DNSKEY records are entered, and the NSEC chain. -/
def preparedZone (z : Zone) (zsk : DnsKey) (ksk : Option DnsKey) : Zone :=
  let keyed := (publishKeys rsa z (soaTtl z) zsk ksk).1
  keyed.buildNsecChain (nsecTtl keyed)

/-- Nothing fails from the ZSK's publication on: the KSK is read if its file is there, and has DNSKEY data; the ZSK
    signs every RRset of the prepared zone, and the KSK its DNSKEY sets. -/
structure NothingFails (z : Zone) (zsk : DnsKey) (ksk : Option DnsKey) : Prop where
  read : signingKeys rsa files keyDir z.origin = .ok (zsk, ksk)
  kskRead : files.Holds (keyPath keyDir z.origin "ksk".toList) → ksk ≠ none
  published : ∀ key ∈ zsk :: ksk.toList, (key.dnskeyRdata rsa).isOk = true
  zskSigns : ∀ k, (preparedZone rsa z zsk ksk).recordsAt k ≠ [] →
    CanSign rsa now z.origin zsk ((preparedZone rsa z zsk ksk).recordsAt k)
  kskSigns : ∀ key ∈ ksk, ∀ k, k.2 = RType.DNSKEY.toU16 → (preparedZone rsa z zsk ksk).recordsAt k ≠ [] →
    CanSign rsa now z.origin key ((preparedZone rsa z zsk ksk).recordsAt k)

end

/-! One signature. -/

section
variable {rsa : Rsa} {now : UInt32} {origin : Text} {zsk key : DnsKey} {ksk : Option DnsKey} {rrset : List Record}
  {s : Record}

/-- Of its signer a signature has the times only. -/
theorem signRrsetWithKey_new (tag : UInt16) : (ZoneSigner.new now zsk ksk).signRrsetWithKey rsa key rrset origin tag =
    (ZoneSigner.new now key none).signRrsetWithKey rsa key rrset origin tag := rfl

theorem madeBy_iff {tag : UInt16} (htag : key.keyTag rsa = .ok tag) : MadeBy rsa now origin key rrset s ↔
    (ZoneSigner.new now zsk ksk).signRrsetWithKey rsa key rrset origin tag = .ok s := by
  rw [signRrsetWithKey_new, MadeBy]
  constructor
  · rintro ⟨tag', htag', h⟩
    obtain rfl := Except.ok.inj (htag.symm.trans htag')
    exact h
  · exact fun h => ⟨tag, htag, h⟩

/-- A signature lies at the owner of the first record. -/
theorem MadeBy.record (h : MadeBy rsa now origin key rrset s) :
    s.rtype = .RRSIG ∧ ∃ first rest, rrset = first :: rest ∧ s.name = first.name := by
  obtain ⟨tag, -, h⟩ := h
  cases rrset with
  | nil => cases h
  | cons first rest =>
    rw [ZoneSigner.signRrsetWithKey] at h
    cases hs : ZoneSigner.signData rsa key
        (buildSignedData ((ZoneSigner.new now key none).rrsigTemplate key first origin tag) (first :: rest)) with
    | error e => rw [hs] at h; cases h
    | ok signature =>
      rw [hs] at h
      cases h
      exact ⟨rfl, first, rest, rfl, rfl⟩

end

/-! All signatures. -/

section
variable {rsa : Rsa} {signer : ZoneSigner} {origin : Text} {zskTag : UInt16} {kskTag : Option UInt16}
  {rrset rrsigs : List Record} {failures : List String} {s : Record}

/-- One RRset gets the ZSK's signature, if it makes one, and those of the KSK. -/
theorem signOne_of_kskSigs {more : List Record} (h : kskSigs rsa signer origin kskTag rrset = .ok more) :
    ∃ failures, signOne rsa signer origin zskTag kskTag rrset =
      .ok ((signer.signRrset rsa rrset origin zskTag).toOption.toList ++ more, failures) := by
  rw [signOne, h]
  cases signer.signRrset rsa rrset origin zskTag with
  | ok rrsig => exact ⟨[], rfl⟩
  | error e => exact ⟨[e], rfl⟩

theorem signOne_of_error {e : String} (h : kskSigs rsa signer origin kskTag rrset = .error e) :
    signOne rsa signer origin zskTag kskTag rrset = .error e := by
  rw [signOne, h]
  rfl

/-- A signature of the RRset: the ZSK's or one of the KSK's. -/
def Makes (rsa : Rsa) (signer : ZoneSigner) (origin : Text) (zskTag : UInt16) (kskTag : Option UInt16)
    (rrset : List Record) (s : Record) : Prop :=
  signer.signRrset rsa rrset origin zskTag = .ok s ∨ ∃ more, kskSigs rsa signer origin kskTag rrset = .ok more ∧ s ∈ more

/-- Some key made it. -/
theorem Makes.made (h : Makes rsa signer origin zskTag kskTag rrset s) :
    ∃ key tag, signer.signRrsetWithKey rsa key rrset origin tag = .ok s := by
  rcases h with h | ⟨more, hmore, hs⟩
  · exact ⟨_, _, h⟩
  · unfold kskSigs at hmore
    split at hmore
    · split at hmore
      · next key tag hksk =>
        cases hsig : signer.signRrsetWithKey rsa key rrset origin tag with
        | error e => rw [hsig] at hmore; cases hmore
        | ok rrsig =>
          rw [hsig] at hmore
          cases hmore
          obtain rfl := List.mem_singleton.mp hs
          exact ⟨_, _, hsig⟩
      · cases hmore
        cases hs
    · cases hmore
      cases hs

/-- The loop ends well when the KSK signs wherever it is asked to, whatever the ZSK does, and what it returns is what
    was made. -/
theorem signEach_spec (rrsets : List (List Record)) :
    ((signEach rsa signer origin zskTag kskTag rrsets).isOk = true ↔
      ∀ rrset ∈ rrsets, (kskSigs rsa signer origin kskTag rrset).isOk = true) ∧
    ∀ rrsigs failures, signEach rsa signer origin zskTag kskTag rrsets = .ok (rrsigs, failures) →
      ∀ s, s ∈ rrsigs ↔ ∃ rrset ∈ rrsets, Makes rsa signer origin zskTag kskTag rrset s := by
  induction rrsets with
  | nil =>
    refine ⟨by simp [signEach, Except.isOk, Except.toBool], fun rrsigs failures h s => ?_⟩
    cases h
    simp
  | cons rrset rest ih =>
    obtain ⟨hok, hmade⟩ := ih
    -- the set counts by its KSK signatures alone, a ZSK that fails is a warning
    cases hk : kskSigs rsa signer origin kskTag rrset with
    | error e =>
      have heach : signEach rsa signer origin zskTag kskTag (rrset :: rest) = .error e := by
        rw [signEach, signOne_of_error hk]
        rfl
      rw [heach]
      refine ⟨iff_of_false (by simp [Except.isOk, Except.toBool]) fun h => ?_, fun _ _ h => by cases h⟩
      have := h rrset List.mem_cons_self
      rw [hk] at this
      cases this
    | ok more =>
      obtain ⟨failures, hone⟩ := @signOne_of_kskSigs rsa signer origin zskTag kskTag rrset more hk
      cases hrest : signEach rsa signer origin zskTag kskTag rest with
      | error e =>
        have heach : signEach rsa signer origin zskTag kskTag (rrset :: rest) = .error e := by
          rw [signEach, hone, hrest]
          rfl
        rw [heach]
        rw [hrest] at hok
        refine ⟨iff_of_false (by simp [Except.isOk, Except.toBool]) fun h => ?_, fun _ _ h => by cases h⟩
        exact absurd (hok.mpr fun r hr => h r (List.mem_cons_of_mem _ hr)) (by simp [Except.isOk, Except.toBool])
      | ok made =>
        obtain ⟨moreSigs, moreFailures⟩ := made
        have heach : signEach rsa signer origin zskTag kskTag (rrset :: rest) =
            .ok ((signer.signRrset rsa rrset origin zskTag).toOption.toList ++ more ++ moreSigs,
              failures ++ moreFailures) := by
          rw [signEach, hone, hrest]
          rfl
        rw [heach]
        rw [hrest] at hok
        refine ⟨iff_of_true rfl (List.forall_mem_cons.mpr ⟨by rw [hk]; rfl, hok.mp rfl⟩), fun rrsigs fs h s => ?_⟩
        cases h
        have hzsk : s ∈ (signer.signRrset rsa rrset origin zskTag).toOption.toList ↔
            signer.signRrset rsa rrset origin zskTag = .ok s := by
          cases signer.signRrset rsa rrset origin zskTag with
          | ok rrsig => simp [Except.toOption, eq_comm]
          | error e => simp [Except.toOption]
        rw [List.mem_append, List.mem_append, hzsk, hmade _ _ hrest s, List.exists_mem_cons_iff, Makes]
        simp only [hk, Except.ok.injEq, exists_eq_left']

end

/-! The keys. -/

section
variable {rsa : Rsa} {z : Zone} {ttl : UInt32} {zsk key : DnsKey} {ksk : Option DnsKey}

theorem dnskeyRecord_isOk : (key.dnskeyRecord rsa ttl).isOk = (key.dnskeyRdata rsa).isOk := by
  rw [DnsKey.dnskeyRecord]
  cases key.dnskeyRdata rsa <;> rfl

theorem keyTag_isOk : (key.keyTag rsa).isOk = (key.dnskeyRdata rsa).isOk := by
  rw [DnsKey.keyTag]
  cases key.dnskeyRdata rsa <;> rfl

/-- With DNSKEY data the ZSK's record is entered, whatever becomes of the KSK's. -/
theorem publishKeys_adds (h : (zsk.dnskeyRdata rsa).isOk = true) : ∃ keys ≠ [],
    (publishKeys rsa z ttl zsk ksk).1 = keys.foldl Zone.add z ∧
      ∀ r ∈ keys, r.rtype = .DNSKEY ∧ ∃ key ∈ zsk :: ksk.toList, r.name = key.keyName := by
  rw [← @dnskeyRecord_isOk rsa ttl zsk] at h
  rw [publishKeys]
  cases hz : zsk.dnskeyRecord rsa ttl with
  | error e => rw [hz] at h; cases h
  | ok zskRec =>
    obtain ⟨-, hname, htype⟩ := dnskeyRecord_ok hz
    have hfirst : ∀ r ∈ [zskRec], r.rtype = .DNSKEY ∧ ∃ key ∈ zsk :: ksk.toList, r.name = key.keyName :=
      List.forall_mem_singleton.mpr ⟨htype, zsk, List.mem_cons_self, hname⟩
    cases ksk with
    | none => exact ⟨[zskRec], List.cons_ne_nil _ _, rfl, hfirst⟩
    | some key =>
      cases hk : key.dnskeyRecord rsa ttl with
      | error e => exact ⟨[zskRec], List.cons_ne_nil _ _, by simp [hk], hfirst⟩
      | ok kskRec =>
        obtain ⟨-, hkname, hktype⟩ := dnskeyRecord_ok hk
        refine ⟨[zskRec, kskRec], List.cons_ne_nil _ _, by simp [hk], List.forall_mem_cons.mpr ⟨hfirst _ ?_, ?_⟩⟩
        · exact List.mem_singleton.mpr rfl
        · exact List.forall_mem_singleton.mpr ⟨hktype, key, by simp, hkname⟩

/-- All keys are published when all have DNSKEY data, and then the KSK has its tag. -/
theorem publishKeys_result : (∃ e, (publishKeys rsa z ttl zsk ksk).2 = .error e ∧
      ∃ key ∈ zsk :: ksk.toList, (key.dnskeyRdata rsa).isOk = false) ∨
    ∃ kskTag, (publishKeys rsa z ttl zsk ksk).2 = .ok kskTag ∧
      (∀ key ∈ zsk :: ksk.toList, (key.dnskeyRdata rsa).isOk = true) ∧
      (ksk = none ∧ kskTag = none ∨ ∃ key tag, ksk = some key ∧ key.keyTag rsa = .ok tag ∧ kskTag = some tag) := by
  rw [publishKeys]
  -- a DNSKEY record is refused with the key's data, and then nothing has a tag
  cases hz : zsk.dnskeyRecord rsa ttl with
  | error e =>
    refine .inl ⟨e, rfl, zsk, List.mem_cons_self, ?_⟩
    rw [← @dnskeyRecord_isOk rsa ttl zsk, hz]
    rfl
  | ok zskRec =>
    have hzsk : (zsk.dnskeyRdata rsa).isOk = true := by rw [← @dnskeyRecord_isOk rsa ttl zsk, hz]; rfl
    cases ksk with
    | none => exact .inr ⟨none, rfl, List.forall_mem_singleton.mpr hzsk, .inl ⟨rfl, rfl⟩⟩
    | some key =>
      cases hk : key.dnskeyRecord rsa ttl with
      | error e =>
        refine .inl ⟨e, by simp only [hk], key, by simp, ?_⟩
        rw [← @dnskeyRecord_isOk rsa ttl key, hk]
        rfl
      | ok kskRec =>
        have hksk : (key.dnskeyRdata rsa).isOk = true := by rw [← @dnskeyRecord_isOk rsa ttl key, hk]; rfl
        cases ht : key.keyTag rsa with
        | error e => rw [← keyTag_isOk, ht] at hksk; cases hksk
        | ok tag =>
          refine .inr ⟨some tag, by simp only [hk]; rw [ht]; rfl, ?_, .inr ⟨key, tag, rfl, ht, rfl⟩⟩
          exact List.forall_mem_cons.mpr ⟨hzsk, List.forall_mem_singleton.mpr hksk⟩

end

/-! The zone it leaves. -/

section
variable {rsa : Rsa} {files : Files} {now : UInt32} {ho : HashOrder} {keyDir : Text} {z : Zone} {zsk : DnsKey}
  {ksk : Option DnsKey}

theorem signingKeys_names (h : signingKeys rsa files keyDir z.origin = .ok (zsk, ksk)) :
    ∀ key ∈ zsk :: ksk.toList, key.keyName = z.origin := by
  obtain ⟨-, hname, hksk⟩ := signingKeys_ok h
  exact List.forall_mem_cons.mpr ⟨hname, fun key hk => hksk key (Option.mem_toList.mp hk)⟩

variable (hz : z.Loaded) (hread : signingKeys rsa files keyDir z.origin = .ok (zsk, ksk))
  (hrdata : (zsk.dnskeyRdata rsa).isOk = true)
include hz hread hrdata

/-- With the keys, the zone has a DNSKEY set at the apex; nothing else is added. -/
theorem keyed_spec : (publishKeys rsa z (soaTtl z) zsk ksk).1.WF ∧ ∃ keys ≠ [], (∀ r ∈ keys, r.rtype = .DNSKEY) ∧
    ∀ k, (publishKeys rsa z (soaTtl z) zsk ksk).1.recordsAt k =
      z.recordsAt k ++ if k = (z.origin, RType.DNSKEY.toU16) then keys else [] := by
  obtain ⟨keys, hne, hkeyed, hkeys⟩ := @publishKeys_adds rsa z (soaTtl z) zsk ksk hrdata
  have hat : ∀ r ∈ keys, Zone.recordKey r = (z.origin, RType.DNSKEY.toU16) := by
    intro r hr
    obtain ⟨htype, key, hkey, hname⟩ := hkeys r hr
    rw [Zone.recordKey, htype, hname, signingKeys_names hread key hkey, hz.origin]
  rw [hkeyed]
  refine ⟨hz.wf.foldl_add keys, keys, hne, fun r hr => (hkeys r hr).1, fun k => ?_⟩
  rw [Zone.recordsAt_foldl_add]
  by_cases hk : k = (z.origin, RType.DNSKEY.toU16)
  · rw [if_pos hk, List.filter_eq_self.mpr fun r hr => by rw [hat r hr, hk]; simp]
  · rw [if_neg hk, List.filter_eq_nil_iff.mpr fun r hr => by rw [hat r hr]; simpa using Ne.symm hk]

theorem prepared_wf : (preparedZone rsa z zsk ksk).WF := (keyed_spec hz hread hrdata).1.wf_buildNsecChain _

theorem prepared_dnskey : (preparedZone rsa z zsk ksk).recordsAt (z.origin, RType.DNSKEY.toU16) ≠ [] := by
  obtain ⟨hwf, keys, hne, -, hat⟩ := keyed_spec hz hread hrdata
  rw [preparedZone, hwf.recordsAt_buildNsecChain _ (by decide : RType.DNSKEY.toU16 ≠ RType.NSEC.toU16), hat, if_pos rfl]
  exact List.append_ne_nil_of_right_ne_nil _ hne

/-- There are no signatures yet. -/
theorem prepared_rrsig (n : Text) : (preparedZone rsa z zsk ksk).recordsAt (n, RType.RRSIG.toU16) = [] := by
  obtain ⟨hwf, keys, -, -, hat⟩ := keyed_spec hz hread hrdata
  rw [preparedZone, hwf.recordsAt_buildNsecChain _ (by decide : RType.RRSIG.toU16 ≠ RType.NSEC.toU16), hat,
    hz.recordsAt_eq_nil (by decide), if_neg, List.nil_append]
  exact fun h => absurd (congrArg Prod.snd h) (show RType.RRSIG.toU16 ≠ RType.DNSKEY.toU16 by decide)

/-- What stands under the number of the type is of the type. -/
theorem prepared_rtype {k : RrsetKey} {r : Record} (hk : k.2 = RType.DNSKEY.toU16)
    (hr : r ∈ (preparedZone rsa z zsk ksk).recordsAt k) : r.rtype = .DNSKEY := by
  obtain ⟨hwf, keys, -, htype, hat⟩ := keyed_spec hz hread hrdata
  rw [preparedZone, hwf.recordsAt_buildNsecChain _ (by rw [hk]; decide), hat] at hr
  rcases List.mem_append.mp hr with hr | hr
  · have hfile := hz.records k _ (hz.wf.lookup_iff.mpr ⟨rfl, List.ne_nil_of_mem hr⟩) r hr
    have hcode : r.rtype.toU16 = RType.DNSKEY.toU16 := (congrArg Prod.snd (hz.wf.recordKey_eq hr)).trans hk
    have hall : ∀ t ∈ fileTypes, t.toU16 = RType.DNSKEY.toU16 → t = .DNSKEY := by decide
    exact hall r.rtype hfile.rtype hcode
  · split at hr
    · exact htype r hr
    · cases hr

theorem prepared_origin : (preparedZone rsa z zsk ksk).origin = z.origin := by
  obtain ⟨keys, -, hkeyed, -⟩ := @publishKeys_adds rsa z (soaTtl z) zsk ksk hrdata
  rw [preparedZone, (keyed_spec hz hread hrdata).1.origin_buildNsecChain, hkeyed, Zone.origin_foldl_add]

end

/-- How a signing ends that has a ZSK to publish: when the KSK is not published or fails to sign, with an error and an
    unsigned zone; else with what the keys made. -/
inductive Ending (rsa : Rsa) (now : UInt32) (ho : HashOrder) (z : Zone) (zsk : DnsKey) (ksk : Option DnsKey)
    (signing : Signing) : Prop
  | unpublished (key : DnsKey) (hkey : key ∈ zsk :: ksk.toList) (hrdata : (key.dnskeyRdata rsa).isOk = false)
      (hresult : signing.result.isOk = false) (hzone : signing.zone = (publishKeys rsa z (soaTtl z) zsk ksk).1)
  | unsigned (kskTag : Option UInt16) (rrset : List Record)
      (hrrset : rrset ∈ (preparedZone rsa z zsk ksk).iterRrsets ho)
      (htags : ksk = none ∧ kskTag = none ∨ ∃ key tag, ksk = some key ∧ key.keyTag rsa = .ok tag ∧ kskTag = some tag)
      (hfails : (kskSigs rsa (.new now zsk ksk) z.origin kskTag rrset).isOk = false)
      (hresult : signing.result.isOk = false) (hzone : signing.zone = preparedZone rsa z zsk ksk)
  | signed (zskTag : UInt16) (kskTag : Option UInt16) (rrsigs : List Record)
      (hzskTag : zsk.keyTag rsa = .ok zskTag)
      (htags : ksk = none ∧ kskTag = none ∨ ∃ key tag, ksk = some key ∧ key.keyTag rsa = .ok tag ∧ kskTag = some tag)
      (hrdata : ∀ key ∈ zsk :: ksk.toList, (key.dnskeyRdata rsa).isOk = true)
      (hksk : ∀ rrset ∈ (preparedZone rsa z zsk ksk).iterRrsets ho,
        (kskSigs rsa (.new now zsk ksk) z.origin kskTag rrset).isOk = true)
      (hrrsigs : ∀ s, s ∈ rrsigs ↔ ∃ rrset ∈ (preparedZone rsa z zsk ksk).iterRrsets ho,
        Makes rsa (.new now zsk ksk) z.origin zskTag kskTag rrset s)
      (hresult : signing.result.isOk = true) (hzone : signing.zone = rrsigs.foldl Zone.add (preparedZone rsa z zsk ksk))

theorem signZone_ending {rsa : Rsa} {files : Files} {now : UInt32} {ho : HashOrder} {keyDir : Text} {z : Zone}
    {zsk : DnsKey} {ksk : Option DnsKey} (hnone : z.lookup z.origin .DNSKEY = none)
    (hread : signingKeys rsa files keyDir z.origin = .ok (zsk, ksk)) (hrdata : (zsk.dnskeyRdata rsa).isOk = true) :
    Ending rsa now ho z zsk ksk (signZone rsa files now ho z keyDir) := by
  have hnot : ¬ (z.lookup z.origin .DNSKEY).isSome := by rw [hnone]; simp
  rw [← keyTag_isOk] at hrdata
  cases ht : zsk.keyTag rsa with
  | error e => rw [ht] at hrdata; cases hrdata
  | ok zskTag =>
    rcases @publishKeys_result rsa z (soaTtl z) zsk ksk with ⟨e, herror, key, hkey, hdata⟩ | ⟨kskTag, hok, hall, htags⟩
    · -- the KSK's record is refused, the ZSK's is in the zone
      have hpublish : publishKeys rsa z (soaTtl z) zsk ksk = ((publishKeys rsa z (soaTtl z) zsk ksk).1, .error e) :=
        Prod.ext rfl herror
      have hsign : signZone rsa files now ho z keyDir = ⟨(publishKeys rsa z (soaTtl z) zsk ksk).1, .error e, []⟩ := by
        rw [signZone, if_neg hnot, hread]
        simp only [ht]
        rw [hpublish]
      exact .unpublished key hkey hdata (by rw [hsign]; rfl) (by rw [hsign])
    · have hpublish : publishKeys rsa z (soaTtl z) zsk ksk = ((publishKeys rsa z (soaTtl z) zsk ksk).1, .ok kskTag) :=
        Prod.ext rfl hok
      obtain ⟨hiff, hmade⟩ := @signEach_spec rsa (.new now zsk ksk) z.origin zskTag kskTag
        ((preparedZone rsa z zsk ksk).iterRrsets ho)
      cases heach : signEach rsa (.new now zsk ksk) z.origin zskTag kskTag
          ((preparedZone rsa z zsk ksk).iterRrsets ho) with
      | error e =>
        -- no signature is entered, but keys and denial records are
        rw [heach] at hiff
        have hsign : signZone rsa files now ho z keyDir = ⟨preparedZone rsa z zsk ksk, .error e, []⟩ := by
          rw [preparedZone] at heach ⊢
          rw [signZone, if_neg hnot, hread]
          simp only [ht]
          rw [hpublish]
          simp only [heach]
        have hfails : ¬ ∀ rrset ∈ (preparedZone rsa z zsk ksk).iterRrsets ho,
            (kskSigs rsa (.new now zsk ksk) z.origin kskTag rrset).isOk = true :=
          fun h => absurd (hiff.mpr h) (by simp [Except.isOk, Except.toBool])
        push Not at hfails
        obtain ⟨rrset, hrrset, hfails⟩ := hfails
        exact .unsigned kskTag rrset hrrset htags (Bool.eq_false_iff.mpr hfails) (by rw [hsign]; rfl) (by rw [hsign])
      | ok made =>
        obtain ⟨rrsigs, failures⟩ := made
        rw [heach] at hiff
        have hsign : signZone rsa files now ho z keyDir =
            ⟨rrsigs.foldl Zone.add (preparedZone rsa z zsk ksk), .ok rrsigs.length, failures⟩ := by
          rw [preparedZone] at heach ⊢
          rw [signZone, if_neg hnot, hread]
          simp only [ht]
          rw [hpublish]
          simp only [heach]
        exact .signed zskTag kskTag rrsigs ht htags hall (hiff.mp rfl) (hmade rrsigs failures heach) (by rw [hsign]; rfl)
          (by rw [hsign])

/-! Whole zones. -/

section
variable {rsa : Rsa} {files : Files} {now : UInt32} {ho : HashOrder} {keyDir : Text} {z : Zone} {zsk : DnsKey}
  {ksk : Option DnsKey}

/-- A zone with DNSKEY records at the apex is not the one that was read. -/
theorem ne_of_dnskey {z' : Zone} (hz : z.Loaded) (hnone : z.lookup z.origin .DNSKEY = none)
    (h : z'.recordsAt (z.origin, RType.DNSKEY.toU16) ≠ []) : z' ≠ z := by
  rintro rfl
  apply h
  rw [Zone.lookup, hz.origin] at hnone
  rw [Zone.recordsAt, hnone]
  rfl

/-- RRSIGs change no other set. -/
theorem recordsAt_rrsigs {rrsigs : List Record} (hrrsigs : ∀ s ∈ rrsigs, s.rtype = .RRSIG) {k : RrsetKey}
    (hk : k.2 ≠ RType.RRSIG.toU16) : (rrsigs.foldl Zone.add z).recordsAt k = z.recordsAt k := by
  rw [Zone.recordsAt_foldl_add, List.filter_eq_nil_iff.mpr, List.append_nil]
  intro s hs
  rw [decide_eq_true_eq, Zone.recordKey, hrrsigs s hs]
  exact fun h => hk (congrArg Prod.snd h).symm

theorem mem_iterRrsets_iff (hwf : z.WF) {rrset : List Record} :
    rrset ∈ z.iterRrsets ho ↔ rrset ≠ [] ∧ ∃ k, z.recordsAt k = rrset := by
  rw [Zone.iterRrsets, List.mem_map]
  constructor
  · rintro ⟨⟨k, rs⟩, he, rfl⟩
    rw [(ho.perm _).mem_iff] at he
    obtain ⟨hat, hne⟩ := hwf.lookup_iff.mp (AList.mem_lookup_iff.mpr he)
    exact ⟨hne, k, hat⟩
  · rintro ⟨hne, k, rfl⟩
    refine ⟨⟨k, z.recordsAt k⟩, ?_, rfl⟩
    rw [(ho.perm _).mem_iff]
    exact AList.mem_lookup_iff.mp (hwf.lookup_iff.mpr ⟨rfl, hne⟩)

variable (hz : z.Loaded) (hread : signingKeys rsa files keyDir z.origin = .ok (zsk, ksk))
  (hrdata : (zsk.dnskeyRdata rsa).isOk = true)
include hz hread hrdata

/-- The KSK signs the DNSKEY sets. -/
theorem kskSigs_prepared {k : RrsetKey} (hne : (preparedZone rsa z zsk ksk).recordsAt k ≠ []) {kskTag : Option UInt16}
    (htags : ksk = none ∧ kskTag = none ∨ ∃ key tag, ksk = some key ∧ key.keyTag rsa = .ok tag ∧ kskTag = some tag) :
    ((kskSigs rsa (.new now zsk ksk) z.origin kskTag ((preparedZone rsa z zsk ksk).recordsAt k)).isOk = true ↔
      ∀ key ∈ ksk, k.2 = RType.DNSKEY.toU16 →
        CanSign rsa now z.origin key ((preparedZone rsa z zsk ksk).recordsAt k)) ∧
    ∀ more, kskSigs rsa (.new now zsk ksk) z.origin kskTag ((preparedZone rsa z zsk ksk).recordsAt k) = .ok more →
      ∀ s, s ∈ more ↔ k.2 = RType.DNSKEY.toU16 ∧
        ∃ key ∈ ksk, MadeBy rsa now z.origin key ((preparedZone rsa z zsk ksk).recordsAt k) s := by
  have hwf := prepared_wf hz hread hrdata
  obtain ⟨first, rest, hat⟩ := List.exists_cons_of_ne_nil hne
  have hmem : first ∈ (preparedZone rsa z zsk ksk).recordsAt k := by rw [hat]; exact List.mem_cons_self
  have hcode : first.rtype.toU16 = k.2 := congrArg Prod.snd (hwf.recordKey_eq hmem)
  -- the signer asks for the type of the first record
  have htype : ((first :: rest).head?.map (·.rtype) = some .DNSKEY) ↔ k.2 = RType.DNSKEY.toU16 := by
    rw [List.head?_cons, Option.map_some, Option.some.injEq]
    exact ⟨fun h => by rw [← hcode, h], fun h => prepared_rtype hz hread hrdata h hmem⟩
  rw [hat]
  by_cases hk : k.2 = RType.DNSKEY.toU16
  · rcases htags with ⟨rfl, rfl⟩ | ⟨key, tag, rfl, htag, rfl⟩
    · have hsigs : kskSigs rsa (.new now zsk none) z.origin none (first :: rest) = .ok [] := by
        unfold kskSigs
        rw [if_pos (htype.mpr hk)]
        rfl
      simp [hsigs, Except.isOk, Except.toBool]
    · have hsigs : kskSigs rsa (.new now zsk (some key)) z.origin (some tag) (first :: rest) =
          ((ZoneSigner.new now zsk (some key)).signRrsetWithKey rsa key (first :: rest) z.origin tag).map
            fun s => [s] := by
        unfold kskSigs
        rw [if_pos (htype.mpr hk)]
        rfl
      have hmade : ∀ s, MadeBy rsa now z.origin key (first :: rest) s ↔
          (ZoneSigner.new now zsk (some key)).signRrsetWithKey rsa key (first :: rest) z.origin tag = .ok s :=
        fun s => madeBy_iff htag
      simp only [hsigs, CanSign, hmade, Option.mem_some_iff, forall_eq', exists_eq_left', hk, true_and, forall_const]
      cases (ZoneSigner.new now zsk (some key)).signRrsetWithKey rsa key (first :: rest) z.origin tag with
      | error e => simp [Except.map, Except.isOk, Except.toBool]
      | ok s => simp [Except.map, Except.isOk, Except.toBool, eq_comm]
  · have hsigs : kskSigs rsa (.new now zsk ksk) z.origin kskTag (first :: rest) = .ok [] := by
      unfold kskSigs
      rw [if_neg (mt htype.mp hk)]
    simp [hsigs, hk, Except.isOk, Except.toBool]

omit hz hrdata in
theorem signingKeys_unique {zsk' : DnsKey} {ksk' : Option DnsKey}
    (h : signingKeys rsa files keyDir z.origin = .ok (zsk', ksk')) : zsk' = zsk ∧ ksk' = ksk := by
  obtain ⟨rfl, rfl⟩ := Prod.mk.inj (Except.ok.inj (h.symm.trans hread))
  exact ⟨rfl, rfl⟩

/-- A signature that is entered stands at the owner of its set. -/
theorem mem_rrsigs {k : RrsetKey} {key : DnsKey} {rrsigs : List Record} {s : Record}
    (hmade : MadeBy rsa now z.origin key ((preparedZone rsa z zsk ksk).recordsAt k) s) (hs : s ∈ rrsigs) :
    s ∈ (rrsigs.foldl Zone.add (preparedZone rsa z zsk ksk)).recordsAt (k.1, RType.RRSIG.toU16) := by
  obtain ⟨htype, first, rest, hat, hname⟩ := hmade.record
  have hkey : Zone.recordKey first = k :=
    (prepared_wf hz hread hrdata).recordKey_eq (by rw [hat]; exact List.mem_cons_self)
  rw [Zone.recordsAt_foldl_add]
  refine List.mem_append_right _ (List.mem_filter.mpr ⟨hs, ?_⟩)
  rw [decide_eq_true_eq, Zone.recordKey, htype, hname, ← hkey, Zone.recordKey]

/-- Where the signatures are entered, every set is signed exactly when nothing failed. -/
theorem signed_whole_iff {zskTag : UInt16} {kskTag : Option UInt16} {rrsigs : List Record}
    (hzskTag : zsk.keyTag rsa = .ok zskTag)
    (htags : ksk = none ∧ kskTag = none ∨ ∃ key tag, ksk = some key ∧ key.keyTag rsa = .ok tag ∧ kskTag = some tag)
    (hall : ∀ key ∈ zsk :: ksk.toList, (key.dnskeyRdata rsa).isOk = true)
    (hksk : ∀ rrset ∈ (preparedZone rsa z zsk ksk).iterRrsets ho,
      (kskSigs rsa (.new now zsk ksk) z.origin kskTag rrset).isOk = true)
    (hrrsigs : ∀ s, s ∈ rrsigs ↔ ∃ rrset ∈ (preparedZone rsa z zsk ksk).iterRrsets ho,
      Makes rsa (.new now zsk ksk) z.origin zskTag kskTag rrset s) :
    FullySigned rsa files now keyDir (rrsigs.foldl Zone.add (preparedZone rsa z zsk ksk)) ↔
      NothingFails rsa files now keyDir z zsk ksk := by
  have hwf := prepared_wf hz hread hrdata
  have horigin : (rrsigs.foldl Zone.add (preparedZone rsa z zsk ksk)).origin = z.origin :=
    (Zone.origin_foldl_add _ _).trans (prepared_origin hz hread hrdata)
  have hset : ∀ k, (preparedZone rsa z zsk ksk).recordsAt k ≠ [] →
      (preparedZone rsa z zsk ksk).recordsAt k ∈ (preparedZone rsa z zsk ksk).iterRrsets ho :=
    fun k hne => (mem_iterRrsets_iff hwf).mpr ⟨hne, k, rfl⟩
  have htype : ∀ s ∈ rrsigs, s.rtype = .RRSIG := by
    intro s hs
    obtain ⟨rrset, hrrset, hmakes⟩ := (hrrsigs s).mp hs
    obtain ⟨hne, k, rfl⟩ := (mem_iterRrsets_iff hwf).mp hrrset
    rcases hmakes with hzsk | ⟨more, hmore, hmem⟩
    · exact ((madeBy_iff hzskTag).mpr hzsk).record.1
    · obtain ⟨-, key, -, hmade⟩ := ((kskSigs_prepared hz hread hrdata hne htags).2 more hmore s).mp hmem
      exact hmade.record.1
  -- so every other set is the one that was signed
  have hat : ∀ k, k.2 ≠ RType.RRSIG.toU16 →
      (rrsigs.foldl Zone.add (preparedZone rsa z zsk ksk)).recordsAt k = (preparedZone rsa z zsk ksk).recordsAt k :=
    fun k hk => recordsAt_rrsigs htype hk
  constructor
  · rintro ⟨zsk', ksk', hread', hzsk, hkskSigned⟩
    rw [horigin] at hread' hzsk hkskSigned
    -- a signature that is there was made, and of an RRSIG set there was none to sign
    obtain ⟨rfl, rfl⟩ := signingKeys_unique hread hread'
    refine ⟨hread', fun hfile => ?_, hall, fun k hne => ?_, fun key hkey k hk hne => ?_⟩
    · obtain ⟨key, hkey, -⟩ := hkskSigned hfile
      exact Option.ne_none_iff_exists'.mpr ⟨key, hkey⟩
    · have hk : k.2 ≠ RType.RRSIG.toU16 := fun hk => hne (by
        rw [show k = (k.1, RType.RRSIG.toU16) from Prod.ext rfl hk]
        exact prepared_rrsig hz hread hrdata k.1)
      obtain ⟨s, -, hmade⟩ := hzsk k hk (by rw [hat k hk]; exact hne)
      rw [hat k hk] at hmade
      exact ⟨s, hmade⟩
    · exact (kskSigs_prepared hz hread hrdata hne htags).1.mp (hksk _ (hset k hne)) key hkey hk
  · intro h
    refine ⟨zsk, ksk, by rw [horigin]; exact hread, fun k hk hne => ?_, fun hfile => ?_⟩
    · rw [hat k hk] at hne
      obtain ⟨s, hmade⟩ := h.zskSigns k hne
      have hs : s ∈ rrsigs := (hrrsigs s).mpr ⟨_, hset k hne, .inl ((madeBy_iff hzskTag).mp hmade)⟩
      refine ⟨s, mem_rrsigs hz hread hrdata hmade hs, ?_⟩
      rw [horigin, hat k hk]
      exact hmade
    · rw [horigin] at hfile ⊢
      obtain ⟨key, hkey⟩ := Option.ne_none_iff_exists'.mp (h.kskRead hfile)
      have hne := prepared_dnskey hz hread hrdata
      obtain ⟨s, hmade⟩ := h.kskSigns key hkey (z.origin, RType.DNSKEY.toU16) rfl hne
      have hok := hksk _ (hset _ hne)
      cases hmore : kskSigs rsa (.new now zsk ksk) z.origin kskTag
          ((preparedZone rsa z zsk ksk).recordsAt (z.origin, RType.DNSKEY.toU16)) with
      | error e => rw [hmore] at hok; cases hok
      | ok more =>
        have hmem : s ∈ more :=
          ((kskSigs_prepared hz hread hrdata hne htags).2 more hmore s).mpr ⟨rfl, key, hkey, hmade⟩
        have hs : s ∈ rrsigs := (hrrsigs s).mpr ⟨_, hset _ hne, .inr ⟨more, hmore, hmem⟩⟩
        refine ⟨key, hkey, s, mem_rrsigs hz hread hrdata hmade hs, ?_⟩
        rw [hat _ (by decide : RType.DNSKEY.toU16 ≠ RType.RRSIG.toU16)]
        exact hmade

end

/-- A signing that ends before a record is entered leaves the zone. -/
theorem signZone_untouched {rsa : Rsa} {files : Files} {now : UInt32} {ho : HashOrder} {keyDir : Text} {z : Zone}
    (h : EndsUntouched rsa files keyDir z) : (signZone rsa files now ho z keyDir).zone = z := by
  rw [signZone]
  split
  · rfl
  · next hnone =>
    cases hread : signingKeys rsa files keyDir z.origin with
    | error e => rfl
    | ok keys =>
      obtain ⟨zsk, ksk⟩ := keys
      have hrdata := h.resolve_left hnone zsk ksk hread
      rw [← keyTag_isOk] at hrdata
      cases ht : zsk.keyTag rsa with
      | error e => simp only [ht]
      | ok tag => rw [ht] at hrdata; cases hrdata

/-- **Nothing in between.** A signing leaves a zone that is signed throughout or untouched exactly when it ends before
    a record is entered or nothing fails. -/
theorem signing_whole_iff {rsa : Rsa} {files : Files} {now : UInt32} {ho : HashOrder} {keyDir : Text} {z : Zone}
    (hz : z.Loaded) : Whole rsa files now keyDir z (signZone rsa files now ho z keyDir).result
        (signZone rsa files now ho z keyDir).zone ↔
      EndsUntouched rsa files keyDir z ∨ ∃ zsk ksk, NothingFails rsa files now keyDir z zsk ksk := by
  by_cases hends : EndsUntouched rsa files keyDir z
  · have hzone : (signZone rsa files now ho z keyDir).zone = z := signZone_untouched hends
    refine iff_of_true (.inr ⟨hzone, ?_⟩) (.inl hends)
    rw [hzone, Zone.isSigned, hz.unsigned]
    rfl
  · have hboth := hends
    rw [EndsUntouched, not_or] at hboth
    obtain ⟨hnone, hstarts⟩ := hboth
    push Not at hstarts
    obtain ⟨zsk, ksk, hread, hrdata⟩ := hstarts
    have hnone : z.lookup z.origin .DNSKEY = none := by simpa using hnone
    have hrdata : (zsk.dnskeyRdata rsa).isOk = true := by simpa using hrdata
    have hnothing : (EndsUntouched rsa files keyDir z ∨ ∃ zsk ksk, NothingFails rsa files now keyDir z zsk ksk) ↔
        NothingFails rsa files now keyDir z zsk ksk := by
      rw [or_iff_right hends]
      constructor
      · rintro ⟨zsk', ksk', h⟩
        obtain ⟨rfl, rfl⟩ := signingKeys_unique hread h.read
        exact h
      · exact fun h => ⟨zsk, ksk, h⟩
    rw [hnothing, Whole]
    cases @signZone_ending rsa files now ho keyDir z zsk ksk hnone hread hrdata with
    -- both failures leave DNSKEY records in the zone, and count as neither outcome
    | unpublished key hkey hfails hresult hzone =>
      have hne : (signZone rsa files now ho z keyDir).zone ≠ z := by
        obtain ⟨-, keys, hkeys, -, hat⟩ := keyed_spec hz hread hrdata
        refine ne_of_dnskey hz hnone ?_
        rw [hzone, hat, if_pos rfl]
        exact List.append_ne_nil_of_right_ne_nil _ hkeys
      refine iff_of_false ?_ fun h => ?_
      · rintro (⟨hok, -⟩ | ⟨heq, -⟩)
        · rw [hresult] at hok; cases hok
        · exact hne heq
      · rw [h.published key hkey] at hfails
        cases hfails
    | unsigned kskTag rrset hrrset htags hfails hresult hzone =>
      have hne : (signZone rsa files now ho z keyDir).zone ≠ z :=
        ne_of_dnskey hz hnone (by rw [hzone]; exact prepared_dnskey hz hread hrdata)
      refine iff_of_false ?_ fun h => ?_
      · rintro (⟨hok, -⟩ | ⟨heq, -⟩)
        · rw [hresult] at hok; cases hok
        · exact hne heq
      · obtain ⟨hset, k, rfl⟩ := (mem_iterRrsets_iff (prepared_wf hz hread hrdata)).mp hrrset
        rw [(kskSigs_prepared hz hread hrdata hset htags).1.mpr
          fun key hkey hk => h.kskSigns key hkey k hk hset] at hfails
        cases hfails
    | signed zskTag kskTag rrsigs hzskTag htags hall hksk hrrsigs hresult hzone =>
      rw [hresult, hzone, eq_self_iff_true, true_and, signed_whole_iff hz hread hrdata hzskTag htags hall hksk hrrsigs]
      refine or_iff_left fun huntouched => ne_of_dnskey hz hnone ?_ huntouched.1
      rw [Zone.recordsAt_foldl_add]
      exact List.append_ne_nil_of_left_ne_nil (prepared_dnskey hz hread hrdata) _

/-- What a load publishes. -/
theorem readZone_eq {env : LoadEnv} {origin path content : Text} {z : Zone}
    (hcontent : env.files.read path = .ok content) (hload : (Zone.new origin).loadFile content = .ok z) :
    ZoneManager.readZone env origin path =
      .ok (if env.files.present (keyPath KEY_DIRECTORY z.origin "zsk".toList) then
        (signZone env.rsa env.files env.now env.signOrder z KEY_DIRECTORY).zone else z) := by
  rw [ZoneManager.readZone, hcontent, Except.mapError]
  simp only [bind, Except.bind, hload, Except.mapError]
  split <;> rfl

/-- **Half-signed zones are published.** For every file that is read and every behaviour of the keys' files and of the
    RSA crate: the zone that a load publishes is signed throughout by a signing that returns a count, or is
    the file's, exactly when there is no ZSK file, the signing ends before a record is entered, or nothing fails. -/
theorem readZone_whole_iff (env : LoadEnv) (origin path content : Text) (z : Zone)
    (hcontent : env.files.read path = .ok content) (hload : (Zone.new origin).loadFile content = .ok z) :
    (∃ z', ZoneManager.readZone env origin path = .ok z' ∧ Whole env.rsa env.files env.now KEY_DIRECTORY z
      (signZone env.rsa env.files env.now env.signOrder z KEY_DIRECTORY).result z') ↔
    env.files.present (keyPath KEY_DIRECTORY z.origin "zsk".toList) = false ∨
      EndsUntouched env.rsa env.files KEY_DIRECTORY z ∨
      ∃ zsk ksk, NothingFails env.rsa env.files env.now KEY_DIRECTORY z zsk ksk := by
  have hz := Zone.loadFile_loaded hload
  simp only [readZone_eq hcontent hload, Except.ok.injEq, exists_eq_left']
  cases hpresent : env.files.present (keyPath KEY_DIRECTORY z.origin "zsk".toList) with
  | false =>
    refine iff_of_true (.inr ⟨rfl, ?_⟩) (.inl rfl)
    rw [if_neg Bool.false_ne_true, Zone.isSigned, hz.unsigned]
    rfl
  | true =>
    rw [if_pos rfl, signing_whole_iff hz]
    simp only [Bool.true_eq_false, false_or]

/-! A key that signs, and one that is too short to. -/

/-- What a load of the sample file meets, with this crate. -/
def sampleEnv (rsa : Rsa) : LoadEnv := ⟨rsa, sampleFiles, 1000000, listOrder, listOrder, listOrder⟩

def sampleZsk : DnsKey := ⟨256, 3, 8, [0x30], ['x']⟩
def sampleKsk : DnsKey := ⟨257, 3, 8, [0x30], ['x']⟩

theorem sampleZone_origin : sampleZone.origin = ['x'] := by decide

theorem sampleRsa_canSign {key : DnsKey} (h : (key.dnskeyRdata sampleRsa).isOk = true) (origin : Text)
    {rrset : List Record} (hne : rrset ≠ []) : CanSign sampleRsa 1000000 origin key rrset := by
  obtain ⟨first, rest, rfl⟩ := List.exists_cons_of_ne_nil hne
  rw [← keyTag_isOk] at h
  cases ht : key.keyTag sampleRsa with
  | error e => rw [ht] at h; cases h
  | ok tag =>
    have hsign : ∀ data, ∃ signature, ZoneSigner.signData sampleRsa key data = .ok signature := by
      intro data
      rw [ZoneSigner.signData]
      split
      · exact ⟨_, rfl⟩
      · exact ⟨_, rfl⟩
    obtain ⟨signature, hdata⟩ := hsign (buildSignedData
      ((ZoneSigner.new 1000000 key none).rrsigTemplate key first origin tag) (first :: rest))
    have hmade : ∃ s, (ZoneSigner.new 1000000 key none).signRrsetWithKey sampleRsa key (first :: rest) origin tag =
        .ok s := by
      rw [ZoneSigner.signRrsetWithKey, hdata]
      exact ⟨_, rfl⟩
    obtain ⟨s, hs⟩ := hmade
    exact ⟨s, tag, ht, hs⟩

theorem sampleRsa_nothingFails :
    NothingFails sampleRsa sampleFiles 1000000 KEY_DIRECTORY sampleZone sampleZsk (some sampleKsk) where
  read := by
    rw [sampleZone_origin]
    rfl
  kskRead := fun _ => Option.some_ne_none _
  published := by decide
  zskSigns := fun k hne => sampleRsa_canSign (by decide) _ hne
  kskSigns := fun key hkey k _ hne => by
    obtain rfl := Option.some.inj hkey
    exact sampleRsa_canSign (by decide) _ hne

theorem sampleSigning_whole : ∃ z', ZoneManager.readZone (sampleEnv sampleRsa) ['x'] [] = .ok z' ∧
    Whole sampleRsa sampleFiles 1000000 KEY_DIRECTORY sampleZone
      (signZone sampleRsa sampleFiles 1000000 listOrder sampleZone KEY_DIRECTORY).result z' :=
  (readZone_whole_iff (sampleEnv sampleRsa) ['x'] [] sampleFile sampleZone rfl sampleZone_loads).mpr
    (.inr (.inr ⟨sampleZsk, some sampleKsk, sampleRsa_nothingFails⟩))

/-- The crate, with keys whose modulus has no room for a padded digest. -/
def shortRsa : Rsa := { sampleRsa with sign := fun _ _ _ => .error "message too long" }

/-- **A half-signed zone.** The keys are read and published, and sign nothing: the signing fails, and the zone that is
    published has DNSKEY records and an NSEC chain, and no RRSIG. -/
theorem shortKeys_halfSigned :
    (Zone.new ['x']).loadFile sampleFile = .ok sampleZone ∧
    (¬ ∃ z', ZoneManager.readZone (sampleEnv shortRsa) ['x'] [] = .ok z' ∧
      Whole shortRsa sampleFiles 1000000 KEY_DIRECTORY sampleZone
        (signZone shortRsa sampleFiles 1000000 listOrder sampleZone KEY_DIRECTORY).result z') ∧
    ∃ z', ZoneManager.readZone (sampleEnv shortRsa) ['x'] [] = .ok z' ∧ (z'.lookup ['x'] .DNSKEY).isSome = true ∧
      z'.isSigned = true ∧ ∀ e ∈ z'.rrsets.entries, e.1.2 ≠ RType.RRSIG.toU16 := by
  have hresult : (signZone shortRsa sampleFiles 1000000 listOrder sampleZone KEY_DIRECTORY).result.isOk = false := by
    decide
  have hread : ZoneManager.readZone (sampleEnv shortRsa) ['x'] [] =
      .ok (signZone shortRsa sampleFiles 1000000 listOrder sampleZone KEY_DIRECTORY).zone :=
    @readZone_eq (sampleEnv shortRsa) ['x'] [] sampleFile sampleZone rfl sampleZone_loads
  refine ⟨sampleZone_loads, ?_, _, hread, by decide, by decide, by decide⟩
  rintro ⟨z', hz', ⟨hok, -⟩ | ⟨-, hunsigned⟩⟩
  · rw [hresult] at hok
    cases hok
  · obtain rfl := Except.ok.inj (hread.symm.trans hz')
    exact absurd hunsigned (by decide)

end Ironbind
