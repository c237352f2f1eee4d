import Ironbind.Forwarding
import Ironbind.SignThenValidate

/- A zone that is signed, served, fetched and validated. What the signing adds can be
   carried where the records of the file can: keys and NSEC records stand at names the
   file has, signatures at the name of their set, and the data of none of them is read for
   names (`SignedAs.portable`). A query with the DO bit for a set of the zone is answered
   with the set and the signatures that cover it (`fetch_signed`), and the zone's keys are
   fetched alike. So what the resolver fetches of a signed zone for a chain of trust is
   Secure under what it fetches as the zone's keys, between inception and expiration
   (`fetched_secure`): from the zone file to the other program's validator. -/
namespace Ironbind
open Codec

/-! What can be carried. -/

/-- The owner and the type of a record can be carried; its data may be too long. -/
structure Placeable (r : Record) : Prop where
  owner : ∃ n : DomainName, n.Lower ∧ r.name = n.text
  rtype : Normalised r.rtype
  data : r.rdata.length ≤ 65535 → ExpandedRdata r.rtype r.rdata

theorem Portable.placeable {r : Record} (h : Portable r) : Placeable r := ⟨h.owner, h.rtype, fun _ => h.data⟩

theorem Placeable.portable {r : Record} (h : Placeable r) (hlen : r.rdata.length ≤ 65535) : Portable r :=
  ⟨h.owner, h.rtype, h.data hlen, hlen⟩

/-- A record of a type whose data is carried as it is. -/
theorem placeable_plain {r : Record} (howner : ∃ n : DomainName, n.Lower ∧ r.name = n.text)
    (htype : r.rtype = .DNSKEY ∨ r.rtype = .NSEC ∨ r.rtype = .RRSIG) : Placeable r := by
  rcases htype with ht | ht | ht
  · exact ⟨howner, by rw [ht]; rfl, fun h => by rw [ht]; exact h⟩
  · exact ⟨howner, by rw [ht]; rfl, fun h => by rw [ht]; exact h⟩
  · exact ⟨howner, by rw [ht]; rfl, fun h => by rw [ht]; exact h⟩

/-- The data of a record of a message is no longer than the message. -/
theorem rdata_length_le {p : Packet} {r : Record} (hr : r ∈ p.answers ++ p.authority) :
    r.rdata.length ≤ (serialize p true).length := by
  have hsection : ∀ rs : List Record, r ∈ rs → r.rdata.length ≤ recordOctets rs := by
    intro rs hr
    have hrecord : r.rdata.length ≤ (Builder.record r).length := by
      rw [(builder_record r).1, List.length_append]
      omega
    exact hrecord.trans (List.single_le_sum (fun _ _ => Nat.zero_le _) _ (List.mem_map_of_mem hr))
  rw [serialize_length]
  rcases List.mem_append.mp hr with hr | hr
  · have := hsection _ hr
    omega
  · have := hsection _ hr
    omega

/-- A signature stands at a name of its set. -/
theorem made_at {rsa : Rsa} {signer : ZoneSigner} {key : DnsKey} {rrset : List Record} {origin : Text} {tag : UInt16}
    {r : Record} (h : signer.signRrsetWithKey rsa key rrset origin tag = .ok r) :
    ∃ first ∈ rrset, r.name = first.name ∧ r.rtype = .RRSIG := by
  have htype := rtype_signRrsetWithKey h
  cases rrset with
  | nil => cases h
  | cons first rest =>
    rw [ZoneSigner.signRrsetWithKey] at h
    cases hs : ZoneSigner.signData rsa key
      (buildSignedData (signer.rrsigTemplate key first origin tag) (first :: rest)) with
    | error e =>
      rw [hs] at h
      cases h
    | ok signature =>
      rw [hs] at h
      cases h
      exact ⟨first, List.mem_cons_self, rfl, htype⟩

namespace SignedAs
variable {rsa : Rsa} {now : UInt32} {ho : HashOrder} {z z' : Zone} (s : SignedAs rsa now ho z z')

theorem sigs_at {e : Sigma fun _ : RrsetKey => List Record} (he : e ∈ ho.entries s.chained.rrsets.entries) {r : Record}
    (hr : r ∈ s.sigs e.2) : ∃ first ∈ e.2, r.name = first.name ∧ r.rtype = .RRSIG := by
  obtain ⟨first, more, hsigs, hfirst, hmore⟩ := signOne_ok (s.signOne_sigs he)
  rw [hsigs] at hr
  rcases List.mem_cons.mp hr with rfl | hr
  · exact made_at hfirst
  · obtain ⟨key, tag, hmade⟩ := hmore r hr
    exact made_at hmade

variable (hz : z.Loaded)
  (hportable : ∀ r, z.Holds r → Portable r) (horigin : ∃ n : DomainName, n.Lower ∧ z.origin = n.text)
include s hz hportable horigin

/-- An owner of the zone that is signed is one the format carries. -/
theorem owner_placeable {n : Text} (hn : n ∈ s.keyed.names.keys) : ∃ d : DomainName, d.Lower ∧ n = d.text := by
  rcases (s.mem_names_keyed hz).mp hn with hn | rfl
  · obtain ⟨t, hne⟩ := hz.wf.mem_names_iff.mp hn
    obtain ⟨r, hr⟩ := List.exists_mem_of_ne_nil _ hne
    obtain ⟨d, hlower, hname⟩ := (hportable r (Zone.holds_iff_recordsAt.mpr ⟨_, hr⟩)).owner
    refine ⟨d, hlower, ?_⟩
    have hkey := (Prod.mk.inj (hz.wf.recordKey_eq hr)).1
    rw [← hkey, hname]
    exact joinLabels_lower hlower
  · exact horigin

/-- Keys and NSEC records can be carried. -/
theorem chained_placeable {r : Record} (hr : s.chained.Holds r) : Placeable r := by
  have hchain : s.chained =
      { (s.keyed.nsecRecords s.ttl).foldl Zone.add s.keyed with nsecOwners := s.keyed.sortedOwners } :=
    (s.wf_keyed hz).buildNsecChain_eq s.ttl
  rw [hchain] at hr
  rcases (Zone.holds_foldl_add _ s.keyed).mp hr with hr | hr
  · rcases (Zone.holds_foldl_add s.keys z).mp hr with hr | hr
    · exact (hportable r hr).placeable
    · obtain ⟨hname, htype⟩ := s.keyRecs r hr
      exact placeable_plain (by rw [hname]; exact horigin) (.inl htype)
  · obtain ⟨o, ho, rfl⟩ := List.mem_map.mp hr
    have howner : o.1 ∈ s.keyed.names.keys := Zone.mem_sortedOwners.mp (List.fst_mem_of_mem_zipIdx ho)
    exact placeable_plain (s.owner_placeable hz hportable horigin howner) (.inr (.inl rfl))

/-- **Signing adds nothing that cannot be carried**, but data may be too long. -/
theorem placeable {r : Record} (hr : z'.Holds r) : Placeable r := by
  rw [s.result_eq] at hr
  rcases (Zone.holds_foldl_add s.rrsigs s.chained).mp hr with hr | hr
  · exact s.chained_placeable hz hportable horigin hr
  · obtain ⟨e, he, hr⟩ := sigs_rrsigs s hr
    obtain ⟨first, hfirst, hname, htype⟩ := s.sigs_at he hr
    have hheld : s.chained.Holds first := by
      rw [(s.entry_eq hz he).1] at hfirst
      exact Zone.holds_iff_recordsAt.mpr ⟨_, hfirst⟩
    exact placeable_plain (by rw [hname]; exact (s.chained_placeable hz hportable horigin hheld).owner) (.inr (.inr htype))

/-! What is fetched. -/

omit hportable horigin in
/-- A set of the zone and its signatures, under the zone's keys. -/
theorem secure {c : Crypto} (hagree : rsa.Agrees c) (hlabels : ∀ l ∈ labelsOf z.origin, WireLabel l) {name : Text}
    {qtype : RType} {rrset : List Record} (hset : z'.lookup name qtype = some rrset)
    (hrrsig : qtype.toU16 ≠ RType.RRSIG.toU16) {t : Nat} (hi : (ZoneSigner.inceptionAt now).toNat ≤ t)
    (he : t ≤ (ZoneSigner.expirationAt now).toNat) :
    validateRrset c t rrset (coveringRrsigs z' name qtype) s.keys = .Secure := by
  obtain ⟨hat, hne⟩ := (s.wf hz).lookup_iff.mp hset
  have hchained : s.chained.recordsAt (toAsciiLowercase name, qtype.toU16) = rrset :=
    (s.recordsAt hz hlabels hrrsig).symm.trans hat
  have hpresent : s.chained.recordsAt (toAsciiLowercase name, qtype.toU16) ≠ [] := by
    rw [hchained]
    exact hne
  have hcovering : coveringRrsigs z' name qtype = s.sigs rrset := by
    rw [coveringRrsigs_eq, ← hchained]
    exact s.covering hz hlabels hpresent
  have hentry := s.mem_iterRrsets hz hpresent
  rw [hchained] at hentry
  obtain ⟨first, more, hsigs, hfirst, -⟩ := signOne_ok (s.signOne_sigs hentry)
  have hsigs : s.sigs rrset = first :: more := hsigs
  have hkeys : s.keys ≠ [] := List.cons_ne_nil _ _
  rw [hcovering, hsigs, validateRrset, if_neg (by simp [hne, hkeys])]
  exact s.validateSigs_secure hagree hlabels hfirst hi he

end SignedAs

section
variable {rsa : Rsa} {now : UInt32} {ho : HashOrder} {z z' : Zone} (s : SignedAs rsa now ho z z') (hz : z.Loaded)
  (hportable : ∀ r, z.Holds r → Portable r) (horigin : ∃ n : DomainName, n.Lower ∧ z.origin = n.text)
include s hz hportable horigin
variable {τ : Type} {h : Handler τ} {servings : Nat → Serving τ} {name : Text} {qtype : RType} {rrset : List Record}

/-- **What is fetched of a signed zone**: the set, and the signatures that cover it. -/
theorem fetch_signed (ha : AnswersAlways h servings z' name) (hname : FitsWire name) (htype : Normalised qtype)
    (hplain : qtype ≠ .AXFR ∧ qtype ≠ .IXFR ∧ qtype.toU16 ≠ RType.RRSIG.toU16)
    (hset : z'.lookup (readName name) qtype = some rrset) (ids : Nat → UInt16) (n : Nat)
    (hsize : (serialize (composed h z' (ids n) name qtype true) true).length ≤ 65535) (addr : IpAddr)
    (others : List IpAddr) : (fetchWithRrsig (linked servings ids) ⟨addr :: others, true⟩ name qtype n).1 =
      (rrset, coveringRrsigs z' (readName name) qtype) := by
  obtain ⟨hanswers, -, -⟩ := @zoneAnswer_found z' h.crypto h.hashOrder ⟨readName name, qtype, CLASS_IN⟩
    (queryRead (ids n) 0x0100 name qtype true) rrset hset
  have hcomposed : (composed h z' (ids n) name qtype true).answers = rrset ++ coveringRrsigs z' (readName name) qtype :=
    hanswers
  have hheld : ∀ r ∈ (composed h z' (ids n) name qtype true).answers ++
      (composed h z' (ids n) name qtype true).authority, Portable r := fun r hr =>
    (s.placeable hz hportable horigin (answersFrom_zoneAnswer.records r hr)).portable ((rdata_length_le hr).trans hsize)
  rw [fetch_composed ha hname htype ⟨hplain.1, hplain.2.1⟩ ids n hheld hsize addr others, hcomposed]
  have hset_types : ∀ r ∈ rrset, r.rtype = qtype := by
    intro r hr
    have hnormal := (s.placeable hz hportable horigin (Zone.holds_of_lookup hset hr)).rtype
    rw [← hnormal, (s.wf hz).type_of_lookup hset hr, htype]
  have hsig_types : ∀ r ∈ coveringRrsigs z' (readName name) qtype, r.rtype = .RRSIG := by
    intro r hr
    have hnormal := (s.placeable hz hportable horigin (Zone.holds_coveringRrsigs hr)).rtype
    rw [coveringRrsigs_eq] at hr
    have hkey := (s.wf hz).recordKey_eq (List.mem_of_mem_filter hr)
    rw [← hnormal, (Prod.mk.inj hkey).2]
    rfl
  have hdistinct : qtype ≠ .RRSIG := fun he => hplain.2.2 (congrArg RType.toU16 he)
  have hkept : ∀ {rs : List Record} {t : RType}, (∀ r ∈ rs, r.rtype = t) → rs.filter (fun r => r.rtype = t) = rs :=
    fun h => List.filter_eq_self.mpr fun r hr => by simpa using h r hr
  have hdropped : ∀ {rs : List Record} {t t' : RType}, (∀ r ∈ rs, r.rtype = t) → t ≠ t' →
      rs.filter (fun r => r.rtype = t') = [] :=
    fun h hne => List.filter_eq_nil_iff.mpr fun r hr => by simpa [h r hr] using hne
  rw [List.filter_append, List.filter_append, hkept hset_types, hkept hsig_types, hdropped hset_types hdistinct,
    hdropped hsig_types hdistinct.symm, List.append_nil, List.nil_append]

end

/-- **Signed, served, fetched and Secure.** A zone file whose records can be carried is loaded and signed without a
    failure, and served. Whatever set of it the resolver of the other program fetches with its signatures, by datagrams
    or connections, is the set the zone has, and is Secure under the keys that are fetched for the zone, at every time
    between inception and expiration. So are the keys themselves. -/
theorem fetched_secure {τ : Type} {h : Handler τ} {servings : Nat → Serving τ} {c : Crypto} {rsa : Rsa} {files : Files}
    {now : UInt32} {ho : HashOrder} {origin content keyDir name : Text} {z z' : Zone} {count : Nat} {qtype : RType}
    {rrset : List Record} {t : Nat} (hagree : rsa.Agrees c) (hload : (Zone.new origin).loadFile content = .ok z)
    (hkey : z.lookup z.origin .DNSKEY = none) (hsign : signZone rsa files now ho z keyDir = ⟨z', .ok count, []⟩)
    (hportable : ∀ r, z.Holds r → Portable r) (horigin : FitsWire z.origin) (hspelt : Spelt z.origin)
    (ha : AnswersAlways h servings z' name) (hapex : AnswersAlways h servings z' z.origin) (hname : FitsWire name)
    (htype : Normalised qtype) (hplain : qtype ≠ .AXFR ∧ qtype ≠ .IXFR ∧ qtype.toU16 ≠ RType.RRSIG.toU16)
    (hset : z'.lookup (readName name) qtype = some rrset) (hi : (ZoneSigner.inceptionAt now).toNat ≤ t)
    (he : t ≤ (ZoneSigner.expirationAt now).toNat) (ids : Nat → UInt16) (n m : Nat)
    (hsize : (serialize (composed h z' (ids n) name qtype true) true).length ≤ 65535)
    (hkeys : (serialize (composed h z' (ids m) z.origin .DNSKEY true) true).length ≤ 65535) (addr : IpAddr)
    (others : List IpAddr) :
    let fetch := fun name qtype n => (fetchWithRrsig (linked servings ids) ⟨addr :: others, true⟩ name qtype n).1
    (fetch name qtype n).1 = rrset ∧
      validateRrset c t (fetch name qtype n).1 (fetch name qtype n).2 (fetch z.origin .DNSKEY m).1 = .Secure ∧
      validateRrset c t (fetch z.origin .DNSKEY m).1 (fetch z.origin .DNSKEY m).2 (fetch z.origin .DNSKEY m).1 =
        .Secure := by
  have hz := Zone.loadFile_loaded hload
  obtain ⟨s⟩ := signZone_signed hkey hsign
  have hread : readName z.origin = z.origin := readName_eq_iff.mpr hspelt
  have hcarried : ∃ n : DomainName, n.Lower ∧ z.origin = n.text := by
    obtain ⟨d, hlower, hd⟩ := readName_domain horigin
    exact ⟨d, hlower, hread.symm.trans hd⟩
  have hlabels := horigin.wireLabels
  have hset_keys : z'.lookup (readName z.origin) .DNSKEY = some s.keys := by
    have hdnskeys := s.dnskeys hz hlabels hkey
    rw [s.origin hz] at hdnskeys
    rw [hread]
    cases hfound : z'.lookup z.origin .DNSKEY with
    | none =>
      rw [hfound] at hdnskeys
      cases hdnskeys
    | some rs =>
      rw [hfound] at hdnskeys
      exact congrArg some hdnskeys
  have hdnskey : Normalised .DNSKEY := by
    unfold Normalised
    rfl
  have hfetched := fetch_signed s hz hportable hcarried ha hname htype hplain hset ids n hsize addr others
  have hfetched_keys :=
    fetch_signed s hz hportable hcarried hapex horigin hdnskey (by decide) hset_keys ids m hkeys addr others
  dsimp only
  rw [hfetched, hfetched_keys]
  exact ⟨rfl, s.secure hz hagree hlabels hset hplain.2.2 hi he, s.secure hz hagree hlabels hset_keys (by decide) hi he⟩

/-! The zone of two names, signed. -/

def signedServing : Serving Unit := { hostServing with zones := [sampleSigning.zone] }

theorem sampleFile_reads : readTexts (.start (Zone.new ['x']).origin) (recordTexts sampleFile) =
    .ok (⟨3600, ['x'], ['w', '.', 'x']⟩, (readTexts (.start (Zone.new ['x']).origin)
      (recordTexts sampleFile)).toOption.elim [] Prod.snd) := by decide

theorem sampleZone_portable (r : Record) (hr : sampleZone.Holds r) : Portable r :=
  portable_readTexts sampleFile_reads ⟨by decide, by decide⟩ (by decide) r (holds_zoneOf sampleFile_reads hr)

theorem signedServing_answers {name : Text} (h : sampleSigning.zone.isAuthoritativeFor (readName name) = true) :
    AnswersAlways plainHandler (fun _ => signedServing) sampleSigning.zone name where
  handler := fun _ => rfl
  admitted := fun _ => rfl
  zone := fun _ => by
    rw [authoritativeZone, signedServing, List.filter_cons, if_pos h]
    rfl
  unsigned := .inl rfl

/-- The address of the host, with its signature and the keys of the zone. -/
theorem fetched_secure_host :
    let fetch := fun name qtype n =>
      (fetchWithRrsig (linked (fun _ => signedServing) fun _ => 7) ⟨[.V4 0], true⟩ name qtype n).1
    (fetch ['w', '.', 'x'] .A 0).1 = [⟨['w', '.', 'x'], .A, CLASS_IN, 3600, [192, 0, 2, 1]⟩] ∧
      validateRrset sampleCrypto 1000000 (fetch ['w', '.', 'x'] .A 0).1 (fetch ['w', '.', 'x'] .A 0).2
        (fetch sampleZone.origin .DNSKEY 1).1 = .Secure ∧
      validateRrset sampleCrypto 1000000 (fetch sampleZone.origin .DNSKEY 1).1 (fetch sampleZone.origin .DNSKEY 1).2
        (fetch sampleZone.origin .DNSKEY 1).1 = .Secure :=
  fetched_secure sampleRsa_agrees sampleZone_loads (by decide) sampleSigning_succeeds sampleZone_portable
    ⟨by decide, by decide⟩ (by decide) (signedServing_answers (by decide)) (signedServing_answers (by decide))
      hostName_fits
    normalised_a (by decide) (by decide) (by decide) (by decide) (fun _ => 7) 0 1
    (by rw [serialize_length]; decide) (by rw [serialize_length]; decide) (.V4 0) []

end Ironbind
