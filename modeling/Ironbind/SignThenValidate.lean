import Ironbind.SignedZone

/- Signing and validating agree: the RRSIGs a signing leaves at an owner pass the
   validator under the DNSKEY set it leaves at the apex. The ZSK's signature comes
   first among those that cover a type and the ZSK first among the keys, so the
   validator's first match is the key that signed, whatever the two tags are. -/
namespace Ironbind
open Codec

/-- A label of at most 63 octets is one the wire form can carry. -/
theorem wireLabel_of_le {name l : Text} (hl : l ∈ labelsOf name) (h : (utf8 l).length ≤ 63) : WireLabel l :=
  ⟨utf8_length_pos (ne_nil_of_mem_labelsOf hl), by omega⟩

namespace SignedAs
variable {rsa : Rsa} {now : UInt32} {ho : HashOrder} {z z' : Zone} {c : Crypto}

/-- The keys at the apex are those the signing published, the ZSK first. -/
theorem dnskeys (s : SignedAs rsa now ho z z') (hz : z.Loaded) (hlabels : ∀ l ∈ labelsOf z.origin, WireLabel l)
    (hkey : z.lookup z.origin .DNSKEY = none) : (z'.lookup z'.origin .DNSKEY).getD [] = s.keys := by
  have hnone : z.recordsAt (z.origin, RType.DNSKEY.toU16) = [] := by
    rw [Zone.lookup, hz.origin] at hkey
    rw [Zone.recordsAt, hkey]; rfl
  rw [Zone.lookup, s.origin hz, hz.origin]
  show z'.recordsAt (z.origin, RType.DNSKEY.toU16) = _
  rw [s.recordsAt hz hlabels (by decide : RType.DNSKEY.toU16 ≠ RType.RRSIG.toU16),
    s.recordsAt_chained hz (by decide : RType.DNSKEY.toU16 ≠ RType.NSEC.toU16), s.recordsAt_keyed hz, hnone, if_pos rfl,
    List.nil_append]

/-- The ZSK's signature over an RRset decides, and it verifies. -/
theorem validateSigs_secure (s : SignedAs rsa now ho z z') (hagree : rsa.Agrees c)
    (hlabels : ∀ l ∈ labelsOf z.origin, WireLabel l) {rrset more : List Record} {first : Record}
    (hfirst : s.signer.signRrset rsa rrset z.origin (keyTag s.zskRec.rdata) = .ok first) {t : Nat}
    (hi : (ZoneSigner.inceptionAt now).toNat ≤ t) (he : t ≤ (ZoneSigner.expirationAt now).toNat) :
    validateSigs c t rrset s.keys (first :: more) = .Secure := by
  obtain ⟨_, _, rrsig, _, _, _, _, _, hparse, _, halg, htag, hinc, hexp, hsign⟩ := signRrsetWithKey_spec hfirst hlabels
  obtain ⟨publicKey, hdnskey, hverify⟩ := verify_signData hagree s.algorithm hsign s.zskRdata
  have hmatch : keyMatches rrsig.keyTag rrsig.algorithm s.zskRec = true := by
    rw [keyMatches, hdnskey, htag, halg]
    simp [signer, ZoneSigner.new]
  have hfind : s.keys.find? (keyMatches rrsig.keyTag rrsig.algorithm) = some s.zskRec :=
    List.find?_cons_of_pos hmatch
  have hverify : verifySignature c rrsig.algorithm publicKey (buildSignedData rrsig rrset) rrsig.signature = .ok true := by
    rw [halg]; exact hverify
  exact validateSigs_verdict hparse (by rw [hinc]; exact hi) (by rw [hexp]; exact he) hfind hdnskey hverify

end SignedAs

/-- **Sign then validate.** -/
theorem signZone_validates (c : Crypto) (rsa : Rsa) (files : Files) (now : UInt32) (ho : HashOrder)
    (origin content keyDir : Text) (z z' : Zone) (count : Nat) (name : Text) (rtype : RType) (rrset : List Record)
    (t : Nat) (hagree : rsa.Agrees c) (hload : (Zone.new origin).loadFile content = .ok z)
    (hkey : z.lookup z.origin .DNSKEY = none) (hlabels : ∀ l ∈ labelsOf z.origin, (utf8 l).length ≤ 63)
    (hsign : signZone rsa files now ho z keyDir = ⟨z', .ok count, []⟩) (hset : z'.lookup name rtype = some rrset)
    (hrrsig : rtype.toU16 ≠ RType.RRSIG.toU16) (hi : (ZoneSigner.inceptionAt now).toNat ≤ t)
    (he : t ≤ (ZoneSigner.expirationAt now).toNat) :
    validateRrset c t rrset (coveringRrsigs z' name rtype) ((z'.lookup z'.origin .DNSKEY).getD []) = .Secure := by
  have hz := Zone.loadFile_loaded hload
  have hwire : ∀ l ∈ labelsOf z.origin, WireLabel l := fun l hl => wireLabel_of_le hl (hlabels l hl)
  obtain ⟨s⟩ := signZone_signed hkey hsign
  obtain ⟨hat, hne⟩ := (s.wf hz).lookup_iff.mp hset
  have hat : s.chained.recordsAt (toAsciiLowercase name, rtype.toU16) = rrset :=
    (s.recordsAt hz hwire hrrsig).symm.trans hat
  have hcovering : coveringRrsigs z' name rtype = s.sigs rrset := by
    rw [coveringRrsigs_eq, ← hat]
    exact s.covering hz hwire (k := (toAsciiLowercase name, rtype.toU16)) (by rw [hat]; exact hne)
  have hentry := s.mem_iterRrsets hz (k := (toAsciiLowercase name, rtype.toU16)) (by rw [hat]; exact hne)
  rw [hat] at hentry
  obtain ⟨first, more, hsigs, hfirst, _⟩ := signOne_ok (s.signOne_sigs hentry)
  have hsigs : s.sigs rrset = first :: more := hsigs
  have hkeys : s.keys ≠ [] := List.cons_ne_nil _ _
  rw [s.dnskeys hz hwire hkey, hcovering, hsigs, validateRrset, if_neg (by simp [hne, hkeys])]
  exact s.validateSigs_secure hagree hwire hfirst hi he

/-! A zone of two names, signed by a ZSK and a KSK. -/

def sampleFile : Text := "@ SOA n m 1 2 3 4 5\nw A 192.0.2.1\n".toList

/-- A crate with one key, whose signatures are a mark in front of the digest. -/
def sampleRsa : Rsa where
  PrivateKey := Unit
  toPublicKey := fun _ => ⟨3233, 65537, by decide⟩
  fromPkcs8Pem := fun _ => .ok ()
  fromPkcs1Pem := fun _ => .error "not PKCS#1"
  toPkcs8Der := fun _ => [0x30]
  toPkcs1Der := fun _ => [0x30]
  fromPkcs8Der := fun _ => .ok ()
  fromPkcs1Der := fun _ => .error "not PKCS#1"
  sign := fun _ _ digest => .ok (7 :: digest)
  sha256 := fun m => [UInt8.ofNat m.length]
  sha512 := fun m => [UInt8.ofNat m.length]

def sampleCrypto : Crypto where
  sha1 := fun m => [UInt8.ofNat m.length]
  sha256 := fun m => [UInt8.ofNat m.length]
  sha384 := fun m => [UInt8.ofNat m.length]
  sha512 := fun m => [UInt8.ofNat m.length]
  rsa := fun _ n e digest signature => .ok (n == 3233 && e == 65537 && signature == 7 :: digest)
  p256 := fun _ _ _ => .ok false
  p384 := fun _ _ _ => .ok false
  ed25519 := fun _ _ _ => .ok false

def sampleFiles : Files where
  read := fun _ => .ok sampleFile
  present := fun _ => true

def listOrder : HashOrder := ⟨id, fun l => .refl l⟩

theorem eq_ok_of_isOk {ε α : Type} {x : Except ε α} (d : α) (h : x.isOk = true) : x = .ok (x.toOption.getD d) := by
  cases x with
  | ok a => rfl
  | error e => cases h

def sampleZone : Zone := ((Zone.new ['x']).loadFile sampleFile).toOption.getD (Zone.new ['x'])

def sampleSigning : Signing := signZone sampleRsa sampleFiles 1000000 listOrder sampleZone ['k']

theorem sampleZone_loads : (Zone.new ['x']).loadFile sampleFile = .ok sampleZone :=
  eq_ok_of_isOk _ (by decide)

theorem Signing.eq_of_result {signing : Signing} {count : Nat} (hresult : signing.result.toOption = some count)
    (hfailures : signing.failures = []) : signing = ⟨signing.zone, .ok count, []⟩ := by
  obtain ⟨zone, result, failures⟩ := signing
  subst hfailures
  cases result with
  | error e => cases hresult
  | ok n => cases hresult; rfl

theorem sampleSigning_succeeds : sampleSigning = ⟨sampleSigning.zone, .ok 6, []⟩ :=
  Signing.eq_of_result (by decide) (by decide)

theorem sampleRsa_agrees : sampleRsa.Agrees sampleCrypto where
  verifies := fun _ _ _ _ h => by
    cases h
    simp [sampleCrypto, sampleRsa]
  sha256 := rfl
  sha512 := rfl

theorem signZone_validates_sample :
    validateRrset sampleCrypto 1000000 [⟨['w', '.', 'x'], .A, CLASS_IN, 3600, [192, 0, 2, 1]⟩]
      (coveringRrsigs sampleSigning.zone ['w', '.', 'x'] .A)
      ((sampleSigning.zone.lookup sampleSigning.zone.origin .DNSKEY).getD []) = .Secure :=
  signZone_validates sampleCrypto sampleRsa sampleFiles 1000000 listOrder ['x'] sampleFile ['k'] sampleZone
    sampleSigning.zone 6 ['w', '.', 'x'] .A _ 1000000 sampleRsa_agrees sampleZone_loads (by decide)
    (by decide) sampleSigning_succeeds (by decide) (by decide) (by decide) (by decide)

end Ironbind
