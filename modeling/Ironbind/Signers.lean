import Ironbind.Sha

/- The signers of `advanced.rs` against the validator. What the crates do is given:
   a key makes a public key, a signature is made of data, and what is signed verifies in
   the form that the DNSKEY algorithm has for it (`SignerCrates.Agree`). RSA and Ed25519
   signatures are sent in that form. An ECDSA signature is a pair of numbers, which the
   signer writes in DER and the validator reads as two numbers of fixed length; so it is
   accepted only when the two forms happen to have the same number of octets, and DER
   read as a pair verifies too (`sign_accepted_iff`). -/
namespace Ironbind
open Codec

/-! DER. -/

/-- The octets of a number in DER: the fewest that leave the first bit clear. -/
def integerOctets (n : Nat) : Nat := n.size / 8 + 1

def derInteger (n : Nat) : Bytes := 0x02 :: UInt8.ofNat (integerOctets n) :: toBe (integerOctets n) n

/-- A sequence of two numbers, in the short form of its length. -/
def derSignature (r s : Nat) : Bytes :=
  let content := derInteger r ++ derInteger s
  0x30 :: UInt8.ofNat content.length :: content

theorem toBe_length (x : Nat) : ∀ n, (toBe n x).length = n
  | 0 => rfl
  | n + 1 => by rw [toBe, List.length_cons, toBe_length x n]

theorem derSignature_length (r s : Nat) : (derSignature r s).length = integerOctets r + integerOctets s + 6 := by
  simp only [derSignature, derInteger, List.length_cons, List.length_append, toBe_length]
  omega

/-- Numbers that are not short by three octets are longer in DER than in fixed form. -/
theorem derSignature_long {octets r s : Nat} (hr : 2 ^ (8 * (octets - 3)) ≤ r) (hs : 2 ^ (8 * (octets - 3)) ≤ s) :
    2 * octets < (derSignature r s).length := by
  have hr := Nat.lt_size.mpr hr
  have hs := Nat.lt_size.mpr hs
  rw [derSignature_length, integerOctets, integerOctets]
  omega

/-! The crates. -/

/-- A curve: `from_slice` of a private key, the coordinates of its public key, and the numbers of a signature. -/
structure EcdsaCrate where
  SigningKey : Type
  fromSlice : Bytes → Except String SigningKey
  publicKey : SigningKey → Bytes
  sign : SigningKey → Bytes → Nat × Nat
  toDer : Nat × Nat → Bytes

structure Ed25519Crate where
  SigningKey : Type
  fromBytes : Bytes → SigningKey
  publicKey : SigningKey → Bytes
  sign : SigningKey → Bytes → Bytes

structure SignerCrates where
  rsa : Rsa
  /-- Modulus, exponent, private exponent. -/
  fromComponents : Nat → Nat → Nat → Except String rsa.PrivateKey
  p256 : EcdsaCrate
  p384 : EcdsaCrate
  ed25519 : Ed25519Crate

/-! The signers. -/

structure RsaSigner (k : SignerCrates) where
  privateKey : k.rsa.PrivateKey
  algorithm : UInt8

def RsaSigner.new (k : SignerCrates) (modulus exponent privateExponent : Bytes) (algorithm : UInt8) :
    Except String (RsaSigner k) := do
  let privateKey ← k.fromComponents (fromBytesBe modulus) (fromBytesBe exponent) (fromBytesBe privateExponent)
  pure ⟨privateKey, algorithm⟩

def RsaSigner.sign {k : SignerCrates} (signer : RsaSigner k) (data : Bytes) : Except String Bytes :=
  if signer.algorithm = 8 then k.rsa.sign signer.privateKey .Sha256 (k.rsa.sha256 data)
  else k.rsa.sign signer.privateKey .Sha512 (k.rsa.sha512 data)

structure EcdsaSigner where
  curve : String
  algorithm : UInt8
  privateKeyBytes : Bytes

def EcdsaSigner.sign (k : SignerCrates) (signer : EcdsaSigner) (data : Bytes) : Except String Bytes :=
  if signer.curve = "P-256" then
    match k.p256.fromSlice signer.privateKeyBytes with
    | .error _ => .error "Invalid P-256 key"
    | .ok signingKey => .ok (k.p256.toDer (k.p256.sign signingKey data))
  else if signer.curve = "P-384" then
    match k.p384.fromSlice signer.privateKeyBytes with
    | .error _ => .error "Invalid P-384 key"
    | .ok signingKey => .ok (k.p384.toDer (k.p384.sign signingKey data))
  else .error "Unsupported curve"

structure Ed25519Signer (k : SignerCrates) where
  signingKey : k.ed25519.SigningKey
  algorithm : UInt8

def Ed25519Signer.new (k : SignerCrates) (privateKeyBytes : Bytes) : Except String (Ed25519Signer k) :=
  if privateKeyBytes.length = 32 then .ok ⟨k.ed25519.fromBytes privateKeyBytes, 15⟩
  else .error "Invalid ED25519 key length"

def Ed25519Signer.sign {k : SignerCrates} (signer : Ed25519Signer k) (data : Bytes) : Except String Bytes :=
  .ok (k.ed25519.sign signer.signingKey data)

inductive Signer (k : SignerCrates) where
  | rsa (signer : RsaSigner k)
  | ecdsa (signer : EcdsaSigner)
  | ed25519 (signer : Ed25519Signer k)

def Signer.sign {k : SignerCrates} (data : Bytes) : Signer k → Except String Bytes
  | .rsa signer => signer.sign data
  | .ecdsa signer => signer.sign k data
  | .ed25519 signer => signer.sign data

/-- The validator with the hashes of `dnssec.rs`. -/
def Crypto.withHashes (c : Crypto) : Crypto :=
  { c with sha256 := Ironbind.sha256, sha384 := Ironbind.sha384, sha512 := Ironbind.sha512 }

/-! Keys that belong together. -/

/-- The public key field of an RSA DNSKEY (RFC 3110): the length of the exponent in one or in three octets,
    the exponent, the modulus. -/
inductive Rfc3110 (e n : Nat) : Bytes → Prop
  | short {length : UInt8} {exponent modulus : Bytes} (nonzero : length ≠ 0) (exact : exponent.length = length.toNat)
      (he : fromBytesBe exponent = e) (hn : fromBytesBe modulus = n) : Rfc3110 e n (length :: (exponent ++ modulus))
  | long {hi lo : UInt8} {exponent modulus : Bytes} (exact : exponent.length = hi.toNat * 256 + lo.toNat)
      (he : fromBytesBe exponent = e) (hn : fromBytesBe modulus = n) :
      Rfc3110 e n (0 :: hi :: lo :: (exponent ++ modulus))

/-- A signer of an algorithm, and the public key of its DNSKEY. -/
inductive KeyPair (k : SignerCrates) : Signer k → UInt8 → Bytes → Prop
  | rsa {modulus exponent privateExponent publicKey : Bytes} {algorithm : UInt8} {signer : RsaSigner k}
      (new : RsaSigner.new k modulus exponent privateExponent algorithm = .ok signer)
      (known : algorithm = 8 ∨ algorithm = 10)
      (field : Rfc3110 (fromBytesBe exponent) (fromBytesBe modulus) publicKey) :
        KeyPair k (.rsa signer) algorithm publicKey
  | p256 {privateKeyBytes : Bytes} {signingKey : k.p256.SigningKey}
      (new : k.p256.fromSlice privateKeyBytes = .ok signingKey) :
      KeyPair k (.ecdsa ⟨"P-256", 13, privateKeyBytes⟩) 13 (k.p256.publicKey signingKey)
  | p384 {privateKeyBytes : Bytes} {signingKey : k.p384.SigningKey}
      (new : k.p384.fromSlice privateKeyBytes = .ok signingKey) :
      KeyPair k (.ecdsa ⟨"P-384", 14, privateKeyBytes⟩) 14 (k.p384.publicKey signingKey)
  | ed25519 {privateKeyBytes : Bytes} {signer : Ed25519Signer k}
      (new : Ed25519Signer.new k privateKeyBytes = .ok signer) :
      KeyPair k (.ed25519 signer) 15 (k.ed25519.publicKey signer.signingKey)

/-! What the crates are relied on for. -/

/-- A public key is two coordinates, and what is signed verifies as two numbers of fixed length. -/
structure EcdsaCrate.Agrees (crate : EcdsaCrate) (octets : Nat) (verify : Bytes → Bytes → Bytes → Except String Bool) :
    Prop where
  point : ∀ key, (crate.publicKey key).length = 2 * octets
  verifies : ∀ key data, verify (0x04 :: crate.publicKey key) data
    (toBe octets (crate.sign key data).1 ++ toBe octets (crate.sign key data).2) = .ok true
  der : ∀ key data, crate.toDer (crate.sign key data) = derSignature (crate.sign key data).1 (crate.sign key data).2

structure SignerCrates.Agree (k : SignerCrates) (c : Crypto) : Prop where
  components : ∀ n e d key, k.fromComponents n e d = .ok key → (k.rsa.toPublicKey key).n = n ∧
    (k.rsa.toPublicKey key).e = e
  rsa : ∀ key hash digest signature, k.rsa.sign key hash digest = .ok signature →
    c.rsa hash (k.rsa.toPublicKey key).n (k.rsa.toPublicKey key).e digest signature = .ok true
  p256 : k.p256.Agrees 32 c.p256
  p384 : k.p384.Agrees 48 c.p384
  ed25519_lengths : ∀ key data, (k.ed25519.publicKey key).length = 32 ∧ (k.ed25519.sign key data).length = 64
  ed25519 : ∀ key data, c.ed25519 (k.ed25519.publicKey key) data (k.ed25519.sign key data) = .ok true

/-- The digests of the data are the same on both sides. -/
structure SameDigests (k : SignerCrates) (data : Bytes) : Prop where
  sha256 : k.rsa.sha256 data = Ironbind.sha256 data
  sha512 : k.rsa.sha512 data = Ironbind.sha512 data

/-- They are for every message that SHA-256 is defined for. -/
theorem sameDigests_of_fips {k : SignerCrates} (hfips : k.rsa.FipsDigests) {data : Bytes} (hlen : data.length < 2 ^ 61) :
    SameDigests k data where
  sha256 := hfips.sha256_eq hlen
  sha512 := hfips.sha512_eq hlen

/-! Both forms. -/

/-- DER happens to have the octets of two numbers of fixed length, and verifies when it is read as two. -/
structure Coincides (crate : EcdsaCrate) (octets : Nat) (verify : Bytes → Bytes → Bytes → Except String Bool)
    (key : crate.SigningKey) (data : Bytes) : Prop where
  length : integerOctets (crate.sign key data).1 + integerOctets (crate.sign key data).2 + 6 = 2 * octets
  verifies : verify (0x04 :: crate.publicKey key) data (derSignature (crate.sign key data).1 (crate.sign key data).2) =
    .ok true

/-- The signature is in the form that the validator reads. -/
inductive FixedForm (k : SignerCrates) (c : Crypto) (data : Bytes) : Signer k → Prop
  | rsa (signer : RsaSigner k) : FixedForm k c data (.rsa signer)
  | ed25519 (signer : Ed25519Signer k) : FixedForm k c data (.ed25519 signer)
  | p256 {signer : EcdsaSigner} {signingKey : k.p256.SigningKey} (curve : signer.curve = "P-256")
      (new : k.p256.fromSlice signer.privateKeyBytes = .ok signingKey)
      (same : Coincides k.p256 32 c.p256 signingKey data) : FixedForm k c data (.ecdsa signer)
  | p384 {signer : EcdsaSigner} {signingKey : k.p384.SigningKey} (curve : signer.curve = "P-384")
      (new : k.p384.fromSlice signer.privateKeyBytes = .ok signingKey)
      (same : Coincides k.p384 48 c.p384 signingKey data) : FixedForm k c data (.ecdsa signer)

theorem parseRsaPubkey_rfc3110 {e n : Nat} {publicKey : Bytes} (h : Rfc3110 e n publicKey) :
    ∃ exponent modulus, parseRsaPubkey publicKey = .ok (exponent, modulus) ∧ fromBytesBe exponent = e ∧
      fromBytesBe modulus = n := by
  cases h with
  | @short length exponent modulus hnonzero hexact he hn =>
    have hroom : ¬ (exponent ++ modulus).length < exponent.length := by
      rw [List.length_append]
      omega
    refine ⟨exponent, modulus, ?_, he, hn⟩
    simp only [parseRsaPubkey, if_neg hnonzero, ← hexact, if_neg hroom, List.take_left, List.drop_left]
  | @long hi lo exponent modulus hexact he hn =>
    have hlength : hi.toNat <<< 8 ||| lo.toNat = exponent.length := by
      rw [← Nat.shiftLeft_add_eq_or_of_lt lo.toNat_lt, Nat.shiftLeft_eq, hexact]
    have hroom : ¬ (exponent ++ modulus).length < exponent.length := by
      rw [List.length_append]
      omega
    refine ⟨exponent, modulus, ?_, he, hn⟩
    simp only [parseRsaPubkey, if_pos, hlength, if_neg hroom, List.take_left, List.drop_left]

section
variable {k : SignerCrates} {c : Crypto} (hk : k.Agree c) {data : Bytes}
include hk

/-- An RSA signature is accepted under the key it was made with. -/
theorem rsa_accepted (hdigests : SameDigests k data) {modulus exponent privateExponent publicKey signature : Bytes}
    {algorithm : UInt8} {signer : RsaSigner k}
    (hnew : RsaSigner.new k modulus exponent privateExponent algorithm = .ok signer)
    (hknown : algorithm = 8 ∨ algorithm = 10) (hfield : Rfc3110 (fromBytesBe exponent) (fromBytesBe modulus) publicKey)
    (hsign : signer.sign data = .ok signature) :
    verifySignature c.withHashes algorithm publicKey data signature = .ok true := by
  rw [RsaSigner.new] at hnew
  cases hkey : k.fromComponents (fromBytesBe modulus) (fromBytesBe exponent) (fromBytesBe privateExponent) with
  | error e =>
    rw [hkey] at hnew
    cases hnew
  | ok privateKey =>
    rw [hkey] at hnew
    cases hnew
    obtain ⟨hn, he⟩ := hk.components _ _ _ _ hkey
    obtain ⟨exponent', modulus', hparse, he', hn'⟩ := parseRsaPubkey_rfc3110 hfield
    have hverify : ∀ hash digest, k.rsa.sign privateKey hash digest = .ok signature →
        c.rsa hash (fromBytesBe modulus') (fromBytesBe exponent') digest signature = .ok true := by
      intro hash digest h
      have hrsa := hk.rsa privateKey hash digest signature h
      rwa [hn, he, ← hn', ← he'] at hrsa
    rcases hknown with rfl | rfl
    · rw [RsaSigner.sign, if_pos rfl, hdigests.sha256] at hsign
      rw [verifySignature, if_pos (by decide), verifyRsa, hparse]
      exact hverify .Sha256 _ hsign
    · rw [RsaSigner.sign, if_neg (show ¬ (10 : UInt8) = 8 by decide), hdigests.sha512] at hsign
      rw [verifySignature, if_neg (by decide), if_pos (by decide), verifyRsa, hparse]
      exact hverify .Sha512 _ hsign

theorem ed25519_accepted (signer : Ed25519Signer k) :
    verifySignature c.withHashes 15 (k.ed25519.publicKey signer.signingKey) data
      (k.ed25519.sign signer.signingKey data) = .ok true := by
  obtain ⟨hkey, hsignature⟩ := hk.ed25519_lengths signer.signingKey data
  have hverify : verifySignature c.withHashes 15 = verifyEd25519 c.withHashes := rfl
  rw [hverify, verifyEd25519, if_neg (not_not.mpr hkey), if_neg (not_not.mpr hsignature)]
  exact hk.ed25519 signer.signingKey data

end

section
variable {c : Crypto} {publicKey data signature : Bytes}

theorem verifyEcdsaP256_ok_iff (hkey : publicKey.length = 64) : verifyEcdsaP256 c publicKey data signature = .ok true ↔
    signature.length = 64 ∧ c.p256 (0x04 :: publicKey) data signature = .ok true := by
  rw [verifyEcdsaP256, if_neg (not_not.mpr hkey)]
  by_cases hlen : signature.length = 64
  · rw [if_neg (not_not.mpr hlen), and_iff_right hlen]
  · rw [if_pos hlen]
    exact iff_of_false (fun h => by cases h) fun h => hlen h.1

theorem verifyEcdsaP384_ok_iff (hkey : publicKey.length = 96) : verifyEcdsaP384 c publicKey data signature = .ok true ↔
    signature.length = 96 ∧ c.p384 (0x04 :: publicKey) data signature = .ok true := by
  rw [verifyEcdsaP384, if_neg (not_not.mpr hkey)]
  by_cases hlen : signature.length = 96
  · rw [if_neg (not_not.mpr hlen), and_iff_right hlen]
  · rw [if_pos hlen]
    exact iff_of_false (fun h => by cases h) fun h => hlen h.1

end

/-- **What a signer makes is accepted exactly when** it is in the form that the validator reads. -/
theorem sign_accepted_iff {k : SignerCrates} {c : Crypto} (hk : k.Agree c) {data : Bytes} (hdigests : SameDigests k data)
    {signer : Signer k} {algorithm : UInt8} {publicKey signature : Bytes} (hkey : KeyPair k signer algorithm publicKey)
    (hsign : signer.sign data = .ok signature) :
    verifySignature c.withHashes algorithm publicKey data signature = .ok true ↔ FixedForm k c data signer := by
  cases hkey with
  | rsa hnew hknown hfield =>
    apply iff_of_true
    · exact rsa_accepted hk hdigests hnew hknown hfield hsign
    · exact .rsa _
  | @ed25519 privateKeyBytes signer hnew =>
    obtain rfl := Except.ok.inj hsign
    apply iff_of_true
    · exact ed25519_accepted hk signer
    · exact .ed25519 signer
  | @p256 privateKeyBytes signingKey hnew =>
    have hder : EcdsaSigner.sign k ⟨"P-256", 13, privateKeyBytes⟩ data =
        .ok (k.p256.toDer (k.p256.sign signingKey data)) := by
      rw [EcdsaSigner.sign, if_pos rfl, hnew]
    obtain rfl := Except.ok.inj (hder.symm.trans hsign)
    -- the validator takes the DER for the two numbers, which needs their length and that it verifies so
    have hverify : verifySignature c.withHashes 13 = verifyEcdsaP256 c.withHashes := rfl
    rw [hverify, verifyEcdsaP256_ok_iff (hk.p256.point signingKey), hk.p256.der, derSignature_length]
    constructor
    · intro h
      exact .p256 rfl hnew ⟨h.1, h.2⟩
    · intro h
      cases h with
      | p256 _ hnew' hsame =>
        obtain rfl := Except.ok.inj (hnew.symm.trans hnew')
        exact ⟨hsame.length, hsame.verifies⟩
      | p384 hcurve => exact absurd (show "P-256" = "P-384" from hcurve) (by decide)
  | @p384 privateKeyBytes signingKey hnew =>
    have hder : EcdsaSigner.sign k ⟨"P-384", 14, privateKeyBytes⟩ data =
        .ok (k.p384.toDer (k.p384.sign signingKey data)) := by
      rw [EcdsaSigner.sign, if_neg (show ¬ "P-384" = "P-256" by decide), if_pos rfl, hnew]
    obtain rfl := Except.ok.inj (hder.symm.trans hsign)
    have hverify : verifySignature c.withHashes 14 = verifyEcdsaP384 c.withHashes := rfl
    rw [hverify, verifyEcdsaP384_ok_iff (hk.p384.point signingKey), hk.p384.der, derSignature_length]
    constructor
    · intro h
      exact .p384 rfl hnew ⟨h.1, h.2⟩
    · intro h
      cases h with
      | p256 hcurve => exact absurd (show "P-384" = "P-256" from hcurve) (by decide)
      | p384 _ hnew' hsame =>
        obtain rfl := Except.ok.inj (hnew.symm.trans hnew')
        exact ⟨hsame.length, hsame.verifies⟩

/-! Crates with one key each. The keys of RSA and on P-256 and their signatures of "sample" are real ones. -/

def sampleMessage : Bytes := [0x73, 0x61, 0x6d, 0x70, 0x6c, 0x65]

@[irreducible] def sampleModulus : Bytes :=
  [0xa0a1d2296e027464cb860ec2e1a8fe53e4126cb39024e6787adfadfd03989119,
    0xcf5c72684061fa40178d3b595cbbf1d337631c3371c6d5b17ea1626fbc95817f,
    0x59963d1f8349fda30f0bdb02a3c42608cc4488007432f48af1c6b4ea69bab752,
    0xc9d1b1b7ba6ae006b782d8b46f27f8ca0af1b4dfd94f01d8a29f0fe4a61a74e6,
    0x5ab7405aabe27fac9cfab6396b539cbde150be35494ecb985daf2855395fb197,
    0x23c4a67653172468e4242e689d4daf20c90fd2d4e3d352dbfa075707ea0e1257,
    0x131f0b9d50a580c45405b6e4b4d053b4291e6b2235cd9a56dcebecd01ab6e590,
    0xbe4a0f76c85c88dee2b8bbe232d5104104f1b782187b32c8de7652ba8ad824a3].flatMap (toBe 32)

@[irreducible] def samplePrivateExponent : Bytes :=
  [0x42430e994586a0b1f59cdad8fc52847b61b15202ee7ab251cfca1691311b0dfc,
    0x1a247613583fb2861ed10542f3349a6879481a99841d340890868d3f2f8972ce,
    0x704bbff2106c04c36f51022ac018896206b55c6ee7801f8d7377f7285dae06b2,
    0x918b3d66df70f7f1fd606df95c831e27664557ca216fec808b70d713088c105d,
    0x50128e71bba20c57645ba3caa8ef9cb2a42fc1a7417b9ac39921019f6186b6f0,
    0x43bde0a42e37ef9918b6c07fc062436805db74c52a4f6f2e4b388f28aa746881,
    0x97570e4af1ab29a1b5d9647da9071b084b29c0232cd08289ee06b5878d5fd7fd,
    0x5d86b2cd6850454c9c9f3924a51c817c9e40f289452c80ff9d9e9e73f7fcf1e1].flatMap (toBe 32)

@[irreducible] def sampleSignature : Bytes :=
  [0x6bce0ea905c231876d8951eeeaeaffd1c0d3f64bb18bd56ab862c6a876a18440,
    0xff8a8a1225d11ff8ced9a69b3475c80427c03a61d26f41d94df2baf674b7df4c,
    0x49c7849f445b134b870dd03e2fda569a24a778f90b155de842185bb834e50874,
    0xfea5bdd95f5933930db1044f6351217648212861c577f5aa7cc9a425f11e0126,
    0x3a2f23987ee147e6e43432f7499948f9993658c7a0436c5e7a72b97e935c4d87,
    0x00339a37c4628f40a696a4a643316126f18931ab91c01c93f95e50f005317ae9,
    0x15ee1ea08b69d146d548f8508ee206a8982cf3398ea1611f72c83507b0a8c525,
    0x3807483c82e2197875faa397d16e6d1fddcf70faa3c8f8e0cc73b7319205e04a].flatMap (toBe 32)

/-- What a signature over a SHA-256 digest decodes to under a modulus of 256 octets (PKCS#1 v1.5). -/
def paddedDigest (digest : Bytes) : Bytes :=
  [0, 1] ++ List.replicate 202 0xff ++ [0, 0x30, 0x31, 0x30, 0x0d, 0x06, 0x09, 0x60, 0x86, 0x48, 0x01, 0x65, 0x03, 0x04,
    0x02, 0x01, 0x05, 0x00, 0x04, 0x20] ++ digest

/-- Verification of such a signature. -/
def verifyPadded (n e : Nat) (digest signature : Bytes) : Bool :=
  fromBytesBe signature ^ e % n == fromBytesBe (paddedDigest digest)

theorem sampleSignature_verifies :
    verifyPadded (fromBytesBe sampleModulus) 65537 (sha256 sampleMessage) sampleSignature = true := by
  decide +kernel

def samplePrivateKey : Bytes := toBe 32 0xc9afa9d845ba75166b5c215767b1d6934e50c3db36e89b127b8a622b120f6721

def samplePublicKey : Bytes :=
  toBe 32 0x60fed4ba255a9d31c961eb74c6356d68c049b8923b61fa6ce669622e60f29fb6 ++
    toBe 32 0x7903fe1008b8bc99a41ae9e95628bc64f2f1b20c2d7e9f5177a3c294d4462299

def sampleR : Nat := 0xefd48b2aacb6a8fd1140dd9cd45e81d69d2c877b56aaf991c34d0ea84eaf3716
def sampleS : Nat := 0xf7cb1c942d657c41d436c7a1b6e29f65f3e900dbb9aff4064dc4ab2f843acda8

def sampleCurve (publicKey : Bytes) (r s : Nat) : EcdsaCrate where
  SigningKey := Unit
  fromSlice := fun _ => .ok ()
  publicKey := fun _ => publicKey
  sign := fun _ _ => (r, s)
  toDer := fun pair => derSignature pair.1 pair.2

/-- A key that signs one message. -/
def keyRsa (key : RsaPublicKey) (message signature : Bytes) : Rsa :=
  { fipsRsa with
    toPublicKey := fun _ => key
    sign := fun _ hash digest =>
      if hash = .Sha256 ∧ digest = sha256 message then .ok signature else .error "another message" }

theorem keyRsa_sign_iff {key : RsaPublicKey} {message signature signature' digest : Bytes} {hash : RsaHash} :
    (keyRsa key message signature).sign () hash digest = .ok signature' ↔
      (hash = .Sha256 ∧ digest = sha256 message) ∧ signature = signature' := by
  simp only [keyRsa]
  split
  · next h => rw [Except.ok.injEq, and_iff_right h]
  · next h => exact iff_of_false (fun he => by cases he) fun he => h he.1

/-- `RsaPrivateKey::from_components` for a key that is known. -/
def knownKey (modulus exponent privateExponent n e d : Nat) : Except String Unit :=
  if n = modulus ∧ e = exponent ∧ d = privateExponent then .ok () else .error "invalid key"

theorem knownKey_ok {modulus exponent privateExponent n e d : Nat} {key : Unit}
    (h : knownKey modulus exponent privateExponent n e d = .ok key) : modulus = n ∧ exponent = e := by
  unfold knownKey at h
  split at h
  · next hparts => exact ⟨hparts.1.symm, hparts.2.1.symm⟩
  · cases h

theorem knownKey_self (modulus exponent privateExponent : Nat) :
    knownKey modulus exponent privateExponent modulus exponent privateExponent = .ok () := if_pos ⟨rfl, rfl, rfl⟩

theorem sampleExponent_lt : 65537 < 2 ^ 33 := by decide

def sampleCrates : SignerCrates where
  rsa := keyRsa ⟨fromBytesBe sampleModulus, 65537, sampleExponent_lt⟩ sampleMessage sampleSignature
  fromComponents := knownKey (fromBytesBe sampleModulus) 65537 (fromBytesBe samplePrivateExponent)
  p256 := sampleCurve samplePublicKey sampleR sampleS
  p384 := sampleCurve (toBe 96 1) 1 1
  ed25519 := ⟨Unit, fun _ => (), fun _ => toBe 32 1, fun _ _ => toBe 64 1⟩

def signerCrypto : Crypto where
  sha1 := id
  sha256 := id
  sha384 := id
  sha512 := id
  rsa := fun _ n e digest signature => .ok (verifyPadded n e digest signature)
  p256 := fun _ _ signature => .ok (signature == toBe 32 sampleR ++ toBe 32 sampleS)
  p384 := fun _ _ signature => .ok (signature == toBe 48 1 ++ toBe 48 1)
  ed25519 := fun _ _ signature => .ok (signature == toBe 64 1)

theorem samplePublicKey_length : samplePublicKey.length = 64 := by
  rw [samplePublicKey, List.length_append, toBe_length, toBe_length]

theorem sampleCrates_agree : sampleCrates.Agree signerCrypto where
  components := fun n e d key hkey => knownKey_ok hkey
  rsa := by
    intro key hash digest signature hsign
    obtain ⟨⟨rfl, rfl⟩, rfl⟩ := keyRsa_sign_iff.mp hsign
    exact congrArg Except.ok sampleSignature_verifies
  p256 := ⟨fun _ => samplePublicKey_length, fun _ _ => by simp [signerCrypto, sampleCrates, sampleCurve], fun _ _ => rfl⟩
  p384 := ⟨fun _ => toBe_length 1 96, fun _ _ => by simp [signerCrypto, sampleCrates, sampleCurve], fun _ _ => rfl⟩
  ed25519_lengths := fun _ _ => ⟨toBe_length 1 32, toBe_length 1 64⟩
  ed25519 := by
    intro key data
    simp [signerCrypto, sampleCrates]

theorem sampleCrates_digests : SameDigests sampleCrates sampleMessage :=
  sameDigests_of_fips ⟨fipsRsa_digests.sha256, fipsRsa_digests.sha512⟩ (by decide)

/-- The RSA signature of the message is accepted, the one on P-256 is not. -/
theorem sign_accepted_iff_sample :
    verifySignature signerCrypto.withHashes 8 ([3, 1, 0, 1] ++ sampleModulus) sampleMessage sampleSignature = .ok true ∧
    ¬ verifySignature signerCrypto.withHashes 13 samplePublicKey sampleMessage (derSignature sampleR sampleS) =
      .ok true := by
  have hexponent : fromBytesBe [1, 0, 1] = 65537 := rfl
  have hnew : RsaSigner.new sampleCrates sampleModulus [1, 0, 1] samplePrivateExponent 8 = .ok ⟨(), 8⟩ := by
    have hknown : sampleCrates.fromComponents (fromBytesBe sampleModulus) 65537
        (fromBytesBe samplePrivateExponent) = .ok () := knownKey_self _ _ _
    rw [RsaSigner.new, hexponent, hknown]
    rfl
  have hrsa : KeyPair sampleCrates (.rsa ⟨(), 8⟩) 8 ([3, 1, 0, 1] ++ sampleModulus) :=
    .rsa hnew (.inl rfl) (@Rfc3110.short _ _ 3 [1, 0, 1] sampleModulus (by decide) rfl rfl rfl)
  have hsign : Signer.sign sampleMessage (.rsa ⟨(), 8⟩ : Signer sampleCrates) = .ok sampleSignature :=
    keyRsa_sign_iff.mpr ⟨⟨rfl, rfl⟩, rfl⟩
  have hp256 : KeyPair sampleCrates (.ecdsa ⟨"P-256", 13, samplePrivateKey⟩) 13 samplePublicKey := .p256 rfl
  constructor
  · exact (sign_accepted_iff sampleCrates_agree sampleCrates_digests hrsa hsign).mpr (.rsa _)
  · intro haccepted
    have hform := (sign_accepted_iff sampleCrates_agree sampleCrates_digests hp256 rfl).mp haccepted
    cases hform with
    | p256 _ _ hsame =>
      have hlong : 2 * 32 < (derSignature sampleR sampleS).length := derSignature_long (by decide) (by decide)
      rw [derSignature_length] at hlong
      exact absurd hsame.length hlong.ne'
    | p384 hcurve => exact absurd (show "P-256" = "P-384" from hcurve) (by decide)

/-- An ECDSA signature that the validator does not look at, since DER has 72 octets. -/
theorem p256_rejected : sampleCrates.Agree signerCrypto ∧ SameDigests sampleCrates sampleMessage ∧
    KeyPair sampleCrates (.ecdsa ⟨"P-256", 13, samplePrivateKey⟩) 13 samplePublicKey ∧
    Signer.sign sampleMessage (.ecdsa ⟨"P-256", 13, samplePrivateKey⟩ : Signer sampleCrates) =
      .ok (derSignature sampleR sampleS) ∧
    verifySignature signerCrypto.withHashes 13 samplePublicKey sampleMessage (derSignature sampleR sampleS) =
      .error "ECDSA P-256 sig must be 64 bytes, got 72" := by
  refine ⟨sampleCrates_agree, sampleCrates_digests, .p256 rfl, rfl, ?_⟩
  have hlength : (derSignature sampleR sampleS).length = 72 := by decide +kernel
  have hverify : verifySignature signerCrypto.withHashes 13 = verifyEcdsaP256 signerCrypto.withHashes := rfl
  rw [hverify, verifyEcdsaP256, if_neg (not_not.mpr samplePublicKey_length), if_pos (by rw [hlength]; decide), hlength]
  rfl

end Ironbind
