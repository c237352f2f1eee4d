import Mathlib.Data.Nat.Digits.Defs
import Ironbind.DnssecRdata

/- Zone signing (`zone_signing.rs`): keys from PEM files, DNSKEY data in RFC 3110
   form, and the RRSIG of an RRset. The RSA crate and `sha2` are a record of
   functions, `Rsa`; what the signer relies on is `Rsa.Agrees`: a signature made
   with a private key verifies under its public key, and the digests are the
   validator's. Files are a function from paths. -/
namespace Ironbind
open Codec

/-- A public key of the RSA crate, which refuses exponents above `MAX_PUB_EXPONENT`. -/
structure RsaPublicKey where
  n : Nat
  e : Nat
  e_lt : e < 2 ^ 33

structure Rsa where
  PrivateKey : Type
  toPublicKey : PrivateKey → RsaPublicKey
  fromPkcs8Pem : Text → Except String PrivateKey
  fromPkcs1Pem : Text → Except String PrivateKey
  toPkcs8Der : PrivateKey → Bytes
  toPkcs1Der : PrivateKey → Bytes
  fromPkcs8Der : Bytes → Except String PrivateKey
  fromPkcs1Der : Bytes → Except String PrivateKey
  /-- PKCS#1 v1.5 over a digest. -/
  sign : PrivateKey → RsaHash → Bytes → Except String Bytes
  sha256 : Bytes → Bytes
  sha512 : Bytes → Bytes

/-- What signer and validator have in common. -/
structure Rsa.Agrees (rsa : Rsa) (c : Crypto) : Prop where
  verifies : ∀ key hash digest signature, rsa.sign key hash digest = .ok signature →
    c.rsa hash (rsa.toPublicKey key).n (rsa.toPublicKey key).e digest signature = .ok true
  sha256 : rsa.sha256 = c.sha256
  sha512 : rsa.sha512 = c.sha512

/-- The file system the server reads from. -/
structure Files where
  read : Text → Except String Text
  present : Text → Bool

/-! Keys. -/

structure DnsKey where
  flags : UInt16
  protocol : UInt8
  algorithm : UInt8
  privateKey : Bytes
  keyName : Text

/-- `BigUint::to_bytes_be`: the shortest big-endian form, one zero octet for zero. -/
def toBytesBe (n : Nat) : Bytes := if n = 0 then [0] else ((Nat.digits 256 n).map UInt8.ofNat).reverse

namespace DnsKey

/-- A key in PKCS#8 or else PKCS#1 form, as DER. -/
def pemToDer (rsa : Rsa) (content : Text) : Except String Bytes :=
  match rsa.fromPkcs8Pem content with
  | .ok key => .ok (rsa.toPkcs8Der key)
  | .error _ => (rsa.fromPkcs1Pem content).map rsa.toPkcs1Der

def fromPemFile (rsa : Rsa) (files : Files) (path : Text) : Except String DnsKey := do
  let content ← files.read path
  let keyBytes ← (pemToDer rsa content).mapError fun e => why "Failed to parse RSA key from " path (": " ++ e)
  pure { flags := 256, protocol := 3, algorithm := 8, privateKey := keyBytes, keyName := path }

def rsaPrivateKey (rsa : Rsa) (key : DnsKey) : Except String rsa.PrivateKey :=
  match rsa.fromPkcs8Der key.privateKey with
  | .ok privateKey => .ok privateKey
  | .error _ => (rsa.fromPkcs1Der key.privateKey).mapError fun e => "Failed to parse private key DER: " ++ e

/-- Exponent length, exponent and modulus (RFC 3110). -/
def publicKeyField (key : RsaPublicKey) : Bytes :=
  let exponent := toBytesBe key.e
  let modulus := toBytesBe key.n
  (if exponent.length ≤ 255 then Builder.u8 (UInt8.ofNat exponent.length)
    else Builder.u8 0 ++ Builder.u16 (UInt16.ofNat exponent.length)) ++ Builder.raw exponent ++ Builder.raw modulus

def dnskeyRdata (rsa : Rsa) (key : DnsKey) : Except String Bytes := do
  let privateKey ← key.rsaPrivateKey rsa
  pure (Builder.u16 key.flags ++ Builder.u8 key.protocol ++ Builder.u8 key.algorithm
    ++ publicKeyField (rsa.toPublicKey privateKey))

def dnskeyRecord (rsa : Rsa) (key : DnsKey) (ttl : UInt32) : Except String Record := do
  let rdata ← key.dnskeyRdata rsa
  pure { name := key.keyName, rtype := .DNSKEY, rclass := CLASS_IN, ttl := ttl, rdata := rdata }

def keyTag (rsa : Rsa) (key : DnsKey) : Except String UInt16 := do
  let rdata ← key.dnskeyRdata rsa
  pure (Ironbind.keyTag rdata)

end DnsKey

/-! The signer. -/

structure ZoneSigner where
  zsk : DnsKey
  ksk : Option DnsKey
  inception : UInt32
  expiration : UInt32

namespace ZoneSigner

/-- Signatures are valid from an hour ago. -/
def inceptionAt (now : UInt32) : UInt32 := if now < 3600 then 0 else now - 3600

/-- Signatures are valid for thirty days. -/
def expirationAt (now : UInt32) : UInt32 := now + 30 * 24 * 3600

def new (now : UInt32) (zsk : DnsKey) (ksk : Option DnsKey) : ZoneSigner where
  zsk := zsk
  ksk := ksk
  inception := inceptionAt now
  expiration := expirationAt now

def signData (rsa : Rsa) (key : DnsKey) (data : Bytes) : Except String Bytes := do
  let privateKey ← key.rsaPrivateKey rsa
  (if key.algorithm = 8 then rsa.sign privateKey .Sha256 (rsa.sha256 data)
    else rsa.sign privateKey .Sha512 (rsa.sha512 data)).mapError fun e => "RSA signing failed: " ++ e

/-- Labels of the owner, not counting the root or a leading wildcard. -/
def ownerLabels (name : Text) : UInt8 :=
  let owner := trimEndMatches '.' name
  UInt8.ofNat (((owner.splitOn '.').filter (· ≠ [])).length - if ['*', '.'].isPrefixOf owner then 1 else 0)

/-- The RRSIG over an RRset, its signature not made yet. -/
def rrsigTemplate (signer : ZoneSigner) (key : DnsKey) (first : Record) (zoneName : Text) (keyTag : UInt16) : Rrsig where
  typeCovered := first.rtype.toU16
  algorithm := key.algorithm
  labels := ownerLabels first.name
  origTtl := first.ttl
  sigExpiry := signer.expiration
  sigInception := signer.inception
  keyTag := keyTag
  signerName := toAsciiLowercase zoneName
  signature := []

def signRrsetWithKey (rsa : Rsa) (signer : ZoneSigner) (key : DnsKey) (rrset : List Record) (zoneName : Text)
    (keyTag : UInt16) : Except String Record :=
  match rrset with
  | [] => .error "empty rrset"
  | first :: rest => do
    let rrsig := signer.rrsigTemplate key first zoneName keyTag
    let signature ← signData rsa key (buildSignedData rrsig (first :: rest))
    pure { name := first.name, rtype := .RRSIG, rclass := first.rclass, ttl := first.ttl
           rdata := rrsigFields rrsig ++ Builder.raw signature }

def signRrset (rsa : Rsa) (signer : ZoneSigner) (rrset : List Record) (zoneName : Text) (keyTag : UInt16) :
    Except String Record := signer.signRrsetWithKey rsa signer.zsk rrset zoneName keyTag

end ZoneSigner

/-! Public keys are read back. -/

theorem fromBytesBe_reverse (ds : List UInt8) : fromBytesBe ds.reverse = Nat.ofDigits 256 (ds.map UInt8.toNat) := by
  induction ds with
  | nil => rfl
  | cons d ds ih =>
    rw [fromBytesBe, List.reverse_cons, List.foldl_append, List.map_cons, Nat.ofDigits_cons, ← ih, fromBytesBe]
    simp only [List.foldl_cons, List.foldl_nil]
    ring

theorem fromBytesBe_toBytesBe (n : Nat) : fromBytesBe (toBytesBe n) = n := by
  unfold toBytesBe
  split
  · next h => rw [h]; rfl
  · rw [fromBytesBe_reverse, List.map_map]
    have hdigits : (Nat.digits 256 n).map (UInt8.toNat ∘ UInt8.ofNat) = Nat.digits 256 n := by
      apply List.map_congr_left (g := id) _ |>.trans (List.map_id _)
      intro d hd
      have hlt : d < 256 := Nat.digits_lt_base (by decide) hd
      show (UInt8.ofNat d).toNat = d
      rw [UInt8.toNat_ofNat']
      exact Nat.mod_eq_of_lt hlt
    rw [hdigits, Nat.ofDigits_digits]

/-- Exponents of the crate are at most five octets, so their length fits the short form. -/
theorem exponent_length (key : RsaPublicKey) : 0 < (toBytesBe key.e).length ∧ (toBytesBe key.e).length ≤ 5 := by
  unfold toBytesBe
  split
  · decide
  · next h =>
    rw [List.length_reverse, List.length_map]
    have hle : (Nat.digits 256 key.e).length ≤ 5 :=
      (Nat.digits_length_le_iff (by decide) _).mpr (key.e_lt.trans (by decide))
    exact ⟨List.length_pos_of_ne_nil (Nat.digits_ne_nil_iff_ne_zero.mpr h), hle⟩

theorem parseRsaPubkey_publicKeyField (key : RsaPublicKey) :
    parseRsaPubkey (DnsKey.publicKeyField key) = .ok (toBytesBe key.e, toBytesBe key.n) := by
  obtain ⟨hpos, hle⟩ := exponent_length key
  have hnat : (UInt8.ofNat (toBytesBe key.e).length).toNat = (toBytesBe key.e).length := by
    rw [UInt8.toNat_ofNat']; exact Nat.mod_eq_of_lt (by omega)
  have hne : UInt8.ofNat (toBytesBe key.e).length ≠ 0 := fun h => by
    rw [h] at hnat
    exact absurd hnat (by show 0 ≠ _; omega)
  rw [DnsKey.publicKeyField, if_pos (by omega), Builder.u8, Builder.raw, Builder.raw, List.append_assoc,
    List.singleton_append]
  simp only [parseRsaPubkey, if_neg hne, hnat]
  rw [if_neg (by rw [List.length_append]; omega), List.take_left, List.drop_left]

/-! Signatures verify. -/

section
variable {rsa : Rsa} {c : Crypto} {key : DnsKey}

/-- A signature by a key verifies under the public key its DNSKEY data carries. -/
theorem verify_signData (hagree : rsa.Agrees c) (halg : key.algorithm = 8) {data signature rdata : Bytes}
    (hs : ZoneSigner.signData rsa key data = .ok signature) (hr : key.dnskeyRdata rsa = .ok rdata) :
    ∃ publicKey, parseDnskey rdata = .ok ⟨key.flags, key.protocol, key.algorithm, publicKey⟩ ∧
      verifySignature c key.algorithm publicKey data signature = .ok true := by
  rw [DnsKey.dnskeyRdata] at hr
  simp only [ZoneSigner.signData, if_pos halg] at hs
  cases hk : key.rsaPrivateKey rsa with
  | error e => rw [hk] at hr; cases hr
  | ok privateKey =>
    rw [hk] at hr hs
    cases hr
    refine ⟨DnsKey.publicKeyField (rsa.toPublicKey privateKey), ?_, ?_⟩
    · rw [← parseDnskey_eq]
      simp only [Builder.u16, Builder.u8, List.append_assoc]
    · have hsign : rsa.sign privateKey .Sha256 (rsa.sha256 data) = .ok signature := by
        have hbind : (rsa.sign privateKey .Sha256 (rsa.sha256 data)).mapError
            (fun e => "RSA signing failed: " ++ e) = .ok signature := hs
        cases hsig : rsa.sign privateKey .Sha256 (rsa.sha256 data) with
        | error e => rw [hsig] at hbind; cases hbind
        | ok sig => rw [hsig] at hbind; cases hbind; rfl
      have hverify := hagree.verifies _ _ _ _ hsign
      rw [halg, verifySignature, if_pos (by decide), verifyRsa, parseRsaPubkey_publicKeyField]
      show c.rsa .Sha256 (fromBytesBe (toBytesBe _)) (fromBytesBe (toBytesBe _)) (c.sha256 data) signature = _
      rw [fromBytesBe_toBytesBe, fromBytesBe_toBytesBe, ← hagree.sha256]
      exact hverify

/-- The builder writes a lower-case name and the parser's text for it alike. -/
theorem builderName_readName {s : Text} (hs : toAsciiLowercase s = s) : Builder.name (readName s) = Builder.name s := by
  rw [Builder.name_eq, Builder.name_eq, labelsOf_readName, ← labelsOf_lower, hs]

/-- The RRSIG of an RRset: what it parses to, and the data its signature was made over. -/
theorem signRrsetWithKey_spec {signer : ZoneSigner} {rrset : List Record} {zoneName : Text} {tag : UInt16}
    {sigRec : Record} (h : signer.signRrsetWithKey rsa key rrset zoneName tag = .ok sigRec)
    (hz : ∀ l ∈ labelsOf zoneName, WireLabel l) :
    ∃ first rest rrsig, rrset = first :: rest ∧ sigRec.name = first.name ∧ sigRec.rtype = .RRSIG ∧
      sigRec.rclass = first.rclass ∧ sigRec.ttl = first.ttl ∧
      parseRrsig sigRec.rdata = .ok rrsig ∧ rrsig.typeCovered = first.rtype.toU16 ∧ rrsig.algorithm = key.algorithm ∧
      rrsig.keyTag = tag ∧ rrsig.sigInception = signer.inception ∧ rrsig.sigExpiry = signer.expiration ∧
      ZoneSigner.signData rsa key (buildSignedData rrsig rrset) = .ok rrsig.signature := by
  cases rrset with
  | nil => cases h
  | cons first rest =>
    rw [ZoneSigner.signRrsetWithKey] at h
    cases hs : ZoneSigner.signData rsa key
        (buildSignedData (signer.rrsigTemplate key first zoneName tag) (first :: rest)) with
    | error e => simp only [hs] at h; cases h
    | ok signature =>
      simp only [hs] at h
      cases h
      have hsigner : (signer.rrsigTemplate key first zoneName tag).signerName = toAsciiLowercase zoneName := rfl
      have hlabels : ∀ l ∈ labelsOf (signer.rrsigTemplate key first zoneName tag).signerName, WireLabel l := by
        rw [hsigner, labelsOf_lower]
        intro l hl
        obtain ⟨l', hl', rfl⟩ := List.mem_map.mp hl
        rw [WireLabel, utf8_length_lower]
        exact hz l' hl'
      refine ⟨first, rest, _, rfl, rfl, rfl, rfl, rfl, parseRrsig_eq _ signature hlabels, rfl, rfl, rfl, rfl, rfl, ?_⟩
      have hfields : rrsigFields { signer.rrsigTemplate key first zoneName tag with
          signerName := readName (signer.rrsigTemplate key first zoneName tag).signerName, signature := signature } =
          rrsigFields (signer.rrsigTemplate key first zoneName tag) := by
        rw [rrsigFields, rrsigFields, builderName_readName (by rw [hsigner, toAsciiLowercase_idem])]
      rw [← hs, buildSignedData, buildSignedData, hfields]

end

end Ironbind
