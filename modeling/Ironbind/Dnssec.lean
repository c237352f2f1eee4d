import Ironbind.Proto

/- The DNSSEC validator (`dnssec.rs`) and the pinned root anchors (`anchor.rs`).
   Digests and public-key verification are a record of functions, `Crypto`: the
   validator's own work is which octets they are handed and what it does with
   their answers. The clock is the argument `now`. The upstream that
   `chain_validate` asks is a function with a state of its own, so it may answer
   anything, and the same question differently each time. -/
namespace Ironbind
open Codec

def ALG_RSAMD5 : UInt8 := 1
def ALG_RSASHA256 : UInt8 := 8
def ALG_RSASHA512 : UInt8 := 10
def ALG_ECDSAP256SHA256 : UInt8 := 13
def ALG_ECDSAP384SHA384 : UInt8 := 14
def ALG_ED25519 : UInt8 := 15

def DIGEST_SHA256 : UInt8 := 2
def DIGEST_SHA384 : UInt8 := 4

inductive ValidationResult where
  | Secure
  | Insecure
  | Bogus (why : String)
  | Indeterminate
  deriving DecidableEq, Repr

inductive RsaHash where
  | Sha256 | Sha512
  deriving DecidableEq, Repr

/-- The digests, and the verification calls of the signature crates: an error is a key or a
    signature the crate does not accept as one. -/
structure Crypto where
  sha1 : Bytes → Bytes
  sha256 : Bytes → Bytes
  sha384 : Bytes → Bytes
  sha512 : Bytes → Bytes
  /-- Modulus, exponent, digest, signature. -/
  rsa : RsaHash → Nat → Nat → Bytes → Bytes → Except String Bool
  /-- SEC1 point, data, signature. -/
  p256 : Bytes → Bytes → Bytes → Except String Bool
  p384 : Bytes → Bytes → Bytes → Except String Bool
  ed25519 : Bytes → Bytes → Bytes → Except String Bool

/-! Signed data. -/

/-- The RRSIG's fields in front of the signature. -/
def rrsigFields (rrsig : Rrsig) : Bytes :=
  Builder.u16 rrsig.typeCovered ++ Builder.u8 rrsig.algorithm ++ Builder.u8 rrsig.labels
    ++ Builder.u32 rrsig.origTtl ++ Builder.u32 rrsig.sigExpiry ++ Builder.u32 rrsig.sigInception
    ++ Builder.u16 rrsig.keyTag ++ Builder.name rrsig.signerName

def buildSignedData (rrsig : Rrsig) (rrset : List Record) : Bytes :=
  let rrs := rrset.map fun r => canonicalRr { r with ttl := rrsig.origTtl }
  rrsigFields rrsig ++ (rrs.insertionSort (· ≤ ·)).flatten

/-! Signatures. -/

/-- `BigUint::from_bytes_be`. -/
def fromBytesBe (b : Bytes) : Nat := b.foldl (fun n x => n * 256 + x.toNat) 0

/-- Exponent and modulus of an RFC 3110 public key. -/
def parseRsaPubkey (key : Bytes) : Except String (Bytes × Bytes) :=
  match key with
  | [] => .error "empty RSA key"
  | k0 :: rest =>
    let split (expLen : Nat) (rest : Bytes) : Except String (Bytes × Bytes) :=
      if rest.length < expLen then .error "RSA exponent truncated"
      else .ok (rest.take expLen, rest.drop expLen)
    if k0 = 0 then
      match rest with
      | k1 :: k2 :: rest => split ((k1.toNat <<< 8) ||| k2.toNat) rest
      | _ => .error "RSA key too short"
    else split k0.toNat rest

def verifyRsa (c : Crypto) (pubkey data signature : Bytes) (hash : RsaHash) : Except String Bool := do
  let (exp, modulus) ← parseRsaPubkey pubkey
  let digest := match hash with
    | .Sha256 => c.sha256 data
    | .Sha512 => c.sha512 data
  c.rsa hash (fromBytesBe modulus) (fromBytesBe exp) digest signature

def verifyEcdsaP256 (c : Crypto) (pubkey data signature : Bytes) : Except String Bool :=
  if pubkey.length ≠ 64 then .error ("ECDSA P-256 key must be 64 bytes, got " ++ toString pubkey.length)
  else if signature.length ≠ 64 then
    .error ("ECDSA P-256 sig must be 64 bytes, got " ++ toString signature.length)
  else c.p256 (0x04 :: pubkey) data signature

def verifyEcdsaP384 (c : Crypto) (pubkey data signature : Bytes) : Except String Bool :=
  if pubkey.length ≠ 96 then .error "ECDSA P-384 key must be 96 bytes"
  else if signature.length ≠ 96 then .error "ECDSA P-384 sig must be 96 bytes"
  else c.p384 (0x04 :: pubkey) data signature

def verifyEd25519 (c : Crypto) (pubkey data signature : Bytes) : Except String Bool :=
  if pubkey.length ≠ 32 then .error "Ed25519 key must be 32 bytes"
  else if signature.length ≠ 64 then .error "Ed25519 sig must be 64 bytes"
  else c.ed25519 pubkey data signature

def verifySignature (c : Crypto) (algorithm : UInt8) (pubkey data signature : Bytes) : Except String Bool :=
  if algorithm = ALG_RSASHA256 then verifyRsa c pubkey data signature .Sha256
  else if algorithm = ALG_RSASHA512 then verifyRsa c pubkey data signature .Sha512
  else if algorithm = ALG_ECDSAP256SHA256 then verifyEcdsaP256 c pubkey data signature
  else if algorithm = ALG_ECDSAP384SHA384 then verifyEcdsaP384 c pubkey data signature
  else if algorithm = ALG_ED25519 then verifyEd25519 c pubkey data signature
  else if algorithm = ALG_RSAMD5 then .error "RSAMD5 is prohibited (RFC 8624)"
  else .error ("unsupported algorithm " ++ toString algorithm.toNat)

/-! RRsets. -/

/-- Whether a record holds a key with this tag and algorithm. -/
def keyMatches (tag : UInt16) (algorithm : UInt8) (dk : Record) : Bool :=
  match parseDnskey dk.rdata with
  | .ok key => keyTag dk.rdata == tag && key.algorithm == algorithm
  | .error _ => false

/-- The loop of `validate_rrset` over the signatures. -/
def validateSigs (c : Crypto) (now : Nat) (rrset dnskeys : List Record) : List Record → ValidationResult
  | [] => .Bogus "no valid RRSIG found"
  | sigRec :: rest =>
    match parseRrsig sigRec.rdata with
    | .error _ => validateSigs c now rrset dnskeys rest
    | .ok rrsig =>
      if now < rrsig.sigInception.toNat then validateSigs c now rrset dnskeys rest
      else if now > rrsig.sigExpiry.toNat then validateSigs c now rrset dnskeys rest
      else
        match dnskeys.find? (keyMatches rrsig.keyTag rrsig.algorithm) with
        | none => validateSigs c now rrset dnskeys rest
        | some dnskeyRec =>
          match parseDnskey dnskeyRec.rdata with
          | .error _ => validateSigs c now rrset dnskeys rest
          | .ok dnskey =>
            match verifySignature c rrsig.algorithm dnskey.publicKey (buildSignedData rrsig rrset)
                rrsig.signature with
            | .ok true => .Secure
            | .ok false => .Bogus "signature mismatch"
            | .error _ => validateSigs c now rrset dnskeys rest

def validateRrset (c : Crypto) (now : Nat) (rrset rrsigs dnskeys : List Record) : ValidationResult :=
  if rrset = [] ∨ rrsigs = [] ∨ dnskeys = [] then .Insecure
  else validateSigs c now rrset dnskeys rrsigs

/-- A signature in its time, with a key found for it, decides: verified or not, the loop ends there. -/
theorem validateSigs_verdict {c : Crypto} {now : Nat} {rrset dnskeys rest : List Record} {sigRec key : Record}
    {rrsig : Rrsig} {dnskey : Dnskey} {verified : Bool} (hp : parseRrsig sigRec.rdata = .ok rrsig)
    (hi : rrsig.sigInception.toNat ≤ now) (he : now ≤ rrsig.sigExpiry.toNat)
    (hf : dnskeys.find? (keyMatches rrsig.keyTag rrsig.algorithm) = some key)
    (hk : parseDnskey key.rdata = .ok dnskey)
    (hv : verifySignature c rrsig.algorithm dnskey.publicKey (buildSignedData rrsig rrset) rrsig.signature =
      .ok verified) :
    validateSigs c now rrset dnskeys (sigRec :: rest) =
      if verified then .Secure else .Bogus "signature mismatch" := by
  rw [validateSigs, hp]
  simp only [if_neg (Nat.not_lt_of_le hi), if_neg (Nat.not_lt_of_le he), hf, hk, hv]
  cases verified <;> rfl

/-! Delegations. -/

/-- The DS digest of a key: over its owner in canonical form and its data. -/
def dsDigest (c : Crypto) (digestType : UInt8) (keyRec : Record) : Bytes :=
  let preimage := canonicalName keyRec.name ++ keyRec.rdata
  if digestType = DIGEST_SHA256 then c.sha256 preimage else c.sha384 preimage

/-- The inner loop of `validate_dnskey_with_ds`: the first key with the DS's tag and
    algorithm decides; `none` when there is no such key. -/
def dsAgainstKeys (c : Crypto) (ds : Ds) : List Record → Option ValidationResult
  | [] => none
  | keyRec :: rest =>
    if keyMatches ds.keyTag ds.algorithm keyRec then
      if dsDigest c ds.digestType keyRec = ds.digest then some .Secure
      else some (.Bogus ("DS digest mismatch for key tag " ++ toString ds.keyTag.toNat))
    else dsAgainstKeys c ds rest

def validateDnskeyWithDs (c : Crypto) (dnskeys : List Record) : List Record → ValidationResult
  | [] => .Insecure
  | dsRec :: rest =>
    match parseDs dsRec.rdata with
    | .error _ => validateDnskeyWithDs c dnskeys rest
    | .ok ds =>
      if ds.digestType ≠ DIGEST_SHA256 ∧ ds.digestType ≠ DIGEST_SHA384 then
        validateDnskeyWithDs c dnskeys rest
      else
        match dsAgainstKeys c ds dnskeys with
        | some result => result
        | none => validateDnskeyWithDs c dnskeys rest

/-! Root anchors. -/

structure RootAnchor where
  keyTag : UInt16
  algorithm : UInt8
  digestType : UInt8
  digestHex : String

def hexDigit (c : Char) : Option UInt8 :=
  if '0' ≤ c ∧ c ≤ '9' then some (UInt8.ofNat (c.toNat - '0'.toNat))
  else if 'a' ≤ c ∧ c ≤ 'f' then some (UInt8.ofNat (c.toNat - 'a'.toNat + 10))
  else if 'A' ≤ c ∧ c ≤ 'F' then some (UInt8.ofNat (c.toNat - 'A'.toNat + 10))
  else none

def hexDecode : Text → Option Bytes
  | [] => some []
  | hi :: lo :: rest => do
    let h ← hexDigit hi
    let l ← hexDigit lo
    let bs ← hexDecode rest
    pure ((h * 16 + l) :: bs)
  | [_] => none

def rootAnchors : List RootAnchor :=
  [{ keyTag := 20326, algorithm := 8, digestType := 2,
     digestHex := "e06d44b80b8f1d39a95c0b0d7c65d08458e880409bbc683457104237c7f8ec8d" },
   { keyTag := 38696, algorithm := 8, digestType := 2,
     digestHex := "683d2d0acb8c9b712a1948b27f741219298d0a450d612c483af444a4c0fb2b16" }]

-- each pinned digest is hexadecimal, as `as_ds_record` expects
example : ∀ a ∈ rootAnchors, (hexDecode a.digestHex.toList).isSome := by decide

def RootAnchor.digest (a : RootAnchor) : Bytes := (hexDecode a.digestHex.toList).getD []

def RootAnchor.asDsRecord (a : RootAnchor) : Record where
  name := ['.']
  rtype := .DS
  rclass := CLASS_IN
  ttl := 172800
  rdata := Builder.u16 a.keyTag ++ Builder.u8 a.algorithm ++ Builder.u8 a.digestType ++ Builder.raw a.digest

def validateRootDnskeys (c : Crypto) (dnskeys : List Record) : ValidationResult :=
  validateDnskeyWithDs c dnskeys (rootAnchors.map RootAnchor.asDsRecord)

/-! The chain of trust. -/

/-- An upstream: asked for an RRset, it replies with records and the signatures over them. -/
abbrev Fetch (σ : Type) := Text → RType → σ → (List Record × List Record) × σ

/-- The name one label below. -/
def childName (label current : Text) : Text :=
  if current = ['.'] then label ++ ['.'] else label ++ '.' :: current

def why (before : String) (name : Text) (after : String) : String := before ++ String.ofList name ++ after

section
variable {σ : Type}

/-- The walk of `chain_validate` from the root towards the owner. -/
def chainLoop (c : Crypto) (now : Nat) (fetch : Fetch σ) (owner : Text) (rrset rrsigs : List Record) :
    List Text → List Record → Text → σ → ValidationResult × σ
  | [], parentKeys, _, s => (validateRrset c now rrset rrsigs parentKeys, s)
  | label :: labels, parentKeys, current, s =>
    let child := childName label current
    let ((ds, dsSigs), s) := fetch child .DS s
    if ds = [] then (.Insecure, s)
    else if validateRrset c now ds dsSigs parentKeys ≠ .Secure then
      (.Bogus (why "DS at " child " doesn't validate against parent"), s)
    else
      let ((childKeys, childKeysSigs), s) := fetch child .DNSKEY s
      if childKeys = [] then (.Bogus (why "no DNSKEY at " child ""), s)
      else if validateDnskeyWithDs c childKeys ds ≠ .Secure then
        (.Bogus (why "DNSKEY at " child " doesn't chain to DS"), s)
      else if validateRrset c now childKeys childKeysSigs childKeys ≠ .Secure then
        (.Bogus (why "DNSKEY at " child " self-signature invalid"), s)
      else if trimEndMatches '.' child = trimEndMatches '.' owner then
        (validateRrset c now rrset rrsigs childKeys, s)
      else chainLoop c now fetch owner rrset rrsigs labels childKeys child s

def chainValidate (c : Crypto) (now : Nat) (owner : Text) (rrset rrsigs : List Record) (fetch : Fetch σ) (s : σ) :
    ValidationResult × σ :=
  let ((rootKeys, _), s) := fetch ['.'] .DNSKEY s
  if rootKeys = [] then (.Bogus "no root DNSKEYs returned", s)
  else if validateRootDnskeys c rootKeys ≠ .Secure then (.Bogus "root DNSKEYs don't match IANA anchors", s)
  else chainLoop c now fetch owner rrset rrsigs ((trimEndMatches '.' owner).splitOn '.').reverse rootKeys ['.'] s

end

end Ironbind
