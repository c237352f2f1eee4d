import Ironbind.Proto

/- Transaction signatures (`tsig.rs`). A message is signed by appending a TSIG
   record whose MAC covers the message and the record's variables, and verified by
   walking its sections to the last record and building that input again. HMAC is a
   function of secret and message, the clock an argument in whole seconds. The
   builders are the octets they append. -/
namespace Ironbind
open Codec

/-- HMAC-SHA256. It takes a secret of any length, so setting it up never fails. -/
structure Hmac where
  tag : Bytes → Bytes → Bytes
  length_tag : ∀ secret message, (tag secret message).length = 32

structure TsigKey where
  name : Text
  algorithm : Text
  secret : Bytes
  deriving DecidableEq, Repr

/-- A key name in lower case with a dot at its end. -/
def canonical (name : Text) : Text :=
  let n := toAsciiLowercase name
  if n.getLast? = some '.' then n else n ++ ['.']

/-- Keys by canonical name. -/
structure TsigKeyring where
  keys : AList fun _ : Text => TsigKey
  keyed : ∀ {name : Text} {key : TsigKey}, keys.lookup name = some key → canonical key.name = name

namespace TsigKeyring

def new : TsigKeyring where
  keys := ∅
  keyed := by intro _ _ h; simp at h

def insert (keyring : TsigKeyring) (key : TsigKey) : TsigKeyring where
  keys := keyring.keys.insert (canonical key.name) key
  keyed := by
    intro name key' h
    by_cases hname : name = canonical key.name
    · rw [hname, AList.lookup_insert] at h
      rw [hname, ← Option.some.inj h]
    · rw [AList.lookup_insert_ne hname] at h
      exact keyring.keyed h

def get (keyring : TsigKeyring) (name : Text) : Option TsigKey := keyring.keys.lookup (canonical name)

def isEmpty (keyring : TsigKeyring) : Bool := keyring.keys.entries.isEmpty

theorem get_insert (keyring : TsigKeyring) (key : TsigKey) : (keyring.insert key).get key.name = some key :=
  AList.lookup_insert _

/-- A key is found under any spelling of its name, and under no other name. -/
theorem canonical_eq_of_get {keyring : TsigKeyring} {name : Text} {key : TsigKey}
    (h : keyring.get name = some key) : canonical key.name = canonical name := keyring.keyed h

theorem isEmpty_eq_false_of_get {keyring : TsigKeyring} {name : Text} {key : TsigKey}
    (h : keyring.get name = some key) : keyring.isEmpty = false := by
  rw [isEmpty, List.isEmpty_eq_false_iff]
  intro hnil
  rw [get, AList.lookup, hnil] at h
  simp at h

theorem isEmpty_insert (keyring : TsigKeyring) (key : TsigKey) : (keyring.insert key).isEmpty = false :=
  isEmpty_eq_false_of_get (keyring.get_insert key)

theorem get_eq_none_of_isEmpty {keyring : TsigKeyring} (h : keyring.isEmpty = true) (name : Text) :
    keyring.get name = none := by
  rw [isEmpty, List.isEmpty_iff] at h
  rw [get, AList.lookup, h, List.dlookup_nil]

end TsigKeyring

structure TsigRdata where
  algorithm : Text
  timeSigned : Nat
  fudge : UInt16
  mac : Bytes
  origId : UInt16
  error : UInt16
  other : Bytes
  deriving DecidableEq, Repr

def FUDGE : UInt16 := 300

/-- The 48 bits of a time. -/
def time48 (timeSigned : Nat) : Bytes :=
  Builder.u16 (UInt16.ofNat ((timeSigned >>> 32) &&& 0xFFFF)) ++ Builder.u32 (UInt32.ofNat (timeSigned &&& 0xFFFFFFFF))

/-- The variables hashed behind the message (`extend_tsig_variables`). -/
def tsigVariables (keyName algorithm : Text) (timeSigned : Nat) (fudge error : UInt16) (other : Bytes) : Bytes :=
  Builder.name keyName ++ Builder.u16 CLASS_ANY ++ Builder.u32 0 ++ Builder.name algorithm ++ time48 timeSigned
    ++ Builder.u16 fudge ++ Builder.u16 error ++ Builder.u16 (UInt16.ofNat other.length) ++ Builder.raw other

def tsigRdata (algorithm : Text) (timeSigned : Nat) (fudge : UInt16) (mac : Bytes) (origId : UInt16) : Bytes :=
  Builder.name algorithm ++ time48 timeSigned ++ Builder.u16 fudge ++ Builder.u16 (UInt16.ofNat mac.length)
    ++ Builder.raw mac ++ Builder.u16 origId ++ Builder.u16 0 ++ Builder.u16 0

/-- The record appended to a signed message (`append_tsig_rr`). -/
def tsigRr (keyName algorithm : Text) (timeSigned : Nat) (fudge : UInt16) (mac : Bytes) (origId : UInt16) : Bytes :=
  let rdata := tsigRdata algorithm timeSigned fudge mac origId
  Builder.name keyName ++ Builder.u16 250 ++ Builder.u16 CLASS_ANY ++ Builder.u32 0
    ++ Builder.u16 (UInt16.ofNat rdata.length) ++ Builder.raw rdata

/-- `u16::from_be_bytes([b[i], b[i + 1]])`, for an index within the message. -/
def u16At (b : Bytes) (i : Nat) : UInt16 := (b.getD i 0).toUInt16 <<< 8 ||| (b.getD (i + 1) 0).toUInt16

/-- `b[i..i + patch.len()].copy_from_slice(patch)`. -/
def copyFromSlice (b : Bytes) (i : Nat) (patch : Bytes) : Bytes := b.take i ++ patch ++ b.drop (i + patch.length)

/-- What `sign_message` hashes. -/
def signPreimage (now : Nat) (message : Bytes) (key : TsigKey) : Bytes :=
  message ++ tsigVariables key.name key.algorithm now FUDGE 0 []

/-- `sign_message`. It is called on serialized packets, which have a header to take the ID from. -/
def signMessage (hmac : Hmac) (now : Nat) (message : Bytes) (key : TsigKey) : Bytes :=
  let mac := hmac.tag key.secret (signPreimage now message key)
  let out := message ++ tsigRr key.name key.algorithm now FUDGE mac (u16At message 0)
  copyFromSlice out 10 (be16 (u16At out 10 + 1))

/-! Verification. -/

inductive TsigError where
  | messageTooShort | noAdditionalRecords
  | parse (e : ParseError)
  | lastRrIsNotTsig
  | unknownKey (name : Text)
  | unsupportedAlgorithm (algorithm : Text)
  | timeOutsideFudge | macMismatch
  deriving DecidableEq, Repr

/-- A read of the message, its errors among the errors of the verification. -/
def reading {α : Type} (p : Parser α) : Reader TsigError α := fun buf pos =>
  match p buf pos with
  | (.ok a, pos) => (.ok a, pos)
  | (.error e, pos) => (.error (.parse e), pos)

/-- A question is its name and four octets more, which need not be there. -/
def skipQuestion : Parser Unit := do
  let _ ← Parser.name
  Parser.advance 4

def skipRr : Parser Unit := do
  let _ ← Parser.name
  let _ ← Parser.u16
  let _ ← Parser.u16
  let _ ← Parser.u32
  let rdlen ← Parser.u16
  Parser.advance rdlen.toNat

/-- The walk over all sections, to the start of the last record. -/
def skipSections (qd rrs : Nat) : Parser Unit := do
  let _ ← Reader.times qd skipQuestion
  let _ ← Reader.times rrs skipRr
  pure ()

/-- The data of a TSIG record, behind its type. -/
def tsigFields : Parser TsigRdata := do
  let _class ← Parser.u16
  let _ttl ← Parser.u32
  let _rdlen ← Parser.u16
  let algorithm ← Parser.name
  let t1 ← Parser.u16
  let t2 ← Parser.u32
  let fudge ← Parser.u16
  let macLen ← Parser.u16
  let mac ← Parser.bytes macLen.toNat
  let origId ← Parser.u16
  let error ← Parser.u16
  let otherLen ← Parser.u16
  let other ← Parser.bytes otherLen.toNat
  pure { algorithm := algorithm, timeSigned := t1.toNat <<< 32 ||| t2.toNat, fudge := fudge, mac := mac,
         origId := origId, error := error, other := other }

/-- The TSIG record at the current position: its name and data. -/
def tsigRecord : Reader TsigError (Text × TsigRdata) := do
  let name ← reading Parser.name
  let rtype ← reading Parser.u16
  if rtype ≠ 250 then Reader.fail .lastRrIsNotTsig
  else
    let rdata ← reading tsigFields
    pure (name, rdata)

structure ExtractedTsig where
  name : Text
  rdata : TsigRdata
  offset : Nat
  arcount : UInt16
  deriving DecidableEq, Repr

def lastRecord (qd rrs : Nat) (arcount : UInt16) : Reader TsigError ExtractedTsig := do
  let _ ← reading (skipSections qd rrs)
  let offset ← Reader.position
  let (name, rdata) ← tsigRecord
  pure { name := name, rdata := rdata, offset := offset, arcount := arcount }

def extractTsig (message : Bytes) : Except TsigError ExtractedTsig :=
  if message.length < 12 then .error .messageTooShort
  else
    let arcount := u16At message 10
    if arcount = 0 then .error .noAdditionalRecords
    else
      let qd := u16At message 4
      let an := u16At message 6
      let ns := u16At message 8
      (lastRecord qd.toNat (an.toNat + ns.toNat + arcount.toNat - 1) arcount message 12).1

/-- The message as it was before signing: the octets in front of the record, the original ID
    restored and ARCOUNT counted down. -/
def unsigned (message : Bytes) (t : ExtractedTsig) : Bytes :=
  let restored := copyFromSlice (message.take t.offset) 0 (be16 t.rdata.origId)
  copyFromSlice restored 10 (be16 (UInt16.ofNat (t.arcount.toNat - 1)))

/-- What `verify_message` hashes. -/
def verifyPreimage (message : Bytes) (t : ExtractedTsig) : Bytes :=
  unsigned message t
    ++ tsigVariables t.name t.rdata.algorithm t.rdata.timeSigned t.rdata.fudge t.rdata.error t.rdata.other

def HMAC_SHA256 : Text := "hmac-sha256".toList

def verifyMessage (hmac : Hmac) (now : Nat) (message : Bytes) (keyring : TsigKeyring) : Except TsigError Unit := do
  let tsig ← extractTsig message
  match keyring.get tsig.name with
  | none => .error (.unknownKey tsig.name)
  | some key =>
    if !HMAC_SHA256.isPrefixOf (canonical tsig.rdata.algorithm) then
      .error (.unsupportedAlgorithm tsig.rdata.algorithm)
    else if ((tsig.rdata.timeSigned : Int) - now).natAbs > tsig.rdata.fudge.toNat then .error .timeOutsideFudge
    else if hmac.tag key.secret (verifyPreimage message tsig) = tsig.rdata.mac then .ok ()
    else .error .macMismatch

/-! What a verified message is. -/

/-- The message verifies, and its last record is signed under `key`. -/
def Authenticated (hmac : Hmac) (now : Nat) (keyring : TsigKeyring) (message : Bytes) (key : TsigKey) : Prop :=
  verifyMessage hmac now message keyring = .ok () ∧ ∃ t, extractTsig message = .ok t ∧ keyring.get t.name = some key

/-- What the verification asks of the record it has found and of the key of that name. -/
structure Verifies (hmac : Hmac) (now : Nat) (message : Bytes) (t : ExtractedTsig) (key : TsigKey) : Prop where
  algorithm : HMAC_SHA256.isPrefixOf (canonical t.rdata.algorithm) = true
  time : ((t.rdata.timeSigned : Int) - now).natAbs ≤ t.rdata.fudge.toNat
  mac : hmac.tag key.secret (verifyPreimage message t) = t.rdata.mac

theorem verifyMessage_eq_ok_iff {hmac : Hmac} {now : Nat} {message : Bytes} {keyring : TsigKeyring} :
    verifyMessage hmac now message keyring = .ok () ↔
      ∃ t key, extractTsig message = .ok t ∧ keyring.get t.name = some key ∧ Verifies hmac now message t key := by
  unfold verifyMessage
  cases ht : extractTsig message with
  | error e => exact iff_of_false (fun h => nomatch h) fun ⟨_, _, h, _⟩ => nomatch h
  | ok t =>
    simp only [bind, Except.bind]
    cases hget : keyring.get t.name with
    | none =>
      refine iff_of_false (fun h => nomatch h) ?_
      rintro ⟨t', key, ht', hkey, -⟩
      rw [← Except.ok.inj ht', hget] at hkey
      cases hkey
    | some key =>
      have hkeys : (∃ t' key', Except.ok t = Except.ok (ε := TsigError) t' ∧ keyring.get t'.name = some key' ∧
          Verifies hmac now message t' key') ↔ Verifies hmac now message t key := by
        constructor
        · rintro ⟨t', key', ht', hkey, hv⟩
          obtain rfl := Except.ok.inj ht'
          rwa [Option.some.inj (hget.symm.trans hkey)]
        · intro hv
          exact ⟨t, key, rfl, hget, hv⟩
      rw [hkeys]
      simp only
      split
      · next halg => exact iff_of_false (fun h => nomatch h) fun hv => by rw [hv.algorithm] at halg; cases halg
      · next halg =>
        split
        · next hlate => exact iff_of_false (fun h => nomatch h) fun hv => Nat.not_lt.mpr hv.time hlate
        · next hlate =>
          split
          · next hmac_eq => exact iff_of_true rfl ⟨by simpa using halg, Nat.not_lt.mp hlate, hmac_eq⟩
          · next hmac_ne => exact iff_of_false (fun h => nomatch h) fun hv => hmac_ne hv.mac

theorem authenticated_iff {hmac : Hmac} {now : Nat} {message : Bytes} {keyring : TsigKeyring} {key : TsigKey} :
    Authenticated hmac now keyring message key ↔
      ∃ t, extractTsig message = .ok t ∧ keyring.get t.name = some key ∧ Verifies hmac now message t key := by
  rw [Authenticated, verifyMessage_eq_ok_iff]
  constructor
  · rintro ⟨⟨t, key', ht, hget, hv⟩, t', ht', hget'⟩
    obtain rfl := Except.ok.inj (ht.symm.trans ht')
    obtain rfl := Option.some.inj (hget.symm.trans hget')
    exact ⟨t, ht, hget, hv⟩
  · rintro ⟨t, ht, hget, hv⟩
    exact ⟨⟨t, key, ht, hget, hv⟩, t, ht, hget⟩

end Ironbind
