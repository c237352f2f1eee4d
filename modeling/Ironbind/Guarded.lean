import Ironbind.Lib.Machine
import Ironbind.TsigPreimage

/- The readers of hostile input with every step that could panic in view: indices and
   slices, the offsets added to positions, the counts of a message added up, the jump
   counter, the distance of two times. The definitions here repeat those of the parser
   and of the verification with these steps as guarded ones; each never faults, and
   does what the plain definition does (`never_faults`). A name that is read ends behind
   its start and within the buffer, at a point that the octets up to it decide. -/
namespace Ironbind
open Codec Machine

namespace Guarded

/-! The parser. -/

def u8 : Read ParseError UInt8 := fun buf pos =>
  match buf[pos]? with
  | some b => (add 64 pos 1).map fun pos => (.ok b, pos)
  | none => .ok (.error .eof, pos)

def u16 : Read ParseError UInt16 := do
  let hi ← u8
  let lo ← u8
  pure (hi.toUInt16 <<< 8 ||| lo.toUInt16)

def u32 : Read ParseError UInt32 := do
  let hi ← u16
  let lo ← u16
  pure (hi.toUInt32 <<< 16 ||| lo.toUInt32)

def bytes (n : Nat) : Read ParseError Bytes := fun buf pos => do
  let stop ← add 64 pos n
  if stop > buf.length then pure (.error .eofReadingBytes, pos)
  else
    let v ← slice buf pos (← add 64 pos n)
    let pos ← add 64 pos n
    pure (.ok v, pos)

/-- `if !jumped { self.pos = pos + n; }` -/
def leaveName (jumped : Bool) (selfPos pos n : Nat) : Except Fault Nat := if jumped then pure selfPos else add 64 pos n

/-- The loop of `name`; one that does not end is a fault. -/
def nameLoop (buf : Bytes) : Nat → List Text → Nat → Nat → Bool → Nat → Except Fault (Except ParseError (List Text) × Nat)
  | 0, _, _, _, _, _ => .error .diverges
  | fuel + 1, parts, selfPos, pos, jumped, jumps =>
    if pos ≥ buf.length then pure (.error .nameOutOfBounds, selfPos)
    else do
      let b ← index buf pos
      if b = 0 then
        let selfPos ← leaveName jumped selfPos pos 1
        pure (.ok parts, selfPos)
      else if b &&& 0xC0 = 0xC0 then
        let next ← add 64 pos 1
        if next ≥ buf.length then pure (.error .ptrOob, selfPos)
        else
          let selfPos ← leaveName jumped selfPos pos 2
          let lo ← index buf (← add 64 pos 1)
          let offset := ((b &&& 0x3F).toNat <<< 8) ||| lo.toNat
          let jumps ← add 8 jumps 1
          if jumps > 20 then pure (.error .pointerLoop, selfPos)
          else nameLoop buf fuel parts selfPos offset true jumps
      else
        let pos ← add 64 pos 1
        let stop ← add 64 pos b.toNat
        if stop > buf.length then pure (.error .labelOob, selfPos)
        else
          let octets ← slice buf pos stop
          nameLoop buf fuel (parts ++ [Parser.labelText octets]) selfPos stop jumped jumps

def nameParts : Read ParseError (List Text) := fun buf pos => nameLoop buf (Parser.nameFuel buf) [] pos pos false 0

def name : Read ParseError Text := do
  let parts ← nameParts
  pure (Parser.joinLabels parts)

/-- The fields of an SOA's data, and the comparison behind the names that decides nothing. -/
def soaFields (rdataOffset rdataLen : Nat) :
    Read ParseError (Text × Text × UInt32 × UInt32 × UInt32 × UInt32 × UInt32) := do
  let mname ← name
  let rname ← name
  let pos ← Read.position
  let consumed ← Read.lift (sub pos rdataOffset)
  let _ ← Read.lift (add 64 consumed 20)
  let _ ← Read.lift (add 64 rdataLen 20)
  let serial ← u32
  let refresh ← u32
  let retry ← u32
  let expire ← u32
  let minimum ← u32
  pure (mname, rname, serial, refresh, retry, expire, minimum)

/-- `u16::from_be_bytes([b[i], b[i + 1]])`. -/
def u16At (b : Bytes) (i : Nat) : Except Fault UInt16 := do
  let hi ← index b i
  let lo ← index b (i + 1)
  pure (hi.toUInt16 <<< 8 ||| lo.toUInt16)

def decompressRdata (pktBuf : Bytes) (rtype : RType) (rdata : Bytes) (rdataOffset : Nat) : Except Fault Bytes :=
  match rtype with
  | .NS | .CNAME | .PTR => do
    let out ← name pktBuf rdataOffset
    match out.1 with
    | .ok name => pure (canonicalName name)
    | .error _ => pure rdata
  | .MX =>
    if rdata.length < 2 then pure rdata
    else do
      let pref ← u16At rdata 0
      let out ← name pktBuf (← add 64 rdataOffset 2)
      match out.1 with
      | .ok name => pure (Builder.u16 pref ++ Builder.name name)
      | .error _ => pure rdata
  | .SOA => do
    let out ← soaFields rdataOffset rdata.length pktBuf rdataOffset
    match out.1 with
    | .ok (mname, rname, serial, refresh, retry, expire, minimum) =>
      pure (Builder.name mname ++ Builder.name rname ++ Builder.u32 serial ++ Builder.u32 refresh
        ++ Builder.u32 retry ++ Builder.u32 expire ++ Builder.u32 minimum)
    | .error _ => pure rdata
  | .SRV =>
    if rdata.length < 6 then pure rdata
    else do
      let priority ← u16At rdata 0
      let weight ← u16At rdata 2
      let port ← u16At rdata 4
      let out ← name pktBuf (← add 64 rdataOffset 6)
      match out.1 with
      | .ok name => pure (Builder.u16 priority ++ Builder.u16 weight ++ Builder.u16 port ++ Builder.name name)
      | .error _ => pure rdata
  | _ => pure rdata

def record : Read ParseError Record := do
  let name ← name
  let rtype ← u16
  let rclass ← u16
  let ttl ← u32
  let rdlen ← u16
  let rdataOffset ← Read.position
  let rdataRaw ← bytes rdlen.toNat
  let buf ← Read.buffer
  let rdata ← Read.lift (decompressRdata buf (.ofU16 rtype) rdataRaw rdataOffset)
  pure { name := name, rtype := .ofU16 rtype, rclass := rclass, ttl := ttl, rdata := rdata }

def question : Read ParseError Question := do
  let name ← name
  let qtype ← u16
  let qclass ← u16
  pure { name := name, qtype := .ofU16 qtype, qclass := qclass }

def parse : Read ParseError Packet := do
  let id ← u16
  let flags ← u16
  let qdcount ← u16
  let ancount ← u16
  let nscount ← u16
  let arcount ← u16
  let questions ← Read.times qdcount.toNat question
  let answers ← Read.times ancount.toNat record
  let authority ← Read.times nscount.toNat record
  let additionalRaw ← Read.times arcount.toNat record
  pure { id := id, flags := flags, questions := questions, answers := answers, authority := authority,
         additional := additionalRaw.filter (fun r => r.rtype ≠ .OPT),
         ednsUdpSize := (Parser.ednsOf additionalRaw).1, dnssecOk := (Parser.ednsOf additionalRaw).2 }

def parsePacket (data : Bytes) : Except Fault (Except ParseError Packet) := (parse data 0).map fun out => out.1

/-! The verification. -/

def reading {α : Type} (p : Read ParseError α) : Read TsigError α := fun buf pos =>
  match p buf pos with
  | .error fault => .error fault
  | .ok (.ok a, pos) => .ok (.ok a, pos)
  | .ok (.error e, pos) => .ok (.error (.parse e), pos)

def skipQuestion : Read ParseError Unit := do
  let _ ← name
  Read.advance 4

def skipRr : Read ParseError Unit := do
  let _ ← name
  let _ ← u16
  let _ ← u16
  let _ ← u32
  let rdlen ← u16
  Read.advance rdlen.toNat

/-- The records in front of the last one, added up in 32 bits. -/
def recordsBefore (an ns arcount : UInt16) : Except Fault Nat := do
  let records ← add 32 an.toNat ns.toNat
  let records ← add 32 records arcount.toNat
  sub records 1

def skipSections (qd an ns arcount : UInt16) : Read ParseError Unit := do
  let _ ← Read.times qd.toNat skipQuestion
  let rrs ← Read.lift (recordsBefore an ns arcount)
  let _ ← Read.times rrs skipRr
  pure ()

def tsigFields : Read ParseError TsigRdata := do
  let _class ← u16
  let _ttl ← u32
  let _rdlen ← u16
  let algorithm ← name
  let t1 ← u16
  let t2 ← u32
  let fudge ← u16
  let macLen ← u16
  let mac ← bytes macLen.toNat
  let origId ← u16
  let error ← u16
  let otherLen ← u16
  let other ← bytes otherLen.toNat
  pure { algorithm := algorithm, timeSigned := t1.toNat <<< 32 ||| t2.toNat, fudge := fudge, mac := mac,
         origId := origId, error := error, other := other }

def tsigRecord : Read TsigError (Text × TsigRdata) := do
  let name ← reading name
  let rtype ← reading u16
  if rtype ≠ 250 then Read.fail .lastRrIsNotTsig
  else
    let rdata ← reading tsigFields
    pure (name, rdata)

def lastRecord (qd an ns arcount : UInt16) : Read TsigError ExtractedTsig := do
  let _ ← reading (skipSections qd an ns arcount)
  let offset ← Read.position
  let (name, rdata) ← tsigRecord
  pure { name := name, rdata := rdata, offset := offset, arcount := arcount }

def extractTsig (message : Bytes) : Except Fault (Except TsigError ExtractedTsig) :=
  if message.length < 12 then pure (.error .messageTooShort)
  else do
    let arcount ← u16At message 10
    if arcount = 0 then pure (.error .noAdditionalRecords)
    else
      let qd ← u16At message 4
      let an ← u16At message 6
      let ns ← u16At message 8
      let out ← lastRecord qd an ns arcount message 12
      pure out.1

def unsigned (message : Bytes) (t : ExtractedTsig) : Except Fault Bytes := do
  let preimage ← slice message 0 t.offset
  let restored ← patch preimage 0 (be16 t.rdata.origId)
  patch restored 10 (be16 (UInt16.ofNat (t.arcount.toNat - 1)))

def verifyMessage (hmac : Hmac) (now : Nat) (message : Bytes) (keyring : TsigKeyring) :
    Except Fault (Except TsigError Unit) := do
  match ← extractTsig message with
  | .error e => pure (.error e)
  | .ok tsig =>
    match keyring.get tsig.name with
    | none => pure (.error (.unknownKey tsig.name))
    | some key =>
      if !HMAC_SHA256.isPrefixOf (canonical tsig.rdata.algorithm) then
        pure (.error (.unsupportedAlgorithm tsig.rdata.algorithm))
      else
        let apart ← distance tsig.rdata.timeSigned now
        if apart > tsig.rdata.fudge.toNat then pure (.error .timeOutsideFudge)
        else
          let preimage ← unsigned message tsig
          let hashed := preimage ++ tsigVariables tsig.name tsig.rdata.algorithm tsig.rdata.timeSigned tsig.rdata.fudge
            tsig.rdata.error tsig.rdata.other
          if hmac.tag key.secret hashed = tsig.rdata.mac then pure (.ok ())
          else pure (.error .macMismatch)

/-! The parser does not fault. -/

variable {j : Nat}

theorem u8_sound (hj : j ≤ 65535) : Sound j 0 u8 Parser.u8 := by
  intro b p hb hp
  cases hv : b[p]? with
  | none =>
    have hrun : Parser.u8 b p = (.error .eof, p) := Reader.bind_error (by rw [Parser.peek, hv])
    exact ⟨by rw [u8, hv, hrun], fun a q hq => by rw [hrun] at hq; cases hq⟩
  | some v =>
    have hrun : Parser.u8 b p = (.ok v, p + 1) := Reader.bind_ok (by rw [Parser.peek, hv])
    have hlt := (List.getElem?_eq_some_iff.mp hv).1
    refine ⟨?_, fun a q hq => ?_⟩
    · rw [u8, hv, hrun, add_ok (room hb hp hj (by decide))]
      rfl
    · rw [hrun] at hq
      cases hq
      exact hlt

theorem u16_sound (hj : j ≤ 65535) : Sound j 0 u16 Parser.u16 :=
  (u8_sound hj).bind' fun _ => (u8_sound (Nat.zero_le _)).bind' fun _ => Sound.pure' _

theorem u32_sound (hj : j ≤ 65535) : Sound j 0 u32 Parser.u32 :=
  (u16_sound hj).bind' fun _ => (u16_sound (Nat.zero_le _)).bind' fun _ => Sound.pure' _

theorem bytes_sound (hj : j ≤ 65535) {n : Nat} (hn : n ≤ 65535) : Sound j 0 (bytes n) (Parser.bytes n) := by
  intro b p hb hp
  have hadd := add_ok (room hb hp hj hn)
  unfold bytes Parser.bytes
  by_cases hstop : p + n > b.length
  · refine ⟨?_, fun a q hq => ?_⟩
    · simp only [hadd, bind, Except.bind, if_pos hstop]
      rfl
    · simp only [if_pos hstop] at hq
      cases hq
  · have hslice := slice_ok (Nat.le_add_right p n) (Nat.le_of_not_lt hstop)
    rw [Nat.add_sub_cancel_left] at hslice
    refine ⟨?_, fun a q hq => ?_⟩
    · simp only [hadd, if_neg hstop, bind, Except.bind, hslice]
      rfl
    · simp only [if_neg hstop] at hq
      cases hq
      exact Nat.le_of_not_lt hstop

/-- With fuel for the octets and the jumps left, the loop ends, and every step of it is in range. -/
theorem nameLoop_run {buf : Bytes} (hb : buf.length < 2 ^ 63) : ∀ (fuel : Nat) (parts : List Text) (selfPos pos : Nat)
    (jumped : Bool) (jumps : Nat), jumps ≤ 20 → nameMeasure buf pos jumps < fuel →
    nameLoop buf fuel parts selfPos pos jumped jumps = .ok (Parser.nameLoop buf fuel parts selfPos pos jumped jumps)
  | 0, _, _, _, _, _, _, hm => absurd hm (Nat.not_lt_zero _)
  | fuel + 1, parts, selfPos, pos, jumped, jumps, hj, hm => by
    rw [nameLoop, Parser.nameLoop]
    by_cases hpos : pos ≥ buf.length
    · rw [if_pos hpos, List.getElem?_eq_none hpos]
      rfl
    · have hlt := Nat.lt_of_not_le hpos
      have hv : buf[pos]? = some buf[pos] := List.getElem?_eq_getElem hlt
      have hone : add 64 pos 1 = .ok (pos + 1) := add_ok (by omega)
      rw [if_neg hpos, index_ok hv]
      have hleave {n : Nat} (hn : n ≤ 2) : leaveName jumped selfPos pos n = .ok (if jumped then selfPos else pos + n) := by
        have hadd : add 64 pos n = .ok (pos + n) := add_ok (by omega)
        cases jumped <;> first | rfl | exact hadd
      simp only [hv, bind, Except.bind, hone]
      by_cases h0 : buf[pos] = 0
      · simp only [if_pos h0, hleave (show 1 ≤ 2 by decide)]
        rfl
      · simp only [if_neg h0]
        by_cases hp : buf[pos] &&& 0xC0 = 0xC0
        · simp only [if_pos hp]
          by_cases hnext : pos + 1 ≥ buf.length
          · simp only [if_pos hnext, List.getElem?_eq_none hnext]
            rfl
          · have hlt' := Nat.lt_of_not_le hnext
            have hlo : buf[pos + 1]? = some buf[pos + 1] := List.getElem?_eq_getElem hlt'
            have hjump : add 8 jumps 1 = .ok (jumps + 1) := add_ok (by omega)
            simp only [if_neg hnext, hlo, index_ok hlo, hleave (Nat.le_refl 2), hjump]
            by_cases hmany : jumps + 1 > 20
            · simp only [if_pos hmany]
              rfl
            · simp only [if_neg hmany]
              apply nameLoop_run hb fuel _ _ _ _ _ (by omega)
              exact Nat.lt_of_lt_of_le (nameMeasure_jump _ (by omega) hlt) (Nat.le_of_lt_succ hm)
        · -- a label: the cursor moves past it
          simp only [if_neg hp]
          have hlen := buf[pos].toNat_lt
          have hstop : add 64 (pos + 1) buf[pos].toNat = .ok (pos + 1 + buf[pos].toNat) := add_ok (by omega)
          simp only [hstop]
          by_cases hoob : pos + 1 + buf[pos].toNat > buf.length
          · simp only [if_pos hoob]
            rfl
          · have hslice := slice_ok (Nat.le_add_right (pos + 1) buf[pos].toNat) (Nat.le_of_not_lt hoob)
            rw [Nat.add_sub_cancel_left] at hslice
            simp only [if_neg hoob, hslice]
            exact nameLoop_run hb fuel _ _ _ _ _ hj (by unfold nameMeasure at hm ⊢; omega)

theorem nameLoop_stop_le {buf : Bytes} : ∀ (fuel : Nat) {parts : List Text} {selfPos pos jumps : Nat} {res : List Text}
    {stop : Nat}, Parser.nameLoop buf fuel parts selfPos pos false jumps = (.ok res, stop) → stop ≤ buf.length
  | 0, _, _, _, _, _, _, h => by cases h
  | fuel + 1, parts, selfPos, pos, jumps, res, stop, h => by
    obtain ⟨b, hb, ⟨_, _, rfl⟩ | ⟨_, _, lo, hlo, _, h⟩ | ⟨_, _, _, h⟩⟩ := nameLoop_ok h
    · exact (List.getElem?_eq_some_iff.mp hb).1
    · rw [nameLoop_jumped fuel h]
      exact (List.getElem?_eq_some_iff.mp hlo).1
    · exact nameLoop_stop_le fuel h

theorem name_sound : Sound j 0 name Parser.name :=
  have hparts : Sound j 0 nameParts Parser.nameParts := fun b p hb _ =>
    ⟨nameLoop_run hb _ _ _ _ _ _ (Nat.zero_le _) (nameFuel_enough b p), fun _ _ hq => nameLoop_stop_le _ hq⟩
  hparts.bind' fun _ => Sound.pure' _

/-! Record data. -/

theorem u16At_ok {b : Bytes} {i : Nat} (h : i + 1 < b.length) : u16At b i = .ok (Ironbind.u16At b i) := by
  have hhi : b[i]? = some (b.getD i 0) := by
    rw [List.getD_eq_getElem?_getD, List.getElem?_eq_getElem (by omega), Option.getD_some]
  have hlo : b[i + 1]? = some (b.getD (i + 1) 0) := by
    rw [List.getD_eq_getElem?_getD, List.getElem?_eq_getElem h, Option.getD_some]
  simp only [u16At, index_ok hhi, index_ok hlo, bind, Except.bind]
  rfl

/-- The position behind the two names is not in front of the data. -/
theorem soaFields_run {b : Bytes} (hb : b.length < 2 ^ 63) {offset len : Nat} (ho : offset ≤ b.length)
    (hl : len < 2 ^ 63) :
    soaFields offset len b offset = .ok (Ironbind.soaFields b offset) := by
  have hsound : SoundAt b offset 0 (soaFields offset len) Ironbind.soaFields := by
    refine (name_sound (j := 0) b offset hb ho).bind' fun mname p hp => ?_
    have hple := (name_sound (j := 0) b offset hb ho).stop _ _ hp
    refine (name_sound (j := 0) b p hb hple).bind' fun rname q hq => ?_
    have hqle := (name_sound (j := 0) b p hb hple).stop _ _ hq
    have hge : offset ≤ q := Nat.le_trans (name_forward _ _ _ _ hp) (name_forward _ _ _ _ hq)
    have hnum : Sound 0 0 u32 Parser.u32 := u32_sound (Nat.zero_le _)
    have htail := (hnum.bind' fun serial => hnum.bind' fun refresh => hnum.bind' fun retry => hnum.bind' fun expire =>
      hnum.bind' fun minimum => Sound.pure' (mname, rname, serial, refresh, retry, expire, minimum)) b q hb hqle
    refine ⟨?_, htail.stop⟩
    rw [← htail.run]
    show (Read.lift (sub q offset) >>= _ : Read _ _) b q = _
    rw [Read.lift_bind (sub_ok hge), Read.lift_bind (add_ok (show q - offset + 20 < 2 ^ 64 by omega)),
      Read.lift_bind (add_ok (show len + 20 < 2 ^ 64 by omega))]
  exact hsound.run

/-- What is read of a name at an offset of the data. -/
theorem nameAt_run {b : Bytes} (hb : b.length < 2 ^ 63) (pos : Nat) :
    ∃ q, name b pos = .ok (nameAt b pos, q) := by
  have hpos : pos ≤ b.length + pos := Nat.le_add_left _ _
  exact ⟨(Parser.name b pos).2, (name_sound b pos hb hpos).run⟩

theorem decompressRdata_run {pktBuf rdata : Bytes} (hb : pktBuf.length < 2 ^ 63) (hr : rdata.length < 2 ^ 63)
    (rtype : RType) {offset : Nat} (ho : offset ≤ pktBuf.length) :
    decompressRdata pktBuf rtype rdata offset = .ok (Ironbind.decompressRdata pktBuf rtype rdata offset) := by
  have hadd {n : Nat} (hn : n ≤ 6) : add 64 offset n = .ok (offset + n) := add_ok (by omega)
  unfold decompressRdata Ironbind.decompressRdata
  cases rtype with
  | NS | CNAME | PTR =>
    obtain ⟨q, hq⟩ := nameAt_run hb offset
    simp only [hq, bind, Except.bind]
    cases nameAt pktBuf offset <;> rfl
  | MX =>
    obtain ⟨q, hq⟩ := nameAt_run hb (offset + 2)
    obtain _ | ⟨p0, _ | ⟨p1, rest⟩⟩ := rdata
    · rfl
    · rfl
    · have hpref := u16At_ok (b := p0 :: p1 :: rest) (i := 0) (by simp)
      rw [if_neg (by simp)]
      simp only [hpref, hadd (show 2 ≤ 6 by decide), hq, bind, Except.bind]
      cases nameAt pktBuf (offset + 2) <;> rfl
  | SOA =>
    simp only [soaFields_run hb ho hr, bind, Except.bind]
    cases (Ironbind.soaFields pktBuf offset).1 <;> rfl
  | SRV =>
    obtain ⟨q, hq⟩ := nameAt_run hb (offset + 6)
    obtain _ | ⟨a0, _ | ⟨a1, _ | ⟨b0, _ | ⟨b1, _ | ⟨c0, _ | ⟨c1, rest⟩⟩⟩⟩⟩⟩ := rdata
    · rfl
    · rfl
    · rfl
    · rfl
    · rfl
    · rfl
    · have field {i : Nat} (hi : i ≤ 4) := u16At_ok (b := a0 :: a1 :: b0 :: b1 :: c0 :: c1 :: rest) (i := i) (by
        simp only [List.length_cons]; omega)
      rw [if_neg (by simp)]
      simp only [field (Nat.zero_le 4), field (show 2 ≤ 4 by decide), field (Nat.le_refl 4),
        hadd (Nat.le_refl 6), hq, bind,
        Except.bind]
      cases nameAt pktBuf (offset + 6) <;> rfl
  | _ => rfl

theorem record_sound : Sound 0 0 record Parser.record := by
  have h16 : Sound 0 0 u16 Parser.u16 := u16_sound (Nat.zero_le _)
  refine name_sound.bind' fun name => h16.bind' fun rtype => h16.bind' fun rclass =>
    (u32_sound (Nat.zero_le _)).bind' fun ttl => h16.bind' fun rdlen => ?_
  intro b p hb hp
  refine SoundAt.bind' (Sound.position b p hb hp) fun offset q hq => ?_
  obtain ⟨rfl, rfl⟩ : p = offset ∧ p = q := by cases hq; exact ⟨rfl, rfl⟩
  have hlen : rdlen.toNat ≤ 65535 := Nat.le_of_lt_succ rdlen.toNat_lt
  have hbytes := bytes_sound (Nat.zero_le _) hlen b p hb hp
  refine hbytes.bind' fun raw q hq => ?_
  -- RDLENGTH bounds the data that the names are read from again
  have hraw : raw.length < 2 ^ 63 := by
    unfold Parser.bytes at hq
    split at hq
    · cases hq
    · cases hq
      rw [List.length_take]
      omega
  have hrdata := decompressRdata_run hb hraw (.ofU16 rtype) hp
  refine ⟨?_, fun a q' hq' => ?_⟩
  · show (Read.lift (decompressRdata b (.ofU16 rtype) raw p) >>= _ : Read _ _) b q = _
    rw [Read.lift_bind hrdata]
    rfl
  · cases hq'
    exact hbytes.stop _ _ hq

theorem question_sound : Sound 0 0 question Parser.question :=
  name_sound.bind' fun _ => (u16_sound (Nat.zero_le _)).bind' fun _ => (u16_sound (Nat.zero_le _)).bind' fun _ =>
    Sound.pure' _

theorem parse_sound : Sound 0 0 parse Parser.parse := by
  have h16 : Sound 0 0 u16 Parser.u16 := u16_sound (Nat.zero_le _)
  exact h16.bind' fun _ => h16.bind' fun _ => h16.bind' fun qdcount => h16.bind' fun ancount => h16.bind' fun nscount =>
    h16.bind' fun arcount => (question_sound.times qdcount.toNat).bind' fun _ =>
      (record_sound.times ancount.toNat).bind' fun _ => (record_sound.times nscount.toNat).bind' fun _ =>
        (record_sound.times arcount.toNat).bind' fun _ => Sound.pure' _

theorem parsePacket_run {data : Bytes} (hb : data.length < 2 ^ 63) :
    parsePacket data = .ok (Ironbind.parsePacket data) := by
  rw [parsePacket, (parse_sound data 0 hb (Nat.zero_le _)).run]
  rfl

/-! The verification does not fault. -/

theorem advance_sound {n : Nat} (hn : n ≤ 65535) :
    Sound 0 65535 (Read.advance n : Read ParseError Unit) (Parser.advance n) := by
  intro b p hb hp
  refine ⟨?_, fun a q hq => by cases hq; omega⟩
  rw [Read.advance, add_ok (room hb hp (Nat.zero_le _) hn)]
  rfl

theorem reading_sound {α : Type} {k : Nat} {g : Read ParseError α} {x : Parser α} (h : Sound j k g x) :
    Sound j k (reading g) (Ironbind.reading x) := by
  intro b p hb hp
  have hat := h b p hb hp
  refine ⟨?_, fun a q hq => hat.stop a q (reading_ok hq)⟩
  rw [reading, hat.run, Ironbind.reading]
  cases x b p with
  | mk r q => cases r <;> rfl

theorem skipQuestion_sound : Sound 65535 65535 skipQuestion Ironbind.skipQuestion :=
  name_sound.bind' fun _ => advance_sound (by decide)

theorem skipRr_sound : Sound 65535 65535 skipRr Ironbind.skipRr := by
  have h16 : Sound 0 0 u16 Parser.u16 := u16_sound (Nat.zero_le _)
  exact name_sound.bind' fun _ => h16.bind' fun _ => h16.bind' fun _ => (u32_sound (Nat.zero_le _)).bind' fun _ =>
    h16.bind' fun rdlen => advance_sound (Nat.le_of_lt_succ rdlen.toNat_lt)

theorem recordsBefore_ok (an ns : UInt16) {arcount : UInt16} (h : arcount ≠ 0) :
    recordsBefore an ns arcount = .ok (an.toNat + ns.toNat + arcount.toNat - 1) := by
  have han := an.toNat_lt
  have hns := ns.toNat_lt
  have har := arcount.toNat_lt
  have hpos : 1 ≤ an.toNat + ns.toNat + arcount.toNat := by
    have : arcount.toNat ≠ 0 := fun h0 => h (UInt16.toNat_inj.mp h0)
    omega
  have hfirst : add 32 an.toNat ns.toNat = .ok (an.toNat + ns.toNat) := add_ok (by omega)
  have hsecond : add 32 (an.toNat + ns.toNat) arcount.toNat = .ok (an.toNat + ns.toNat + arcount.toNat) :=
    add_ok (by omega)
  simp only [recordsBefore, hfirst, hsecond, bind, Except.bind, sub_ok hpos]

theorem skipSections_sound (qd an ns : UInt16) {arcount : UInt16} (h : arcount ≠ 0) :
    Sound 65535 65535 (skipSections qd an ns arcount)
      (Ironbind.skipSections qd.toNat (an.toNat + ns.toNat + arcount.toNat - 1)) := by
  refine (skipQuestion_sound.times qd.toNat).bind' fun _ => ?_
  rw [Read.lift_bind (recordsBefore_ok an ns h)]
  exact (skipRr_sound.times _).bind' fun _ => Sound.pure' _

theorem tsigFields_sound : Sound 0 0 tsigFields Ironbind.tsigFields := by
  have h16 : Sound 0 0 u16 Parser.u16 := u16_sound (Nat.zero_le _)
  have h32 : Sound 0 0 u32 Parser.u32 := u32_sound (Nat.zero_le _)
  have hbytes (n : UInt16) : Sound 0 0 (bytes n.toNat) (Parser.bytes n.toNat) :=
    bytes_sound (Nat.zero_le _) (Nat.le_of_lt_succ n.toNat_lt)
  exact h16.bind' fun _ => h32.bind' fun _ => h16.bind' fun _ => name_sound.bind' fun _ => h16.bind' fun _ =>
    h32.bind' fun _ => h16.bind' fun _ => h16.bind' fun macLen => (hbytes macLen).bind' fun _ => h16.bind' fun _ =>
      h16.bind' fun _ => h16.bind' fun otherLen => (hbytes otherLen).bind' fun _ => Sound.pure' _

theorem tsigRecord_sound : Sound 65535 0 tsigRecord Ironbind.tsigRecord := by
  refine (reading_sound name_sound).bind' fun _ => (reading_sound (u16_sound (Nat.zero_le _))).bind' fun rtype => ?_
  by_cases htype : rtype ≠ 250
  · simp only [if_pos htype]
    exact Sound.fail _
  · simp only [if_neg htype]
    exact (reading_sound tsigFields_sound).bind' fun _ => Sound.pure' _

theorem lastRecord_sound (qd an ns : UInt16) {arcount : UInt16} (h : arcount ≠ 0) :
    Sound 65535 0 (lastRecord qd an ns arcount)
      (Ironbind.lastRecord qd.toNat (an.toNat + ns.toNat + arcount.toNat - 1) arcount) :=
  (reading_sound (skipSections_sound qd an ns h)).bind' fun _ => Sound.position.bind' fun _ =>
    tsigRecord_sound.bind' fun _ => Sound.pure' _

theorem extractTsig_run {message : Bytes} (hb : message.length < 2 ^ 63) :
    extractTsig message = .ok (Ironbind.extractTsig message) := by
  unfold extractTsig Ironbind.extractTsig
  by_cases hlen : message.length < 12
  · rw [if_pos hlen, if_pos hlen]
    rfl
  · have field {i : Nat} (hi : i ≤ 10) : u16At message i = .ok (Ironbind.u16At message i) := u16At_ok (by omega)
    rw [if_neg hlen, if_neg hlen]
    simp only [field (Nat.le_refl 10), bind, Except.bind]
    by_cases har : Ironbind.u16At message 10 = 0
    · simp only [if_pos har]
      rfl
    · have hrun := (lastRecord_sound (Ironbind.u16At message 4) (Ironbind.u16At message 6) (Ironbind.u16At message 8) har
        message 12 hb (by omega)).run
      simp only [if_neg har, field (show 4 ≤ 10 by decide), field (show 6 ≤ 10 by decide), field (show 8 ≤ 10 by decide),
        hrun]
      rfl

/-- The record stands behind the header and in front of the end. -/
theorem unsigned_run {message : Bytes} {t : ExtractedTsig} (h : Extracted message t) :
    unsigned message t = .ok (Ironbind.unsigned message t) := by
  have hge := h.offset_ge
  have hlt := h.offset_lt
  have hslice := slice_ok (Nat.zero_le t.offset) (Nat.le_of_lt hlt)
  have hlen : (message.take t.offset).length = t.offset := List.length_take_of_le (Nat.le_of_lt hlt)
  have h16 (v : UInt16) : (be16 v).length = 2 := rfl
  rw [List.drop_zero, Nat.sub_zero] at hslice
  have hid := patch_ok (b := message.take t.offset) (i := 0) (v := be16 t.rdata.origId) (by rw [hlen, h16]; omega)
  have hcount := patch_ok (b := copyFromSlice (message.take t.offset) 0 (be16 t.rdata.origId)) (i := 10)
    (v := be16 (UInt16.ofNat (t.arcount.toNat - 1))) (by
      simp only [copyFromSlice, List.length_append, List.length_take, List.length_drop, h16]
      omega)
  simp only [unsigned, hslice, hid, bind, Except.bind]
  exact hcount

theorem verifyMessage_run (hmac : Hmac) {now : Nat} (hnow : now < 2 ^ 63) {message : Bytes}
    (hb : message.length < 2 ^ 63) (keyring : TsigKeyring) :
    verifyMessage hmac now message keyring = .ok (Ironbind.verifyMessage hmac now message keyring) := by
  unfold verifyMessage Ironbind.verifyMessage
  rw [extractTsig_run hb]
  simp only [bind, Except.bind]
  cases he : Ironbind.extractTsig message with
  | error e => rfl
  | ok t =>
    have hextracted := extracted_of_extractTsig he
    obtain ⟨t1, t2, htime⟩ := hextracted.parsed.time
    have hsigned : t.rdata.timeSigned < 2 ^ 63 := by
      have h1 := t1.toNat_lt
      have h2 := t2.toNat_lt
      rw [htime]
      refine Nat.or_lt_two_pow ?_ (by omega)
      rw [Nat.shiftLeft_eq]
      omega
    -- the checks come in the same order on both sides, and only the clock's subtraction can overflow
    dsimp only
    cases keyring.get t.name with
    | none => rfl
    | some key =>
      dsimp only
      by_cases halg : (!HMAC_SHA256.isPrefixOf (canonical t.rdata.algorithm)) = true
      · rw [if_pos halg, if_pos halg]
        rfl
      · have hapart : (t.rdata.fudge.toNat : Int) < |(t.rdata.timeSigned : Int) - now| ↔
            ((t.rdata.timeSigned : Int) - now).natAbs > t.rdata.fudge.toNat := by
          rw [← Int.natCast_natAbs]
          exact Int.ofNat_lt
        rw [if_neg halg, if_neg halg, distance_ok hsigned hnow]
        simp only [gt_iff_lt, hapart]
        by_cases hfar : ((t.rdata.timeSigned : Int) - now).natAbs > t.rdata.fudge.toNat
        · rw [if_pos hfar, if_pos hfar]
          rfl
        · rw [if_neg hfar, if_neg hfar, unsigned_run hextracted]
          by_cases hmac' : hmac.tag key.secret (verifyPreimage message t) = t.rdata.mac
          · rw [if_pos hmac']
            exact if_pos hmac'
          · rw [if_neg hmac']
            exact if_neg hmac'

end Guarded

/-! All inputs. -/

/-- A byte string of a program: an allocation has at most `isize::MAX` octets. -/
abbrev ByteString : Type := { b : Bytes // b.length < 2 ^ 63 }

/-- A clock in whole seconds, which the system keeps in 64 bits with a sign. -/
abbrev Clock : Type := { now : Nat // now < 2 ^ 63 }

theorem name_progress {b : Bytes} {p q : Nat} {name : Text} (h : Parser.name b p = (.ok name, q)) :
    p < q ∧ q ≤ b.length := by
  obtain ⟨parts, q', hparts, hend⟩ := Reader.bind_eq_ok h
  cases hend
  exact ⟨nameLoop_forward _ hparts, Guarded.nameLoop_stop_le _ hparts⟩

/-- **The readers never fault.** On every byte string the parser, the extraction of the signature and the verification
    come to an end without a fault, and so does the expansion of record data at every offset; and a name ends behind its
    start, within the buffer, where every other buffer with these octets has it end too. -/
theorem never_faults :
    (∀ data : ByteString, Guarded.parsePacket data = .ok (parsePacket data)) ∧
    (∀ message : ByteString, Guarded.extractTsig message = .ok (extractTsig message)) ∧
    (∀ (hmac : Hmac) (now : Clock) (message : ByteString) (keyring : TsigKeyring),
      Guarded.verifyMessage hmac now message keyring = .ok (verifyMessage hmac now message keyring)) ∧
    (∀ (packet rdata : ByteString) (rtype : RType) (offset : Nat), offset ≤ packet.val.length →
      Guarded.decompressRdata packet rtype rdata offset = .ok (decompressRdata packet rtype rdata offset)) ∧
    ∀ (b : Bytes) (p q : Nat) (name : Text), Parser.name b p = (.ok name, q) → p < q ∧ q ≤ b.length ∧
      ∀ (b' : Bytes) (q' : Nat) (name' : Text), AgreeOn b b' p q → Parser.name b' p = (.ok name', q') → q' = q := by
  refine ⟨fun data => Guarded.parsePacket_run data.2, fun message => Guarded.extractTsig_run message.2,
    fun hmac now message keyring => Guarded.verifyMessage_run hmac now.2 message.2 keyring,
    fun packet rdata rtype offset ho => Guarded.decompressRdata_run packet.2 rdata.2 rtype ho, fun b p q name h => ?_⟩
  obtain ⟨hlt, hle⟩ := name_progress h
  exact ⟨hlt, hle, fun b' q' name' hag h' => (name_sameRun _ _ _ _ _ _ _ h h' hag).1.symm⟩

/-- A name at the end of a buffer, by a pointer to its start. -/
def pointerName : Bytes := [1, 97, 0, 0xC0, 0]

theorem pointerName_ends : (3 < 5 ∧ 5 ≤ pointerName.length) ∧
    Guarded.decompressRdata pointerName .NS [0xC0, 0] 3 = .ok (decompressRdata pointerName .NS [0xC0, 0] 3) := by
  obtain ⟨-, -, -, hrdata, hname⟩ := never_faults
  obtain ⟨hlt, hle, -⟩ := hname pointerName 3 5 ['a'] (by decide)
  exact ⟨⟨hlt, hle⟩, hrdata ⟨pointerName, by decide⟩ ⟨[0xC0, 0], by decide⟩ .NS 3 (by decide)⟩

end Ironbind
