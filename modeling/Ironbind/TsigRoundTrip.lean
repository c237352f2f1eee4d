import Ironbind.TsigPreimage

/- Verifying what was signed. A signed message is the message with its ARCOUNT one
   higher and the TSIG record behind it (`signMessage_eq`); the walk over its
   sections ends at that record and reads back what was signed, the names in lower
   case (`extractTsig_signMessage`). The MAC is then computed over the names as they
   were read, so a key written with capital letters is not verified
   (`signMessage_verifies_iff`). -/
namespace Ironbind
open Codec

/-! Messages by header and sections. -/

def messageHeader (id flags qd an ns ar : UInt16) : Bytes :=
  be16 id ++ be16 flags ++ be16 qd ++ be16 an ++ be16 ns ++ be16 ar

section
variable (id flags qd an ns ar ar' : UInt16) (body : Bytes)

@[simp] theorem messageHeader_length : (messageHeader id flags qd an ns ar).length = 12 := rfl

theorem u16At_header : u16At (messageHeader id flags qd an ns ar ++ body) 0 = id ∧
    u16At (messageHeader id flags qd an ns ar ++ body) 4 = qd ∧ u16At (messageHeader id flags qd an ns ar ++ body) 6 = an ∧
    u16At (messageHeader id flags qd an ns ar ++ body) 8 = ns ∧
      u16At (messageHeader id flags qd an ns ar ++ body) 10 = ar :=
  ⟨join16_split id, join16_split qd, join16_split an, join16_split ns, join16_split ar⟩

theorem setArcount_header : copyFromSlice (messageHeader id flags qd an ns ar ++ body) 10 (be16 ar') =
    messageHeader id flags qd an ns ar' ++ body := rfl

theorem setId_header (id' : UInt16) : copyFromSlice (messageHeader id flags qd an ns ar ++ body) 0 (be16 id') =
    messageHeader id' flags qd an ns ar ++ body := rfl

end

/-- The records of a packet in the order they are written. -/
def writtenRecords (pkt : Packet) (edns : Bool) : List Record :=
  pkt.answers ++ pkt.authority ++ pkt.additional ++
    if edns && pkt.ednsUdpSize > 0 then [optRecord pkt.ednsUdpSize pkt.dnssecOk] else []

def sections (pkt : Packet) (edns : Bool) : Bytes :=
  pkt.questions.flatMap Builder.question ++ (writtenRecords pkt edns).flatMap Builder.record

/-- The number of records of the additional section. -/
def additionalCount (pkt : Packet) (edns : Bool) : Nat :=
  pkt.additional.length + if edns && pkt.ednsUdpSize > 0 then 1 else 0

theorem writtenRecords_length (pkt : Packet) (edns : Bool) : (writtenRecords pkt edns).length =
    pkt.answers.length + pkt.authority.length + additionalCount pkt edns := by
  rw [writtenRecords, additionalCount]
  split <;> simp [Nat.add_assoc]

theorem serialize_eq_header (pkt : Packet) (edns : Bool) : serialize pkt edns =
    messageHeader pkt.id pkt.flags (UInt16.ofNat pkt.questions.length) (UInt16.ofNat pkt.answers.length)
      (UInt16.ofNat pkt.authority.length) (UInt16.ofNat (additionalCount pkt edns)) ++ sections pkt edns := by
  simp only [serialize, messageHeader, sections, writtenRecords, additionalCount, Builder.u16, List.flatMap_append,
    List.append_assoc]
  split <;> simp [builder_opt]

/-- A packet whose sections the wire format can announce: labels of fewer than 192 octets, data that RDLENGTH
    counts, and sections of fewer than 65536 entries, one TSIG record more included. -/
structure WireFit (pkt : Packet) (edns : Bool) : Prop where
  questions : ∀ q ∈ pkt.questions, ∀ l ∈ labelsOf q.name, WireLabel l
  records : ∀ r ∈ pkt.answers ++ pkt.authority ++ pkt.additional,
    (∀ l ∈ labelsOf r.name, WireLabel l) ∧ r.rdata.length ≤ 65535
  question_count : pkt.questions.length < 65536
  answer_count : pkt.answers.length < 65536
  authority_count : pkt.authority.length < 65536
  additional_count : additionalCount pkt edns < 65535

/-- A packet the parser gives back fits, if there is room for one record more. -/
theorem Expanded.wireFit {pkt : Packet} (h : Expanded pkt)
    (hlen : ∀ r ∈ pkt.answers ++ pkt.authority ++ pkt.additional, r.rdata.length ≤ 65535)
    (hcount : (additionalWritten pkt).length < 65535) : WireFit pkt true where
  questions := by
    intro q hq
    obtain ⟨⟨n, -, hname⟩, -⟩ := h.questions q hq
    rw [hname, n.labelsOf_text]
    exact fun l hl => (n.wf l hl).wireLabel
  records := by
    intro r hr
    obtain ⟨⟨n, -, hname⟩, -⟩ := h.records r hr
    rw [hname, n.labelsOf_text]
    exact ⟨fun l hl => (n.wf l hl).wireLabel, hlen r hr⟩
  question_count := h.question_count
  answer_count := h.answer_count
  authority_count := h.authority_count
  additional_count := by
    rw [additionalWritten, List.length_append] at hcount
    rw [additionalCount]
    simp only [Bool.true_and, decide_eq_true_eq]
    split at hcount <;> simp_all

/-! Walking over the sections. -/

theorem advance_decodes (e : Bytes) : Decodes (Parser.advance e.length) e () := fun _ _ => rfl

theorem skipQuestion_decodes {q : Question} (h : ∀ l ∈ labelsOf q.name, WireLabel l) :
    Decodes skipQuestion (Builder.question q) () := by
  rw [Builder.question, List.append_assoc]
  exact (builder_name_decodes h).bind' (advance_decodes (Builder.u16 q.qtype.toU16 ++ Builder.u16 q.qclass))

theorem skipRr_decodes {r : Record} (h : ∀ l ∈ labelsOf r.name, WireLabel l) (hlen : r.rdata.length ≤ 65535) :
    Decodes skipRr (Builder.record r) () := by
  have hdata : Decodes (Parser.advance (UInt16.ofNat r.rdata.length).toNat) r.rdata () := by
    rw [UInt16.toNat_ofNat_of_lt' (show r.rdata.length < UInt16.size by unfold UInt16.size; omega)]
    exact advance_decodes r.rdata
  simp only [Builder.record, Builder.u16, Builder.u32, Builder.raw, List.append_assoc]
  exact (builder_name_decodes h).bind' <| (u16_decodes _).bind' <| (u16_decodes _).bind' <| (u32_decodes _).bind' <|
    (u16_decodes _).bind' hdata

/-- Skipping one entry after the other. -/
theorem times_skip_decodes {α : Type} {x : Parser Unit} (enc : α → Bytes) : ∀ {l : List α},
    (∀ a ∈ l, Decodes x (enc a) ()) → Decodes (Reader.times l.length x) (l.flatMap enc) (l.map fun _ => ())
  | [], _ => .pure' []
  | a :: l, h => by
    have htail := times_skip_decodes enc fun a' ha' => h a' (List.mem_cons_of_mem a ha')
    exact (h a List.mem_cons_self).bind' (f := fun u => Reader.times l.length x >>= fun us => Pure.pure (u :: us))
      htail.map'

/-- The walk over the sections of a packet that fits ends where they end. -/
theorem skipSections_decodes {pkt : Packet} {edns : Bool} (h : WireFit pkt edns) :
    Decodes (skipSections pkt.questions.length (writtenRecords pkt edns).length) (sections pkt edns) () := by
  have hrecords : ∀ r ∈ writtenRecords pkt edns, Decodes skipRr (Builder.record r) () := by
    intro r hr
    rcases List.mem_append.mp hr with hr | hr
    · exact skipRr_decodes (h.records r hr).1 (h.records r hr).2
    · split at hr
      · rw [List.mem_singleton.mp hr]
        exact skipRr_decodes (fun l hl => absurd (labelsOf_root ▸ hl) List.not_mem_nil) (Nat.zero_le _)
      · exact absurd hr List.not_mem_nil
  exact (times_skip_decodes Builder.question fun q hq => skipQuestion_decodes (h.questions q hq)).bind'
    (times_skip_decodes Builder.record hrecords).map'

/-! Reading the record back. -/

theorem reading_decodes {α : Type} {p : Parser α} {e : Bytes} {a : α} (h : Decodes p e a) : Decodes (reading p) e a := by
  intro pre post
  rw [reading, h pre post]

/-- The time that 48 bits leave of a time. -/
theorem time48_parts (now : Nat) :
    (UInt16.ofNat ((now >>> 32) &&& 0xFFFF)).toNat <<< 32 ||| (UInt32.ofNat (now &&& 0xFFFFFFFF)).toNat =
      now % 2 ^ 48 := by
  rw [Nat.shiftRight_eq_div_pow, show (0xFFFF : Nat) = 2 ^ 16 - 1 from rfl, show (0xFFFFFFFF : Nat) = 2 ^ 32 - 1 from rfl,
    Nat.and_two_pow_sub_one_eq_mod, Nat.and_two_pow_sub_one_eq_mod,
    UInt16.toNat_ofNat_of_lt' (by unfold UInt16.size; omega), UInt32.toNat_ofNat_of_lt' (by unfold UInt32.size; omega),
    ← Nat.shiftLeft_add_eq_or_of_lt (by omega), Nat.shiftLeft_eq]
  omega

theorem time48_mod (now : Nat) : time48 (now % 2 ^ 48) = time48 now := by
  rw [← time48_parts, time48_join]
  rfl

/-- What is read from the record that was appended. -/
def signedRdata (algorithm : Text) (now : Nat) (mac : Bytes) (origId : UInt16) : TsigRdata where
  algorithm := readName algorithm
  timeSigned := now % 2 ^ 48
  fudge := FUDGE
  mac := mac
  origId := origId
  error := 0
  other := []

theorem tsigRdata_length (algorithm : Text) (now : Nat) {mac : Bytes} (hmac : mac.length = 32) (origId : UInt16) :
    (tsigRdata algorithm now FUDGE mac origId).length = (Builder.name algorithm).length + 48 := by
  simp only [tsigRdata, time48, Builder.u16, Builder.u32, Builder.raw, List.length_append, be16_length, be32_length, hmac]

theorem tsigFields_decodes {algorithm : Text} (h : ∀ l ∈ labelsOf algorithm, WireLabel l) (now : Nat) {mac : Bytes}
    (hmac : mac.length = 32) (origId rdlen : UInt16) :
    Decodes tsigFields (be16 CLASS_ANY ++ (be32 0 ++ (be16 rdlen ++ tsigRdata algorithm now FUDGE mac origId)))
      (signedRdata algorithm now mac origId) := by
  have hmacLen : (UInt16.ofNat mac.length).toNat = mac.length := by rw [hmac]; rfl
  have hbytes : Decodes (Parser.bytes (UInt16.ofNat mac.length).toNat) mac mac := by
    rw [hmacLen]
    exact bytes_decodes mac
  have hother : Decodes (Parser.bytes (0 : UInt16).toNat) [] [] := bytes_decodes []
  rw [signedRdata, ← time48_parts]
  simp only [tsigRdata, time48, Builder.u16, Builder.u32, Builder.raw, List.append_assoc]
  have hlast := (u16_decodes 0).bind' (f := fun otherLen => Parser.bytes otherLen.toNat >>= fun other =>
    (Pure.pure (TsigRdata.mk (readName algorithm) ((UInt16.ofNat ((now >>> 32) &&& 0xFFFF)).toNat <<< 32 |||
      (UInt32.ofNat (now &&& 0xFFFFFFFF)).toNat) FUDGE mac origId 0 other) : Parser TsigRdata)) hother.map'
  rw [List.append_nil] at hlast
  exact (u16_decodes CLASS_ANY).bind' <| (u32_decodes 0).bind' <| (u16_decodes rdlen).bind' <|
    (builder_name_decodes h).bind' <| (u16_decodes _).bind' <| (u32_decodes _).bind' <| (u16_decodes FUDGE).bind' <|
    (u16_decodes _).bind' <| hbytes.bind' <| (u16_decodes origId).bind' <| (u16_decodes 0).bind' hlast

theorem tsigRecord_decodes {keyName algorithm : Text} (hname : ∀ l ∈ labelsOf keyName, WireLabel l)
    (halg : ∀ l ∈ labelsOf algorithm, WireLabel l) (now : Nat) {mac : Bytes} (hmac : mac.length = 32) (origId : UInt16) :
    Decodes tsigRecord (tsigRr keyName algorithm now FUDGE mac origId)
      (readName keyName, signedRdata algorithm now mac origId) := by
  have hfields := tsigFields_decodes halg now hmac origId
    (UInt16.ofNat (tsigRdata algorithm now FUDGE mac origId).length)
  simp only [tsigRr, Builder.u16, Builder.u32, Builder.raw, List.append_assoc]
  exact (reading_decodes (builder_name_decodes hname)).bind' <| (reading_decodes (u16_decodes 250)).bind' <|
    (reading_decodes hfields).map'

/-- Behind sections that are walked over to their end, the last record is read where it stands. -/
theorem lastRecord_run {qd rrs : Nat} {body rr : Bytes} {name : Text} {rdata : TsigRdata}
    (hbody : Decodes (skipSections qd rrs) body ()) (hrr : Decodes tsigRecord rr (name, rdata)) (ar : UInt16)
    (pre : Bytes) :
    (lastRecord qd rrs ar (pre ++ (body ++ rr)) pre.length).1 = .ok ⟨name, rdata, (pre ++ body).length, ar⟩ := by
  have hposition : (Reader.position : Reader TsigError Nat) ((pre ++ body) ++ rr) (pre ++ body).length =
      (.ok (pre ++ body).length, (pre ++ body).length) := rfl
  have hrecord := hrr (pre ++ body) []
  rw [List.append_nil] at hrecord
  rw [lastRecord, (reading_decodes hbody).step, Reader.bind_ok hposition, Reader.bind_ok hrecord]
  rfl

/-! Signed messages. -/

section
variable {pkt : Packet} {edns : Bool} (hfit : WireFit pkt edns) (hmac : Hmac) (now : Nat) {key : TsigKey}
  (hname : ∀ l ∈ labelsOf key.name, WireLabel l) (halg : ∀ l ∈ labelsOf key.algorithm, WireLabel l)

/-- The MAC of a message under a key. -/
def macOf (message : Bytes) (key : TsigKey) : Bytes := hmac.tag key.secret (signPreimage now message key)

/-- The header of a packet, with an ARCOUNT of its own. -/
def headerOf (pkt : Packet) (ar : UInt16) : Bytes :=
  messageHeader pkt.id pkt.flags (UInt16.ofNat pkt.questions.length) (UInt16.ofNat pkt.answers.length)
    (UInt16.ofNat pkt.authority.length) ar

theorem serialize_eq_headerOf (pkt : Packet) (edns : Bool) :
    serialize pkt edns = headerOf pkt (UInt16.ofNat (additionalCount pkt edns)) ++ sections pkt edns :=
  serialize_eq_header pkt edns

/-- Signing counts ARCOUNT up and appends the record. -/
theorem signMessage_eq (pkt : Packet) (edns : Bool) (key : TsigKey) : signMessage hmac now (serialize pkt edns) key =
    headerOf pkt (UInt16.ofNat (additionalCount pkt edns + 1)) ++ (sections pkt edns ++
      tsigRr key.name key.algorithm now FUDGE (macOf hmac now (serialize pkt edns) key) pkt.id) := by
  have hid : u16At (serialize pkt edns) 0 = pkt.id := by
    rw [serialize_eq_headerOf]
    exact (u16At_header _ _ _ _ _ _ _).1
  have har : UInt16.ofNat (additionalCount pkt edns) + 1 = UInt16.ofNat (additionalCount pkt edns + 1) := by
    apply UInt16.toNat_inj.mp
    simp
  have hmac_eq : hmac.tag key.secret (signPreimage now (serialize pkt edns) key) =
      macOf hmac now (serialize pkt edns) key := rfl
  simp only [signMessage, hid, hmac_eq]
  generalize macOf hmac now (serialize pkt edns) key = mac
  rw [serialize_eq_headerOf, List.append_assoc, headerOf, (u16At_header _ _ _ _ _ _ _).2.2.2.2, setArcount_header, har]
  rfl

include hfit in
theorem counts_toNat : (UInt16.ofNat pkt.questions.length).toNat = pkt.questions.length ∧
    (UInt16.ofNat pkt.answers.length).toNat + (UInt16.ofNat pkt.authority.length).toNat +
      (UInt16.ofNat (additionalCount pkt edns + 1)).toNat - 1 = (writtenRecords pkt edns).length := by
  have h1 := hfit.question_count
  have h2 := hfit.answer_count
  have h3 := hfit.authority_count
  have h4 := hfit.additional_count
  rw [writtenRecords_length, UInt16.toNat_ofNat_of_lt' h1, UInt16.toNat_ofNat_of_lt' h2, UInt16.toNat_ofNat_of_lt' h3,
    UInt16.toNat_ofNat_of_lt' (show additionalCount pkt edns + 1 < UInt16.size by unfold UInt16.size; omega)]
  omega

/-- What a verifier reads from the signed message. -/
def signedTsig (hmac : Hmac) (now : Nat) (pkt : Packet) (edns : Bool) (key : TsigKey) : ExtractedTsig where
  name := readName key.name
  rdata := signedRdata key.algorithm now (macOf hmac now (serialize pkt edns) key) pkt.id
  offset := (serialize pkt edns).length
  arcount := UInt16.ofNat (additionalCount pkt edns + 1)

include hfit hname halg in
/-- The record is found where the message ended, with what was written into it. -/
theorem extractTsig_signMessage :
    extractTsig (signMessage hmac now (serialize pkt edns) key) = .ok (signedTsig hmac now pkt edns key) := by
  obtain ⟨hqd, hrrs⟩ := counts_toNat hfit
  set mac := macOf hmac now (serialize pkt edns) key with hm
  set rr := tsigRr key.name key.algorithm now FUDGE mac pkt.id with hrr
  have hmac32 : mac.length = 32 := hmac.length_tag _ _
  obtain ⟨-, hqdAt, hanAt, hnsAt, harAt⟩ := u16At_header pkt.id pkt.flags (UInt16.ofNat pkt.questions.length)
    (UInt16.ofNat pkt.answers.length) (UInt16.ofNat pkt.authority.length)
    (UInt16.ofNat (additionalCount pkt edns + 1)) (sections pkt edns ++ rr)
  rw [signMessage_eq, ← hm, ← hrr, extractTsig, headerOf]
  simp only [hqdAt, hanAt, hnsAt, harAt]
  have har : UInt16.ofNat (additionalCount pkt edns + 1) ≠ 0 := by
    intro h0
    have := congrArg UInt16.toNat h0
    rw [UInt16.toNat_ofNat_of_lt' (by have := hfit.additional_count; unfold UInt16.size; omega)] at this
    exact absurd this (Nat.succ_ne_zero _)
  rw [if_neg (by simp), if_neg har, hqd, hrrs]
  have hoffset : (headerOf pkt (UInt16.ofNat (additionalCount pkt edns + 1)) ++ sections pkt edns).length =
      (serialize pkt edns).length := by
    rw [serialize_eq_headerOf, List.length_append, List.length_append]
    rfl
  have hrun := lastRecord_run (skipSections_decodes hfit) (tsigRecord_decodes hname halg now hmac32 pkt.id)
    (UInt16.ofNat (additionalCount pkt edns + 1)) (headerOf pkt (UInt16.ofNat (additionalCount pkt edns + 1)))
  rw [hoffset] at hrun
  exact hrun

include hfit in
/-- Behind the record's removal stands the message that was signed. -/
theorem unsigned_signMessage :
    unsigned (signMessage hmac now (serialize pkt edns) key) (signedTsig hmac now pkt edns key) = serialize pkt edns := by
  have hcount := hfit.additional_count
  have hdown : UInt16.ofNat ((UInt16.ofNat (additionalCount pkt edns + 1)).toNat - 1) =
      UInt16.ofNat (additionalCount pkt edns) := by
    rw [UInt16.toNat_ofNat_of_lt' (by unfold UInt16.size; omega), Nat.add_sub_cancel]
  have htake : (signMessage hmac now (serialize pkt edns) key).take (serialize pkt edns).length =
      headerOf pkt (UInt16.ofNat (additionalCount pkt edns + 1)) ++ sections pkt edns := by
    rw [signMessage_eq, ← List.append_assoc, serialize_eq_headerOf]
    exact List.take_left' (by simp [headerOf])
  rw [unsigned]
  simp only [signedTsig, signedRdata, htake, hdown]
  rw [headerOf, setId_header, setArcount_header, serialize_eq_header]

/-- What a verifier hashes for a signed message: the message and the names as it read them. -/
def readPreimage (now : Nat) (message : Bytes) (key : TsigKey) : Bytes :=
  message ++ tsigVariables (readName key.name) (readName key.algorithm) now FUDGE 0 []

include hfit in
theorem verifyPreimage_signMessage : verifyPreimage (signMessage hmac now (serialize pkt edns) key)
    (signedTsig hmac now pkt edns key) = readPreimage now (serialize pkt edns) key := by
  rw [verifyPreimage, unsigned_signMessage hfit]
  simp only [signedTsig, signedRdata, tsigVariables, time48_mod, readPreimage]

include hfit hname halg in
/-- The verification of a signed message: by the names as they are read, the clock and the two tags. -/
theorem authenticated_signMessage (t : Nat) (keyring : TsigKeyring) (key' : TsigKey) :
    Authenticated hmac t keyring (signMessage hmac now (serialize pkt edns) key) key' ↔
      keyring.get (readName key.name) = some key' ∧
        HMAC_SHA256.isPrefixOf (canonical (readName key.algorithm)) = true ∧
        (((now % 2 ^ 48 : Nat) : Int) - t).natAbs ≤ 300 ∧
        hmac.tag key'.secret (readPreimage now (serialize pkt edns) key) =
          hmac.tag key.secret (signPreimage now (serialize pkt edns) key) := by
  have hextract := extractTsig_signMessage hfit hmac now hname halg
  have hpre : _ = readPreimage now (serialize pkt edns) key := verifyPreimage_signMessage hfit hmac now
  rw [authenticated_iff]
  constructor
  · rintro ⟨t', ht', hget, hv⟩
    obtain rfl := Except.ok.inj (hextract.symm.trans ht')
    refine ⟨hget, hv.algorithm, hv.time, ?_⟩
    rw [← hpre, hv.mac]
    rfl
  · rintro ⟨hget, hprefix, htime, htag⟩
    refine ⟨_, hextract, hget, hprefix, htime, ?_⟩
    rw [hpre, htag]
    rfl

end

/-! Names of keys. -/

/-- A name written with dots, with or without one at its end. -/
def Spells (s : Text) (n : DomainName) : Prop :=
  s = ['.'].intercalate n.labels ∨ s = ['.'].intercalate n.labels ++ ['.']

/-- Joined labels do not end with a dot. -/
theorem getLast?_intercalate {ls : List Text} (hd : ∀ l ∈ ls, '.' ∉ l) (hn : ∀ l ∈ ls, l ≠ []) :
    (['.'].intercalate ls).getLast? ≠ some '.' := by
  by_cases hnil : ls = []
  · rw [hnil]; simp
  · have hself : trimEndMatches '.' (['.'].intercalate ls) = ['.'].intercalate ls := by
      apply trimEndMatches_eq_self_of_splitOn
      rw [List.splitOn_intercalate '.' hd hnil]
      exact fun h => hn [] h rfl
    rw [← hself]
    exact trimEndMatches_getLast? _

theorem IsLabel.lower {l : Text} (h : IsLabel l) : '.' ∉ toAsciiLowercase l ∧ toAsciiLowercase l ≠ [] := by
  refine ⟨fun hdot => ?_, fun hnil => h.ne_nil (toAsciiLowercase_eq_nil.mp hnil)⟩
  obtain ⟨c, hc, hlow⟩ := List.mem_map.mp hdot
  exact h.no_dot ((toLower_eq_iff_of_not_alpha dot_not_alpha).mp hlow ▸ hc)

theorem getLast?_lower_labels (n : DomainName) :
    (['.'].intercalate (n.labels.map toAsciiLowercase)).getLast? ≠ some '.' := by
  have hlower : ∀ l ∈ n.labels.map toAsciiLowercase, '.' ∉ l ∧ l ≠ [] := by
    intro l hl
    obtain ⟨l', hl', rfl⟩ := List.mem_map.mp hl
    exact (n.wf l' hl').lower
  exact getLast?_intercalate (fun l hl => (hlower l hl).1) fun l hl => (hlower l hl).2

namespace Spells
variable {s : Text} {n : DomainName}

theorem labelsOf_eq (h : Spells s n) : labelsOf s = n.labels := by
  have hpieces : labelsOf (['.'].intercalate n.labels) = n.labels :=
    pieces_intercalate (fun l hl => (n.wf l hl).no_dot) fun l hl => (n.wf l hl).ne_nil
  rcases h with rfl | rfl
  · exact hpieces
  · rw [labelsOf_append_dot, hpieces]; simp

theorem wireLabel (h : Spells s n) : ∀ l ∈ labelsOf s, WireLabel l := by
  rw [h.labelsOf_eq]
  exact fun l hl => (n.wf l hl).wireLabel

/-- Whatever its spelling, a key's name is filed under the lower-case labels with a dot behind each. -/
theorem canonical_eq (h : Spells s n) :
    canonical s = ['.'].intercalate (n.labels.map toAsciiLowercase) ++ ['.'] := by
  have hlast := getLast?_lower_labels n
  rcases h with rfl | rfl
  · rw [canonical, toAsciiLowercase_intercalate]
    simp only [if_neg hlast]
  · rw [canonical, toAsciiLowercase_append, toAsciiLowercase_intercalate]
    simp [toAsciiLowercase_cons]

/-- ... and so is the name a verifier reads. -/
theorem canonical_readName (h : Spells s n) : canonical (readName s) = canonical s := by
  have hread : readName s = Parser.joinLabels (n.labels.map toAsciiLowercase) := by rw [readName, h.labelsOf_eq]
  have hlast := getLast?_lower_labels n
  rw [h.canonical_eq, hread, Parser.joinLabels]
  split
  · next hnil => rw [hnil]; rfl
  · have hlow : toAsciiLowercase (['.'].intercalate (n.labels.map toAsciiLowercase)) =
        ['.'].intercalate (n.labels.map toAsciiLowercase) := by
      rw [toAsciiLowercase_intercalate, List.map_map]
      exact congrArg _ (List.map_congr_left fun l _ => toAsciiLowercase_idem l)
    rw [canonical, hlow]
    simp only [if_neg hlast]

end Spells

theorem mem_intercalate {c : Char} : ∀ {ls : List Text}, c ∈ ['.'].intercalate ls → c = '.' ∨ ∃ l ∈ ls, c ∈ l
  | [], h => by simp at h
  | [l], h => .inr ⟨l, List.mem_cons_self, by simpa using h⟩
  | l :: l' :: ls, h => by
    have hcons : ['.'].intercalate (l :: l' :: ls) = l ++ '.' :: ['.'].intercalate (l' :: ls) := by simp
    rw [hcons, List.mem_append, List.mem_cons] at h
    rcases h with h | h | h
    · exact .inr ⟨l, List.mem_cons_self, h⟩
    · exact .inl h
    · rcases mem_intercalate h with h | ⟨p, hp, hc⟩
      · exact .inl h
      · exact .inr ⟨p, List.mem_cons_of_mem _ hp, hc⟩

/-- Text is in lower case exactly when its labels are: a dot has no case. -/
theorem labels_lower_iff (s : Text) :
    (labelsOf s).map toAsciiLowercase = labelsOf s ↔ toAsciiLowercase s = s := by
  constructor
  · intro e
    have hchar : ∀ c ∈ s, c.toLower = c := by
      intro c hc
      rw [← @List.intercalate_splitOn _ s _ _ '.'] at hc
      rcases mem_intercalate hc with rfl | ⟨l, hl, hcl⟩
      · exact (toLower_eq_iff_of_not_alpha dot_not_alpha).mpr rfl
      · have hmem : l ∈ labelsOf s := List.mem_filter.mpr ⟨hl, by simpa using List.ne_nil_of_mem hcl⟩
        have hl' : toAsciiLowercase l = l := map_eq_self_iff.mp e l hmem
        exact map_eq_self_iff.mp hl' c hcl
    exact map_eq_self_iff.mpr hchar
  · intro e
    rw [← labelsOf_lower, e]

/-- The algorithm, in any letter case, with a dot behind it or without. -/
def IsHmacSha256 (algorithm : Text) : Prop :=
  toAsciiLowercase algorithm = HMAC_SHA256 ∨ toAsciiLowercase algorithm = HMAC_SHA256 ++ ['.']

theorem IsHmacSha256.labels {a : Text} (h : IsHmacSha256 a) : (labelsOf a).map toAsciiLowercase = [HMAC_SHA256] := by
  rw [← labelsOf_lower]
  rcases h with h | h <;> rw [h] <;> decide

theorem IsHmacSha256.wireLabel {a : Text} (h : IsHmacSha256 a) : ∀ l ∈ labelsOf a, WireLabel l := by
  intro l hl
  have hlow : toAsciiLowercase l ∈ (labelsOf a).map toAsciiLowercase := List.mem_map_of_mem hl
  rw [h.labels, List.mem_singleton] at hlow
  rw [WireLabel, ← utf8_length_lower, hlow]
  decide

theorem IsHmacSha256.readName_eq {a : Text} (h : IsHmacSha256 a) : readName a = HMAC_SHA256 := by
  rw [readName, h.labels]
  rfl

/-! The round trip. -/

section
variable {pkt : Packet} {edns : Bool} {key : TsigKey} {keyring : TsigKeyring} {n : DomainName}

/-- The names as they are read give the same HMAC input exactly when they are in lower case. -/
theorem readPreimage_eq_iff (hname : ∀ l ∈ labelsOf key.name, WireLabel l)
    (halg : ∀ l ∈ labelsOf key.algorithm, WireLabel l) (now : Nat) (message : Bytes) :
    readPreimage now message key = signPreimage now message key ↔
      toAsciiLowercase key.name = key.name ∧ toAsciiLowercase key.algorithm = key.algorithm := by
  have hread : ∀ {s : Text}, (∀ l ∈ labelsOf s, WireLabel l) → ∀ l ∈ labelsOf (readName s), WireLabel l := by
    intro s hs
    rw [labelsOf_readName]
    exact wireLabel_lower hs
  rw [readPreimage, signPreimage, List.append_right_inj, ← labels_lower_iff, ← labels_lower_iff,
    ← builder_readName_iff, ← builder_readName_iff]
  constructor
  · intro e
    simp only [tsigVariables, Builder.u16, Builder.u32, List.append_assoc] at e
    obtain ⟨hn, e⟩ := builder_name_append_inj (hread hname) hname e
    obtain ⟨-, e⟩ := be16_append_inj e
    obtain ⟨-, e⟩ := be32_append_inj e
    exact ⟨hn, (builder_name_append_inj (hread halg) halg e).1⟩
  · rintro ⟨hn, ha⟩
    simp only [tsigVariables, hn, ha]

/-- The verification of a message signed with a key of the keyring comes down to the clock and the two tags. -/
theorem verifyMessage_signMessage_iff (hfit : WireFit pkt edns) (hname : Spells key.name n)
    (halg : IsHmacSha256 key.algorithm) (hkey : keyring.get key.name = some key) (hmac : Hmac) (now t : Nat) :
    verifyMessage hmac t (signMessage hmac now (serialize pkt edns) key) keyring = .ok () ↔
      (((now % 2 ^ 48 : Nat) : Int) - t).natAbs ≤ 300 ∧ hmac.tag key.secret (readPreimage now (serialize pkt edns) key) =
        hmac.tag key.secret (signPreimage now (serialize pkt edns) key) := by
  have hget : keyring.get (readName key.name) = some key := by
    rw [TsigKeyring.get, hname.canonical_readName]
    exact hkey
  have hprefix : HMAC_SHA256.isPrefixOf (canonical (readName key.algorithm)) = true := by
    rw [halg.readName_eq]
    decide
  have hauth := authenticated_signMessage hfit hmac now hname.wireLabel halg.wireLabel t keyring key
  constructor
  · intro h
    obtain ⟨t', key', ht', hget', hv⟩ := verifyMessage_eq_ok_iff.mp h
    obtain rfl := Except.ok.inj ((extractTsig_signMessage hfit hmac now hname.wireLabel halg.wireLabel).symm.trans ht')
    obtain rfl := Option.some.inj (hget.symm.trans hget')
    exact (hauth.mp ⟨h, _, ht', hget'⟩).2.2
  · rintro ⟨htime, htag⟩
    exact (hauth.mpr ⟨hget, hprefix, htime, htag⟩).1

/-- With a name and an algorithm in lower case, what was signed is authenticated at once. -/
theorem authenticated_of_lower (hfit : WireFit pkt edns) (hname : Spells key.name n) (halg : IsHmacSha256 key.algorithm)
    (hkey : keyring.get key.name = some key) (hlower : toAsciiLowercase key.name = key.name)
    (halgLower : toAsciiLowercase key.algorithm = key.algorithm) (hmac : Hmac) {now : Nat} (hnow : now < 2 ^ 48) :
    Authenticated hmac now keyring (signMessage hmac now (serialize pkt edns) key) key := by
  refine (authenticated_signMessage hfit hmac now hname.wireLabel halg.wireLabel now keyring key).mpr ⟨?_, ?_, ?_, ?_⟩
  · rw [TsigKeyring.get, hname.canonical_readName]
    exact hkey
  · rw [halg.readName_eq]
    decide
  · rw [Nat.mod_eq_of_lt hnow]
    omega
  · rw [(readPreimage_eq_iff hname.wireLabel halg.wireLabel now _).mpr ⟨hlower, halgLower⟩]

/-- An HMAC that gives one message a tag of its own. -/
def markOne (m : Bytes) : Hmac where
  tag := fun _ message => List.replicate 32 (if message = m then 0 else 1)
  length_tag := fun _ _ => List.length_replicate

/-- **Verify accepts what sign produces**, for every HMAC and at every time within the fudge of signing, exactly
    when the key's name and algorithm are written in lower case and the time of signing fits into 48 bits. -/
theorem signMessage_verifies_iff (hfit : WireFit pkt edns) (hname : Spells key.name n)
    (halg : IsHmacSha256 key.algorithm) (hkey : keyring.get key.name = some key) (now : Nat) :
    (∀ (hmac : Hmac) (t : Nat), ((t : Int) - now).natAbs ≤ 300 →
        verifyMessage hmac t (signMessage hmac now (serialize pkt edns) key) keyring = .ok ()) ↔
      toAsciiLowercase key.name = key.name ∧ toAsciiLowercase key.algorithm = key.algorithm ∧ now < 2 ^ 48 := by
  have hiff := fun hmac t => verifyMessage_signMessage_iff hfit hname halg hkey hmac now t
  constructor
  · intro h
    -- an HMAC that tells the two inputs apart
    have hmark := (hiff (markOne (signPreimage now (serialize pkt edns) key)) now).mp (h _ now (by simp))
    have hsame : readPreimage now (serialize pkt edns) key = signPreimage now (serialize pkt edns) key := by
      by_contra hne
      have htag := hmark.2
      simp only [markOne, if_neg hne, if_true] at htag
      exact absurd htag (by decide)
    obtain ⟨hn, ha⟩ := (readPreimage_eq_iff hname.wireLabel halg.wireLabel now _).mp hsame
    refine ⟨hn, ha, ?_⟩
    have := hmark.1
    omega
  · rintro ⟨hn, ha, hnow⟩ hmac t ht
    refine (hiff hmac t).mpr ⟨?_, ?_⟩
    · rw [Nat.mod_eq_of_lt hnow]; omega
    · rw [(readPreimage_eq_iff hname.wireLabel halg.wireLabel now _).mpr ⟨hn, ha⟩]

end

/-! Keys named by one letter, in either case. -/

def emptyPacket : Packet := ⟨7, 0, [], [], [], [], 0, false⟩

def letterKey (c : Char) : TsigKey := ⟨[c, '.'], HMAC_SHA256, [1, 2, 3]⟩

def letterName (c : Char) (h : c = 'k' ∨ c = 'K') : DomainName where
  labels := [[c]]
  wf := by
    intro l hl
    rw [List.mem_singleton.mp hl]
    rcases h with rfl | rfl <;> exact ⟨by decide, by decide, by decide⟩

theorem emptyPacket_fits : WireFit emptyPacket false :=
  ⟨fun _ h => absurd h List.not_mem_nil, fun _ h => absurd h List.not_mem_nil, by decide, by decide, by decide, by decide⟩

/-- A response with a question, an answer and an OPT record, under a key in lower case. -/
theorem signMessage_verifies_letterKey :
    (∀ (hmac : Hmac) (t : Nat), ((t : Int) - (1000 : Nat)).natAbs ≤ 300 →
        verifyMessage hmac t (signMessage hmac 1000 (serialize mxPacket true) (letterKey 'k'))
          (TsigKeyring.new.insert (letterKey 'k')) = .ok ()) ↔
      toAsciiLowercase ['k', '.'] = ['k', '.'] ∧ toAsciiLowercase HMAC_SHA256 = HMAC_SHA256 ∧ 1000 < 2 ^ 48 :=
  have hfit : WireFit mxPacket true := mxPacket_expanded.wireFit (by decide) (by decide)
  signMessage_verifies_iff hfit (n := letterName 'k' (.inl rfl)) (.inr rfl) (.inl (by decide))
    (TsigKeyring.get_insert _ (letterKey 'k')) 1000

/-- A key with a capital letter: the verifier hashes another name, and some HMAC gives it another tag. -/
theorem capitalKey_not_verified : ∃ hmac : Hmac,
    verifyMessage hmac 1000 (signMessage hmac 1000 (serialize emptyPacket false) (letterKey 'K'))
      (TsigKeyring.new.insert (letterKey 'K')) ≠ .ok () := by
  refine ⟨markOne (signPreimage 1000 (serialize emptyPacket false) (letterKey 'K')), fun h => ?_⟩
  obtain ⟨-, htag⟩ := (verifyMessage_signMessage_iff emptyPacket_fits (n := letterName 'K' (.inr rfl)) (.inr rfl)
    (.inl (by decide)) (TsigKeyring.get_insert _ (letterKey 'K')) _ 1000 1000).mp h
  revert htag
  decide

end Ironbind
