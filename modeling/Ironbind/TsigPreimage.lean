import Ironbind.NameInjective
import Ironbind.PacketRoundTrip
import Ironbind.Tsig

/- What the MAC of a message covers. The walk over the sections of a message reads
   nothing behind the point it stops at but what a compression pointer leads to, and
   where it stops does not depend on that (`skipSections_sameRun`). So two messages
   with one HMAC input agree octet by octet up to their TSIG records, which stand at
   the same offset, and then in every variable (`verifyPreimage_injective`). -/
namespace Ironbind
open Codec

/-! Where reads stop. -/

theorem nameLoop_jumped {buf : Bytes} : ∀ (fuel : Nat) {parts : List Text} {selfPos pos jumps : Nat} {res : List Text}
    {stop : Nat}, Parser.nameLoop buf fuel parts selfPos pos true jumps = (.ok res, stop) → stop = selfPos
  | 0, _, _, _, _, _, _, h => by cases h
  | fuel + 1, parts, selfPos, pos, jumps, res, stop, h => by
    obtain ⟨b, -, ⟨-, -, hstop⟩ | ⟨-, -, lo, -, -, h⟩ | ⟨-, -, -, h⟩⟩ := nameLoop_ok h
    · exact hstop
    · exact nameLoop_jumped fuel h
    · exact nameLoop_jumped fuel h

/-- One pass over a name in which no pointer has been followed yet. -/
theorem nameLoop_cases {buf : Bytes} {fuel : Nat} {parts : List Text} {selfPos pos jumps : Nat} {res : List Text}
    {stop : Nat} (h : Parser.nameLoop buf (fuel + 1) parts selfPos pos false jumps = (.ok res, stop)) :
    ∃ b, buf[pos]? = some b ∧
      ((b = 0 ∧ stop = pos + 1) ∨ (b ≠ 0 ∧ b &&& 0xC0 = 0xC0 ∧ stop = pos + 2) ∨
        (b ≠ 0 ∧ b &&& 0xC0 ≠ 0xC0 ∧ ∃ parts', Parser.nameLoop buf fuel parts' selfPos (pos + 1 + b.toNat) false jumps =
          (.ok res, stop))) := by
  obtain ⟨b, hb, ⟨h0, -, hstop⟩ | ⟨hp, h0, lo, -, -, h⟩ | ⟨hp, h0, -, h⟩⟩ := nameLoop_ok h
  · exact ⟨b, hb, .inl ⟨h0, hstop⟩⟩
  · exact ⟨b, hb, .inr (.inl ⟨h0, hp, nameLoop_jumped fuel h⟩)⟩
  · exact ⟨b, hb, .inr (.inr ⟨h0, hp, _, h⟩)⟩

theorem nameLoop_forward {buf : Bytes} : ∀ (fuel : Nat) {parts : List Text} {selfPos pos jumps : Nat} {res : List Text}
    {stop : Nat}, Parser.nameLoop buf fuel parts selfPos pos false jumps = (.ok res, stop) → pos < stop
  | 0, _, _, _, _, _, _, h => by cases h
  | fuel + 1, parts, selfPos, pos, jumps, res, stop, h => by
    obtain ⟨b, _, ⟨_, rfl⟩ | ⟨_, _, rfl⟩ | ⟨_, _, parts', h⟩⟩ := nameLoop_cases h
    · exact Nat.lt_succ_self pos
    · omega
    · have := nameLoop_forward fuel h
      omega

theorem nameLoop_same {buf buf' : Bytes} : ∀ (fuel fuel' : Nat) {parts parts' : List Text} {selfPos selfPos' pos jumps
    jumps' : Nat} {res res' : List Text} {stop stop' : Nat},
    Parser.nameLoop buf fuel parts selfPos pos false jumps = (.ok res, stop) →
    Parser.nameLoop buf' fuel' parts' selfPos' pos false jumps' = (.ok res', stop') → AgreeOn buf buf' pos stop →
      stop = stop'
  | 0, _, _, _, _, _, _, _, _, _, _, _, _, h, _, _ => by cases h
  | _ + 1, 0, _, _, _, _, _, _, _, _, _, _, _, _, h, _ => by cases h
  | fuel + 1, fuel' + 1, parts, parts', selfPos, selfPos', pos, jumps, jumps', res, res', stop, stop', h, h', hag => by
    have hlt := nameLoop_forward _ h
    obtain ⟨b, hb, hcases⟩ := nameLoop_cases h
    obtain ⟨b', hb', hcases'⟩ := nameLoop_cases h'
    obtain rfl : b = b' := Option.some.inj (hb.symm.trans ((hag pos (Nat.le_refl _) hlt).trans hb'))
    -- the octet under the cursor decides both
    rcases hcases with ⟨h0, rfl⟩ | ⟨h0, hp, rfl⟩ | ⟨h0, hp, _, hrest⟩ <;>
      rcases hcases' with ⟨h0', rfl⟩ | ⟨h0', hp', rfl⟩ | ⟨h0', hp', _, hrest'⟩ <;> first | rfl | contradiction | skip
    exact nameLoop_same fuel fuel' hrest hrest' (hag.mono (by omega) (Nat.le_refl _))

theorem nameParts_forward : Forward Parser.nameParts := fun _ _ _ _ h => Nat.le_of_lt (nameLoop_forward _ h)

theorem nameParts_sameRun : SameRun Parser.nameParts Parser.nameParts fun _ _ => True :=
  fun _ _ _ _ _ _ _ h h' hag => ⟨nameLoop_same _ _ h h' hag, trivial⟩

theorem name_forward : Forward Parser.name := nameParts_forward.bind' fun _ => .pure' _

theorem name_sameRun : SameRun Parser.name Parser.name fun _ _ => True :=
  nameParts_sameRun.bind' nameParts_forward (fun _ => .pure' _) fun _ _ _ => .pure' trivial

theorem u8_run {b : Bytes} {p q : Nat} {v : UInt8} (h : Parser.u8 b p = (.ok v, q)) : b[p]? = some v ∧ q = p + 1 := by
  obtain ⟨a, p', hpeek, hrest⟩ := Reader.bind_eq_ok h
  cases hb : b[p]? with
  | none => simp only [Parser.peek, hb] at hpeek; cases hpeek
  | some w =>
    simp only [Parser.peek, hb] at hpeek
    cases hpeek
    cases hrest
    exact ⟨rfl, rfl⟩

theorem u16_run {b : Bytes} {p q : Nat} {v : UInt16} (h : Parser.u16 b p = (.ok v, q)) :
    v = u16At b p ∧ q = p + 2 ∧ p + 2 ≤ b.length := by
  obtain ⟨hi, p', hhi, h⟩ := Reader.bind_eq_ok h
  obtain ⟨lo, p'', hlo, h⟩ := Reader.bind_eq_ok h
  obtain ⟨hbhi, rfl⟩ := u8_run hhi
  obtain ⟨hblo, rfl⟩ := u8_run hlo
  cases h
  rw [u16At, List.getD_eq_getElem?_getD, List.getD_eq_getElem?_getD, hbhi, hblo]
  exact ⟨rfl, rfl, (List.getElem?_eq_some_iff.mp hblo).1⟩

theorem u8_forward : Forward Parser.u8 := fun _ p _ _ h => by rw [(u8_run h).2]; exact Nat.le_succ p

theorem u8_sameRun : SameRun Parser.u8 Parser.u8 Eq := by
  intro b b' p q q' v v' h h' hag
  obtain ⟨hb, rfl⟩ := u8_run h
  obtain ⟨hb', rfl⟩ := u8_run h'
  have := hag p (Nat.le_refl p) (Nat.lt_succ_self p)
  rw [hb, hb'] at this
  exact ⟨rfl, Option.some.inj this⟩

theorem u16_forward : Forward Parser.u16 := u8_forward.bind' fun _ => u8_forward.bind' fun _ => .pure' _

theorem u16_sameRun : SameRun Parser.u16 Parser.u16 Eq :=
  u8_sameRun.bind' u8_forward (fun _ => u8_forward.bind' fun _ => .pure' _) fun _ _ e =>
    u8_sameRun.bind' u8_forward (fun _ => .pure' _) fun _ _ e' => .pure' (by rw [e, e'])

theorem u32_forward : Forward Parser.u32 := u16_forward.bind' fun _ => u16_forward.bind' fun _ => .pure' _

theorem u32_sameRun : SameRun Parser.u32 Parser.u32 Eq :=
  u16_sameRun.bind' u16_forward (fun _ => u16_forward.bind' fun _ => .pure' _) fun _ _ e =>
    u16_sameRun.bind' u16_forward (fun _ => .pure' _) fun _ _ e' => .pure' (by rw [e, e'])

theorem advance_forward (n : Nat) : Forward (Parser.advance n) := by
  intro b p q _ h
  cases h
  exact Nat.le_add_right p n

theorem advance_sameRun (n : Nat) : SameRun (Parser.advance n) (Parser.advance n) fun _ _ => True := by
  intro b b' p q q' _ _ h h' _
  cases h
  cases h'
  exact ⟨rfl, trivial⟩

theorem skipQuestion_forward : Forward skipQuestion := name_forward.bind' fun _ => advance_forward 4

theorem skipQuestion_sameRun : SameRun skipQuestion skipQuestion fun _ _ => True :=
  name_sameRun.bind' name_forward (fun _ => advance_forward 4) fun _ _ _ => advance_sameRun 4

/-- The fixed fields of a record in front of its data. -/
def skipFields : Parser Unit := do
  let _ ← Parser.u16
  let _ ← Parser.u16
  let _ ← Parser.u32
  let rdlen ← Parser.u16
  Parser.advance rdlen.toNat

theorem skipFields_forward : Forward skipFields :=
  u16_forward.bind' fun _ => u16_forward.bind' fun _ => u32_forward.bind' fun _ => u16_forward.bind' fun _ =>
    advance_forward _

theorem skipFields_sameRun : SameRun skipFields skipFields fun _ _ => True := by
  have hlast : ∀ v : UInt16, Forward (Parser.advance v.toNat) := fun v => advance_forward _
  have h4 : Forward (Parser.u16 >>= fun v => Parser.advance v.toNat) := u16_forward.bind' hlast
  have h3 : Forward (Parser.u32 >>= fun _ => Parser.u16 >>= fun v => Parser.advance v.toNat) :=
    u32_forward.bind' fun _ => h4
  refine u16_sameRun.bind' u16_forward (fun _ => u16_forward.bind' fun _ => h3) fun _ _ _ => ?_
  refine u16_sameRun.bind' u16_forward (fun _ => h3) fun _ _ _ => ?_
  refine u32_sameRun.bind' u32_forward (fun _ => h4) fun _ _ _ => ?_
  -- equal lengths are skipped alike
  refine u16_sameRun.bind' u16_forward hlast fun v v' e => ?_
  rw [← e]
  exact advance_sameRun _

theorem skipRr_forward : Forward skipRr := name_forward.bind' fun _ => skipFields_forward

theorem skipRr_sameRun : SameRun skipRr skipRr fun _ _ => True :=
  name_sameRun.bind' name_forward (fun _ => skipFields_forward) fun _ _ _ => skipFields_sameRun

theorem skipSections_forward (qd rrs : Nat) : Forward (skipSections qd rrs) :=
  (skipQuestion_forward.times qd).bind' fun _ => (skipRr_forward.times rrs).bind' fun _ => .pure' _

/-- The walk over the sections stops where the octets it passes over say. -/
theorem skipSections_sameRun (qd rrs : Nat) : SameRun (skipSections qd rrs) (skipSections qd rrs) fun _ _ => True := by
  have hrrs : Forward (Reader.times rrs skipRr >>= fun _ => (pure () : Parser Unit)) :=
    (skipRr_forward.times rrs).bind' fun _ => .pure' _
  exact (SameRun.times skipQuestion_forward skipQuestion_sameRun qd).bind' (skipQuestion_forward.times qd)
    (fun _ => hrrs) fun _ _ _ => (SameRun.times skipRr_forward skipRr_sameRun rrs).bind' (skipRr_forward.times rrs)
      (fun _ => .pure' _) fun _ _ _ => .pure' trivial

/-! What a successful parse has read. -/

/-- The header and the sections of a message that parses, the additional one with its OPT records. -/
structure ParsedSections (data : Bytes) (pkt : Packet) : Prop where
  length : 12 ≤ data.length
  id : pkt.id = u16At data 0
  flags : pkt.flags = u16At data 2
  sections : ∃ p1 p2 p3 p4 raw,
    Reader.times (u16At data 4).toNat Parser.question data 12 = (.ok pkt.questions, p1) ∧
    Reader.times (u16At data 6).toNat Parser.record data p1 = (.ok pkt.answers, p2) ∧
    Reader.times (u16At data 8).toNat Parser.record data p2 = (.ok pkt.authority, p3) ∧
    Reader.times (u16At data 10).toNat Parser.record data p3 = (.ok raw, p4) ∧
    pkt.additional = raw.filter fun r => r.rtype ≠ .OPT

theorem parsedSections_of_parse {data : Bytes} {pkt : Packet} (h : parsePacket data = .ok pkt) :
    ParsedSections data pkt := by
  obtain ⟨stop, h⟩ : ∃ stop, Parser.parse data 0 = (.ok pkt, stop) := ⟨_, Prod.ext h rfl⟩
  obtain ⟨id, _, hid, h⟩ := Reader.bind_eq_ok h
  obtain ⟨flags, _, hflags, h⟩ := Reader.bind_eq_ok h
  obtain ⟨qdcount, _, hqd, h⟩ := Reader.bind_eq_ok h
  obtain ⟨ancount, _, han, h⟩ := Reader.bind_eq_ok h
  obtain ⟨nscount, _, hns, h⟩ := Reader.bind_eq_ok h
  obtain ⟨arcount, _, har, h⟩ := Reader.bind_eq_ok h
  obtain ⟨rfl, rfl, -⟩ := u16_run hid
  obtain ⟨rfl, rfl, -⟩ := u16_run hflags
  obtain ⟨rfl, rfl, -⟩ := u16_run hqd
  obtain ⟨rfl, rfl, -⟩ := u16_run han
  obtain ⟨rfl, rfl, -⟩ := u16_run hns
  obtain ⟨rfl, rfl, hlength⟩ := u16_run har
  obtain ⟨questions, p1, hquestions, h⟩ := Reader.bind_eq_ok h
  obtain ⟨answers, p2, hanswers, h⟩ := Reader.bind_eq_ok h
  obtain ⟨authority, p3, hauthority, h⟩ := Reader.bind_eq_ok h
  obtain ⟨raw, p4, hraw, h⟩ := Reader.bind_eq_ok h
  cases h
  exact ⟨hlength, rfl, rfl, p1, p2, p3, _, raw, hquestions, hanswers, hauthority, hraw, rfl⟩

/-! What a successful extraction has read. -/

theorem reading_ok {α : Type} {p : Parser α} {b : Bytes} {pos stop : Nat} {a : α}
    (h : reading p b pos = (.ok a, stop)) : p b pos = (.ok a, stop) := by
  unfold reading at h
  split at h
  · next heq => cases h; exact heq
  · cases h

/-- The variables of a TSIG record as the parser leaves them. -/
structure ParsedTsig (message : Bytes) (name : Text) (rdata : TsigRdata) : Prop where
  name : ∃ p q, Parser.name message p = (.ok name, q)
  algorithm : ∃ p q, Parser.name message p = (.ok rdata.algorithm, q)
  time : ∃ (t1 : UInt16) (t2 : UInt32), rdata.timeSigned = t1.toNat <<< 32 ||| t2.toNat

theorem tsigFields_ok {message : Bytes} {pos stop : Nat} {rdata : TsigRdata}
    (h : tsigFields message pos = (.ok rdata, stop)) :
    (∃ p q, Parser.name message p = (.ok rdata.algorithm, q)) ∧
      ∃ (t1 : UInt16) (t2 : UInt32), rdata.timeSigned = t1.toNat <<< 32 ||| t2.toNat := by
  obtain ⟨_, _, _, h⟩ := Reader.bind_eq_ok h
  obtain ⟨_, _, _, h⟩ := Reader.bind_eq_ok h
  obtain ⟨_, _, _, h⟩ := Reader.bind_eq_ok h
  obtain ⟨algorithm, _, halg, h⟩ := Reader.bind_eq_ok h
  obtain ⟨t1, _, _, h⟩ := Reader.bind_eq_ok h
  obtain ⟨t2, _, _, h⟩ := Reader.bind_eq_ok h
  obtain ⟨_, _, _, h⟩ := Reader.bind_eq_ok h
  obtain ⟨_, _, _, h⟩ := Reader.bind_eq_ok h
  obtain ⟨_, _, _, h⟩ := Reader.bind_eq_ok h
  obtain ⟨_, _, _, h⟩ := Reader.bind_eq_ok h
  obtain ⟨_, _, _, h⟩ := Reader.bind_eq_ok h
  obtain ⟨_, _, _, h⟩ := Reader.bind_eq_ok h
  obtain ⟨_, _, _, h⟩ := Reader.bind_eq_ok h
  cases h
  exact ⟨⟨_, _, halg⟩, t1, t2, rfl⟩

/-- A TSIG record of a name stands at a position. -/
def TsigAt (message : Bytes) (pos : Nat) (name : Text) : Prop :=
  ∃ p q, Parser.name message pos = (.ok name, p) ∧ Parser.u16 message p = (.ok 250, q)

theorem tsigRecord_ok {message : Bytes} {pos stop : Nat} {name : Text} {rdata : TsigRdata}
    (h : tsigRecord message pos = (.ok (name, rdata), stop)) :
    ParsedTsig message name rdata ∧ TsigAt message pos name ∧ pos < message.length := by
  obtain ⟨n, p1, hname, h⟩ := Reader.bind_eq_ok h
  have hname := reading_ok hname
  obtain ⟨rtype, p2, htype, h⟩ := Reader.bind_eq_ok h
  split at h
  · cases h
  · next h250 =>
    obtain rfl := not_not.mp h250
    obtain ⟨rd, p3, hrd, h⟩ := Reader.bind_eq_ok h
    cases h
    obtain ⟨halg, htime⟩ := tsigFields_ok (reading_ok hrd)
    refine ⟨⟨⟨_, _, hname⟩, halg, htime⟩, ⟨_, _, hname, reading_ok htype⟩, ?_⟩
    obtain ⟨parts, p, hparts, _⟩ := Reader.bind_eq_ok hname
    obtain ⟨fuel, hfuel⟩ : ∃ fuel, Parser.nameFuel message = fuel + 1 := ⟨21 * (message.length + 2) - 1, by
      unfold Parser.nameFuel; omega⟩
    rw [Parser.nameParts, hfuel] at hparts
    obtain ⟨b, hb, _⟩ := nameLoop_cases hparts
    exact (List.getElem?_eq_some_iff.mp hb).1

/-- What holds of the record found at the end of a message. -/
structure Extracted (message : Bytes) (t : ExtractedTsig) : Prop where
  length : 12 ≤ message.length
  arcount : t.arcount = u16At message 10
  arcount_ne : t.arcount ≠ 0
  walk : skipSections (u16At message 4).toNat
    ((u16At message 6).toNat + (u16At message 8).toNat + t.arcount.toNat - 1) message 12 = (.ok (), t.offset)
  parsed : ParsedTsig message t.name t.rdata
  record : TsigAt message t.offset t.name
  offset_lt : t.offset < message.length

theorem extracted_of_extractTsig {message : Bytes} {t : ExtractedTsig} (h : extractTsig message = .ok t) :
    Extracted message t := by
  unfold extractTsig at h
  split at h
  · cases h
  · next hlen =>
    simp only at h
    split at h
    · cases h
    · next har =>
      obtain ⟨stop, hrec⟩ : ∃ stop, lastRecord (u16At message 4).toNat ((u16At message 6).toNat +
          (u16At message 8).toNat + (u16At message 10).toNat - 1) (u16At message 10) message 12 = (.ok t, stop) :=
        ⟨_, Prod.ext h rfl⟩
      obtain ⟨_, p1, hwalk, hrest⟩ := Reader.bind_eq_ok hrec
      obtain ⟨offset, p2, hpos, hbody⟩ := Reader.bind_eq_ok hrest
      obtain ⟨rfl, rfl⟩ : p1 = offset ∧ p1 = p2 := by cases hpos; exact ⟨rfl, rfl⟩
      obtain ⟨⟨name, rdata⟩, p3, htsig, hend⟩ := Reader.bind_eq_ok hbody
      obtain ⟨hparsed, hrecord, hlt⟩ := tsigRecord_ok htsig
      cases hend
      exact ⟨by omega, rfl, har, reading_ok hwalk, hparsed, hrecord, hlt⟩

namespace Extracted
variable {message : Bytes} {t : ExtractedTsig} (h : Extracted message t)
include h

theorem offset_ge : 12 ≤ t.offset := skipSections_forward _ _ _ _ _ _ h.walk

/-- The message as it was signed: ID and ARCOUNT restored, the rest as it stands. -/
theorem unsigned_eq : unsigned message t = be16 t.rdata.origId ++ ((message.take 10).drop 2 ++
    (be16 (UInt16.ofNat (t.arcount.toNat - 1)) ++ (message.take t.offset).drop 12)) := by
  have hge := h.offset_ge
  have hlt := h.offset_lt
  set c := be16 (UInt16.ofNat (t.arcount.toNat - 1)) with hc
  have hrestored : copyFromSlice (message.take t.offset) 0 (be16 t.rdata.origId) =
      be16 t.rdata.origId ++ (message.take t.offset).drop 2 := by simp [copyFromSlice]
  have htake : (be16 t.rdata.origId ++ (message.take t.offset).drop 2).take 10 =
      be16 t.rdata.origId ++ (message.take 10).drop 2 := by
    rw [List.take_append, be16_length, List.take_of_length_le (by simp), List.take_drop, List.take_take,
      show min 10 t.offset = 10 by omega]
  have hdrop : (be16 t.rdata.origId ++ (message.take t.offset).drop 2).drop 12 = (message.take t.offset).drop 12 := by
    rw [List.drop_append, be16_length, List.drop_of_length_le (by simp), List.nil_append, List.drop_drop]
  rw [unsigned, hrestored, copyFromSlice, ← hc, be16_length, htake, hdrop]
  simp only [List.append_assoc]

theorem unsigned_length : (unsigned message t).length = t.offset := by
  have hge := h.offset_ge
  have hlt := h.offset_lt
  rw [h.unsigned_eq]
  simp only [List.length_append, be16_length, List.length_drop, List.length_take]
  omega

end Extracted

/-! The variables. -/

theorem length_le_of_mem_intercalate {l : Text} : ∀ {ls : List Text}, l ∈ ls →
    (utf8 l).length ≤ (utf8 (['.'].intercalate ls)).length
  | [], h => absurd h List.not_mem_nil
  | [a], h => by rw [List.mem_singleton.mp h]; simp
  | a :: b :: ls, h => by
    have hcons : ['.'].intercalate (a :: b :: ls) = a ++ '.' :: ['.'].intercalate (b :: ls) := by simp
    rw [hcons, utf8_append, List.length_append, utf8_length_cons]
    rcases List.mem_cons.mp h with rfl | h
    · omega
    · have := length_le_of_mem_intercalate h
      omega

/-- A label of a text is no longer than the text. -/
theorem length_le_of_mem_labelsOf {l s : Text} (h : l ∈ labelsOf s) : (utf8 l).length ≤ (utf8 s).length := by
  have := length_le_of_mem_intercalate (List.mem_of_mem_filter h)
  rwa [List.intercalate_splitOn] at this

/-- The labels of joined texts are the labels of each. -/
theorem labelsOf_joinLabels_flatMap (ls : List Text) : labelsOf (Parser.joinLabels ls) = ls.flatMap labelsOf := by
  have hjoin : ∀ ls : List Text, labelsOf (['.'].intercalate ls) = ls.flatMap labelsOf := by
    intro ls
    induction ls with
    | nil => rfl
    | cons a ls ih =>
      cases ls with
      | nil => simp
      | cons b ls =>
        have hcons : ['.'].intercalate (a :: b :: ls) = a ++ '.' :: ['.'].intercalate (b :: ls) := by simp
        rw [hcons, labelsOf_append_dot, ih]
        rfl
  unfold Parser.joinLabels
  split
  · next h => rw [h]; exact labelsOf_root
  · exact hjoin ls

theorem WireName.length_lt {buf : Bytes} {pos : Nat} {labels : List Bytes} (h : WireName buf pos labels) :
    ∀ l ∈ labels, l.length < 192 := by
  induction h with
  | root _ => exact fun _ h => absurd h List.not_mem_nil
  | pointer _ _ _ _ ih => exact ih
  | @label pos b labels hb h0 hp hlen _ ih =>
    have hb192 : b.toNat < 192 := by
      by_contra hge
      have hcase : ∀ n : Fin 256, 192 ≤ n.val → UInt8.ofNat n.val &&& 0xC0 = 0xC0 := by decide +kernel
      have := hcase ⟨b.toNat, b.toNat_lt⟩ (Nat.not_lt.mp hge)
      rw [UInt8.ofNat_toNat] at this
      exact hp this
    refine List.forall_mem_cons.mpr ⟨?_, ih⟩
    rw [List.length_take]
    omega

theorem labelText_length_le {l : Bytes} (h : l ≠ []) : (utf8 (Parser.labelText l)).length ≤ l.length := by
  rw [Parser.labelText, utf8_length_lower]
  cases hu : fromUtf8 l with
  | some t => rw [Option.getD_some, utf8_fromUtf8 hu]
  | none => exact List.length_pos_of_ne_nil h

/-- Whatever the parser returns as a name, the wire can carry its labels. -/
theorem wireLabel_of_name {buf : Bytes} {pos stop : Nat} {name : Text} (h : Parser.name buf pos = (.ok name, stop)) :
    ∀ l ∈ labelsOf name, WireLabel l := by
  obtain ⟨labels, hw, rfl⟩ := name_eq_joinLabels h
  intro l hl
  rw [labelsOf_joinLabels_flatMap, List.mem_flatMap] at hl
  obtain ⟨t, ht, hlt⟩ := hl
  obtain ⟨octets, ho, rfl⟩ := List.mem_map.mp ht
  refine ⟨utf8_length_pos (ne_nil_of_mem_labelsOf hlt), ?_⟩
  have h1 := length_le_of_mem_labelsOf hlt
  have h2 := labelText_length_le (hw.ne_nil octets ho)
  have h3 := hw.length_lt octets ho
  omega

/-- A name the wire can carry ends where its encoding says, whatever stands behind it. -/
theorem builder_name_append_inj {s s' : Text} (h : ∀ l ∈ labelsOf s, WireLabel l) (h' : ∀ l ∈ labelsOf s', WireLabel l)
    {rest rest' : Bytes} (e : Builder.name s ++ rest = Builder.name s' ++ rest') :
    Builder.name s = Builder.name s' ∧ rest = rest' := by
  have hd := name_decodes h
  have hd' := name_decodes h'
  rw [← Builder.name_eq] at hd hd'
  obtain ⟨_, rfl⟩ := hd.append_inj hd' e
  exact ⟨List.append_cancel_right e, rfl⟩

theorem be16_append_inj {v v' : UInt16} {rest rest' : Bytes} (e : be16 v ++ rest = be16 v' ++ rest') :
    v = v' ∧ rest = rest' := (u16_decodes v).append_inj (u16_decodes v') e

theorem be32_append_inj {v v' : UInt32} {rest rest' : Bytes} (e : be32 v ++ rest = be32 v' ++ rest') :
    v = v' ∧ rest = rest' := (u32_decodes v).append_inj (u32_decodes v') e

/-- The 48 bits of a time put together from 16 and 32 bits are those bits. -/
theorem time48_join (t1 : UInt16) (t2 : UInt32) : time48 (t1.toNat <<< 32 ||| t2.toNat) = be16 t1 ++ be32 t2 := by
  have h1 := t1.toNat_lt
  have h2 := t2.toNat_lt
  have hsum : t1.toNat <<< 32 ||| t2.toNat = t1.toNat * 2 ^ 32 + t2.toNat := by
    rw [← Nat.shiftLeft_add_eq_or_of_lt h2, Nat.shiftLeft_eq]
  have hhi : ((t1.toNat <<< 32 ||| t2.toNat) >>> 32) &&& 0xFFFF = t1.toNat := by
    rw [hsum, Nat.shiftRight_eq_div_pow, show (0xFFFF : Nat) = 2 ^ 16 - 1 from rfl, Nat.and_two_pow_sub_one_eq_mod]
    omega
  have hlo : (t1.toNat <<< 32 ||| t2.toNat) &&& 0xFFFFFFFF = t2.toNat := by
    rw [hsum, show (0xFFFFFFFF : Nat) = 2 ^ 32 - 1 from rfl, Nat.and_two_pow_sub_one_eq_mod]
    omega
  rw [time48, hhi, hlo, UInt16.ofNat_toNat, UInt32.ofNat_toNat]
  rfl

/-- The variables of a record and what follows from their octets. -/
theorem tsigVariables_inj {message message' : Bytes} {name name' : Text} {rdata rdata' : TsigRdata}
    (h : ParsedTsig message name rdata) (h' : ParsedTsig message' name' rdata')
    (e : tsigVariables name rdata.algorithm rdata.timeSigned rdata.fudge rdata.error rdata.other =
      tsigVariables name' rdata'.algorithm rdata'.timeSigned rdata'.fudge rdata'.error rdata'.other) :
    Builder.name name = Builder.name name' ∧ Builder.name rdata.algorithm = Builder.name rdata'.algorithm ∧
      rdata.timeSigned = rdata'.timeSigned ∧ rdata.fudge = rdata'.fudge ∧ rdata.error = rdata'.error ∧
      rdata.other = rdata'.other := by
  obtain ⟨_, _, hname⟩ := h.name
  obtain ⟨_, _, hname'⟩ := h'.name
  obtain ⟨_, _, halg⟩ := h.algorithm
  obtain ⟨_, _, halg'⟩ := h'.algorithm
  obtain ⟨t1, t2, htime⟩ := h.time
  obtain ⟨t1', t2', htime'⟩ := h'.time
  simp only [tsigVariables, htime, htime', time48_join, Builder.u16, Builder.u32, Builder.raw, List.append_assoc] at e
  obtain ⟨hn, e⟩ := builder_name_append_inj (wireLabel_of_name hname) (wireLabel_of_name hname') e
  obtain ⟨-, e⟩ := be16_append_inj e
  obtain ⟨-, e⟩ := be32_append_inj e
  obtain ⟨ha, e⟩ := builder_name_append_inj (wireLabel_of_name halg) (wireLabel_of_name halg') e
  obtain ⟨ht1, e⟩ := be16_append_inj e
  obtain ⟨ht2, e⟩ := be32_append_inj e
  obtain ⟨hfudge, e⟩ := be16_append_inj e
  obtain ⟨herror, e⟩ := be16_append_inj e
  obtain ⟨-, hother⟩ := be16_append_inj e
  exact ⟨hn, ha, by rw [htime, htime', ht1, ht2], hfudge, herror, hother⟩

/-! The whole input. -/

theorem u16At_eq_of_agreeOn {b b' : Bytes} {p q i : Nat} (h : AgreeOn b b' p q) (hp : p ≤ i) (hq : i + 1 < q) :
    u16At b i = u16At b' i := by
  rw [u16At, u16At, List.getD_eq_getElem?_getD, List.getD_eq_getElem?_getD, List.getD_eq_getElem?_getD,
    List.getD_eq_getElem?_getD, h i hp (by omega), h (i + 1) (by omega) hq]

theorem u16At_inj {b b' : Bytes} {i : Nat} (e : u16At b i = u16At b' i) (h : i + 2 ≤ b.length) (h' : i + 2 ≤ b'.length) :
    b[i]? = b'[i]? ∧ b[i + 1]? = b'[i + 1]? := by
  have hget : ∀ {d : Bytes} {j : Nat}, j < d.length → d[j]? = some (d.getD j 0) := by
    intro d j hj
    rw [List.getD_eq_getElem?_getD, List.getElem?_eq_getElem hj]
    rfl
  have hnat := congrArg UInt16.toNat e
  rw [u16At, u16At, join16_toNat, join16_toNat] at hnat
  have := (b.getD (i + 1) 0).toNat_lt
  have := (b'.getD (i + 1) 0).toNat_lt
  rw [hget (show i < b.length by omega), hget (show i + 1 < b.length by omega),
    hget (show i < b'.length by omega), hget (show i + 1 < b'.length by omega)]
  exact ⟨congrArg some (UInt8.toNat_inj.mp (by omega)), congrArg some (UInt8.toNat_inj.mp (by omega))⟩

theorem agreeOn_of_take_drop {b b' : Bytes} {p q : Nat} (h : (b.take q).drop p = (b'.take q).drop p) :
    AgreeOn b b' p q := by
  intro i hp hq
  have hi : ((b.take q).drop p)[i - p]? = ((b'.take q).drop p)[i - p]? := by rw [h]
  rw [List.getElem?_drop, List.getElem?_drop, show p + (i - p) = i by omega, List.getElem?_take_of_lt hq,
    List.getElem?_take_of_lt hq] at hi
  exact hi

/-- Counting down loses nothing of an ARCOUNT that is not 0. -/
theorem arcount_inj {a a' : UInt16} (h : a ≠ 0) (h' : a' ≠ 0)
    (e : UInt16.ofNat (a.toNat - 1) = UInt16.ofNat (a'.toNat - 1)) : a = a' := by
  have hlt := a.toNat_lt
  have hlt' := a'.toNat_lt
  have hpos : a.toNat ≠ 0 := fun h0 => h (UInt16.toNat_inj.mp h0)
  have hpos' : a'.toNat ≠ 0 := fun h0 => h' (UInt16.toNat_inj.mp h0)
  have := congrArg UInt16.toNat e
  rw [UInt16.toNat_ofNat_of_lt' (by unfold UInt16.size; omega), UInt16.toNat_ofNat_of_lt' (by unfold UInt16.size; omega)]
    at this
  exact UInt16.toNat_inj.mp (by omega)

/-- The walk of one message ends where that of the other does, when the octets up to there are the same. -/
theorem offset_eq_of_le {message message' : Bytes} {t t' : ExtractedTsig} (h : Extracted message t)
    (h' : Extracted message' t') (hle : t.offset ≤ t'.offset)
    (e : verifyPreimage message t = verifyPreimage message' t') : t.offset = t'.offset := by
  rw [verifyPreimage, verifyPreimage, h.unsigned_eq, h'.unsigned_eq] at e
  simp only [List.append_assoc] at e
  obtain ⟨-, e⟩ := be16_append_inj e
  have hhead : ((message.take 10).drop 2).length = ((message'.take 10).drop 2).length := by
    have := h.length
    have := h'.length
    simp only [List.length_drop, List.length_take]
    omega
  obtain ⟨hcounts, e⟩ := List.append_inj e hhead
  obtain ⟨har, e⟩ := be16_append_inj e
  have har := arcount_inj h.arcount_ne h'.arcount_ne har
  have hcounts := agreeOn_of_take_drop hcounts
  have hbody : AgreeOn message message' 12 t.offset := by
    have hpre := congrArg (List.take (t.offset - 12)) e
    have hlen : ((message.take t.offset).drop 12).length = t.offset - 12 := by
      have := h.offset_lt
      simp only [List.length_drop, List.length_take]
      omega
    have hlen' : t.offset - 12 ≤ ((message'.take t'.offset).drop 12).length := by
      have := h'.offset_lt
      simp only [List.length_drop, List.length_take]
      omega
    rw [← hlen, List.take_left, hlen, List.take_append_of_le_length hlen', List.take_drop, List.take_take,
      show min (12 + (t.offset - 12)) t'.offset = t.offset by have := h.offset_ge; omega] at hpre
    exact agreeOn_of_take_drop hpre
  have hwalk' := h'.walk
  rw [← har, ← u16At_eq_of_agreeOn hcounts (by omega) (show 4 + 1 < 10 by omega),
    ← u16At_eq_of_agreeOn hcounts (by omega) (show 6 + 1 < 10 by omega),
    ← u16At_eq_of_agreeOn hcounts (by omega) (show 8 + 1 < 10 by omega)] at hwalk'
  exact (skipSections_sameRun _ _ _ _ _ _ _ _ _ h.walk hwalk' hbody).1

/-- **The input of the MAC is unambiguous.** Messages for which `verify_message` rebuilds the same input have
    their TSIG record at the same offset, the same octets before it but for the ID, and the same variables. -/
theorem verifyPreimage_injective {message message' : Bytes} {t t' : ExtractedTsig} (h : extractTsig message = .ok t)
    (h' : extractTsig message' = .ok t') (e : verifyPreimage message t = verifyPreimage message' t') :
    t.offset = t'.offset ∧ (∀ i, 2 ≤ i → i < t.offset → message[i]? = message'[i]?) ∧
      t.rdata.origId = t'.rdata.origId ∧ Builder.name t.name = Builder.name t'.name ∧
      Builder.name t.rdata.algorithm = Builder.name t'.rdata.algorithm ∧ t.rdata.timeSigned = t'.rdata.timeSigned ∧
      t.rdata.fudge = t'.rdata.fudge ∧ t.rdata.error = t'.rdata.error ∧ t.rdata.other = t'.rdata.other := by
  have hx := extracted_of_extractTsig h
  have hx' := extracted_of_extractTsig h'
  have hoffset : t.offset = t'.offset := by
    rcases Nat.le_total t.offset t'.offset with hle | hle
    · exact offset_eq_of_le hx hx' hle e
    · exact (offset_eq_of_le hx' hx hle e.symm).symm
  obtain ⟨hunsigned, hvars⟩ := List.append_inj e (by rw [hx.unsigned_length, hx'.unsigned_length, hoffset])
  obtain ⟨hname, halg, htime, hfudge, herror, hother⟩ := tsigVariables_inj hx.parsed hx'.parsed hvars
  rw [hx.unsigned_eq, hx'.unsigned_eq] at hunsigned
  obtain ⟨hid, hunsigned⟩ := be16_append_inj hunsigned
  have hhead : ((message.take 10).drop 2).length = ((message'.take 10).drop 2).length := by
    have := hx.length
    have := hx'.length
    simp only [List.length_drop, List.length_take]
    omega
  obtain ⟨hcounts, hunsigned⟩ := List.append_inj hunsigned hhead
  obtain ⟨har, hbody⟩ := be16_append_inj hunsigned
  have har := arcount_inj hx.arcount_ne hx'.arcount_ne har
  refine ⟨hoffset, ?_, hid, hname, halg, htime, hfudge, herror, hother⟩
  intro i hi hlt
  have hten := u16At_inj (hx.arcount.symm.trans (har.trans hx'.arcount)) hx.length hx'.length
  rw [hoffset] at hbody
  have hbody := agreeOn_of_take_drop hbody
  rcases Nat.lt_or_ge i 10 with h10 | h10
  · exact agreeOn_of_take_drop hcounts i hi h10
  · rcases Nat.lt_or_ge i 12 with h12 | h12
    · -- the two octets of ARCOUNT, which the input holds counted down
      obtain rfl | rfl : i = 10 ∨ i = 11 := by omega
      · exact hten.1
      · exact hten.2
    · exact hbody i h12 (hoffset ▸ hlt)

/-- A message with a question for `x` and a TSIG record under the key `k`; its ID and the MAC end in the octet given. -/
def askedTsig (octet : UInt8) : Bytes :=
  ([0, octet, 0, 0, 0, 1, 0, 0, 0, 0, 0, 1] : Bytes) ++ [1, 120, 0, 0, 1, 0, 1] ++
    [1, 107, 0, 0, 250, 0, 255, 0, 0, 0, 0, 0, 30] ++ [4, 104, 109, 97, 99, 3, 97, 108, 103, 0] ++
      [0, 0, 0, 0, 0, 5, 1, 44, 0, 4, 9, 9, 9, octet, 0, 7, 0, 0, 0, 0]

def askedExtracted (octet : UInt8) : ExtractedTsig :=
  ⟨['k'], ⟨"hmac.alg".toList, 5, 300, [9, 9, 9, octet], 7, 0, []⟩, 19, 1⟩

/-- The ID may differ, since the input holds the original one, and so may the MAC. -/
theorem verifyPreimage_injective_askedTsig : askedTsig 1 ≠ askedTsig 2 ∧
    (askedExtracted 1).offset = (askedExtracted 2).offset ∧
    (∀ i, 2 ≤ i → i < (askedExtracted 1).offset → (askedTsig 1)[i]? = (askedTsig 2)[i]?) ∧
    (askedExtracted 1).rdata.origId = (askedExtracted 2).rdata.origId ∧
    Builder.name (askedExtracted 1).name = Builder.name (askedExtracted 2).name ∧
    Builder.name (askedExtracted 1).rdata.algorithm = Builder.name (askedExtracted 2).rdata.algorithm ∧
    (askedExtracted 1).rdata.timeSigned = (askedExtracted 2).rdata.timeSigned ∧
    (askedExtracted 1).rdata.fudge = (askedExtracted 2).rdata.fudge ∧
    (askedExtracted 1).rdata.error = (askedExtracted 2).rdata.error ∧
    (askedExtracted 1).rdata.other = (askedExtracted 2).rdata.other := by
  have hread : extractTsig (askedTsig 1) = .ok (askedExtracted 1) ∧
      extractTsig (askedTsig 2) = .ok (askedExtracted 2) := by
    decide
  exact ⟨by decide, verifyPreimage_injective hread.1 hread.2 (by decide)⟩

end Ironbind
