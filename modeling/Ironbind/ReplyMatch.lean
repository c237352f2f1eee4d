import Ironbind.Framing
import Ironbind.MessageSize
import Ironbind.TransferSigning

/- Whether replies match their queries, octet by octet. `WireQuestions` is the question
   section as it stands in a message, with the labels of the names, pointers followed;
   what `parse` makes of it and what `serialize` writes of that are two functions on it
   (`questions_of_parse`, `questions_of_serialize`). Every reply has the ID of its query,
   QR set and the opcode 0; most repeat RD and the questions, the latter as the parser
   read them. So a reply matches exactly when the query is `Echoed` (`reply_matches_iff`). -/
namespace Ironbind
open Codec

/-! The question section of a message. -/

/-- The position behind the name that starts at a position: a pointer ends it. -/
inductive NameEnd (buf : Bytes) : Nat → Nat → Prop where
  | root {pos : Nat} (hb : buf[pos]? = some 0) : NameEnd buf pos (pos + 1)
  | pointer {pos : Nat} {b : UInt8} (hb : buf[pos]? = some b) (hp : b &&& 0xC0 = 0xC0) : NameEnd buf pos (pos + 2)
  | label {pos stop : Nat} {b : UInt8} (hb : buf[pos]? = some b) (h0 : b ≠ 0) (hp : b &&& 0xC0 ≠ 0xC0)
      (rest : NameEnd buf (pos + 1 + b.toNat) stop) : NameEnd buf pos stop

structure WireQuestion where
  labels : List Bytes
  qtype : UInt16
  qclass : UInt16

/-- The questions that start at a position. -/
inductive WireQuestions (buf : Bytes) : Nat → List WireQuestion → Prop where
  | nil {pos : Nat} : WireQuestions buf pos []
  | cons {pos stop : Nat} {labels : List Bytes} {qs : List WireQuestion} (name : WireName buf pos labels)
      (ends : NameEnd buf pos stop) (rest : WireQuestions buf (stop + 4) qs) :
      WireQuestions buf pos (⟨labels, u16At buf stop, u16At buf (stop + 2)⟩ :: qs)

/-- The questions of a message: as many as it counts, behind the header. -/
structure QuestionsOf (message : Bytes) (qs : List WireQuestion) : Prop where
  count : (u16At message 4).toNat = qs.length
  questions : WireQuestions message 12 qs

/-- **A reply to a query**: the same ID, opcode and RD, QR set, and the same questions, label by label. -/
structure Matches (query reply : Bytes) : Prop where
  id : u16At reply 0 = u16At query 0
  qr : u16At reply 2 &&& 0x8000 = 0x8000
  opcode : u16At reply 2 &&& 0x7800 = u16At query 2 &&& 0x7800
  rd : u16At reply 2 &&& 0x0100 = u16At query 2 &&& 0x0100
  questions : ∃ qs, QuestionsOf query qs ∧ QuestionsOf reply qs

theorem NameEnd.unique {buf : Bytes} {pos stop stop' : Nat} (h : NameEnd buf pos stop) (h' : NameEnd buf pos stop') :
    stop = stop' := by
  induction h generalizing stop' with
  | root hb =>
    cases h' with
    | root _ => rfl
    | pointer hb' hp => rw [← Option.some.inj (hb.symm.trans hb')] at hp; exact absurd hp (by decide)
    | label hb' h0 _ _ => exact absurd (Option.some.inj (hb.symm.trans hb')).symm h0
  | pointer hb hp =>
    cases h' with
    | root hb' => rw [Option.some.inj (hb.symm.trans hb')] at hp; exact absurd hp (by decide)
    | pointer _ _ => rfl
    | label hb' _ hp' _ => exact absurd (Option.some.inj (hb.symm.trans hb') ▸ hp) hp'
  | label hb h0 hp _ ih =>
    cases h' with
    | root hb' => exact absurd (Option.some.inj (hb.symm.trans hb')) h0
    | pointer hb' hp' => exact absurd (Option.some.inj (hb'.symm.trans hb) ▸ hp') hp
    | label hb' _ _ rest' =>
      obtain rfl := Option.some.inj (hb.symm.trans hb')
      exact ih rest'

theorem WireQuestions.unique {buf : Bytes} : ∀ {pos : Nat} {qs qs' : List WireQuestion}, WireQuestions buf pos qs →
    WireQuestions buf pos qs' → qs.length = qs'.length → qs = qs'
  | _, [], [], _, _, _ => rfl
  | _, _ :: _, _ :: _, .cons name ends rest, .cons name' ends' rest', hlen => by
    obtain rfl := name.unique name'
    obtain rfl := ends.unique ends'
    rw [rest.unique rest' (Nat.succ.inj hlen)]

theorem QuestionsOf.unique {message : Bytes} {qs qs' : List WireQuestion} (h : QuestionsOf message qs)
    (h' : QuestionsOf message qs') : qs = qs' :=
  h.questions.unique h'.questions (h.count.symm.trans h'.count)

/-! What the parser makes of it. -/

/-- The question as the parser reads it. -/
def WireQuestion.read (q : WireQuestion) : Question :=
  ⟨Parser.joinLabels (q.labels.map Parser.labelText), .ofU16 q.qtype, q.qclass⟩

theorem nameEnd_of_nameLoop {buf : Bytes} : ∀ (fuel : Nat) {parts : List Text} {selfPos pos jumps : Nat}
    {res : List Text} {stop : Nat}, Parser.nameLoop buf fuel parts selfPos pos false jumps = (.ok res, stop) →
    NameEnd buf pos stop
  | 0, _, _, _, _, _, _, h => by cases h
  | fuel + 1, parts, selfPos, pos, jumps, res, stop, h => by
    obtain ⟨b, hb, ⟨rfl, rfl⟩ | ⟨_, hp, rfl⟩ | ⟨h0, hp, parts', hrest⟩⟩ := nameLoop_cases h
    · exact .root hb
    · exact .pointer hb hp
    · exact .label hb h0 hp (nameEnd_of_nameLoop fuel hrest)

theorem wire_of_name {buf : Bytes} {pos stop : Nat} {name : Text} (h : Parser.name buf pos = (.ok name, stop)) :
    ∃ labels, WireName buf pos labels ∧ NameEnd buf pos stop ∧
      name = Parser.joinLabels (labels.map Parser.labelText) := by
  obtain ⟨labels, hw, hname⟩ := name_eq_joinLabels h
  obtain ⟨parts, p, hparts, hend⟩ := Reader.bind_eq_ok h
  obtain rfl : p = stop := by cases hend; rfl
  exact ⟨labels, hw, nameEnd_of_nameLoop _ hparts, hname⟩

theorem questions_of_times {buf : Bytes} : ∀ {n pos stop : Nat} {questions : List Question},
    Reader.times n Parser.question buf pos = (.ok questions, stop) →
    ∃ qs, qs.length = n ∧ WireQuestions buf pos qs ∧ questions = qs.map WireQuestion.read
  | 0, _, _, _, h => by cases h; exact ⟨[], rfl, .nil, rfl⟩
  | n + 1, pos, stop, questions, h => by
    obtain ⟨q, p, hq, h⟩ := Reader.bind_eq_ok (f := fun a => Reader.times n Parser.question >>= fun l => pure (a :: l)) h
    obtain ⟨rest, p', hrest, h⟩ := Reader.bind_eq_ok h
    obtain rfl : q :: rest = questions := by cases h; rfl
    obtain ⟨name, p1, hname, hq⟩ := Reader.bind_eq_ok hq
    obtain ⟨qtype, p2, hqtype, hq⟩ := Reader.bind_eq_ok hq
    obtain ⟨qclass, p3, hqclass, hq⟩ := Reader.bind_eq_ok hq
    obtain ⟨rfl, rfl, -⟩ := u16_run hqtype
    obtain ⟨rfl, rfl, -⟩ := u16_run hqclass
    obtain ⟨rfl, rfl⟩ : ⟨name, .ofU16 (u16At buf p1), u16At buf (p1 + 2)⟩ = q ∧ p1 + 2 + 2 = p := by
      cases hq
      exact ⟨rfl, rfl⟩
    obtain ⟨labels, hw, hends, rfl⟩ := wire_of_name hname
    obtain ⟨qs, hlen, hqs, rfl⟩ := questions_of_times hrest
    exact ⟨_ :: qs, by rw [List.length_cons, hlen], .cons hw hends hqs, rfl⟩

/-- The header and the questions of a message that parses. -/
theorem questions_of_parse {data : Bytes} {pkt : Packet} (h : parsePacket data = .ok pkt) :
    12 ≤ data.length ∧ pkt.id = u16At data 0 ∧ pkt.flags = u16At data 2 ∧
      ∃ qs, QuestionsOf data qs ∧ pkt.questions = qs.map WireQuestion.read := by
  have hsections := parsedSections_of_parse h
  obtain ⟨_, _, _, _, _, hquestions, -⟩ := hsections.sections
  obtain ⟨qs, hlen, hqs, hread⟩ := questions_of_times hquestions
  exact ⟨hsections.length, hsections.id, hsections.flags, qs, ⟨hlen.symm, hqs⟩, hread⟩

/-! What the builder writes of it. -/

/-- The question as the builder writes it. -/
def Question.written (q : Question) : WireQuestion := ⟨(labelsOf q.name).map utf8, q.qtype.toU16, q.qclass⟩

/-- An encoded name stands for its labels, wherever it stands. -/
theorem wireName_encodeLabels (post : Bytes) : ∀ (ls : List Text) (pre : Bytes), (∀ l ∈ ls, WireLabel l) →
    WireName (pre ++ (encodeLabels ls ++ 0 :: post)) pre.length (ls.map utf8) ∧
      NameEnd (pre ++ (encodeLabels ls ++ 0 :: post)) pre.length (pre.length + (encodeLabels ls).length + 1)
  | [], pre, _ => by
    have h0 : (pre ++ (0 :: post))[pre.length]? = some 0 := by simp
    exact ⟨.root h0, .root h0⟩
  | l :: ls, pre, hw => by
    obtain ⟨hpos, hlt⟩ := hw l List.mem_cons_self
    set n := (utf8 l).length with hn
    set rest := encodeLabels ls ++ 0 :: post with hrest
    have hbuf : pre ++ (encodeLabels (l :: ls) ++ 0 :: post) = pre ++ (UInt8.ofNat n :: (utf8 l ++ rest)) := by
      rw [encodeLabels_cons, Builder.label, ← hn, hrest]; simp
    have hb : (pre ++ (UInt8.ofNat n :: (utf8 l ++ rest)))[pre.length]? = some (UInt8.ofNat n) := by simp
    have htoNat : (UInt8.ofNat n).toNat = n :=
      UInt8.toNat_ofNat_of_lt' (show n < UInt8.size by unfold UInt8.size; omega)
    have htake : ((pre ++ (UInt8.ofNat n :: (utf8 l ++ rest))).drop (pre.length + 1)).take n = utf8 l := by
      rw [← List.drop_drop, List.drop_left, List.drop_succ_cons, List.drop_zero, hn, List.take_left]
    -- behind the first label the others follow
    have ih := wireName_encodeLabels post ls (pre ++ (UInt8.ofNat n :: utf8 l)) fun l' h =>
      hw l' (List.mem_cons_of_mem _ h)
    have hassoc : (pre ++ (UInt8.ofNat n :: utf8 l)) ++ (encodeLabels ls ++ 0 :: post) =
        pre ++ (UInt8.ofNat n :: (utf8 l ++ rest)) := by simp [hrest]
    have hpre : (pre ++ (UInt8.ofNat n :: utf8 l)).length = pre.length + 1 + (UInt8.ofNat n).toNat := by
      rw [htoNat]
      simp only [List.length_append, List.length_cons, ← hn]
      omega
    rw [hassoc, hpre] at ih
    have hstop : pre.length + (encodeLabels (l :: ls)).length + 1 =
        pre.length + 1 + (UInt8.ofNat n).toNat + (encodeLabels ls).length + 1 := by
      rw [htoNat, encodeLabels_cons, Builder.label, List.length_append, List.length_cons, ← hn]
      omega
    rw [hbuf, hstop]
    refine ⟨?_, .label hb (length_octet_ne_zero hpos hlt) (length_octet_no_pointer hlt) ih.2⟩
    have hname := WireName.label hb (length_octet_ne_zero hpos hlt) (length_octet_no_pointer hlt) (by
      rw [htoNat]
      simp only [List.length_append, List.length_cons, ← hn]
      omega) ih.1
    rwa [htoNat, htake] at hname

theorem u16At_append (pre b : Bytes) (i : Nat) : u16At (pre ++ b) (pre.length + i) = u16At b i := by
  simp [u16At, List.getD_eq_getElem?_getD, List.getElem?_append_right, Nat.add_assoc]

theorem wireQuestions_written (post : Bytes) : ∀ (qs : List Question) (pre : Bytes),
    (∀ q ∈ qs, ∀ l ∈ labelsOf q.name, WireLabel l) →
    WireQuestions (pre ++ (qs.flatMap Builder.question ++ post)) pre.length (qs.map Question.written)
  | [], _, _ => .nil
  | q :: qs, pre, hw => by
    set rest := qs.flatMap Builder.question ++ post with hrest
    set name := encodeLabels (labelsOf q.name) with hname
    have hbuf : pre ++ ((q :: qs).flatMap Builder.question ++ post) =
        pre ++ (name ++ 0 :: (be16 q.qtype.toU16 ++ (be16 q.qclass ++ rest))) := by
      rw [List.flatMap_cons, Builder.question, Builder.name_eq, ← hname, hrest]
      simp [Builder.u16]
    obtain ⟨hlabels, hends⟩ := wireName_encodeLabels (be16 q.qtype.toU16 ++ (be16 q.qclass ++ rest)) (labelsOf q.name) pre
      (hw q List.mem_cons_self)
    rw [← hname] at hlabels hends
    -- the octets up to the type, up to the class, and up to the next question
    have htype : pre ++ (name ++ 0 :: (be16 q.qtype.toU16 ++ (be16 q.qclass ++ rest))) =
        (pre ++ (name ++ [0])) ++ (be16 q.qtype.toU16 ++ (be16 q.qclass ++ rest)) := by simp
    have hnext : pre ++ (name ++ 0 :: (be16 q.qtype.toU16 ++ (be16 q.qclass ++ rest))) =
        (pre ++ (name ++ [0]) ++ be16 q.qtype.toU16 ++ be16 q.qclass) ++ rest := by simp
    have hstop : pre.length + name.length + 1 = (pre ++ (name ++ [0])).length := by
      simp only [List.length_append, List.length_singleton]
      omega
    have hrestAt : pre.length + name.length + 1 + 4 =
        (pre ++ (name ++ [0]) ++ be16 q.qtype.toU16 ++ be16 q.qclass).length := by
      simp only [List.length_append, List.length_singleton, be16_length]
      omega
    have ih := wireQuestions_written post qs (pre ++ (name ++ [0]) ++ be16 q.qtype.toU16 ++ be16 q.qclass)
      fun q' h => hw q' (List.mem_cons_of_mem _ h)
    rw [← hrest, ← hnext, ← hrestAt] at ih
    have hqtype : u16At (pre ++ (name ++ 0 :: (be16 q.qtype.toU16 ++ (be16 q.qclass ++ rest))))
        (pre.length + name.length + 1) = q.qtype.toU16 := by
      rw [htype, hstop]
      exact (u16At_append _ _ 0).trans (join16_split _)
    have hqclass : u16At (pre ++ (name ++ 0 :: (be16 q.qtype.toU16 ++ (be16 q.qclass ++ rest))))
        (pre.length + name.length + 1 + 2) = q.qclass := by
      rw [htype, hstop]
      exact (u16At_append _ _ 2).trans (join16_split _)
    rw [hbuf]
    have hall := WireQuestions.cons hlabels hends ih
    rwa [hqtype, hqclass] at hall

/-- The header and the questions of a reply. -/
theorem questions_of_serialize {p : Packet} {edns : Bool} (hcount : p.questions.length < 65536)
    (hw : ∀ q ∈ p.questions, ∀ l ∈ labelsOf q.name, WireLabel l) :
    u16At (serialize p edns) 0 = p.id ∧ u16At (serialize p edns) 2 = p.flags ∧
      QuestionsOf (serialize p edns) (p.questions.map Question.written) := by
  rw [serialize_eq_header]
  obtain ⟨hid, hqd, -⟩ := u16At_header p.id p.flags (UInt16.ofNat p.questions.length) (UInt16.ofNat p.answers.length)
    (UInt16.ofNat p.authority.length) (UInt16.ofNat (additionalCount p edns)) (sections p edns)
  refine ⟨hid, join16_split p.flags, ?_, ?_⟩
  · rw [hqd, UInt16.toNat_ofNat_of_lt' hcount, List.length_map]
  · exact wireQuestions_written ((writtenRecords p edns).flatMap Builder.record) p.questions _ hw

/-! When a question comes back as it was sent. -/

theorem toU16_ite {c : Prop} [Decidable c] {a b : RType} {n : UInt16} (ha : c → a.toU16 = n) (hb : b.toU16 = n) :
    (if c then a else b).toU16 = n := by
  split
  · next h => exact ha h
  · exact hb

theorem toU16_ofU16 (n : UInt16) : (RType.ofU16 n).toU16 = n := by
  unfold RType.ofU16
  iterate 21 refine toU16_ite (fun h => h.symm) ?_
  rfl

/-- A label that the parser keeps as it is: UTF-8, without dots and capital letters. -/
def KeptLabel (l : Bytes) : Prop := PlainLabel l ∧ l.map foldOctet = l

theorem dot_of_mem_ascii : ∀ n : Fin 128, (0x2E : UInt8) ∈ String.utf8EncodeChar (Char.ofNat n) → Char.ofNat n = '.' := by
  decide

theorem dot_not_mem_utf8 {t : Text} (h : '.' ∉ t) : (0x2E : UInt8) ∉ utf8 t := by
  intro hmem
  obtain ⟨c, hc, hdot⟩ := List.mem_flatMap.mp hmem
  by_cases hascii : c.val ≤ 127
  · have hof := dot_of_mem_ascii ⟨c.toNat, Nat.lt_succ_of_le (UInt32.le_iff_toNat_le.mp hascii)⟩
    rw [Char.ofNat_toNat] at hof
    exact h (hof hdot ▸ hc)
  · exact absurd (ge_of_mem_utf8EncodeChar hascii _ hdot) (by decide)

/-- The labels of one label's text. -/
theorem read_label {l : Bytes} (hne : l ≠ []) (hkept : KeptLabel l) :
    (labelsOf (Parser.labelText l)).map utf8 = [l] := by
  have hone : labelsOf (Parser.joinLabels [Parser.labelText l]) = [Parser.labelText l] :=
    labelsOf_joinLabels (fun t ht => by rw [List.mem_singleton.mp ht]; exact dot_not_mem_labelText hkept.1)
      fun t ht => by rw [List.mem_singleton.mp ht]; exact labelText_ne_nil hne hkept.1
  have hjoin : Parser.joinLabels [Parser.labelText l] = Parser.labelText l := by simp [Parser.joinLabels]
  rw [← hjoin, hone, List.map_singleton, utf8_labelText hkept.1, hkept.2]

/-- What the parser leaves of a label is kept. -/
theorem kept_of_mem_read {l l' : Bytes} (h : l ∈ (labelsOf (Parser.labelText l')).map utf8) : KeptLabel l := by
  obtain ⟨t, ht, rfl⟩ := List.mem_map.mp h
  have hlower : toAsciiLowercase t = t := by
    have hall := labelsOf_lower (Parser.labelText l')
    rw [labelText_lower] at hall
    exact map_eq_self_iff.mp hall.symm t ht
  refine ⟨⟨by rw [fromUtf8_utf8]; rfl, dot_not_mem_utf8 (dot_not_mem_of_mem_labelsOf ht)⟩, ?_⟩
  rw [← utf8_toAsciiLowercase, hlower]

/-- **Read and written back**, a question is the same when all its labels are kept. -/
theorem written_read_iff {q : WireQuestion} (hne : ∀ l ∈ q.labels, l ≠ []) :
    q.read.written = q ↔ ∀ l ∈ q.labels, KeptLabel l := by
  have hlabels : (labelsOf q.read.name).map utf8 =
      q.labels.flatMap fun l => (labelsOf (Parser.labelText l)).map utf8 := by
    rw [WireQuestion.read, labelsOf_joinLabels_flatMap, List.flatMap_map, List.map_flatMap]
  constructor
  · intro heq l hl
    have hread : q.labels = q.labels.flatMap fun l => (labelsOf (Parser.labelText l)).map utf8 := by
      rw [← hlabels]
      exact (congrArg WireQuestion.labels heq).symm
    rw [hread] at hl
    obtain ⟨l', -, hl⟩ := List.mem_flatMap.mp hl
    exact kept_of_mem_read hl
  · intro hkept
    have hsame : q.labels.flatMap (fun l => (labelsOf (Parser.labelText l)).map utf8) = q.labels := by
      rw [List.flatMap_congr fun l hl => read_label (hne l hl) (hkept l hl), List.flatMap_singleton']
    rw [Question.written, hlabels, hsame, WireQuestion.read, toU16_ofU16]

theorem WireQuestions.ne_nil {buf : Bytes} {pos : Nat} {qs : List WireQuestion} (h : WireQuestions buf pos qs) :
    ∀ q ∈ qs, ∀ l ∈ q.labels, l ≠ [] := by
  induction h with
  | nil => exact fun q hq => absurd hq List.not_mem_nil
  | cons name _ _ ih => exact List.forall_mem_cons.mpr ⟨name.ne_nil, ih⟩

/-! The header of a reply. -/

/-- The flags of a reply by those of its query: QR is set, the opcode is 0, and RD is copied. -/
def RepliesTo (flags reply : UInt16) : Prop := reply &&& 0xF900 = 0x8000 ||| (flags &&& 0x0100)

theorem repliesTo_newResponse (id flags : UInt16) : RepliesTo flags (Packet.newResponse id flags).flags := by
  have hrd : (0x0100 : UInt16) &&& 0xF900 = 0x0100 := rfl
  rw [RepliesTo, Packet.newResponse, or_and, or_and, UInt16.and_assoc, hrd]
  exact UInt16.or_zero

theorem RepliesTo.or_bit {flags reply : UInt16} (h : RepliesTo flags reply) (bit : UInt16) (hbit : bit &&& 0xF900 = 0) :
    RepliesTo flags (reply ||| bit) := by
  rw [RepliesTo, or_and, hbit, UInt16.or_zero]
  exact h

theorem RepliesTo.setRcode {flags : UInt16} {p : Packet} (h : RepliesTo flags p.flags) (c : UInt8) :
    RepliesTo flags (p.setRcode c).flags := by
  have hkept : (0xFFF0 : UInt16) &&& 0xF900 = 0xF900 := rfl
  have hrcode : (0xF : UInt16) &&& 0xF900 = 0 := rfl
  rw [RepliesTo, Packet.setRcode, or_and, UInt16.and_assoc p.flags, hkept, UInt16.and_assoc, hrcode, UInt16.and_zero,
    UInt16.or_zero]
  exact h

/-- The fields of such flags. -/
theorem RepliesTo.fields {flags reply : UInt16} (h : RepliesTo flags reply) :
    reply &&& 0x8000 = 0x8000 ∧ reply &&& 0x7800 = 0 ∧ reply &&& 0x0100 = flags &&& 0x0100 := by
  have hfield : ∀ m : UInt16, 0xF900 &&& m = m → reply &&& m = 0x8000 &&& m ||| flags &&& (0x0100 &&& m) := by
    intro m hm
    rw [← hm, ← UInt16.and_assoc, h, or_and, UInt16.and_assoc, hm]
  refine ⟨?_, ?_, ?_⟩
  · rw [hfield 0x8000 rfl, show (0x0100 : UInt16) &&& 0x8000 = 0 from rfl, UInt16.and_zero]
    rfl
  · rw [hfield 0x7800 rfl, show (0x0100 : UInt16) &&& 0x7800 = 0 from rfl, UInt16.and_zero]
    rfl
  · rw [hfield 0x0100 rfl, show (0x8000 : UInt16) &&& 0x0100 = 0 from rfl, UInt16.zero_or]
    rfl

section
variable {σ : Type} (h : Handler σ) {zones : List Zone} {clocks : Clocks} {peer : IpAddr} {recursion : Recursion}
  {pkt p : Packet} {cache : Cache} {s : σ} {edns : Bool} {data : Bytes}

theorem handlePacket_header (hr : (handlePacket h zones clocks peer recursion pkt cache s).response = .reply p edns) :
    p.id = pkt.id ∧ RepliesTo pkt.flags p.flags := by
  have hclosed : Packet.Closed fun p => p.id = pkt.id ∧ RepliesTo pkt.flags p.flags :=
    ⟨fun _ h => ⟨h.1, h.2.or_bit _ rfl⟩, fun _ h => ⟨h.1, h.2.or_bit _ rfl⟩, fun _ c h => ⟨h.1, h.2.setRcode c⟩,
      fun _ _ _ _ h => h⟩
  exact handlePacket_closed h hclosed ⟨rfl, repliesTo_newResponse pkt.id pkt.flags⟩
    ⟨rfl, repliesTo_newResponse pkt.id pkt.flags⟩ hr

theorem handlePacket_questions (hr : (handlePacket h zones clocks peer recursion pkt cache s).response = .reply p edns) :
    p.questions = pkt.questions := by
  have hclosed : Packet.Closed fun p => p.questions = pkt.questions :=
    ⟨fun _ h => h, fun _ h => h, fun _ _ h => h, fun _ _ _ _ h => h⟩
  exact handlePacket_closed h hclosed rfl rfl hr

/-- The message is refused unread: it needs a signature, and has none that verifies. -/
def RefusedUnread (clocks : Clocks) (data : Bytes) : Prop :=
  h.config.tsigRequireAll ∧ !h.tsigKeys.isEmpty ∧ (verifyMessage h.hmac clocks.verify data h.tsigKeys).isOk = false

/-- The queries whose replies match. -/
structure Echoed (clocks : Clocks) (data : Bytes) : Prop where
  opcode : u16At data 2 &&& 0x7800 = 0
  refused : RefusedUnread h clocks data → u16At data 2 &&& 0x0100 = 0 ∧ u16At data 4 = 0
  kept : ∃ qs, QuestionsOf data qs ∧ ∀ q ∈ qs, ∀ l ∈ q.labels, KeptLabel l

theorem messageId_eq (hlength : 2 ≤ data.length) : messageId data = u16At data 0 := by
  match data, hlength with
  | hi :: lo :: rest, _ => rfl

/-- The reply to a message that parses, by the way it takes. -/
theorem handleQuery_cases (hparse : parsePacket data = .ok pkt)
    (hr : (handleQuery h zones clocks peer recursion data cache s).response = .reply p edns) :
    (RefusedUnread h clocks data ∧ p = (Packet.newResponse (messageId data) 0).setRcode RCODE_REFUSED) ∨
      (¬ RefusedUnread h clocks data ∧
        (handlePacket h zones clocks peer recursion pkt cache s).response = .reply p edns) := by
  unfold handleQuery at hr
  dsimp only at hr
  split at hr
  · cases hr
  · split at hr
    · next hrefused =>
      cases hr
      exact .inl ⟨hrefused, rfl⟩
    · next hread =>
      rw [hparse] at hr
      exact .inr ⟨hread, hr⟩

end

/-- A reply with the ID, and with flags and questions of its own. -/
theorem matches_iff {data : Bytes} {qs : List WireQuestion} (hqs : QuestionsOf data qs) {p : Packet}
    (edns : Bool) {flags : UInt16} (hid : p.id = u16At data 0) (hflags : RepliesTo flags p.flags)
    (hcount : p.questions.length < 65536) (hw : ∀ q ∈ p.questions, ∀ l ∈ labelsOf q.name, WireLabel l) :
    Matches data (serialize p edns) ↔ u16At data 2 &&& 0x7800 = 0 ∧ flags &&& 0x0100 = u16At data 2 &&& 0x0100 ∧
      p.questions.map Question.written = qs := by
  obtain ⟨hreplyId, hreplyFlags, hreply⟩ : u16At (serialize p edns) 0 = p.id ∧ u16At (serialize p edns) 2 = p.flags ∧
      QuestionsOf (serialize p edns) (p.questions.map Question.written) := questions_of_serialize hcount hw
  obtain ⟨hqr, hopcode, hrd⟩ := hflags.fields
  constructor
  · intro hm
    obtain ⟨qs', hquery, hreply'⟩ := hm.questions
    refine ⟨?_, ?_, ?_⟩
    · rw [← hm.opcode, hreplyFlags, hopcode]
    · rw [← hm.rd, hreplyFlags, hrd]
    · rw [hreply.unique hreply', hquery.unique hqs]
  · rintro ⟨hzero, hsame, rfl⟩
    exact ⟨by rw [hreplyId, hid], by rw [hreplyFlags, hqr], by rw [hreplyFlags, hopcode, hzero],
      by rw [hreplyFlags, hrd, hsame], _, hqs, hreply⟩

theorem unreadReply_length (data : Bytes) (edns : Bool) :
    (serialize ((Packet.newResponse (messageId data) 0).setRcode RCODE_REFUSED) edns).length = 12 := by
  simp [serialize_length, questionOctets, recordOctets, Packet.setRcode, Packet.newResponse]

/-- The questions of a query written back are its questions when all their labels are kept. -/
theorem written_reads_iff {message : Bytes} {qs : List WireQuestion} (hqs : QuestionsOf message qs) :
    (qs.map WireQuestion.read).map Question.written = qs ↔ ∀ q ∈ qs, ∀ l ∈ q.labels, KeptLabel l := by
  rw [List.map_map, map_eq_self_iff]
  exact forall₂_congr fun q hq => written_read_iff (hqs.questions.ne_nil q hq)

section
variable {data : Bytes} {qs : List WireQuestion} {pkt : Packet} (hqs : QuestionsOf data qs)
include hqs

/-- A reply that repeats the header and the questions of the packet the message was read as. -/
theorem matches_read_iff (hparse : parsePacket data = .ok pkt) (hread : pkt.questions = qs.map WireQuestion.read)
    {p : Packet} (edns : Bool) (hid : p.id = pkt.id) (hflags : RepliesTo pkt.flags p.flags)
    (hsame : p.questions = pkt.questions) :
    Matches data (serialize p edns) ↔ u16At data 2 &&& 0x7800 = 0 ∧ ∀ q ∈ qs, ∀ l ∈ q.labels, KeptLabel l := by
  obtain ⟨-, hpktId, hpktFlags, -⟩ := questions_of_parse hparse
  obtain ⟨hcount, hw⟩ := parsePacket_questions hparse
  rw [matches_iff hqs edns (hid.trans hpktId) hflags (hsame ▸ hcount) (hsame ▸ hw), hpktFlags, hsame, hread,
    written_reads_iff hqs]
  simp only [true_and]

/-- A reply to a message that is refused unread: it has no flags and no questions of its own. -/
theorem matches_unread_iff (hlength : 2 ≤ data.length) (edns : Bool) :
    Matches data (serialize ((Packet.newResponse (messageId data) 0).setRcode RCODE_REFUSED) edns) ↔
      u16At data 2 &&& 0x7800 = 0 ∧ u16At data 2 &&& 0x0100 = 0 ∧ u16At data 4 = 0 := by
  have hnone : [] = qs ↔ u16At data 4 = 0 := by
    rw [← UInt16.toNat_inj, hqs.count, UInt16.toNat_zero, List.length_eq_zero_iff, eq_comm]
  have hmatch := matches_iff hqs (p := (Packet.newResponse (messageId data) 0).setRcode RCODE_REFUSED) edns
    (messageId_eq hlength) ((repliesTo_newResponse (messageId data) 0).setRcode RCODE_REFUSED) (Nat.zero_lt_succ _)
    (fun q hq => nomatch hq)
  rw [hmatch, UInt16.zero_and, eq_comm (a := 0)]
  exact and_congr_right' (and_congr_right' hnone)

end

/-- **When replies match.** A reply to a message that parses has its ID, opcode, RD and questions, and QR set, if and only
    if the message is a standard query, all labels in its questions are UTF-8 without dots and capital letters, and, where
    it is refused for its signature, it has neither RD nor questions; also when the reply is truncated for a datagram. -/
theorem reply_matches_iff {σ : Type} (h : Handler σ) (zones : List Zone) (clocks : Clocks) (peer : IpAddr)
    (recursion : Recursion) (data : Bytes) (cache : Cache) (s : σ) (pkt p : Packet) (edns : Bool)
    (hparse : parsePacket data = .ok pkt)
    (hreply : (handleQuery h zones clocks peer recursion data cache s).response = .reply p edns) :
    (Matches data (serialize p edns) ↔ Echoed h clocks data) ∧
      (Matches data (sendUdp data (serialize p edns)) ↔ Echoed h clocks data) := by
  obtain ⟨hlength, hid, hflags, qs, hqs, hquestions⟩ := questions_of_parse hparse
  have hkept : (∃ qs', QuestionsOf data qs' ∧ ∀ q ∈ qs', ∀ l ∈ q.labels, KeptLabel l) ↔
      ∀ q ∈ qs, ∀ l ∈ q.labels, KeptLabel l :=
    ⟨fun ⟨qs', hqs', hall⟩ => hqs'.unique hqs ▸ hall, fun hall => ⟨qs, hqs, hall⟩⟩
  rcases handleQuery_cases h hparse hreply with ⟨hrefused, rfl⟩ | ⟨hread, hhandled⟩
  · -- refused: no questions, and no flags of the query
    have hshort : sendUdp data (serialize ((Packet.newResponse (messageId data) 0).setRcode RCODE_REFUSED) edns) =
        serialize ((Packet.newResponse (messageId data) 0).setRcode RCODE_REFUSED) edns := by
      have hlimit := udpLimit_ge data
      exact if_neg (by rw [unreadReply_length]; omega)
    have hechoed : Echoed h clocks data ↔
        u16At data 2 &&& 0x7800 = 0 ∧ u16At data 2 &&& 0x0100 = 0 ∧ u16At data 4 = 0 := by
      refine ⟨fun he => ⟨he.opcode, he.refused hrefused⟩, fun ⟨hopcode, hrd, hzero⟩ =>
        ⟨hopcode, fun _ => ⟨hrd, hzero⟩, ?_⟩⟩
      have hempty : qs = [] := List.length_eq_zero_iff.mp (by rw [← hqs.count, hzero]; rfl)
      exact ⟨qs, hqs, fun q hq => by rw [hempty] at hq; exact absurd hq List.not_mem_nil⟩
    rw [hshort, matches_unread_iff hqs (by omega), hechoed]
    exact ⟨Iff.rfl, Iff.rfl⟩
  · have hechoed : Echoed h clocks data ↔ u16At data 2 &&& 0x7800 = 0 ∧ ∀ q ∈ qs, ∀ l ∈ q.labels, KeptLabel l :=
      ⟨fun he => ⟨he.opcode, hkept.mp he.kept⟩, fun he => ⟨he.1, fun hrefused => absurd hrefused hread, hkept.mpr he.2⟩⟩
    obtain ⟨hpid, hpflags⟩ := handlePacket_header h hhandled
    have hwhole := matches_read_iff hqs hparse hquestions edns hpid hpflags (handlePacket_questions h hhandled)
    refine ⟨hwhole.trans hechoed.symm, ?_⟩
    unfold sendUdp
    split
    · -- too long: the truncated reply repeats the same
      have hflags := ((repliesTo_newResponse pkt.id pkt.flags).or_bit 0x0200 rfl).or_bit 0x0080 rfl
      have htruncated := matches_read_iff hqs hparse hquestions false (p := { Packet.newResponse pkt.id pkt.flags with
        questions := pkt.questions }.setTc.setRa) rfl hflags rfl
      rw [buildTruncated, hparse]
      exact htruncated.trans hechoed.symm
    · exact hwhole.trans hechoed.symm

/-- A message with the ID 7 and a question for the addresses of a name of one octet. -/
def letterMessage (hi lo letter : UInt8) : Bytes := [0, 7, hi, lo, 0, 1, 0, 0, 0, 0, 0, 0, 1, letter, 0, 0, 1, 0, 1]

def letterReply : Packet where
  id := 7
  flags := 0x8185
  questions := [⟨['a'], .A, CLASS_IN⟩]
  answers := []
  authority := []
  additional := []
  ednsUdpSize := 0
  dnssecOk := false

theorem letterMessage_handled (letter : UInt8) (hletter : letter = 0x61 ∨ letter = 0x41) :
    (handleQuery plainHandler [] noClocks (.V4 0) .Inline (letterMessage 1 0 letter) .new ()).response =
      .reply letterReply false := by
  rcases hletter with rfl | rfl <;> rfl

theorem letterMessage_questions (hi lo letter : UInt8) :
    QuestionsOf (letterMessage hi lo letter) [⟨[[letter]], 1, 1⟩] where
  count := by
    show ((0 : UInt8).toUInt16 <<< 8 ||| (1 : UInt8).toUInt16).toNat = 1
    decide
  questions := by
    have hone : (letterMessage hi lo letter)[12]? = some 1 := rfl
    have hroot : (letterMessage hi lo letter)[14]? = some 0 := rfl
    have hlength : 12 + 1 + (1 : UInt8).toNat ≤ (letterMessage hi lo letter).length := Nat.le_add_right 14 5
    have hname : WireName (letterMessage hi lo letter) 12 [[letter]] :=
      .label hone (by decide) (by decide) hlength (.root hroot)
    have hends : NameEnd (letterMessage hi lo letter) 12 15 := .label hone (by decide) (by decide) (.root hroot)
    have htype : (0 : UInt8).toUInt16 <<< 8 ||| (1 : UInt8).toUInt16 = 1 := by decide
    have hquestion : u16At (letterMessage hi lo letter) 15 = 1 ∧ u16At (letterMessage hi lo letter) 17 = 1 :=
      ⟨htype, htype⟩
    have hall := WireQuestions.cons hname hends .nil
    rwa [hquestion.1, hquestion.2] at hall

/-- A small letter comes back. -/
theorem letterMessage_matches : ∃ p,
    (handleQuery plainHandler [] noClocks (.V4 0) .Inline (letterMessage 1 0 0x61) .new ()).response = .reply p false ∧
      Matches (letterMessage 1 0 0x61) (serialize p false) := by
  have hreply := letterMessage_handled 0x61 (.inl rfl)
  obtain ⟨pkt, hparse⟩ : ∃ pkt, parsePacket (letterMessage 1 0 0x61) = .ok pkt := ⟨_, rfl⟩
  have hiff := (reply_matches_iff plainHandler [] noClocks (.V4 0) .Inline _ .new () pkt _ _ hparse hreply).1
  refine ⟨letterReply, hreply, hiff.mpr ?_⟩
  refine ⟨rfl, fun hrefused => absurd hrefused.1 (by decide), _, letterMessage_questions 1 0 0x61, fun q hq l hl => ?_⟩
  rw [List.mem_singleton.mp hq] at hl
  rw [List.mem_singleton.mp hl]
  exact ⟨⟨rfl, by decide⟩, rfl⟩

/-- A standard query for no name with RD set, or with another opcode. -/
def bareQuery (flags : UInt16) : Bytes := [0, 7] ++ be16 flags ++ [0, 0, 0, 0, 0, 0, 0, 0]

/-- A capital letter comes back as a small one, another opcode as 0, and RD of a query refused for its signature not at
    all. -/
theorem replies_differ :
    (∃ p, (handleQuery plainHandler [] noClocks (.V4 0) .Inline (letterMessage 1 0 0x41) .new ()).response =
      .reply p false ∧ ¬ Matches (letterMessage 1 0 0x41) (serialize p false)) ∧
    (∃ p, (handleQuery plainHandler [] noClocks (.V4 0) .Inline (bareQuery 0x1000) .new ()).response = .reply p false ∧
      ¬ Matches (bareQuery 0x1000) (serialize p false)) ∧
    ∃ p, (handleQuery { plainHandler with config := { plainHandler.config with tsigRequireAll := true } } []
      noClocks (.V4 0)
        .Inline (bareQuery 0x0100) .new ()).response = .reply p false ∧
      ¬ Matches (bareQuery 0x0100) (serialize p false) := by
  refine ⟨⟨letterReply, letterMessage_handled 0x41 (.inr rfl), fun hm => ?_⟩, ⟨_, rfl, fun hm => ?_⟩,
    ⟨_, rfl, fun hm => ?_⟩⟩
  · obtain ⟨qs, hquery, hreply⟩ := hm.questions
    have hsmall : QuestionsOf (serialize letterReply false) [⟨[[0x61]], 1, 1⟩] :=
      letterMessage_questions 0x81 0x85 0x61
    have hsame := (hsmall.unique hreply).trans (hquery.unique (letterMessage_questions 1 0 0x41))
    exact absurd (congrArg (List.map WireQuestion.labels) hsame) (by decide)
  · exact absurd hm.opcode (by decide)
  · exact absurd hm.rd (by decide)

end Ironbind
