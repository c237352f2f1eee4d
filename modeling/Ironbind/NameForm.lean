import Ironbind.TsigPreimage

/- Which octets the name parser takes for a name. `RfcName` is the form RFC 1035
   gives a name in a message: labels of 1 to 63 octets, ended by a zero octet or by
   a pointer to a name that starts before this one. `Walk` is what the parser really
   passes: any octet below 192 is the length of a label, and a pointer may lead
   anywhere. The parser succeeds exactly on walks of at most 20 pointers
   (`name_succeeds_iff`), so it meets the form exactly where such a walk passes only
   labels and pointers of the form and no more than 255 octets
   (`nameForm_met_iff`). -/
namespace Ironbind
open Codec

/-- The names of RFC 1035 with at most so many pointers: the first position is where the name
    starts, the second where its next label stands. The octets of the two labels types 01 and 10
    lead no name, and a pointer leads to a name that starts before the one it ends. -/
inductive RfcName (buf : Bytes) : Nat → Nat → Nat → List Bytes → Prop where
  | root {jumps start pos : Nat} (hb : buf[pos]? = some 0) : RfcName buf jumps start pos []
  | label {jumps start pos : Nat} {octets : Bytes} {labels : List Bytes} (hpos : 1 ≤ octets.length)
      (h63 : octets.length ≤ 63) (hb : buf[pos]? = some (UInt8.ofNat octets.length))
      (hocts : (buf.drop (pos + 1)).take octets.length = octets)
      (rest : RfcName buf jumps start (pos + 1 + octets.length) labels) :
      RfcName buf jumps start pos (octets :: labels)
  | pointer {jumps start pos : Nat} {b lo : UInt8} {labels : List Bytes} (hb : buf[pos]? = some b)
      (hlo : buf[pos + 1]? = some lo) (h11 : 192 ≤ b.toNat)
      (hearlier : (b.toNat - 192) * 256 + lo.toNat < start)
      (rest : RfcName buf jumps ((b.toNat - 192) * 256 + lo.toNat) ((b.toNat - 192) * 256 + lo.toNat) labels) :
      RfcName buf (jumps + 1) start pos labels

/-- The octets of a name written out: every label behind its length, and the zero octet. -/
def uncompressedLength (labels : List Bytes) : Nat := (labels.map fun l => l.length + 1).sum + 1

def NameSucceeds (buf : Bytes) (pos : Nat) : Prop := ∃ name stop, Parser.name buf pos = (.ok name, stop)

/-- The parser accepts the names of RFC 1035 at a position, and what it returns fits 255 octets. -/
structure NameFormMet (buf : Bytes) (pos : Nat) : Prop where
  accepts : NameSucceeds buf pos ↔ ∃ labels, RfcName buf 20 pos pos labels ∧ uncompressedLength labels ≤ 255
  reencoded : ∀ name stop, Parser.name buf pos = (.ok name, stop) → (Builder.name name).length ≤ 255

/-! What the parser passes. -/

/-- A label's octets, or a pointer that ends a name which starts at the first position and leads
    to the second. -/
inductive Visit where
  | label (octets : Bytes)
  | pointer (start offset : Nat)
  deriving DecidableEq, Repr

/-- A visit of the form RFC 1035 gives names. -/
def Visit.Proper : Visit → Prop
  | label octets => octets.length ≤ 63
  | pointer start offset => offset < start

def Visit.labels : Visit → List Bytes
  | label octets => [octets]
  | pointer _ _ => []

def Visit.jumps : Visit → Nat
  | label _ => 0
  | pointer _ _ => 1

def visitedLabels (visits : List Visit) : List Bytes := visits.flatMap Visit.labels
def visitedJumps (visits : List Visit) : Nat := (visits.map Visit.jumps).sum

@[simp] theorem visitedLabels_nil : visitedLabels [] = [] := rfl
@[simp] theorem visitedLabels_label (octets : Bytes) (visits : List Visit) :
    visitedLabels (.label octets :: visits) = octets :: visitedLabels visits := rfl
@[simp] theorem visitedLabels_pointer (start offset : Nat) (visits : List Visit) :
    visitedLabels (.pointer start offset :: visits) = visitedLabels visits := rfl
@[simp] theorem visitedJumps_nil : visitedJumps [] = 0 := rfl
@[simp] theorem visitedJumps_label (octets : Bytes) (visits : List Visit) :
    visitedJumps (.label octets :: visits) = visitedJumps visits := by
  simp [visitedJumps, Visit.jumps]
@[simp] theorem visitedJumps_pointer (start offset : Nat) (visits : List Visit) :
    visitedJumps (.pointer start offset :: visits) = visitedJumps visits + 1 := by
  simp [visitedJumps, Visit.jumps, Nat.add_comm]

/-- The octet a pointer starts with and the next one, as the position they lead to. -/
def pointerOffset (b lo : UInt8) : Nat := ((b &&& 0x3F).toNat <<< 8) ||| lo.toNat

/-- The visits of the walk that continues at the second position a name started at the first. -/
inductive Walk (buf : Bytes) : Nat → Nat → List Visit → Prop where
  | root {start pos : Nat} (hb : buf[pos]? = some 0) : Walk buf start pos []
  | label {start pos : Nat} {b : UInt8} {visits : List Visit} (hb : buf[pos]? = some b) (h0 : b ≠ 0)
      (hp : b &&& 0xC0 ≠ 0xC0) (hlen : pos + 1 + b.toNat ≤ buf.length)
      (rest : Walk buf start (pos + 1 + b.toNat) visits) :
      Walk buf start pos (.label ((buf.drop (pos + 1)).take b.toNat) :: visits)
  | pointer {start pos : Nat} {b lo : UInt8} {visits : List Visit} (hb : buf[pos]? = some b)
      (hp : b &&& 0xC0 = 0xC0) (hlo : buf[pos + 1]? = some lo)
      (rest : Walk buf (pointerOffset b lo) (pointerOffset b lo) visits) :
      Walk buf start pos (.pointer start (pointerOffset b lo) :: visits)

/-- A position starts one walk at most. -/
theorem Walk.unique {buf : Bytes} {start pos : Nat} {visits visits' : List Visit} (h : Walk buf start pos visits)
    (h' : Walk buf start pos visits') : visits = visits' := by
  induction h generalizing visits' with
  | root hb =>
    cases h' with
    | root _ => rfl
    | label hb' h0 _ _ _ => exact absurd (Option.some.inj (hb.symm.trans hb')).symm h0
    | pointer hb' hp _ _ => rw [← Option.some.inj (hb.symm.trans hb')] at hp; exact absurd hp (by decide)
  | label hb h0 hp _ _ ih =>
    cases h' with
    | root hb' => exact absurd (Option.some.inj (hb.symm.trans hb')) h0
    | label hb' _ _ _ rest' =>
      obtain rfl := Option.some.inj (hb.symm.trans hb')
      rw [ih rest']
    | pointer hb' hp' _ _ => exact absurd (Option.some.inj (hb'.symm.trans hb) ▸ hp') hp
  | pointer hb hp hlo _ ih =>
    cases h' with
    | root hb' => rw [Option.some.inj (hb.symm.trans hb')] at hp; exact absurd hp (by decide)
    | label hb' _ hp' _ _ => exact absurd (Option.some.inj (hb.symm.trans hb') ▸ hp) hp'
    | pointer hb' _ hlo' rest' =>
      obtain rfl := Option.some.inj (hb.symm.trans hb')
      obtain rfl := Option.some.inj (hlo.symm.trans hlo')
      rw [ih rest']

theorem Walk.wireName {buf : Bytes} {start pos : Nat} {visits : List Visit} (h : Walk buf start pos visits) :
    WireName buf pos (visitedLabels visits) := by
  induction h with
  | root hb => exact .root hb
  | label hb h0 hp hlen _ ih => exact .label hb h0 hp hlen ih
  | pointer hb hp hlo _ ih => exact .pointer hb hp hlo ih

/-- A pass that succeeds has walked, within what was left of the budget. -/
theorem walk_of_nameLoop {buf : Bytes} : ∀ (fuel : Nat) {parts : List Text} {selfPos start pos : Nat} {jumped : Bool}
    {jumps : Nat} {res : List Text} {stop : Nat}, jumps ≤ 20 →
    Parser.nameLoop buf fuel parts selfPos pos jumped jumps = (.ok res, stop) →
    ∃ visits, Walk buf start pos visits ∧ jumps + visitedJumps visits ≤ 20
  | 0, _, _, _, _, _, _, _, _, _, h => by cases h
  | fuel + 1, parts, selfPos, start, pos, jumped, jumps, res, stop, hj, h => by
    obtain ⟨b, hb, ⟨rfl, -, -⟩ | ⟨hp, -, lo, hlo, hlt, h⟩ | ⟨hp, h0, hlen, h⟩⟩ := nameLoop_ok h
    · exact ⟨[], .root hb, hj⟩
    · obtain ⟨visits, hw, hle⟩ := walk_of_nameLoop fuel hlt h
      refine ⟨_, .pointer hb hp hlo hw, ?_⟩
      rw [visitedJumps_pointer]
      omega
    · obtain ⟨visits, hw, hle⟩ := walk_of_nameLoop fuel hj h
      refine ⟨_, .label hb h0 hp hlen hw, ?_⟩
      rw [visitedJumps_label]
      exact hle

/-- A walk within the budget is walked to its end. -/
theorem Walk.nameLoop {buf : Bytes} {start pos : Nat} {visits : List Visit} (h : Walk buf start pos visits) :
    ∀ {fuel : Nat} {parts : List Text} {selfPos : Nat} {jumped : Bool} {jumps : Nat},
      jumps + visitedJumps visits ≤ 20 → nameMeasure buf pos jumps < fuel →
      ∃ res stop, Parser.nameLoop buf fuel parts selfPos pos jumped jumps = (.ok res, stop) := by
  induction h with
  | @root start pos hb =>
    intro fuel parts selfPos jumped jumps _ hfuel
    obtain ⟨fuel, rfl⟩ := Nat.exists_eq_succ_of_ne_zero (Nat.ne_zero_of_lt hfuel)
    exact ⟨parts, if jumped then selfPos else pos + 1, by simp only [Parser.nameLoop, hb, if_true]⟩
  | @label start pos b visits hb h0 hp hlen _ ih =>
    intro fuel parts selfPos jumped jumps hj hfuel
    obtain ⟨fuel, rfl⟩ := Nat.exists_eq_succ_of_ne_zero (Nat.ne_zero_of_lt hfuel)
    rw [visitedJumps_label] at hj
    simp only [Parser.nameLoop, hb, if_neg h0, if_neg hp, if_neg (Nat.not_lt.mpr hlen)]
    apply ih hj
    unfold nameMeasure at hfuel ⊢
    omega
  | @pointer start pos b lo visits hb hp hlo _ ih =>
    intro fuel parts selfPos jumped jumps hj hfuel
    obtain ⟨fuel, rfl⟩ := Nat.exists_eq_succ_of_ne_zero (Nat.ne_zero_of_lt hfuel)
    rw [visitedJumps_pointer] at hj
    have h0 : b ≠ 0 := by
      intro e
      rw [e] at hp
      exact absurd hp (by decide)
    simp only [Parser.nameLoop, hb, if_neg h0, if_pos hp, hlo, if_neg (show ¬ jumps + 1 > 20 by omega)]
    apply ih (by omega)
    have hpos := (List.getElem?_eq_some_iff.mp hb).1
    exact Nat.lt_of_lt_of_le (nameMeasure_jump _ (by omega) hpos) (Nat.le_of_lt_succ hfuel)

/-- The parser succeeds on the walks of at most 20 pointers. -/
theorem name_succeeds_iff (buf : Bytes) (pos : Nat) :
    NameSucceeds buf pos ↔ ∃ visits, Walk buf pos pos visits ∧ visitedJumps visits ≤ 20 := by
  constructor
  · intro h
    obtain ⟨name, stop, h⟩ := h
    obtain ⟨parts, p, hparts, -⟩ := Reader.bind_eq_ok h
    obtain ⟨visits, hw, hle⟩ := walk_of_nameLoop _ (Nat.zero_le 20) hparts
    exact ⟨visits, hw, by omega⟩
  · intro h
    obtain ⟨visits, hw, hle⟩ := h
    obtain ⟨res, stop, hrun⟩ := hw.nameLoop (by omega) (nameFuel_enough buf pos)
    have hparts : Parser.nameParts buf pos = (.ok res, stop) := hrun
    exact ⟨Parser.joinLabels res, stop, by rw [Parser.name, Reader.bind_ok hparts]; rfl⟩

/-! Walks of the form. -/

theorem label_octet {b : UInt8} (h : b.toNat < 192) : b &&& 0xC0 ≠ 0xC0 := by
  have := length_octet_no_pointer h
  rwa [UInt8.ofNat_toNat] at this

theorem pointer_octet {b : UInt8} : b &&& 0xC0 = 0xC0 ↔ 192 ≤ b.toNat := by
  constructor
  · intro h
    by_contra hlt
    exact label_octet (Nat.lt_of_not_le hlt) h
  · intro h
    have hcase : ∀ n : Fin 256, 192 ≤ n.val → UInt8.ofNat n.val &&& 0xC0 = 0xC0 := by decide +kernel
    have := hcase ⟨b.toNat, b.toNat_lt⟩ h
    rwa [UInt8.ofNat_toNat] at this

/-- The six low bits of a pointer's first octet are what it is above 192. -/
theorem pointerOffset_eq {b : UInt8} (lo : UInt8) (h : 192 ≤ b.toNat) :
    pointerOffset b lo = (b.toNat - 192) * 256 + lo.toNat := by
  have hlow : (b &&& 0x3F).toNat = b.toNat % 64 := by
    rw [UInt8.toNat_and]
    exact Nat.and_two_pow_sub_one_eq_mod b.toNat 6
  have hlt := b.toNat_lt
  have hmod : b.toNat % 64 = b.toNat - 192 := by omega
  rw [pointerOffset, hlow, hmod, ← Nat.shiftLeft_add_eq_or_of_lt lo.toNat_lt, Nat.shiftLeft_eq]

/-- A name of the form is walked, and every visit of the walk is of the form. -/
theorem RfcName.walk {buf : Bytes} {jumps start pos : Nat} {labels : List Bytes}
    (h : RfcName buf jumps start pos labels) :
    ∃ visits, Walk buf start pos visits ∧ (∀ v ∈ visits, v.Proper) ∧ visitedLabels visits = labels ∧
      visitedJumps visits ≤ jumps := by
  induction h with
  | root hb => exact ⟨[], .root hb, fun _ hv => absurd hv List.not_mem_nil, rfl, Nat.zero_le _⟩
  | @label jumps start pos octets labels hpos h63 hb hocts _ ih =>
    obtain ⟨visits, hw, hproper, hlabels, hjumps⟩ := ih
    have htoNat : (UInt8.ofNat octets.length).toNat = octets.length :=
      UInt8.toNat_ofNat_of_lt' (show octets.length < UInt8.size by unfold UInt8.size; omega)
    have hlen : pos + 1 + octets.length ≤ buf.length := by
      have := congrArg List.length hocts
      rw [List.length_take, List.length_drop] at this
      omega
    have hvisit : Walk buf start pos (.label octets :: visits) := by
      have := Walk.label hb (length_octet_ne_zero hpos (by omega)) (length_octet_no_pointer (by omega))
        (by rwa [htoNat]) (by rwa [htoNat])
      rwa [htoNat, hocts] at this
    refine ⟨_, hvisit, List.forall_mem_cons.mpr ⟨h63, hproper⟩, ?_, ?_⟩
    · rw [visitedLabels_label, hlabels]
    · rwa [visitedJumps_label]
  | @pointer jumps start pos b lo labels hb hlo h11 hearlier _ ih =>
    obtain ⟨visits, hw, hproper, hlabels, hjumps⟩ := ih
    rw [← pointerOffset_eq lo h11] at hearlier hw
    refine ⟨_, .pointer hb (pointer_octet.mpr h11) hlo hw, List.forall_mem_cons.mpr ⟨hearlier, hproper⟩, ?_, ?_⟩
    · rw [visitedLabels_pointer, hlabels]
    · rw [visitedJumps_pointer]
      omega

/-- A walk whose visits are of the form passes a name of the form. -/
theorem Walk.rfcName {buf : Bytes} {start pos : Nat} {visits : List Visit} (h : Walk buf start pos visits) :
    ∀ {jumps : Nat}, (∀ v ∈ visits, v.Proper) → visitedJumps visits ≤ jumps →
      RfcName buf jumps start pos (visitedLabels visits) := by
  induction h with
  | root hb => exact fun _ _ => .root hb
  | @label start pos b visits hb h0 hp hlen _ ih =>
    intro jumps hproper hjumps
    obtain ⟨h63, hproper⟩ := List.forall_mem_cons.mp hproper
    rw [visitedJumps_label] at hjumps
    have hlength : ((buf.drop (pos + 1)).take b.toNat).length = b.toNat := by
      rw [List.length_take, List.length_drop]
      omega
    have hpos : 0 < b.toNat := Nat.pos_of_ne_zero fun e => h0 (UInt8.toNat_inj.mp e)
    rw [visitedLabels_label]
    apply RfcName.label
    · rw [hlength]; exact hpos
    · exact h63
    · rw [hlength, UInt8.ofNat_toNat, hb]
    · rw [hlength]
    · rw [hlength]; exact ih hproper hjumps
  | @pointer start pos b lo visits hb hp hlo _ ih =>
    intro jumps hproper hjumps
    obtain ⟨hearlier, hproper⟩ := List.forall_mem_cons.mp hproper
    rw [visitedJumps_pointer] at hjumps
    obtain ⟨jumps, rfl⟩ := Nat.exists_eq_succ_of_ne_zero (show jumps ≠ 0 by omega)
    have h11 := pointer_octet.mp hp
    have heq := pointerOffset_eq lo h11
    rw [visitedLabels_pointer]
    apply RfcName.pointer hb hlo h11
    · rw [← heq]; exact hearlier
    · rw [← heq]; exact ih hproper (by omega)

/-! Names written again. -/

theorem encodeLabels_append (ls ls' : List Text) : encodeLabels (ls ++ ls') = encodeLabels ls ++ encodeLabels ls' :=
  List.flatMap_append

theorem utf8_intercalate_length : ∀ {ls : List Text}, ls ≠ [] →
    (utf8 (['.'].intercalate ls)).length + 1 = (ls.map fun l => (utf8 l).length + 1).sum
  | [], h => absurd rfl h
  | [l], _ => by simp
  | l :: l' :: ls, _ => by
    have hcons : ['.'].intercalate (l :: l' :: ls) = l ++ '.' :: ['.'].intercalate (l' :: ls) := by simp
    have ih := utf8_intercalate_length (List.cons_ne_nil l' ls)
    have hdot : (utf8 ('.' :: ['.'].intercalate (l' :: ls))).length =
        (utf8 (['.'].intercalate (l' :: ls))).length + 1 := by
      rw [utf8_cons, List.length_append, Nat.add_comm]
      rfl
    rw [List.map_cons, List.sum_cons, ← ih, hcons, utf8_append, List.length_append, hdot]
    omega

/-- The labels of a text and their length octets take one octet more than the text at most: every
    dot between two labels pays for a length octet. -/
theorem encodeLabels_labelsOf_length (s : Text) : (encodeLabels (labelsOf s)).length ≤ (utf8 s).length + 1 := by
  have hfilter : ∀ ls : List Text, (encodeLabels (ls.filter (· ≠ []))).length ≤
      (ls.map fun l => (utf8 l).length + 1).sum := by
    intro ls
    induction ls with
    | nil => exact Nat.le_refl _
    | cons l ls ih =>
      rw [List.map_cons, List.sum_cons]
      by_cases hl : l = []
      · rw [List.filter_cons_of_neg (by simp [hl])]
        omega
      · rw [List.filter_cons_of_pos (by simp [hl]), encodeLabels_cons, Builder.label, List.length_append,
          List.length_cons]
        omega
  calc (encodeLabels (labelsOf s)).length
      ≤ ((s.splitOn '.').map fun l => (utf8 l).length + 1).sum := hfilter _
    _ = (utf8 (['.'].intercalate (s.splitOn '.'))).length + 1 :=
        (utf8_intercalate_length (List.splitOn_ne_nil '.' s)).symm
    _ = (utf8 s).length + 1 := by rw [List.intercalate_splitOn]

/-- What the parser returned is not longer on the wire than the labels it passed. -/
theorem builder_name_length {buf : Bytes} {pos : Nat} {labels : List Bytes} (h : WireName buf pos labels) :
    (Builder.name (Parser.joinLabels (labels.map Parser.labelText))).length ≤ uncompressedLength labels := by
  have hne := h.ne_nil
  have hlabels : (encodeLabels ((labels.map Parser.labelText).flatMap labelsOf)).length ≤
      (labels.map fun l => l.length + 1).sum := by
    clear h
    induction labels with
    | nil => exact Nat.le_refl _
    | cons l ls ih =>
      obtain ⟨hl, hls⟩ := List.forall_mem_cons.mp hne
      have h1 := encodeLabels_labelsOf_length (Parser.labelText l)
      have h2 := labelText_length_le hl
      have h3 := ih hls
      simp only [List.map_cons, List.flatMap_cons, encodeLabels_append, List.length_append, List.sum_cons]
      omega
  rw [Builder.name_eq, labelsOf_joinLabels_flatMap, List.length_append]
  exact Nat.add_le_add_right hlabels 1

/-- **The parser's names and RFC 1035's.** At a position of a packet the parser accepts what RFC 1035
    calls a name, and returns no name longer than 255 octets, exactly when no walk within the jump
    budget starts there that passes a label of more than 63 octets, a pointer to no earlier name, or
    more than 255 octets. -/
theorem nameForm_met_iff (buf : Bytes) (pos : Nat) :
    NameFormMet buf pos ↔ ∀ visits, Walk buf pos pos visits → visitedJumps visits ≤ 20 →
      (∀ v ∈ visits, v.Proper) ∧ uncompressedLength (visitedLabels visits) ≤ 255 := by
  constructor
  · intro h visits hw hjumps
    obtain ⟨labels, hname, hlen⟩ := h.accepts.mp ((name_succeeds_iff buf pos).mpr ⟨visits, hw, hjumps⟩)
    obtain ⟨visits', hw', hproper, rfl, -⟩ := hname.walk
    obtain rfl := hw.unique hw'
    exact ⟨hproper, hlen⟩
  · intro h
    have haccepts : NameSucceeds buf pos ↔
        ∃ labels, RfcName buf 20 pos pos labels ∧ uncompressedLength labels ≤ 255 := by
      rw [name_succeeds_iff]
      constructor
      · intro hs
        obtain ⟨visits, hw, hjumps⟩ := hs
        obtain ⟨hproper, hlen⟩ := h visits hw hjumps
        exact ⟨visitedLabels visits, hw.rfcName hproper hjumps, hlen⟩
      · intro hr
        obtain ⟨labels, hname, -⟩ := hr
        obtain ⟨visits, hw, -, -, hjumps⟩ := hname.walk
        exact ⟨visits, hw, hjumps⟩
    refine ⟨haccepts, ?_⟩
    intro name stop hname
    obtain ⟨visits, hw, hjumps⟩ := (name_succeeds_iff buf pos).mp ⟨name, stop, hname⟩
    obtain ⟨labels, hlabels, rfl⟩ := name_eq_joinLabels hname
    obtain rfl := hlabels.unique hw.wireName
    calc (Builder.name (Parser.joinLabels ((visitedLabels visits).map Parser.labelText))).length
        ≤ uncompressedLength (visitedLabels visits) := builder_name_length hlabels
      _ ≤ 255 := (h visits hw hjumps).2

/-- A name whose first octet announces 64 octets of label. -/
def longLabelName : Bytes := 64 :: List.replicate 64 97 ++ [0]

/-- The parser takes the label type 01 for a length. -/
theorem nameForm_reserved_type : ¬ NameFormMet longLabelName 0 := by
  intro h
  have hs : NameSucceeds longLabelName 0 := by
    refine ⟨List.replicate 64 'a', 66, ?_⟩
    decide
  obtain ⟨labels, hname, -⟩ := h.accepts.mp hs
  cases hname with
  | root hb => exact absurd hb (by decide)
  | @label _ _ _ octets _ _ h63 hb _ _ =>
    have hlen : UInt8.ofNat octets.length = 64 := (Option.some.inj hb).symm
    have := congrArg UInt8.toNat hlen
    rw [UInt8.toNat_ofNat_of_lt' (show octets.length < UInt8.size by unfold UInt8.size; omega)] at this
    exact absurd this (by simp; omega)
  | pointer hb _ h11 _ _ =>
    rw [← Option.some.inj hb] at h11
    exact absurd h11 (by decide)

end Ironbind
