import Ironbind.SendableRecords
import Ironbind.ReplyMatch

/- Where the data of a parsed record comes from. RDLENGTH says which octets of the
   message are the record's data; `decompress_rdata` reads the names of six types again
   from the first of them, and where these names end is not compared with RDLENGTH. So
   the data is what RDLENGTH announces only when the names and fields in place end there
   (`record_bounded_iff`); a shorter RDLENGTH lets the next record's octets in
   (`leakedOwner_unbounded`). The labels are also taken for text on the way: one with a
   dot in it becomes two, one that is not UTF-8 becomes "?".

   Names in place are `WireName` and `NameEnd`, which know nothing of the parser. -/
namespace Ironbind
open Codec

/-! Data in place. -/

/-- The `n` octets from a position on. -/
def slice (buf : Bytes) (pos n : Nat) : Bytes := (buf.drop pos).take n

/-- A name in place: its labels, pointers followed, and where its own octets end. -/
structure NameInPlace (buf : Bytes) (pos stop : Nat) (labels : List Bytes) : Prop where
  name : WireName buf pos labels
  ends : NameEnd buf pos stop

/-- Labels written out in full, in lower case. -/
def expandedName (labels : List Bytes) : Bytes :=
  labels.flatMap (fun l => UInt8.ofNat l.length :: l.map foldOctet) ++ [0]

/-- Data with names in it that stands at `pos` and ends at `stop`: the names, and the whole of it
    with the names expanded. -/
inductive Layout (buf : Bytes) : RType → Nat → Nat → List (List Bytes) → Bytes → Prop where
  | target {t : RType} {pos stop : Nat} {labels : List Bytes} (ht : t = .NS ∨ t = .CNAME ∨ t = .PTR)
      (target : NameInPlace buf pos stop labels) : Layout buf t pos stop [labels] (expandedName labels)
  | mx {pos stop : Nat} {labels : List Bytes} (exchange : NameInPlace buf (pos + 2) stop labels) :
      Layout buf .MX pos stop [labels] (slice buf pos 2 ++ expandedName labels)
  | srv {pos stop : Nat} {labels : List Bytes} (target : NameInPlace buf (pos + 6) stop labels) :
      Layout buf .SRV pos stop [labels] (slice buf pos 6 ++ expandedName labels)
  | soa {pos mid stop : Nat} {labels labels' : List Bytes} (mname : NameInPlace buf pos mid labels)
      (rname : NameInPlace buf mid stop labels') : Layout buf .SOA pos (stop + 20) [labels, labels']
        (expandedName labels ++ (expandedName labels' ++ slice buf stop 20))

/-- The data made of `raw`, which stands at `offset`, is `raw` itself, or `raw` holds names and fields that end
    where it ends, and the data is these in full. -/
def Bounded (buf : Bytes) (t : RType) (raw : Bytes) (offset : Nat) (rdata : Bytes) : Prop :=
  rdata = raw ∨ ∃ names, Layout buf t offset (offset + raw.length) names rdata

/-- The names that `decompress_rdata` looks for can be read. -/
def namesRead (buf : Bytes) (t : RType) (raw : Bytes) (offset : Nat) : Bool :=
  match t with
  | .NS | .CNAME | .PTR => (nameAt buf offset).isOk
  | .MX => decide (2 ≤ raw.length) && (nameAt buf (offset + 2)).isOk
  | .SRV => decide (6 ≤ raw.length) && (nameAt buf (offset + 6)).isOk
  | .SOA => (soaFields buf offset).1.isOk
  | _ => false

/-- Names that can be read end, with the fields around them, where RDLENGTH says, and their labels are
    their text. -/
def FillsRdlength (buf : Bytes) (t : RType) (raw : Bytes) (offset : Nat) : Prop :=
  namesRead buf t raw offset → ∃ names rdata, Layout buf t offset (offset + raw.length) names rdata ∧
    ∀ labels ∈ names, ∀ l ∈ labels, PlainLabel l

theorem NameInPlace.unique {buf : Bytes} {pos stop stop' : Nat} {labels labels' : List Bytes}
    (h : NameInPlace buf pos stop labels) (h' : NameInPlace buf pos stop' labels') : stop = stop' ∧ labels = labels' :=
  ⟨h.ends.unique h'.ends, h.name.unique h'.name⟩

/-- Data of a type stands at a position in one way. -/
theorem Layout.unique {buf : Bytes} {t : RType} {pos stop stop' : Nat} {names names' : List (List Bytes)}
    {rdata rdata' : Bytes} (h : Layout buf t pos stop names rdata) (h' : Layout buf t pos stop' names' rdata') :
    stop = stop' ∧ names = names' ∧ rdata = rdata' := by
  cases h with
  | target ht n =>
    cases h' with
    | target _ n' => obtain ⟨rfl, rfl⟩ := n.unique n'; exact ⟨rfl, rfl, rfl⟩
    | mx _ => simp at ht
    | srv _ => simp at ht
    | soa _ _ => simp at ht
  | mx n =>
    cases h' with
    | target ht _ => simp at ht
    | mx n' => obtain ⟨rfl, rfl⟩ := n.unique n'; exact ⟨rfl, rfl, rfl⟩
  | srv n =>
    cases h' with
    | target ht _ => simp at ht
    | srv n' => obtain ⟨rfl, rfl⟩ := n.unique n'; exact ⟨rfl, rfl, rfl⟩
  | soa m r =>
    cases h' with
    | target ht _ => simp at ht
    | soa m' r' =>
      obtain ⟨rfl, rfl⟩ := m.unique m'
      obtain ⟨rfl, rfl⟩ := r.unique r'
      exact ⟨rfl, rfl, rfl⟩

/-- What an expansion has to do with a layout: it is the layout's when the labels are plain, and when it
    leaves the octets as they are, these hold the layout and no more. -/
theorem bounded_iff_of_layout {buf : Bytes} {t : RType} {raw rdata form : Bytes} {offset stop : Nat}
    {names : List (List Bytes)} (hl : Layout buf t offset stop names form)
    (hform : rdata = form ↔ ∀ labels ∈ names, ∀ l ∈ labels, PlainLabel l)
    (hraw : rdata = raw → stop = offset + raw.length ∧ ∀ labels ∈ names, ∀ l ∈ labels, PlainLabel l) :
    Bounded buf t raw offset rdata ↔ ∃ names form, Layout buf t offset (offset + raw.length) names form ∧
      ∀ labels ∈ names, ∀ l ∈ labels, PlainLabel l := by
  constructor
  · rintro (heq | ⟨names', hl'⟩)
    · obtain ⟨rfl, hplain⟩ := hraw heq
      exact ⟨names, form, hl, hplain⟩
    · obtain ⟨rfl, rfl, rfl⟩ := hl.unique hl'
      exact ⟨names, form, hl, hform.mp rfl⟩
  · rintro ⟨names', form', hl', hplain⟩
    obtain ⟨rfl, rfl, rfl⟩ := hl.unique hl'
    exact .inr ⟨names, by rw [hform.mpr hplain]; exact hl⟩

/-! Names expanded. -/

section
variable {buf : Bytes} {pos stop : Nat} {name : Text} {labels : List Bytes}

theorem foldOctet_dot : foldOctet 0x2E = 0x2E := rfl

theorem eq_question_of_fold : ∀ b : UInt8, foldOctet b = 0x3F → b = 0x3F := by
  intro b h
  unfold foldOctet at h
  split at h
  · next hb =>
    have := congrArg UInt8.toNat h
    rw [UInt8.le_iff_toNat_le, UInt8.le_iff_toNat_le] at hb
    simp at this hb
    omega
  · exact h

/-- A label is plain when its text is the label in lower case. -/
theorem plainLabel_of_utf8_eq {l : Bytes} (h : utf8 (Parser.labelText l) = l.map foldOctet)
    (hdot : '.' ∉ Parser.labelText l) : PlainLabel l := by
  refine ⟨?_, fun hmem => ?_⟩
  · rw [Parser.labelText] at h
    cases hu : fromUtf8 l with
    | some t => rfl
    | none =>
      rw [hu] at h
      obtain ⟨b, rfl, hb⟩ := List.map_eq_singleton_iff.mp (show l.map foldOctet = [0x3F] from h.symm)
      rw [eq_question_of_fold b hb] at hu
      exact absurd hu (by decide)
  · apply dot_not_mem_utf8 hdot
    rw [h]
    exact List.mem_map.mpr ⟨0x2E, hmem, foldOctet_dot⟩

/-- Encoded labels can be told from what stands behind them, whoever wrote them. -/
theorem encodeLabels_eq_expanded {rest rest' : Bytes} : ∀ {ls : List Text} {labels : List Bytes},
    (∀ l ∈ ls, WireLabel l) → (∀ l ∈ labels, l ≠ [] ∧ l.length < 192) →
    encodeLabels ls ++ 0 :: rest = labels.flatMap (fun l => UInt8.ofNat l.length :: l.map foldOctet) ++ 0 :: rest' →
    ls.map utf8 = labels.map (List.map foldOctet) ∧ rest = rest'
  | [], [], _, _, h => ⟨rfl, (List.cons.inj h).2⟩
  | [], l :: labels, _, hl, h => by
    obtain ⟨hne, hlt⟩ := hl l List.mem_cons_self
    exact absurd (List.cons.inj h).1.symm (length_octet_ne_zero (List.length_pos_of_ne_nil hne) hlt)
  | l :: ls, [], hw, _, h => by
    obtain ⟨hpos, hlt⟩ := hw l List.mem_cons_self
    exact absurd (List.cons.inj h).1 (length_octet_ne_zero hpos hlt)
  | t :: ls, l :: labels, hw, hl, h => by
    obtain ⟨hpos, hlt⟩ := hw t List.mem_cons_self
    obtain ⟨hne, hlt'⟩ := hl l List.mem_cons_self
    rw [encodeLabels_cons, List.flatMap_cons, Builder.label, List.cons_append, List.cons_append, List.cons_append,
      List.cons_append, List.append_assoc, List.append_assoc] at h
    -- the length octets are equal, so the texts behind them are of one length
    obtain ⟨hlen, hrest⟩ := List.cons.inj h
    have hsame : (utf8 t).length = (l.map foldOctet).length := by
      have := congrArg UInt8.toNat hlen
      rw [UInt8.toNat_ofNat_of_lt' (show _ < UInt8.size by unfold UInt8.size; omega),
        UInt8.toNat_ofNat_of_lt' (show _ < UInt8.size by unfold UInt8.size; omega)] at this
      rwa [List.length_map]
    obtain ⟨htext, htail⟩ := List.append_inj hrest hsame
    obtain ⟨hmap, hrest⟩ := encodeLabels_eq_expanded (fun l' h' => hw l' (List.mem_cons_of_mem _ h'))
      (fun l' h' => hl l' (List.mem_cons_of_mem _ h')) htail
    exact ⟨by rw [List.map_cons, List.map_cons, htext, hmap], hrest⟩

theorem WireName.bounds (h : WireName buf pos labels) : ∀ l ∈ labels, l ≠ [] ∧ l.length < 192 :=
  fun l hl => ⟨h.ne_nil l hl, h.length_lt l hl⟩

/-- The name the parser reads is in place. -/
theorem nameInPlace_of_name (h : Parser.name buf pos = (.ok name, stop)) :
    ∃ labels, NameInPlace buf pos stop labels ∧ name = Parser.joinLabels (labels.map Parser.labelText) := by
  obtain ⟨labels, hw, hends, hname⟩ := wire_of_name h
  exact ⟨labels, ⟨hw, hends⟩, hname⟩

/-- Written again, a name is its labels in full exactly when these are plain, whatever stands behind. -/
theorem builderName_eq_expanded {rest rest' : Bytes} (hp : Parser.name buf pos = (.ok name, stop))
    (hn : NameInPlace buf pos stop labels) : (Builder.name name ++ rest = expandedName labels ++ rest' ↔
      (∀ l ∈ labels, PlainLabel l) ∧ rest = rest') := by
  obtain ⟨labels', hn', hname⟩ := nameInPlace_of_name hp
  obtain rfl := (hn.unique hn').2
  rw [Builder.name_eq, expandedName, List.append_assoc, List.append_assoc, List.singleton_append, List.singleton_append]
  constructor
  · intro h
    obtain ⟨hmap, hrest⟩ := encodeLabels_eq_expanded (wireLabel_of_name hp) hn.name.bounds h
    -- no label has a dot, so the name's labels are the texts of these
    have hdots : ∀ l ∈ labels, (0x2E : UInt8) ∉ l := by
      intro l hl hdot
      have hmem : l.map foldOctet ∈ (labelsOf name).map utf8 := hmap ▸ List.mem_map_of_mem hl
      obtain ⟨t, ht, htext⟩ := List.mem_map.mp hmem
      apply dot_not_mem_utf8 (dot_not_mem_of_mem_labelsOf ht)
      rw [htext]
      exact List.mem_map.mpr ⟨0x2E, hdot, foldOctet_dot⟩
    have htexts : ∀ l ∈ labels, '.' ∉ Parser.labelText l ∧ Parser.labelText l ≠ [] := by
      intro l hl
      by_cases hu : (fromUtf8 l).isSome
      · exact ⟨dot_not_mem_labelText ⟨hu, hdots l hl⟩, labelText_ne_nil (hn.name.ne_nil l hl) ⟨hu, hdots l hl⟩⟩
      · rw [Option.not_isSome_iff_eq_none] at hu
        rw [Parser.labelText, hu]
        decide
    have hlabels : labelsOf name = labels.map Parser.labelText := by
      rw [hname]
      exact labelsOf_joinLabels (List.forall_mem_map.mpr fun l hl => (htexts l hl).1)
        (List.forall_mem_map.mpr fun l hl => (htexts l hl).2)
    rw [hlabels, List.map_map] at hmap
    exact ⟨fun l hl => plainLabel_of_utf8_eq (List.map_inj_left.mp hmap l hl) (htexts l hl).1, hrest⟩
  · rintro ⟨hplain, rfl⟩
    rw [hname, labelsOf_joined hn.name hplain, encodeLabels, List.flatMap_map]
    congr 1
    apply List.flatMap_congr
    intro l hl
    rw [Builder.label, utf8_labelText (hplain l hl), List.length_map]

/-- A name the parser returns is in lower case. -/
theorem name_lower (h : Parser.name buf pos = (.ok name, stop)) : toAsciiLowercase name = name := by
  obtain ⟨labels, -, rfl⟩ := name_eq_joinLabels h
  have hall : (labels.map Parser.labelText).map toAsciiLowercase = labels.map Parser.labelText := by
    rw [List.map_map]
    exact List.map_congr_left fun l _ => labelText_lower l
  unfold Parser.joinLabels
  split
  · rfl
  · rw [toAsciiLowercase_intercalate, hall]

/-- The canonical encoder makes the same of it, unless it has an empty label. -/
theorem canonicalName_eq_expanded (hp : Parser.name buf pos = (.ok name, stop))
    (hn : NameInPlace buf pos stop labels) : canonicalName name = expandedName labels ↔ ∀ l ∈ labels, PlainLabel l := by
  have hlow := name_lower hp
  have hbuilder := @builderName_eq_expanded _ _ _ _ _ [] [] hp hn
  simp only [List.append_nil, and_true] at hbuilder
  by_cases hempty : NoEmptyLabel name
  · rw [canonicalName_noEmptyLabel hlow hempty, hbuilder]
  · obtain ⟨front, rest, hcanon, hrest, hfront⟩ := canonicalName_emptyLabel hlow hempty
    -- the encoder stops at the empty label, so an expansion would have nothing left behind it
    constructor
    · intro h
      rw [hcanon, expandedName, List.append_assoc, List.singleton_append] at h
      have hw : ∀ l ∈ front, WireLabel l := fun l hl => wireLabel_of_name hp l (hfront l hl)
      exact absurd (encodeLabels_eq_expanded hw hn.name.bounds h).2 hrest
    · intro hplain
      obtain ⟨labels', hn', hname⟩ := nameInPlace_of_name hp
      obtain rfl := (hn.unique hn').2
      have htexts := labelsOf_joined hn.name hplain
      rw [← hname] at htexts
      have hcanon' : canonicalName name = encodeLabels (labelsOf name) ++ [0] := by
        have hdot : ∀ l ∈ labelsOf name, '.' ∉ l := fun l hl => dot_not_mem_of_mem_labelsOf hl
        have hne : ∀ l ∈ labelsOf name, l ≠ [] := fun l hl => ne_nil_of_mem_labelsOf hl
        have := canonicalName_joinLabels hdot hne
        rwa [← labelsOf_lower, hlow, htexts, ← hname, ← htexts] at this
      rw [hcanon', ← Builder.name_eq, hbuilder]
      exact hplain

/-! Names that are written out already. -/

/-- An encoded name in the buffer is in place, up to its end, and its labels are plain. -/
theorem nameInPlace_encoded {ls : List Text} {pre post : Bytes} (hw : ∀ l ∈ ls, WireLabel l) (hdot : ∀ l ∈ ls, '.' ∉ l)
    (hn : NameInPlace (pre ++ (encodeLabels ls ++ 0 :: post)) pre.length stop labels) :
    stop = pre.length + (encodeLabels ls).length + 1 ∧ labels = ls.map utf8 ∧ ∀ l ∈ labels, PlainLabel l := by
  obtain ⟨hname, hends⟩ := wireName_encodeLabels post ls pre hw
  obtain ⟨rfl, rfl⟩ := hn.unique ⟨hname, hends⟩
  refine ⟨rfl, rfl, List.forall_mem_map.mpr fun l hl => ⟨?_, dot_not_mem_utf8 (hdot l hl)⟩⟩
  rw [fromUtf8_utf8]
  rfl

/-- The builder's octets of a name are that name in place. -/
theorem nameInPlace_builder {pre post : Bytes}
    (hp : Parser.name (pre ++ (Builder.name name ++ post)) pre.length = (.ok name, stop))
    (hn : NameInPlace (pre ++ (Builder.name name ++ post)) pre.length stop labels) :
    stop = pre.length + (Builder.name name).length ∧ ∀ l ∈ labels, PlainLabel l := by
  have hw := wireLabel_of_name hp
  rw [Builder.name_eq, List.append_assoc, List.singleton_append] at hn
  obtain ⟨hstop, -, hplain⟩ := nameInPlace_encoded hw (fun l hl => dot_not_mem_of_mem_labelsOf hl) hn
  refine ⟨?_, hplain⟩
  rw [hstop, Builder.name_eq, List.length_append, List.length_singleton, Nat.add_assoc]

/-- So are the canonical octets of a name that the parser read from them. -/
theorem nameInPlace_canonical {pre post : Bytes}
    (hp : Parser.name (pre ++ (canonicalName name ++ post)) pre.length = (.ok name, stop))
    (hn : NameInPlace (pre ++ (canonicalName name ++ post)) pre.length stop labels) :
    stop = pre.length + (canonicalName name).length ∧ ∀ l ∈ labels, PlainLabel l := by
  have hlow := name_lower hp
  have hw := wireLabel_of_name hp
  by_cases hempty : NoEmptyLabel name
  · rw [canonicalName_noEmptyLabel hlow hempty] at hp hn ⊢
    exact nameInPlace_builder hp hn
  · -- the name ends with its first empty label, so it had none
    obtain ⟨front, rest, hcanon, hrest, hfront⟩ := canonicalName_emptyLabel hlow hempty
    have hdot : ∀ l ∈ front, '.' ∉ l := fun l hl => dot_not_mem_of_mem_labelsOf (hfront l hl)
    have hne : ∀ l ∈ front, l ≠ [] := fun l hl => ne_nil_of_mem_labelsOf (hfront l hl)
    obtain ⟨labels', hn', hname⟩ := nameInPlace_of_name hp
    obtain rfl := (hn.unique hn').2
    rw [hcanon, List.append_assoc, List.append_assoc, List.singleton_append] at hn
    obtain ⟨-, hlabels, -⟩ := nameInPlace_encoded (fun l hl => hw l (hfront l hl)) hdot hn
    have hfrontLow : front.map toAsciiLowercase = front := by
      have hall : (labelsOf name).map toAsciiLowercase = labelsOf name := by rw [← labelsOf_lower, hlow]
      rw [map_eq_self_iff] at hall ⊢
      exact fun l hl => hall l (hfront l hl)
    have hread : name = Parser.joinLabels front := by
      rw [hname, hlabels, List.map_map]
      congr 1
      rw [← hfrontLow, List.map_map]
      exact List.map_congr_left fun l _ => labelText_utf8 _ |>.trans (toAsciiLowercase_idem l)
    have hshort : canonicalName name = encodeLabels front ++ [0] := by
      rw [hread, canonicalName_joinLabels hdot hne, hfrontLow]
    rw [hshort] at hcanon
    exact absurd (List.append_right_eq_self.mp hcanon.symm) hrest

end

/-! Fixed fields in place. -/

theorem slice_add (buf : Bytes) (pos m n : Nat) : slice buf pos (m + n) = slice buf pos m ++ slice buf (pos + m) n := by
  rw [slice, List.take_add, List.drop_drop, slice, slice]

theorem slice_append (pre raw post : Bytes) : slice (pre ++ (raw ++ post)) pre.length raw.length = raw := by
  rw [slice, List.drop_left, List.take_left]

theorem be16_join (hi lo : UInt8) : be16 (hi.toUInt16 <<< 8 ||| lo.toUInt16) = [hi, lo] := by
  have h1 := hi.toNat_lt
  have h2 := lo.toNat_lt
  have hjoin := join16_toNat hi lo
  simp only [be16, List.cons.injEq, and_true]
  constructor
  · apply UInt8.toNat_inj.mp
    simp only [UInt16.toNat_toUInt8, UInt16.toNat_shiftRight, Nat.shiftRight_eq_div_pow, hjoin]
    simp
    omega
  · apply UInt8.toNat_inj.mp
    simp only [UInt16.toNat_toUInt8, hjoin]
    omega

theorem be32_join (hi lo : UInt16) : be32 (hi.toUInt32 <<< 16 ||| lo.toUInt32) = be16 hi ++ be16 lo := by
  have h1 := hi.toNat_lt
  have h2 := lo.toNat_lt
  have hjoin := join32_toNat hi lo
  have hhi : ((hi.toUInt32 <<< 16 ||| lo.toUInt32) >>> 16).toUInt16 = hi := by
    apply UInt16.toNat_inj.mp
    simp only [UInt32.toNat_toUInt16, UInt32.toNat_shiftRight, Nat.shiftRight_eq_div_pow, hjoin]
    simp
    omega
  have hlo : (hi.toUInt32 <<< 16 ||| lo.toUInt32).toUInt16 = lo := by
    apply UInt16.toNat_inj.mp
    simp only [UInt32.toNat_toUInt16, hjoin]
    omega
  rw [be32_halves, hhi, hlo]

section
variable {buf : Bytes} {pos stop : Nat}

theorem u16_slice {v : UInt16} (h : Parser.u16 buf pos = (.ok v, stop)) :
    be16 v = slice buf pos 2 ∧ stop = pos + 2 := by
  obtain ⟨hi, p, hhi, h⟩ := Reader.bind_eq_ok h
  obtain ⟨lo, p', hlo, h⟩ := Reader.bind_eq_ok h
  obtain ⟨hbhi, rfl⟩ := u8_run hhi
  obtain ⟨hblo, rfl⟩ := u8_run hlo
  cases h
  obtain ⟨h1, rfl⟩ := List.getElem?_eq_some_iff.mp hbhi
  obtain ⟨h2, rfl⟩ := List.getElem?_eq_some_iff.mp hblo
  refine ⟨?_, rfl⟩
  rw [be16_join, slice, List.drop_eq_getElem_cons h1, List.drop_eq_getElem_cons h2]
  rfl

theorem u32_slice {v : UInt32} (h : Parser.u32 buf pos = (.ok v, stop)) :
    be32 v = slice buf pos 4 ∧ stop = pos + 4 := by
  obtain ⟨hi, p, hhi, h⟩ := Reader.bind_eq_ok h
  obtain ⟨lo, p', hlo, h⟩ := Reader.bind_eq_ok h
  obtain ⟨hslice, rfl⟩ := u16_slice hhi
  obtain ⟨hslice', rfl⟩ := u16_slice hlo
  cases h
  exact ⟨by rw [be32_join, hslice, hslice', ← slice_add], rfl⟩

/-- The reads of an SOA's data: two names and five integers, in place one behind the other. -/
theorem soaFields_ok {m r : Text} {serial refresh retry expire minimum : UInt32}
    (h : soaFields buf pos = (.ok (m, r, serial, refresh, retry, expire, minimum), stop)) :
    ∃ mid tail, Parser.name buf pos = (.ok m, mid) ∧ Parser.name buf mid = (.ok r, tail) ∧ stop = tail + 20 ∧
      be32 serial ++ (be32 refresh ++ (be32 retry ++ (be32 expire ++ be32 minimum))) = slice buf tail 20 := by
  obtain ⟨m', mid, hm, h⟩ := Reader.bind_eq_ok h
  obtain ⟨r', tail, hr, h⟩ := Reader.bind_eq_ok h
  obtain ⟨v₁, _, h₁, h⟩ := Reader.bind_eq_ok h
  obtain ⟨v₂, _, h₂, h⟩ := Reader.bind_eq_ok h
  obtain ⟨v₃, _, h₃, h⟩ := Reader.bind_eq_ok h
  obtain ⟨v₄, _, h₄, h⟩ := Reader.bind_eq_ok h
  obtain ⟨v₅, _, h₅, h⟩ := Reader.bind_eq_ok h
  cases h
  obtain ⟨e₁, rfl⟩ := u32_slice h₁
  obtain ⟨e₂, rfl⟩ := u32_slice h₂
  obtain ⟨e₃, rfl⟩ := u32_slice h₃
  obtain ⟨e₄, rfl⟩ := u32_slice h₄
  obtain ⟨e₅, rfl⟩ := u32_slice h₅
  refine ⟨mid, tail, hm, hr, rfl, ?_⟩
  rw [e₁, e₂, e₃, e₄, e₅, ← slice_add, ← slice_add, ← slice_add, ← slice_add]

end

/-! The data of a record. -/

section
variable (pre raw post : Bytes)

theorem nameAt_ok {buf : Bytes} {pos : Nat} (h : (nameAt buf pos).isOk) :
    ∃ name stop, Parser.name buf pos = (.ok name, stop) := by
  unfold nameAt at h
  cases hp : Parser.name buf pos with
  | mk res stop =>
    rw [hp] at h
    cases res with
    | ok name => exact ⟨name, stop, rfl⟩
    | error e => cases h

theorem nameAt_error {buf : Bytes} {pos : Nat} (h : ¬ (nameAt buf pos).isOk) : ∃ e, nameAt buf pos = .error e := by
  cases hp : nameAt buf pos with
  | ok name => rw [hp] at h; exact absurd rfl h
  | error e => exact ⟨e, rfl⟩

/-- Names that cannot be read leave the data as it is. -/
theorem decompressRdata_raw {buf : Bytes} {t : RType} {raw : Bytes} {offset : Nat} (h : ¬ namesRead buf t raw offset) :
    decompressRdata buf t raw offset = raw := by
  cases t
  case NS | CNAME | PTR =>
    obtain ⟨e, he⟩ := nameAt_error h
    simp only [decompressRdata, he]
  case MX =>
    rcases raw with _ | ⟨a, _ | ⟨b, rest⟩⟩
    · rfl
    · rfl
    · obtain ⟨e, he⟩ := @nameAt_error buf (offset + 2) fun hok => h (by simp [namesRead, hok])
      simp only [decompressRdata, he]
  case SRV =>
    rcases raw with _ | ⟨a, _ | ⟨b, _ | ⟨c, _ | ⟨d, _ | ⟨e, _ | ⟨f, rest⟩⟩⟩⟩⟩⟩
    iterate 6 rfl
    · obtain ⟨e, he⟩ := @nameAt_error buf (offset + 6) fun hok => h (by simp [namesRead, hok])
      simp only [decompressRdata, he]
  case SOA =>
    cases hs : (soaFields buf offset).1 with
    | ok v => exact absurd (by simp [namesRead, hs, Except.isOk, Except.toBool]) h
    | error e => simp only [decompressRdata, hs]
  all_goals rfl

/-- The data of a name that can be read is the name in full when it fills the data and is plain. -/
theorem bounded_target {t : RType} (ht : t = .NS ∨ t = .CNAME ∨ t = .PTR)
    (hok : (nameAt (pre ++ (raw ++ post)) pre.length).isOk) :
    Bounded (pre ++ (raw ++ post)) t raw pre.length (decompressRdata (pre ++ (raw ++ post)) t raw pre.length) ↔
      ∃ names form, Layout (pre ++ (raw ++ post)) t pre.length (pre.length + raw.length) names form ∧
        ∀ labels ∈ names, ∀ l ∈ labels, PlainLabel l := by
  obtain ⟨name, stop, hp⟩ := nameAt_ok hok
  obtain ⟨labels, hn, -⟩ := nameInPlace_of_name hp
  have hdata : decompressRdata (pre ++ (raw ++ post)) t raw pre.length = canonicalName name := by
    have hat : nameAt (pre ++ (raw ++ post)) pre.length = .ok name := congrArg Prod.fst hp
    rcases ht with rfl | rfl | rfl <;> simp only [decompressRdata, hat]
  rw [hdata]
  refine bounded_iff_of_layout (.target ht hn) ?_ ?_
  · rw [canonicalName_eq_expanded hp hn, List.forall_mem_singleton]
  · rintro rfl
    rw [List.forall_mem_singleton]
    exact nameInPlace_canonical hp hn

/-- The same for a name behind fixed fields. -/
theorem bounded_behind {t : RType} (fixed : Bytes) {data : Bytes} (hraw : raw = fixed ++ data)
    (hlayout : ∀ stop labels, NameInPlace (pre ++ (raw ++ post)) (pre.length + fixed.length) stop labels →
      Layout (pre ++ (raw ++ post)) t pre.length stop [labels] (fixed ++ expandedName labels))
    (hdata : ∀ name, nameAt (pre ++ (raw ++ post)) (pre.length + fixed.length) = .ok name →
      decompressRdata (pre ++ (raw ++ post)) t raw pre.length = fixed ++ Builder.name name)
    (hok : (nameAt (pre ++ (raw ++ post)) (pre.length + fixed.length)).isOk) :
    Bounded (pre ++ (raw ++ post)) t raw pre.length (decompressRdata (pre ++ (raw ++ post)) t raw pre.length) ↔
      ∃ names form, Layout (pre ++ (raw ++ post)) t pre.length (pre.length + raw.length) names form ∧
        ∀ labels ∈ names, ∀ l ∈ labels, PlainLabel l := by
  obtain ⟨name, stop, hp⟩ := nameAt_ok hok
  obtain ⟨labels, hn, -⟩ := nameInPlace_of_name hp
  rw [hdata name (congrArg Prod.fst hp)]
  refine bounded_iff_of_layout (hlayout stop labels hn) ?_ ?_
  · have := @builderName_eq_expanded _ _ _ _ _ [] [] hp hn
    simp only [List.append_nil, and_true] at this
    rw [List.append_right_inj, this, List.forall_mem_singleton]
  · -- data that stays as it is holds the name written out, which ends where the data does
    intro heq
    obtain rfl : Builder.name name = data := List.append_cancel_left (heq.trans hraw)
    have hbuf : pre ++ (raw ++ post) = (pre ++ fixed) ++ (Builder.name name ++ post) := by
      rw [hraw]; simp only [List.append_assoc]
    rw [hbuf, ← List.length_append] at hp hn
    obtain ⟨hstop, hplain⟩ := nameInPlace_builder hp hn
    rw [List.forall_mem_singleton, hstop, hraw]
    simp only [List.length_append]
    exact ⟨by omega, hplain⟩

theorem bounded_soa (hok : (soaFields (pre ++ (raw ++ post)) pre.length).1.isOk) :
    Bounded (pre ++ (raw ++ post)) .SOA raw pre.length (decompressRdata (pre ++ (raw ++ post)) .SOA raw pre.length) ↔
      ∃ names form, Layout (pre ++ (raw ++ post)) .SOA pre.length (pre.length + raw.length) names form ∧
        ∀ labels ∈ names, ∀ l ∈ labels, PlainLabel l := by
  obtain ⟨⟨m, r, serial, refresh, retry, expire, minimum⟩, hs⟩ :
      ∃ v, (soaFields (pre ++ (raw ++ post)) pre.length).1 = .ok v := by
    cases hs : (soaFields (pre ++ (raw ++ post)) pre.length).1 with
    | ok v => exact ⟨v, rfl⟩
    | error e => rw [hs] at hok; cases hok
  obtain ⟨mid, tail, hm, hr, -, hints⟩ := soaFields_ok (Prod.ext hs rfl)
  obtain ⟨labels, hnm, -⟩ := nameInPlace_of_name hm
  obtain ⟨labels', hnr, -⟩ := nameInPlace_of_name hr
  have hdata : decompressRdata (pre ++ (raw ++ post)) .SOA raw pre.length =
      Builder.name m ++ (Builder.name r ++ slice (pre ++ (raw ++ post)) tail 20) := by
    simp only [decompressRdata, hs, Builder.u32, List.append_assoc, ← hints]
  rw [hdata]
  refine bounded_iff_of_layout (.soa hnm hnr) ?_ ?_
  · rw [builderName_eq_expanded hm hnm, builderName_eq_expanded hr hnr]
    simp
  · have hlen : (slice (pre ++ (raw ++ post)) tail 20).length = 20 := by rw [← hints]; rfl
    -- the two names stand one behind the other, and the five fields behind them
    generalize slice (pre ++ (raw ++ post)) tail 20 = fields at hlen
    intro heq
    rw [← heq] at hm hr hnm hnr ⊢
    simp only [List.append_assoc] at hm hr hnm hnr
    obtain ⟨hmid, hplain⟩ := nameInPlace_builder hm hnm
    rw [hmid, ← List.append_assoc, ← List.length_append] at hr hnr
    obtain ⟨htail, hplain'⟩ := nameInPlace_builder hr hnr
    simp only [List.length_append] at htail ⊢
    exact ⟨by omega, List.forall_mem_cons.mpr ⟨hplain, List.forall_mem_singleton.mpr hplain'⟩⟩

/-- **One record's data.** It is bounded by RDLENGTH exactly when the names in it, if they can be read,
    fill it. -/
theorem decompressRdata_bounded_iff (t : RType) :
    Bounded (pre ++ (raw ++ post)) t raw pre.length (decompressRdata (pre ++ (raw ++ post)) t raw pre.length) ↔
      FillsRdlength (pre ++ (raw ++ post)) t raw pre.length := by
  by_cases hread : namesRead (pre ++ (raw ++ post)) t raw pre.length
  swap
  · simp [Bounded, FillsRdlength, hread, decompressRdata_raw hread]
  rw [FillsRdlength, forall_prop_of_true hread]
  -- three types are a name alone, two have fixed fields in front of it
  cases t
  case NS | CNAME | PTR => exact bounded_target pre raw post (by simp) hread
  case SOA => exact bounded_soa pre raw post hread
  case MX =>
    obtain ⟨hlen, hok⟩ := Bool.and_eq_true_iff.mp hread
    obtain ⟨a, b, data, rfl⟩ : ∃ a b data, raw = a :: b :: data := by
      have hlen := of_decide_eq_true hlen
      rcases raw with _ | ⟨a, _ | ⟨b, data⟩⟩
      · simp at hlen
      · simp at hlen
      · exact ⟨a, b, data, rfl⟩
    have hfixed : slice (pre ++ (a :: b :: data ++ post)) pre.length 2 = [a, b] := slice_append pre [a, b] _
    refine bounded_behind pre _ post [a, b] rfl (fun stop labels h => ?_) (fun name h => ?_) hok
    · rw [← hfixed]
      exact .mx h
    · simp only [List.cons_append, List.length_cons, List.length_nil] at h
      simp only [List.cons_append, decompressRdata, h]
      rw [Builder.u16, be16_join]
      rfl
  case SRV =>
    obtain ⟨hlen, hok⟩ := Bool.and_eq_true_iff.mp hread
    obtain ⟨a₀, a₁, b₀, b₁, c₀, c₁, data, rfl⟩ :
        ∃ a₀ a₁ b₀ b₁ c₀ c₁ data, raw = a₀ :: a₁ :: b₀ :: b₁ :: c₀ :: c₁ :: data := by
      have hlen := of_decide_eq_true hlen
      rcases raw with _ | ⟨a₀, _ | ⟨a₁, _ | ⟨b₀, _ | ⟨b₁, _ | ⟨c₀, _ | ⟨c₁, data⟩⟩⟩⟩⟩⟩
      iterate 6 simp at hlen
      exact ⟨a₀, a₁, b₀, b₁, c₀, c₁, data, rfl⟩
    have hfixed : slice (pre ++ (a₀ :: a₁ :: b₀ :: b₁ :: c₀ :: c₁ :: data ++ post)) pre.length 6 =
        [a₀, a₁, b₀, b₁, c₀, c₁] := slice_append pre [a₀, a₁, b₀, b₁, c₀, c₁] _
    refine bounded_behind pre _ post [a₀, a₁, b₀, b₁, c₀, c₁] rfl (fun stop labels h => ?_)
      (fun name h => ?_) hok
    · rw [← hfixed]
      exact .srv h
    · simp only [List.cons_append, List.length_cons, List.length_nil] at h
      simp only [List.cons_append, decompressRdata, h]
      rw [Builder.u16, Builder.u16, Builder.u16, be16_join, be16_join, be16_join]
      rfl
  all_goals cases hread

end

/-! The records of a message. -/

/-- A record read at `pos`: its owner ends at `head`, and behind the fixed fields stand the octets that
    RDLENGTH announces. -/
structure RecordAt (data : Bytes) (pos head stop : Nat) (raw : Bytes) (r : Record) : Prop where
  owner : ∃ labels, NameInPlace data pos head labels
  rtype : r.rtype = .ofU16 (u16At data head)
  rdlength : raw.length = (u16At data (head + 8)).toNat
  inPlace : ∃ pre post, data = pre ++ (raw ++ post) ∧ pre.length = head + 10
  stop : stop = head + 10 + raw.length
  rdata : r.rdata = decompressRdata data r.rtype raw (head + 10)

theorem bytes_run {buf : Bytes} {n pos stop : Nat} {raw : Bytes} (h : Parser.bytes n buf pos = (.ok raw, stop)) :
    (∃ pre post, buf = pre ++ (raw ++ post) ∧ pre.length = pos) ∧ raw.length = n ∧ stop = pos + n := by
  unfold Parser.bytes at h
  split at h
  · cases h
  · next hlen =>
    cases h
    refine ⟨⟨buf.take pos, buf.drop (pos + n), ?_, ?_⟩, ?_, rfl⟩
    · rw [← List.drop_drop, List.take_append_drop, List.take_append_drop]
    · rw [List.length_take]; omega
    · rw [List.length_take, List.length_drop]; omega

theorem recordAt_of_record {data : Bytes} {pos stop : Nat} {r : Record} (h : Parser.record data pos = (.ok r, stop)) :
    ∃ head raw, RecordAt data pos head stop raw r := by
  obtain ⟨name, head, hname, h⟩ := Reader.bind_eq_ok h
  obtain ⟨rtype, _, hrtype, h⟩ := Reader.bind_eq_ok h
  obtain ⟨rclass, _, hrclass, h⟩ := Reader.bind_eq_ok h
  obtain ⟨ttl, _, httl, h⟩ := Reader.bind_eq_ok h
  obtain ⟨rdlen, offset, hrdlen, h⟩ := Reader.bind_eq_ok h
  obtain ⟨rtypeEq, rfl, -⟩ := u16_run hrtype
  obtain ⟨-, rfl, -⟩ := u16_run hrclass
  obtain ⟨-, rfl⟩ := u32_slice httl
  obtain ⟨rdlenEq, rfl, -⟩ := u16_run hrdlen
  obtain ⟨offset, _, hoffset, h⟩ := Reader.bind_eq_ok h
  cases hoffset
  obtain ⟨raw, _, hraw, h⟩ := Reader.bind_eq_ok h
  obtain ⟨hin, hlen, rfl⟩ := bytes_run hraw
  cases h
  obtain ⟨labels, hn, -⟩ := nameInPlace_of_name hname
  exact ⟨head, raw, ⟨labels, hn⟩, by rw [rtypeEq], by rw [hlen, rdlenEq], hin, by rw [hlen], rfl⟩

/-- Every record of a message that parses was read somewhere in it. -/
theorem record_of_parse {data : Bytes} {p : Packet} (h : parsePacket data = .ok p) :
    ∀ r ∈ p.answers ++ p.authority ++ p.additional, ∃ pos stop, Parser.record data pos = (.ok r, stop) := by
  obtain ⟨stop, h⟩ : ∃ stop, Parser.parse data 0 = (.ok p, stop) := ⟨_, Prod.ext h rfl⟩
  obtain ⟨_, _, _, h⟩ := Reader.bind_eq_ok h
  obtain ⟨_, _, _, h⟩ := Reader.bind_eq_ok h
  obtain ⟨_, _, _, h⟩ := Reader.bind_eq_ok h
  obtain ⟨_, _, _, h⟩ := Reader.bind_eq_ok h
  obtain ⟨_, _, _, h⟩ := Reader.bind_eq_ok h
  obtain ⟨_, _, _, h⟩ := Reader.bind_eq_ok h
  obtain ⟨_, _, _, h⟩ := Reader.bind_eq_ok h
  obtain ⟨answers, _, hanswers, h⟩ := Reader.bind_eq_ok h
  obtain ⟨authority, _, hauthority, h⟩ := Reader.bind_eq_ok h
  obtain ⟨additional, _, hadditional, h⟩ := Reader.bind_eq_ok h
  cases h
  intro r hr
  simp only [List.mem_append, List.mem_filter] at hr
  rcases hr with (hr | hr) | ⟨hr, -⟩
  · exact (Reader.times_ok hanswers).2 r hr
  · exact (Reader.times_ok hauthority).2 r hr
  · exact (Reader.times_ok hadditional).2 r hr

/-- **Where record boundaries hold.** A record of a message that parses has data bounded by its RDLENGTH
    exactly when the names in it, if they can be read, end where RDLENGTH says and have
    plain labels. -/
theorem record_bounded_iff (data : Bytes) (p : Packet) (hparse : parsePacket data = .ok p) :
    (∀ r ∈ p.answers ++ p.authority ++ p.additional, ∃ pos stop, Parser.record data pos = (.ok r, stop)) ∧
    ∀ pos stop r, Parser.record data pos = (.ok r, stop) → ∃ head raw, RecordAt data pos head stop raw r ∧
      (Bounded data r.rtype raw (head + 10) r.rdata ↔ FillsRdlength data r.rtype raw (head + 10)) := by
  refine ⟨record_of_parse hparse, fun pos stop r hr => ?_⟩
  obtain ⟨head, raw, hat⟩ := recordAt_of_record hr
  refine ⟨head, raw, hat, ?_⟩
  obtain ⟨pre, post, rfl, hpre⟩ := hat.inPlace
  rw [hat.rdata, ← hpre]
  exact decompressRdata_bounded_iff pre raw post r.rtype

/-- An NS record with RDLENGTH 0, and behind it an address of the host "a". -/
def leakedOwner : Bytes :=
  [0, 1, 0x80, 0, 0, 0, 0, 2, 0, 0, 0, 0,
   0, 0, 2, 0, 1, 0, 0, 0, 60, 0, 0,
   1, 97, 0, 0, 1, 0, 1, 0, 0, 0, 60, 0, 4, 192, 0, 2, 1]

/-- The records as parsed. -/
def leakedNs : Record := ⟨['.'], .NS, CLASS_IN, 60, [1, 97, 0]⟩

def leakedPacket : Packet where
  id := 1
  flags := 0x8000
  questions := []
  answers := [leakedNs, ⟨['a'], .A, CLASS_IN, 60, [192, 0, 2, 1]⟩]
  authority := []
  additional := []
  ednsUdpSize := 0
  dnssecOk := false

theorem leakedOwner_parses : parsePacket leakedOwner = .ok leakedPacket := by decide

/-- The NS record's data is the owner of the next record. -/
theorem leakedOwner_unbounded : parsePacket leakedOwner = .ok leakedPacket ∧ leakedNs ∈ leakedPacket.answers ∧
    Parser.record leakedOwner 12 = (.ok leakedNs, 23) ∧
    ∀ head raw, RecordAt leakedOwner 12 head 23 raw leakedNs →
      ¬ Bounded leakedOwner leakedNs.rtype raw (head + 10) leakedNs.rdata := by
  refine ⟨leakedOwner_parses, List.mem_cons_self, by decide, fun head raw hat hbounded => ?_⟩
  obtain ⟨labels, hn⟩ := hat.owner
  obtain rfl : head = 13 := hn.ends.unique (.root rfl)
  obtain rfl : raw = [] := by
    apply List.eq_nil_of_length_eq_zero
    rw [hat.rdlength]
    decide
  rcases hbounded with h | ⟨names, h⟩
  · cases h
  · have hend : NameEnd leakedOwner 23 26 :=
      .label (b := 1) rfl (by decide) (by decide) (.root rfl)
    have hname : WireName leakedOwner 23 [[97]] :=
      .label (b := 1) rfl (by decide) (by decide) (by decide) (.root rfl)
    exact absurd (h.unique (.target (.inl rfl) ⟨hname, hend⟩)).1 (by decide)

/-- The message's records do fall under the theorem. -/
theorem leakedOwner_covered :
    (∀ r ∈ leakedPacket.answers ++ leakedPacket.authority ++ leakedPacket.additional,
      ∃ pos stop, Parser.record leakedOwner pos = (.ok r, stop)) ∧
    ∀ pos stop r, Parser.record leakedOwner pos = (.ok r, stop) → ∃ head raw, RecordAt leakedOwner pos head stop raw r ∧
      (Bounded leakedOwner r.rtype raw (head + 10) r.rdata ↔
        FillsRdlength leakedOwner r.rtype raw (head + 10)) :=
  record_bounded_iff leakedOwner leakedPacket leakedOwner_parses

end Ironbind
