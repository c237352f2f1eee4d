import Ironbind.Cache
import Ironbind.NameWire

/- What the text of a parsed name says about the octets it was read from. `WireName`
   is the name at a position of a packet as its labels, pointers followed; the parser
   returns their texts joined by dots (`name_eq_joinLabels`). A label that is not
   UTF-8 has the text "?", and a dot inside a label looks like the dots between
   labels, so names with such labels may share a text (`name_collisions`). All other
   names have the same text exactly when their labels are the same up to case
   (`name_injective`). -/
namespace Ironbind
open Codec

/-- The labels of the name that starts at a position, pointers followed. -/
inductive WireName (buf : Bytes) : Nat → List Bytes → Prop where
  | root {pos : Nat} (hb : buf[pos]? = some 0) : WireName buf pos []
  | pointer {pos : Nat} {b lo : UInt8} {labels : List Bytes} (hb : buf[pos]? = some b) (hp : b &&& 0xC0 = 0xC0)
      (hlo : buf[pos + 1]? = some lo) (rest : WireName buf (((b &&& 0x3F).toNat <<< 8) ||| lo.toNat) labels) :
      WireName buf pos labels
  | label {pos : Nat} {b : UInt8} {labels : List Bytes} (hb : buf[pos]? = some b) (h0 : b ≠ 0)
      (hp : b &&& 0xC0 ≠ 0xC0) (hlen : pos + 1 + b.toNat ≤ buf.length)
      (rest : WireName buf (pos + 1 + b.toNat) labels) :
      WireName buf pos ((buf.drop (pos + 1)).take b.toNat :: labels)

/-- The loop returns the texts of the labels it passes. -/
theorem wireName_of_nameLoop {buf : Bytes} : ∀ (fuel : Nat) {parts : List Text} {selfPos pos : Nat} {jumped : Bool}
    {jumps : Nat} {res : List Text} {stop : Nat},
    Parser.nameLoop buf fuel parts selfPos pos jumped jumps = (.ok res, stop) →
    ∃ labels, WireName buf pos labels ∧ res = parts ++ labels.map Parser.labelText
  | 0, _, _, _, _, _, _, _, h => by cases h
  | fuel + 1, parts, selfPos, pos, jumped, jumps, res, stop, h => by
    obtain ⟨b, hb, ⟨rfl, rfl, -⟩ | ⟨hp, -, lo, hlo, -, h⟩ | ⟨hp, h0, hlen, h⟩⟩ := nameLoop_ok h
    · exact ⟨[], .root hb, (List.append_nil _).symm⟩
    · obtain ⟨labels, hw, hres⟩ := wireName_of_nameLoop fuel h
      exact ⟨labels, .pointer hb hp hlo hw, hres⟩
    · obtain ⟨labels, hw, hres⟩ := wireName_of_nameLoop fuel h
      exact ⟨_, .label hb h0 hp hlen hw, by rw [hres, List.append_assoc]; rfl⟩

/-- A position starts one name at most. -/
theorem WireName.unique {buf : Bytes} {pos : Nat} {labels labels' : List Bytes} (h : WireName buf pos labels)
    (h' : WireName buf pos labels') : labels = labels' := by
  induction h generalizing labels' with
  | root hb =>
    cases h' with
    | root _ => rfl
    | pointer hb' hp _ _ => rw [← Option.some.inj (hb.symm.trans hb')] at hp; exact absurd hp (by decide)
    | label hb' h0 _ _ _ => exact absurd (Option.some.inj (hb.symm.trans hb')).symm h0
  | pointer hb hp hlo _ ih =>
    cases h' with
    | root hb' => rw [Option.some.inj (hb.symm.trans hb')] at hp; exact absurd hp (by decide)
    | pointer hb' _ hlo' rest' =>
      obtain rfl := Option.some.inj (hb.symm.trans hb')
      obtain rfl := Option.some.inj (hlo.symm.trans hlo')
      exact ih rest'
    | label hb' _ hp' _ _ => exact absurd (Option.some.inj (hb.symm.trans hb') ▸ hp) hp'
  | label hb h0 hp _ _ ih =>
    cases h' with
    | root hb' => exact absurd (Option.some.inj (hb.symm.trans hb')) h0
    | pointer hb' hp' _ _ => exact absurd (Option.some.inj (hb'.symm.trans hb) ▸ hp') hp
    | label hb' _ _ _ rest' =>
      obtain rfl := Option.some.inj (hb.symm.trans hb')
      rw [ih rest']

/-- The parser returns the texts of the labels, joined by dots. -/
theorem name_eq_joinLabels {buf : Bytes} {pos stop : Nat} {name : Text} (h : Parser.name buf pos = (.ok name, stop)) :
    ∃ labels, WireName buf pos labels ∧ name = Parser.joinLabels (labels.map Parser.labelText) := by
  obtain ⟨parts, p, hparts, hname⟩ := Reader.bind_eq_ok h
  obtain ⟨labels, hw, rfl⟩ := wireName_of_nameLoop _ hparts
  rw [Reader.pure_run] at hname
  exact ⟨labels, hw, by simpa using (Except.ok.inj (Prod.mk.inj hname).1).symm⟩

theorem WireName.ne_nil {buf : Bytes} {pos : Nat} {labels : List Bytes} (h : WireName buf pos labels) :
    ∀ l ∈ labels, l ≠ [] := by
  induction h with
  | root _ => exact fun _ h => absurd h List.not_mem_nil
  | pointer _ _ _ _ ih => exact ih
  | @label pos b labels hb h0 hp hlen _ ih =>
    have hpos : 0 < b.toNat := Nat.pos_of_ne_zero fun e => h0 (UInt8.toNat_inj.mp e)
    have hlabel : (buf.drop (pos + 1)).take b.toNat ≠ [] := by
      intro hnil
      have := congrArg List.length hnil
      simp only [List.length_take, List.length_drop, List.length_nil] at this
      omega
    exact List.forall_mem_cons.mpr ⟨hlabel, ih⟩

/-! Labels a text stands for. -/

/-- A label that is UTF-8 and holds no dot: nothing of it is lost in its text but the case. -/
structure PlainLabel (l : Bytes) : Prop where
  utf8 : (fromUtf8 l).isSome
  no_dot : (0x2E : UInt8) ∉ l

/-- The same labels, octet by octet, ASCII letters folded. -/
def SameLabels (labels labels' : List Bytes) : Prop :=
  labels.map (List.map foldOctet) = labels'.map (List.map foldOctet)

theorem utf8_labelText {l : Bytes} (h : PlainLabel l) : utf8 (Parser.labelText l) = l.map foldOctet := by
  obtain ⟨t, ht⟩ := Option.isSome_iff_exists.mp h.utf8
  rw [Parser.labelText, ht, Option.getD_some, utf8_toAsciiLowercase, utf8_fromUtf8 ht]

theorem dot_not_mem_labelText {l : Bytes} (h : PlainLabel l) : '.' ∉ Parser.labelText l := by
  obtain ⟨t, ht⟩ := Option.isSome_iff_exists.mp h.utf8
  rw [Parser.labelText, ht, Option.getD_some]
  intro hdot
  obtain ⟨c, hc, hlow⟩ := List.mem_map.mp hdot
  obtain rfl := (toLower_eq_iff_of_not_alpha dot_not_alpha).mp hlow
  apply h.no_dot
  rw [← utf8_fromUtf8 ht]
  exact List.mem_flatMap.mpr ⟨'.', hc, by decide⟩

theorem labelText_ne_nil {l : Bytes} (h : l ≠ []) (hp : PlainLabel l) : Parser.labelText l ≠ [] := by
  intro hnil
  have := utf8_labelText hp
  rw [hnil, utf8_nil] at this
  exact h (List.map_eq_nil_iff.mp this.symm)

theorem labelText_lower (l : Bytes) : toAsciiLowercase (Parser.labelText l) = Parser.labelText l :=
  toAsciiLowercase_idem _

/-- Labels are the same up to case when their texts are the same. -/
theorem labelTexts_eq_iff {labels labels' : List Bytes} (h : ∀ l ∈ labels, PlainLabel l)
    (h' : ∀ l ∈ labels', PlainLabel l) :
    labels.map Parser.labelText = labels'.map Parser.labelText ↔ SameLabels labels labels' := by
  have hfold : ∀ {ls : List Bytes}, (∀ l ∈ ls, PlainLabel l) →
      ls.map (List.map foldOctet) = (ls.map Parser.labelText).map utf8 := by
    intro ls hls
    rw [List.map_map]
    exact List.map_congr_left fun l hl => (utf8_labelText (hls l hl)).symm
  rw [SameLabels, hfold h, hfold h']
  constructor
  · intro e; rw [e]
  · intro e
    exact List.map_injective_iff.mpr (fun _ _ => utf8_injective) e

/-- The coarsest comparison of names the server makes: without case and dots at the end. -/
def nameKey (name : Text) : Text := toAsciiLowercase (trimEndMatches '.' name)

theorem labelsOf_nameKey (name : Text) : labelsOf (nameKey name) = (labelsOf name).map toAsciiLowercase := by
  rw [nameKey, labelsOf_lower, labelsOf_trim]

theorem labelsOf_joined {labels : List Bytes} {buf : Bytes} {pos : Nat} (hw : WireName buf pos labels)
    (hp : ∀ l ∈ labels, PlainLabel l) :
    labelsOf (Parser.joinLabels (labels.map Parser.labelText)) = labels.map Parser.labelText := by
  apply labelsOf_joinLabels
  · intro t ht
    obtain ⟨l, hl, rfl⟩ := List.mem_map.mp ht
    exact dot_not_mem_labelText (hp l hl)
  · intro t ht
    obtain ⟨l, hl, rfl⟩ := List.mem_map.mp ht
    exact labelText_ne_nil (hw.ne_nil l hl) (hp l hl)

/-- **Names decode injectively.** Two names of plain labels, wherever they stand, have the same text, or the same
    text up to case and dots at the end, exactly when their labels are the same up to case. -/
theorem name_injective {buf buf' : Bytes} {pos pos' stop stop' : Nat} {name name' : Text} {labels labels' : List Bytes}
    (h : Parser.name buf pos = (.ok name, stop)) (h' : Parser.name buf' pos' = (.ok name', stop'))
    (hw : WireName buf pos labels) (hw' : WireName buf' pos' labels')
    (hp : ∀ l ∈ labels, PlainLabel l) (hp' : ∀ l ∈ labels', PlainLabel l) :
    (name = name' ↔ SameLabels labels labels') ∧ (nameKey name = nameKey name' ↔ SameLabels labels labels') ∧
      ∀ qtype, Cache.key name qtype = Cache.key name' qtype ↔ SameLabels labels labels' := by
  obtain ⟨ls, hls, rfl⟩ := name_eq_joinLabels h
  obtain ⟨ls', hls', rfl⟩ := name_eq_joinLabels h'
  obtain rfl := hls.unique hw
  obtain rfl := hls'.unique hw'
  have hlow : ∀ ts : List Bytes, (ts.map Parser.labelText).map toAsciiLowercase = ts.map Parser.labelText := by
    intro ts
    rw [List.map_map]
    exact List.map_congr_left fun l _ => labelText_lower l
  -- a comparison that keeps the labels up to case tells such names apart
  have hkey : ∀ f : Text → Text, (∀ s, labelsOf (f s) = (labelsOf s).map toAsciiLowercase) →
      f (Parser.joinLabels (ls.map Parser.labelText)) = f (Parser.joinLabels (ls'.map Parser.labelText)) →
      SameLabels ls ls' := by
    intro f hf e
    have e' := congrArg labelsOf e
    rw [hf, hf, labelsOf_joined hls hp, labelsOf_joined hls' hp', hlow, hlow] at e'
    exact (labelTexts_eq_iff hp hp').mp e'
  have hsame : SameLabels ls ls' →
      Parser.joinLabels (ls.map Parser.labelText) = Parser.joinLabels (ls'.map Parser.labelText) := fun e => by
    rw [(labelTexts_eq_iff hp hp').mpr e]
  refine ⟨⟨fun e => hkey nameKey labelsOf_nameKey (congrArg nameKey e), hsame⟩,
    ⟨hkey nameKey labelsOf_nameKey, fun e => by rw [hsame e]⟩, fun qtype => ⟨fun e => ?_, fun e => by rw [hsame e]⟩⟩
  exact hkey toAsciiLowercase labelsOf_lower (Prod.mk.inj e).1

theorem plainLabel_letter {b : UInt8} (h : b = 97 ∨ b = 65) : ∀ l ∈ [[b]], PlainLabel l := by
  intro l hl
  rw [List.mem_singleton.mp hl]
  rcases h with rfl | rfl <;> exact ⟨by decide, by decide⟩

/-- "A" and a pointer to "a" have one text. -/
theorem name_injective_letters :
    ((['a'] : Text) = ['a'] ↔ SameLabels [[65]] [[97]]) ∧ (nameKey ['a'] = nameKey ['a'] ↔ SameLabels [[65]] [[97]]) ∧
      ∀ qtype, Cache.key ['a'] qtype = Cache.key ['a'] qtype ↔ SameLabels [[65]] [[97]] :=
  have hw : WireName [1, 65, 0] 0 [[65]] :=
    .label (b := 1) rfl (by decide) (by decide) (by decide) (.root rfl)
  have hw' : WireName [1, 97, 0, 0xC0, 0] 3 [[97]] :=
    @WireName.pointer _ _ 0xC0 0 _ rfl (by decide) rfl
      (.label (b := 1) rfl (by decide) (by decide) (by decide) (.root rfl))
  name_injective (by decide : Parser.name [1, 65, 0] 0 = (.ok ['a'], 3))
    (by decide : Parser.name [1, 97, 0, 0xC0, 0] 3 = (.ok ['a'], 5)) hw hw' (plainLabel_letter (.inr rfl))
    (plainLabel_letter (.inl rfl))

/-- The label 0xFF reads as the label "?", and the one label "a.b" as the two labels "a" and "b". -/
theorem name_collisions :
    (Parser.name [1, 0xFF, 0] 0 = (.ok ['?'], 3) ∧ Parser.name [1, 0x3F, 0] 0 = (.ok ['?'], 3) ∧
      WireName [1, 0xFF, 0] 0 [[0xFF]] ∧ WireName [1, 0x3F, 0] 0 [[0x3F]] ∧ ¬ SameLabels [[0xFF]] [[0x3F]]) ∧
    (Parser.name [3, 97, 0x2E, 98, 0] 0 = (.ok "a.b".toList, 5) ∧ Parser.name [1, 97, 1, 98, 0] 0 = (.ok "a.b".toList, 5) ∧
      WireName [3, 97, 0x2E, 98, 0] 0 [[97, 0x2E, 98]] ∧ WireName [1, 97, 1, 98, 0] 0 [[97], [98]] ∧
      ¬ SameLabels [[97, 0x2E, 98]] [[97], [98]]) := by
  have hone : ∀ b : UInt8, WireName [1, b, 0] 0 [[b]] := fun b =>
    .label (b := 1) rfl (by decide) (by decide) (by show 2 ≤ 3; decide) (.root rfl)
  have hdot : WireName [3, 97, 0x2E, 98, 0] 0 [[97, 0x2E, 98]] :=
    .label (b := 3) rfl (by decide) (by decide) (by decide) (.root rfl)
  have htwo : WireName [1, 97, 1, 98, 0] 0 [[97], [98]] :=
    .label (b := 1) rfl (by decide) (by decide) (by decide)
      (.label (b := 1) rfl (by decide) (by decide) (by decide) (.root rfl))
  exact ⟨⟨by decide, by decide, hone 0xFF, hone 0x3F, by unfold SameLabels; decide⟩,
    by decide, by decide, hdot, htwo, by unfold SameLabels; decide⟩

end Ironbind
