import Ironbind.Bailiwick
import Ironbind.Lib.Interval
import Ironbind.NsecChain

/- The order of names that a chain of NSEC records goes by. `RfcOrder` is RFC 4034
   section 6.1 on names made of dot-joined labels: they compare as their labels do from
   the root down, so the order is total, takes names for equal up to ASCII case only,
   puts every name in front of the names below it, and leaves what is at or below a name
   together in any sorted list. `canonical_order` is that order (`canonicalOrder_rfc`). -/
namespace Ironbind
open Codec

/-! Names of joined labels. -/

/-- Labels that are joined by dots, none of them empty. -/
def Joined (name : Text) : Prop := ∃ ls : List Text, (∀ l ∈ ls, l ≠ [] ∧ '.' ∉ l) ∧ name = ['.'].intercalate ls

/-- The name is below the other, up to ASCII case. -/
def Below (name above : Text) : Prop := Contains above name ∧ zoneLabels above ≠ zoneLabels name

section
variable {a b n m : Text}

theorem Joined.eq (h : Joined n) : n = ['.'].intercalate (labelsOf n) := by
  obtain ⟨ls, hls, rfl⟩ := h
  have hlabels : labelsOf (['.'].intercalate ls) = ls :=
    pieces_intercalate (fun l hl => (hls l hl).2) fun l hl => (hls l hl).1
  rw [hlabels]

theorem Joined.lower_eq (h : Joined n) : toAsciiLowercase n = ['.'].intercalate (zoneLabels n) := by
  rw [zoneLabels, labelsOf_lower, ← toAsciiLowercase_intercalate, ← h.eq]

/-- Labels decide a name up to ASCII case. -/
theorem Joined.labels_eq_iff (ha : Joined a) (hb : Joined b) :
    zoneLabels a = zoneLabels b ↔ toAsciiLowercase a = toAsciiLowercase b := by
  constructor
  · intro h
    rw [ha.lower_eq, hb.lower_eq, h]
  · intro h
    rw [zoneLabels, zoneLabels, h]

/-! Their keys. -/

theorem rfcKey_eq (n : Text) : rfcKey n = ((zoneLabels n).map utf8).reverse := by
  rw [rfcKey, zoneLabels, labelsOf_lower, List.map_map]
  rfl

theorem map_utf8_injective : Function.Injective (List.map utf8) := List.map_injective_iff.mpr fun _ _ => utf8_injective

theorem rfcKey_eq_iff (a b : Text) : rfcKey a = rfcKey b ↔ zoneLabels a = zoneLabels b := by
  rw [rfcKey_eq, rfcKey_eq, List.reverse_inj, map_utf8_injective.eq_iff]

/-- A name contains the names whose keys extend its own. -/
theorem contains_iff_extends (n m : Text) : Contains n m ↔ rfcKey n <+: rfcKey m := by
  rw [Contains, rfcKey_eq, rfcKey_eq, List.reverse_prefix]
  constructor
  · intro h
    exact h.map utf8
  · intro h
    obtain ⟨front, hfront⟩ := h
    -- the octets in front are those of labels too
    refine ⟨(zoneLabels m).take front.length, ?_⟩
    apply map_utf8_injective
    rw [List.map_append, List.map_take, ← hfront, List.take_left]

/-! The order. -/

theorem canonicalOrder_cases (a b : Text) : (canonicalOrder a b = .lt ↔ rfcKey a < rfcKey b) ∧
    (canonicalOrder a b = .eq ↔ rfcKey a = rfcKey b) ∧ (canonicalOrder a b = .gt ↔ rfcKey b < rfcKey a) := by
  rw [canonicalOrder, canonicalKey_eq, canonicalKey_eq]
  rcases lt_trichotomy (rfcKey a) (rfcKey b) with h | h | h
  · rw [if_pos h]
    simp [h, h.ne, h.not_gt]
  · rw [if_neg (by rw [h]; exact lt_irrefl _), if_pos h]
    simp [h]
  · rw [if_neg h.not_gt, if_neg h.ne']
    simp [h, h.ne', h.not_gt]

end

/-- RFC 4034 section 6.1, of an order of names: what it says itself, and what follows from it. Only names of
    joined labels are decided by their labels. -/
structure RfcOrder (order : Text → Text → Ordering) : Prop where
  /-- A label, or an octet of a label, that is missing sorts first. -/
  lt_iff : ∀ a b, order a b = .lt ↔ List.Lex (List.Lex (· < ·)) (rfcKey a) (rfcKey b)
  eq_iff : ∀ {a b}, Joined a → Joined b → (order a b = .eq ↔ toAsciiLowercase a = toAsciiLowercase b)
  swap : ∀ a b, order b a = (order a b).swap
  trans : ∀ {a b c}, order a b ≠ .gt → order b c ≠ .gt → order a c ≠ .gt
  below : ∀ {n m}, Below m n → order n m = .lt
  together : ∀ (n : Text) {names : List Text}, (names.Pairwise fun a b => order a b ≠ .gt) →
    ∃ before inside behind, names = before ++ (inside ++ behind) ∧ (∀ m ∈ inside, Contains n m) ∧
      ∀ m ∈ before ++ behind, ¬ Contains n m

/-- **`canonical_order` is the order of RFC 4034.** -/
theorem canonicalOrder_rfc : RfcOrder canonicalOrder where
  lt_iff := by
    intro a b
    exact (canonicalOrder_cases a b).1
  eq_iff := by
    intro a b ha hb
    rw [(canonicalOrder_cases a b).2.1, rfcKey_eq_iff, ha.labels_eq_iff hb]
  swap := by
    intro a b
    obtain ⟨hlt, heq, hgt⟩ := canonicalOrder_cases a b
    obtain ⟨hlt', heq', hgt'⟩ := canonicalOrder_cases b a
    cases h : canonicalOrder a b with
    | lt => exact hgt'.mpr (hlt.mp h)
    | eq => exact heq'.mpr (heq.mp h).symm
    | gt => exact hlt'.mpr (hgt.mp h)
  trans := by
    intro a b c hab hbc
    rw [canonicalOrder_le_iff] at hab hbc ⊢
    exact hab.trans hbc
  below := by
    intro n m hbelow
    rw [(canonicalOrder_cases n m).1]
    apply Interval.lt_of_prefix ((contains_iff_extends n m).mp hbelow.1)
    rw [Ne, rfcKey_eq_iff]
    exact hbelow.2
  together := by
    intro n names hsorted
    have hkeys : names.Pairwise fun a b => rfcKey a ≤ rfcKey b :=
      hsorted.imp fun {a b} hab => (canonicalOrder_le_iff a b).mp hab
    obtain ⟨before, inside, behind, hnames, hin, hout⟩ :=
      Interval.stretch (Interval.ordConnected_extensions (rfcKey n)) hkeys
    refine ⟨before, inside, behind, hnames, ?_, ?_⟩
    · intro m hm
      exact (contains_iff_extends n m).mpr (hin m hm)
    · intro m hm hcontains
      exact hout m hm ((contains_iff_extends n m).mp hcontains)

/-- The names at or below `z.example` in a sorted list: the label decides, not the text. -/
example : [".".toList, "example".toList, "yz.example".toList, "Z.example".toList, "*.z.example".toList].Pairwise
    fun a b => canonicalOrder a b ≠ .gt := by decide

end Ironbind
