import Ironbind.CanonicalOrder
import Ironbind.DenialProof

/- The tests that compare names as texts, against the labels of the names. A name behind a
   dot at the end of another one is above it (`dot_suffix_iff_below`), and for names made of
   dot-joined labels that is all there is to being above: so `in_bailiwick`,
   `is_authoritative_for` and `name_exists` decide what the labels say, and
   `closest_encloser` climbs to the name with the most labels that exists
   (`subtreeTests_labels`). -/
namespace Ironbind
open Codec

/-! Joined labels as text. -/

theorem intercalate_append {ls ms : List Text} (hl : ls ≠ []) (hm : ms ≠ []) :
    ['.'].intercalate (ls ++ ms) = ['.'].intercalate ls ++ '.' :: ['.'].intercalate ms := by
  induction ls with
  | nil => exact absurd rfl hl
  | cons l ls ih =>
    by_cases hnil : ls = []
    · subst hnil
      rw [List.singleton_append, List.intercalate_cons_of_ne_nil hm, List.intercalate_singleton, List.append_assoc]
      rfl
    · rw [List.cons_append, List.intercalate_cons_of_ne_nil (by simp [hnil]), ih hnil,
        List.intercalate_cons_of_ne_nil hnil]
      simp only [List.append_assoc]

section
variable {n m e : Text}

theorem Joined.lower (h : Joined n) : Joined (toAsciiLowercase n) := by
  refine ⟨zoneLabels n, fun l hl => ⟨?_, ?_⟩, h.lower_eq⟩
  · exact ne_nil_of_mem_labelsOf hl
  · exact dot_not_mem_of_mem_labelsOf hl

theorem Joined.labels_ne_nil (h : Joined n) (hne : n ≠ []) : zoneLabels n ≠ [] := by
  intro hnil
  have hlower := h.lower_eq
  rw [hnil, List.intercalate_nil, toAsciiLowercase_eq_nil] at hlower
  exact hne hlower

/-- A name does not end in a dot. -/
theorem Joined.trim (h : Joined n) : trimEndMatches '.' n = n := by
  by_cases hne : n = []
  · rw [hne]
    rfl
  · obtain ⟨ls, hls, rfl⟩ := h
    have hnil : ls ≠ [] := by
      intro hnil
      exact hne (by rw [hnil]; rfl)
    apply trimEndMatches_eq_self_of_splitOn
    rw [List.splitOn_intercalate '.' (fun l hl => (hls l hl).2) hnil]
    intro hmem
    exact (hls [] hmem).1 rfl

/-- What stands behind a dot of a name is a name. -/
theorem Joined.of_dot_suffix (h : Joined n) (hs : '.' :: e <:+ n) : Joined e ∧ e ≠ [] := by
  obtain ⟨pre, rfl⟩ := hs
  obtain ⟨ls, hls, hjoin⟩ := h
  have hnil : ls ≠ [] := by
    intro hnil
    rw [hnil] at hjoin
    simp at hjoin
  have hsplit : pre.splitOn '.' ++ e.splitOn '.' = ls := by
    rw [← List.splitOn_append_cons_self, hjoin, List.splitOn_intercalate '.' (fun l hl => (hls l hl).2) hnil]
  have hlabel : ∀ l ∈ e.splitOn '.', l ≠ [] ∧ '.' ∉ l := fun l hl => hls l (hsplit ▸ List.mem_append_right _ hl)
  refine ⟨⟨e.splitOn '.', hlabel, (List.intercalate_splitOn '.').symm⟩, ?_⟩
  intro he
  rw [he] at hlabel
  exact (hlabel [] (by simp)).1 rfl

/-! Above and below. -/

/-- **Behind a dot at the end of a name stand the names above it.** -/
theorem dot_suffix_iff_below (hn : Joined n) (hm : Joined m) (hne : m ≠ []) :
    '.' :: toAsciiLowercase m <:+ toAsciiLowercase n ↔ Below n m := by
  constructor
  · intro hs
    refine ⟨?_, fun hlabels => ?_⟩
    · obtain ⟨pre, hpre⟩ := hs
      have hsplit : zoneLabels n = labelsOf pre ++ zoneLabels m := by
        rw [zoneLabels, ← hpre, labelsOf_append_dot, zoneLabels]
      rw [Contains, hsplit]
      exact List.suffix_append _ _
    · have hlen := hs.length_le
      rw [(hm.labels_eq_iff hn).mp hlabels, List.length_cons] at hlen
      omega
  · rintro ⟨⟨front, hfront⟩, hlabels⟩
    have hne' : front ≠ [] := by
      intro hnil
      rw [hnil, List.nil_append] at hfront
      exact hlabels hfront
    rw [hn.lower_eq, hm.lower_eq, ← hfront, intercalate_append hne' (hm.labels_ne_nil hne)]
    exact List.suffix_append _ _

/-- The test all three make: the same name, or the name and a dot at the end. -/
theorem contains_iff_text (hn : Joined n) (hm : Joined m) (hne : m ≠ []) : Contains m n ↔
    toAsciiLowercase n = toAsciiLowercase m ∨ '.' :: toAsciiLowercase m <:+ toAsciiLowercase n := by
  rw [dot_suffix_iff_below hn hm hne, ← hn.labels_eq_iff hm]
  constructor
  · intro hcontains
    by_cases heq : zoneLabels n = zoneLabels m
    · exact .inl heq
    · exact .inr ⟨hcontains, fun h => heq h.symm⟩
  · rintro (heq | hbelow)
    · rw [Contains, heq]
    · exact hbelow.1

end

/-! Zones. -/

/-- An origin and owner names made of joined labels, in lower case; none of them is the root. -/
structure ProperZone (z : Zone) : Prop where
  lower : toAsciiLowercase z.origin = z.origin
  origin : Joined z.origin ∧ z.origin ≠ []
  owners : ∀ o ∈ z.names.keys, (Joined o ∧ o ≠ []) ∧ toAsciiLowercase o = o

theorem properZone_new {origin : Text} (h : Joined (trimEndMatches '.' origin)) (hne : trimEndMatches '.' origin ≠ []) :
    ProperZone (.new origin) where
  lower := toAsciiLowercase_idem _
  origin := ⟨h.lower, mt toAsciiLowercase_eq_nil.mp hne⟩
  owners := by
    intro o ho
    exact absurd ho List.not_mem_nil

/-- Entering a record keeps a zone proper. -/
theorem ProperZone.add {z : Zone} (h : ProperZone z) {r : Record} (hr : Joined r.name) (hne : r.name ≠ []) :
    ProperZone (z.add r) where
  lower := h.lower
  origin := h.origin
  owners := by
    intro o ho
    rcases (Zone.mem_names_add z r o).mp ho with rfl | ho
    · exact ⟨⟨hr.lower, mt toAsciiLowercase_eq_nil.mp hne⟩, toAsciiLowercase_idem _⟩
    · exact h.owners o ho

/-- A name above the other one, and not above the origin. -/
structure Ancestor (z : Zone) (name above : Text) : Prop where
  joined : Joined above
  below : Below name above
  inside : Contains z.origin above

/-- What the labels say of the tests of a zone. -/
structure ByLabels (z : Zone) : Prop where
  authoritative : ∀ {name}, Joined name → (z.isAuthoritativeFor name = true ↔ Contains z.origin name)
  exist : ∀ {name}, Joined name → name ≠ [] → (z.nameExists name = true ↔ ∃ o ∈ z.names.keys, Contains name o)
  ancestor : ∀ {name}, Joined name → Below name z.origin → Ancestor z name (z.closestEncloser name)
  closest : ∀ {name other}, Joined name → Below name z.origin → Ancestor z name other → z.nameExists other = true →
    z.nameExists (z.closestEncloser name) = true ∧
      (zoneLabels other).length ≤ (zoneLabels (z.closestEncloser name)).length
  fallback : ∀ {name}, Joined name → Below name z.origin → z.nameExists (z.closestEncloser name) = false →
    z.closestEncloser name = z.origin

section
variable {z : Zone} (hz : ProperZone z) {name other : Text}
include hz

theorem ProperZone.inside_iff (h : Joined name) : Contains z.origin name ↔
    toAsciiLowercase name = z.origin ∨ '.' :: z.origin <:+ toAsciiLowercase name := by
  have htext := contains_iff_text h hz.origin.1 hz.origin.2
  rwa [hz.lower] at htext

theorem ProperZone.exists_iff (h : Joined name) (hne : name ≠ []) : z.nameExists name = true ↔
    ∃ o ∈ z.names.keys, Contains name o := by
  rw [Zone.nameExists_iff]
  apply exists_congr
  intro o
  apply and_congr_right
  intro ho
  obtain ⟨⟨hjoined, -⟩, hlower⟩ := hz.owners o ho
  rw [contains_iff_text hjoined h hne, hlower]

/-- What the loop climbs to is above the name, and in lower case as the name it cut is. -/
theorem ProperZone.encloser (h : Joined name) (hbelow : Below name z.origin) :
    z.Climbs (toAsciiLowercase name) (z.closestEncloser name) ∧ Ancestor z name (z.closestEncloser name) ∧
      toAsciiLowercase (z.closestEncloser name) = z.closestEncloser name := by
  have hcut : '.' :: z.origin <:+ toAsciiLowercase name := by
    rw [← hz.lower]
    exact (dot_suffix_iff_below h hz.origin.1 hz.origin.2).mpr hbelow
  have hclimbs := Zone.closestEncloser_climbs hcut
  obtain ⟨hjoined, hne⟩ := h.lower.of_dot_suffix hclimbs.above
  have hlower : toAsciiLowercase (z.closestEncloser name) = z.closestEncloser name := by
    obtain ⟨pre, hpre⟩ := hclimbs.above
    have hidem := toAsciiLowercase_idem name
    rw [← hpre, toAsciiLowercase_append, toAsciiLowercase_cons] at hidem
    exact (List.cons.inj (List.append_inj_right hidem (by simp [toAsciiLowercase]))).2
  refine ⟨hclimbs, ⟨hjoined, ?_, ?_⟩, hlower⟩
  · apply (dot_suffix_iff_below h hjoined hne).mp
    rw [hlower]
    exact hclimbs.above
  · rw [hz.inside_iff hjoined, hlower]
    exact hclimbs.inside

/-- No name above that exists has more labels. -/
theorem ProperZone.closest (h : Joined name) (hbelow : Below name z.origin) (hother : Ancestor z name other)
    (hexists : z.nameExists other = true) : z.nameExists (z.closestEncloser name) = true ∧
      (zoneLabels other).length ≤ (zoneLabels (z.closestEncloser name)).length := by
  obtain ⟨hclimbs, hancestor, hlower⟩ := hz.encloser h hbelow
  have hne : other ≠ [] := by
    intro hnil
    have hin := hother.inside
    rw [hnil] at hin
    exact hz.origin.1.labels_ne_nil hz.origin.2 (List.suffix_nil.mp hin)
  have hcut := (dot_suffix_iff_below h hother.joined hne).mpr hother.below
  have hexists' : z.nameExists (toAsciiLowercase other) = true := by
    rw [Zone.nameExists, toAsciiLowercase_idem]
    exact hexists
  obtain ⟨hexist, hlen⟩ := hclimbs.longest _ hcut ((hz.inside_iff hother.joined).mp hother.inside) hexists'
  refine ⟨hexist, ?_⟩
  -- of two names above one name, the shorter text is the name or above it
  have hnested : '.' :: toAsciiLowercase other <:+ '.' :: z.closestEncloser name :=
    List.suffix_of_suffix_length_le hcut hclimbs.above (Nat.succ_le_succ hlen)
  have hcontains : Contains other (z.closestEncloser name) := by
    rw [contains_iff_text hancestor.joined hother.joined hne, hlower]
    exact (List.suffix_cons_iff.mp hnested).imp_left fun he => (List.cons.inj he).2.symm
  exact hcontains.length_le

theorem ProperZone.byLabels : ByLabels z where
  authoritative := by
    intro name h
    rw [hz.inside_iff h, Zone.isAuthoritativeFor, Bool.or_eq_true, beq_iff_eq, List.isSuffixOf_iff_suffix]
  exist := hz.exists_iff
  ancestor := fun h hbelow => (hz.encloser h hbelow).2.1
  closest := hz.closest
  fallback := fun h hbelow => (hz.encloser h hbelow).1.origin

end

theorem inBailiwick_iff {name zone : Text} (hn : Joined name) (hz : Joined zone ∨ zone = ['.']) :
    inBailiwick name zone = true ↔ Contains zone name := by
  have hroot : ∀ {zone}, trimEndMatches '.' zone = [] → (inBailiwick name zone = true ↔ Contains zone name) := by
    intro zone htrim
    have hlabels : zoneLabels zone = [] := by rw [← zoneLabels_trim, htrim]; rfl
    rw [Contains, hlabels, inBailiwick, htrim]
    simp
  rcases hz with hz | rfl
  · by_cases hne : zone = []
    · subst hne
      exact hroot rfl
    · rw [contains_iff_text hn hz hne, inBailiwick, hn.trim, hz.trim]
      simp [toAsciiLowercase_eq_nil, hne]
  · exact hroot (by decide)

/-- **The tests of the text agree with the labels.** -/
theorem subtreeTests_labels :
    (∀ {name zone : Text}, Joined name → Joined zone ∨ zone = ['.'] →
      (inBailiwick name zone = true ↔ Contains zone name)) ∧ ∀ {z : Zone}, ProperZone z → ByLabels z := by
  constructor
  · intro name zone hn hz
    exact inBailiwick_iff hn hz
  · intro z hz
    exact hz.byLabels

/-! A zone with an empty non-terminal. -/

def treeZone : Zone :=
  (Zone.new "Example.com.".toList).add ⟨"a.tree.example.com".toList, .A, CLASS_IN, 60, [192, 0, 2, 1]⟩

theorem treeZone_proper : ProperZone treeZone := by
  apply ProperZone.add
  · exact properZone_new ⟨["Example".toList, "com".toList], by decide, by decide⟩ (by decide)
  · exact ⟨["a".toList, "tree".toList, "example".toList, "com".toList], by decide, by decide⟩
  · decide

/-- A text may end as another one does and its labels not. -/
theorem subtreeTests_labels_tree : ¬ Contains "example.com".toList "badexample.com".toList ∧
    (∃ o ∈ treeZone.names.keys, Contains "tree.example.com".toList o) ∧
    Ancestor treeZone "b.c.tree.example.com".toList (treeZone.closestEncloser "b.c.tree.example.com".toList) := by
  have hbad : Joined "badexample.com".toList := ⟨["badexample".toList, "com".toList], by decide, by decide⟩
  have hzone : Joined "example.com".toList := ⟨["example".toList, "com".toList], by decide, by decide⟩
  have htree : Joined "tree.example.com".toList := ⟨["tree".toList, "example".toList, "com".toList], by decide, by decide⟩
  have hname : Joined "b.c.tree.example.com".toList :=
    ⟨["b".toList, "c".toList, "tree".toList, "example".toList, "com".toList], by decide, by decide⟩
  have hlabels : ByLabels treeZone := subtreeTests_labels.2 treeZone_proper
  refine ⟨?_, ?_, ?_⟩
  · apply mt (subtreeTests_labels.1 hbad (.inl hzone)).mpr
    decide
  · apply (hlabels.exist htree (by decide)).mp
    decide
  · apply hlabels.ancestor hname
    unfold Below Contains
    decide

end Ironbind
