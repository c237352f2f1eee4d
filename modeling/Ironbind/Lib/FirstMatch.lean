import Mathlib.Data.List.Basic
import Mathlib.Tactic.Tauto

/- Searching two lists for a first answer. Each subject is put to the first key that is
   eligible for it, and the first subject that gets an answer ends the search. What a
   search finds may depend on both orders. It does not exactly when the pairs that
   answer agree and no order of the keys can hide them all (`search_perm_iff`): one class
   of subjects has keys, and every one of them answers for some subject. -/
namespace FirstMatch
variable {σ κ β : Type} (eligible : σ → κ → Bool) (answer : σ → κ → Option β)

/-- What the first key eligible for a subject answers. -/
def ask (keys : List κ) (s : σ) : Option β := (keys.find? (eligible s)).bind (answer s)

def search (subjects : List σ) (keys : List κ) : Option β := subjects.findSome? (ask eligible answer keys)

/-- A key answers for a subject it is eligible for. -/
def Answers (s : σ) (k : κ) (b : β) : Prop := eligible s k ∧ answer s k = some b

/-- The pair that ends a search: the first subject answered, with its first key. -/
structure Decides (subjects : List σ) (keys : List κ) (s : σ) (k : κ) (b : β) : Prop where
  first : ∃ before after, subjects = before ++ s :: after ∧ ∀ s' ∈ before, ask eligible answer keys s' = none
  key : keys.find? (eligible s) = some k
  answered : answer s k = some b

/-- Every pair that answers gives the same answer. -/
def Agree (subjects : List σ) (keys : List κ) : Prop :=
  ∀ s ∈ subjects, ∀ k ∈ keys, ∀ b, Answers eligible answer s k b →
    ∀ s' ∈ subjects, ∀ k' ∈ keys, ∀ b', Answers eligible answer s' k' b' → b = b'

/-- Where a pair answers, some subject has eligible keys that all answer for a subject. -/
def Exposed (subjects : List σ) (keys : List κ) : Prop :=
  (∃ s ∈ subjects, ∃ k ∈ keys, ∃ b, Answers eligible answer s k b) →
    ∃ s₀ ∈ subjects, (∃ k ∈ keys, eligible s₀ k) ∧
      ∀ k ∈ keys, eligible s₀ k → ∃ s ∈ subjects, ∃ b, Answers eligible answer s k b

section
variable {eligible answer} {subjects subjects' : List σ} {keys keys' : List κ} {s : σ} {k : κ} {b : β}

theorem ask_eq_some_iff : ask eligible answer keys s = some b ↔
    ∃ k, keys.find? (eligible s) = some k ∧ answer s k = some b := by
  rw [ask, Option.bind_eq_some_iff]

theorem ask_answers (h : ask eligible answer keys s = some b) : ∃ k ∈ keys, Answers eligible answer s k b := by
  obtain ⟨k, hf, ha⟩ := ask_eq_some_iff.mp h
  exact ⟨k, List.mem_of_find?_eq_some hf, List.find?_some (p := eligible s) hf, ha⟩

theorem Decides.answers (h : Decides eligible answer subjects keys s k b) : Answers eligible answer s k b :=
  ⟨List.find?_some (p := eligible s) h.key, h.answered⟩

theorem Decides.mem (h : Decides eligible answer subjects keys s k b) : s ∈ subjects ∧ k ∈ keys := by
  obtain ⟨before, after, rfl, _⟩ := h.first
  exact ⟨by simp, List.mem_of_find?_eq_some h.key⟩

/-- A search ends with the pair that decides it. -/
theorem search_eq_some_iff : search eligible answer subjects keys = some b ↔
    ∃ s k, Decides eligible answer subjects keys s k b := by
  rw [search, List.findSome?_eq_some_iff]
  constructor
  · rintro ⟨before, s, after, hs, ha, hbefore⟩
    obtain ⟨k, hf, hk⟩ := ask_eq_some_iff.mp ha
    exact ⟨s, k, ⟨before, after, hs, hbefore⟩, hf, hk⟩
  · rintro ⟨s, k, ⟨before, after, hs, hbefore⟩, hf, hk⟩
    exact ⟨before, s, after, hs, ask_eq_some_iff.mpr ⟨k, hf, hk⟩, hbefore⟩

/-- A search with no pair that answers finds nothing. -/
theorem search_eq_none (h : ¬ ∃ s ∈ subjects, ∃ k ∈ keys, ∃ b, Answers eligible answer s k b) :
    search eligible answer subjects keys = none := by
  apply List.findSome?_eq_none_iff.mpr
  intro s hs
  apply Option.eq_none_iff_forall_ne_some.mpr
  intro b hb
  obtain ⟨k, hk, ha⟩ := ask_answers hb
  exact h ⟨s, hs, k, hk, b, ha⟩

/-- A search that some subject ends finds the answer of one of the pairs. -/
theorem exists_answers_of_ask (hs : s ∈ subjects) (h : ask eligible answer keys s = some b) :
    ∃ b', search eligible answer subjects keys = some b' ∧
      ∃ s ∈ subjects, ∃ k ∈ keys, Answers eligible answer s k b' := by
  have hsome : search eligible answer subjects keys ≠ none := by
    intro hnone
    rw [List.findSome?_eq_none_iff.mp hnone s hs] at h
    cases h
  obtain ⟨b', hb'⟩ := Option.ne_none_iff_exists'.mp hsome
  obtain ⟨s', k', hd⟩ := search_eq_some_iff.mp hb'
  exact ⟨b', hb', s', hd.mem.1, k', hd.mem.2, hd.answers⟩

/-- Where the answers agree and no order of the keys hides them, a search finds an answer there is. -/
theorem search_of_steady (hagree : Agree eligible answer subjects keys) (hexposed : Exposed eligible answer subjects keys)
    (hclass : ∀ s s' k, eligible s k → eligible s' k → eligible s = eligible s') (hs : s ∈ subjects) (hk : k ∈ keys)
    (h : Answers eligible answer s k b) : search eligible answer subjects keys = some b := by
  obtain ⟨s₀, hs₀, ⟨k₀, hk₀, he₀⟩, hall⟩ := hexposed ⟨s, hs, k, hk, b, h⟩
  obtain ⟨k₁, hf⟩ := Option.isSome_iff_exists.mp (List.find?_isSome.mpr ⟨k₀, hk₀, he₀⟩)
  have hk₁ := List.mem_of_find?_eq_some hf
  have he₁ : eligible s₀ k₁ := List.find?_some (p := eligible s₀) hf
  obtain ⟨s₁, hs₁, b₁, hans⟩ := hall k₁ hk₁ he₁
  -- the subject that `k₁` answers for is of the same class, so `k₁` is its first key too
  have hask : ask eligible answer keys s₁ = some b₁ :=
    ask_eq_some_iff.mpr ⟨k₁, by rw [hclass s₁ s₀ k₁ hans.1 he₁]; exact hf, hans.2⟩
  obtain ⟨b', hb', s', hs', k', hk', hans'⟩ := exists_answers_of_ask hs₁ hask
  rw [hb', hagree s hs k hk b h s' hs' k' hk' b' hans']

theorem Agree.perm (h : Agree eligible answer subjects keys) (hs : subjects.Perm subjects') (hk : keys.Perm keys') :
    Agree eligible answer subjects' keys' :=
  fun s hs₁ k hk₁ b ha s' hs₂ k' hk₂ b' ha' =>
    h s (hs.mem_iff.mpr hs₁) k (hk.mem_iff.mpr hk₁) b ha s' (hs.mem_iff.mpr hs₂) k' (hk.mem_iff.mpr hk₂) b' ha'

theorem Exposed.perm (h : Exposed eligible answer subjects keys) (hs : subjects.Perm subjects')
    (hk : keys.Perm keys') : Exposed eligible answer subjects' keys' := by
  simpa only [Exposed, hs.mem_iff, hk.mem_iff] using h

/-- A pair put first in both lists decides the search. -/
theorem exists_order_some (hs : s ∈ subjects) (hk : k ∈ keys) (h : Answers eligible answer s k b) :
    ∃ subjects' keys', subjects.Perm subjects' ∧ keys.Perm keys' ∧
      search eligible answer subjects' keys' = some b := by
  obtain ⟨s₁, s₂, rfl⟩ := List.append_of_mem hs
  obtain ⟨k₁, k₂, rfl⟩ := List.append_of_mem hk
  refine ⟨s :: (s₁ ++ s₂), k :: (k₁ ++ k₂), List.perm_middle, List.perm_middle, ?_⟩
  have hask : ask eligible answer (k :: (k₁ ++ k₂)) s = some b :=
    ask_eq_some_iff.mpr ⟨k, List.find?_cons_of_pos h.1, h.2⟩
  rw [search, List.findSome?_cons, hask]

/-- The first key of a list ordered by `p` has `p`, if any eligible key has. -/
theorem find?_filter_append (p : κ → Bool) (h : ∃ k ∈ keys, eligible s k ∧ p k)
    (hf : (keys.filter p ++ keys.filter (! p ·)).find? (eligible s) = some k) : p k := by
  obtain ⟨k₀, hk₀, he₀, hp₀⟩ := h
  obtain ⟨k₁, hf₁⟩ := Option.isSome_iff_exists.mp
    (List.find?_isSome.mpr ⟨k₀, List.mem_filter.mpr ⟨hk₀, hp₀⟩, he₀⟩)
  rw [List.find?_append, hf₁, Option.some_or, Option.some.injEq] at hf
  exact hf ▸ (List.mem_filter.mp (List.mem_of_find?_eq_some hf₁)).2

/-- Keys that answer for no subject, put first, hide the rest when every class with keys has one. -/
theorem exists_order_none (h : ∀ s₀ ∈ subjects, (∃ k ∈ keys, eligible s₀ k) →
      ∃ k ∈ keys, eligible s₀ k ∧ ∀ s ∈ subjects, ∀ b, ¬ Answers eligible answer s k b) :
    ∃ keys', keys.Perm keys' ∧ search eligible answer subjects keys' = none := by
  classical
  let silent : κ → Bool := fun k => decide (∀ s ∈ subjects, ∀ b, ¬ Answers eligible answer s k b)
  refine ⟨_, (List.filter_append_perm silent keys).symm, ?_⟩
  apply List.findSome?_eq_none_iff.mpr
  intro s hs
  apply Option.eq_none_iff_forall_ne_some.mpr
  intro b hb
  obtain ⟨k, hf, ha⟩ := ask_eq_some_iff.mp hb
  have he : eligible s k := List.find?_some (p := eligible s) hf
  have hk : k ∈ keys := (List.filter_append_perm silent keys).mem_iff.mp (List.mem_of_find?_eq_some hf)
  obtain ⟨k₀, hk₀, he₀, hno⟩ := h s hs ⟨k, hk, he⟩
  have hsilent : silent k := find?_filter_append silent ⟨k₀, hk₀, he₀, decide_eq_true hno⟩ hf
  exact of_decide_eq_true hsilent s hs b ⟨he, ha⟩

/-- **When the order plays no part.** Subjects that share a key share all their keys; then a search
    finds the same in every order exactly when its pairs agree and cannot be hidden. -/
theorem search_perm_iff (hclass : ∀ s s' k, eligible s k → eligible s' k → eligible s = eligible s') :
    (∀ subjects' keys', subjects.Perm subjects' → keys.Perm keys' →
      search eligible answer subjects' keys' = search eligible answer subjects keys) ↔
    Agree eligible answer subjects keys ∧ Exposed eligible answer subjects keys := by
  constructor
  · intro h
    have hfound : ∀ s ∈ subjects, ∀ k ∈ keys, ∀ b, Answers eligible answer s k b →
        search eligible answer subjects keys = some b := by
      intro s hs k hk b ha
      obtain ⟨subjects', keys', hps, hpk, hb⟩ := exists_order_some hs hk ha
      rw [← h subjects' keys' hps hpk, hb]
    refine ⟨fun s hs k hk b ha s' hs' k' hk' b' ha' => ?_, fun ⟨s, hs, k, hk, b, ha⟩ => ?_⟩
    · exact Option.some.inj ((hfound s hs k hk b ha).symm.trans (hfound s' hs' k' hk' b' ha'))
    · by_contra hhidden
      push Not at hhidden
      obtain ⟨keys', hpk, hnone⟩ := exists_order_none hhidden
      rw [h subjects keys' (List.Perm.refl _) hpk, hfound s hs k hk b ha] at hnone
      cases hnone
  · rintro ⟨hagree, hexposed⟩ subjects' keys' hps hpk
    by_cases hany : ∃ s ∈ subjects, ∃ k ∈ keys, ∃ b, Answers eligible answer s k b
    · obtain ⟨s, hs, k, hk, b, ha⟩ := hany
      rw [search_of_steady hagree hexposed hclass hs hk ha,
        search_of_steady (hagree.perm hps hpk) (hexposed.perm hps hpk) hclass
          (hps.mem_iff.mp hs) (hpk.mem_iff.mp hk) ha]
    · rw [search_eq_none hany]
      apply search_eq_none
      simpa only [hps.mem_iff, hpk.mem_iff] using hany

end

end FirstMatch
