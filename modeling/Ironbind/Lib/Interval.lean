import Mathlib.Data.List.Lex
import Mathlib.Order.Interval.Set.OrdConnected

/- Stretches of a sorted list. A set of a linear order that holds everything between two
   of its elements (`Set.OrdConnected`) is met by a sorted list in one stretch
   (`stretch`). In the lexicographic order of lists the extensions of a list are such a
   set (`ordConnected_extensions`), and a list comes before its proper extensions. -/
namespace Interval

section
variable {α κ : Type} [LinearOrder κ] {key : α → κ} {P : Set κ} (hP : P.OrdConnected)
include hP

/-- **The elements of a sorted list whose keys are in the set stand together.** -/
theorem stretch {l : List α} (hsorted : l.Pairwise fun a b => key a ≤ key b) :
    ∃ before inside behind, l = before ++ (inside ++ behind) ∧ (∀ a ∈ inside, key a ∈ P) ∧
      ∀ a ∈ before ++ behind, key a ∉ P := by
  induction l with
  | nil => exact ⟨[], [], [], rfl, fun a ha => absurd ha List.not_mem_nil, fun a ha => absurd ha List.not_mem_nil⟩
  | cons a l ih =>
    obtain ⟨hle, hrest⟩ := List.pairwise_cons.mp hsorted
    obtain ⟨before, inside, behind, rfl, hin, hout⟩ := ih hrest
    by_cases ha : key a ∈ P
    · cases before with
      | nil => exact ⟨[], a :: inside, behind, rfl, List.forall_mem_cons.mpr ⟨ha, hin⟩, hout⟩
      | cons b before =>
        -- `b` is not in the set, so that nothing behind it is
        have hnone : inside = [] := by
          rw [List.eq_nil_iff_forall_not_mem]
          intro x hx
          have hb : key b ∉ P := hout b List.mem_cons_self
          have hbx : key b ≤ key x := (List.pairwise_cons.mp hrest).1 x
            (List.mem_append_right _ (List.mem_append_left _ hx))
          exact hb (hP.out ha (hin x hx) ⟨hle b List.mem_cons_self, hbx⟩)
        subst hnone
        exact ⟨[], [a], b :: before ++ behind, by simp, List.forall_mem_singleton.mpr ha, hout⟩
    · exact ⟨a :: before, inside, behind, rfl, hin, List.forall_mem_cons.mpr ⟨ha, hout⟩⟩

end

/-! Lists in lexicographic order. -/

section
variable {κ : Type} [LinearOrder κ]

theorem cons_le_cons {x y : κ} {a b : List κ} (h : x :: a ≤ y :: b) : x < y ∨ x = y ∧ a ≤ b := by
  rw [← not_lt, List.cons_lt_cons_iff] at h
  rcases lt_trichotomy x y with hlt | rfl | hgt
  · exact .inl hlt
  · exact .inr ⟨rfl, not_lt.mp fun hlt => h (.inr ⟨rfl, hlt⟩)⟩
  · exact absurd (.inl hgt) h

/-- What lies between two extensions of a list extends it. -/
theorem prefix_between {p a b c : List κ} (ha : p <+: a) (hc : p <+: c) (hab : a ≤ b) (hbc : b ≤ c) : p <+: b := by
  induction p generalizing a b c with
  | nil => exact List.nil_prefix
  | cons x p ih =>
    obtain ⟨a, rfl⟩ := ha
    obtain ⟨c, rfl⟩ := hc
    cases b with
    | nil => exact absurd (List.nil_lt_cons x (p ++ a)) (not_lt.mpr hab)
    | cons y b =>
      have hab := cons_le_cons hab
      have hbc := cons_le_cons hbc
      have hy : x = y := by
        apply le_antisymm
        · exact hab.elim le_of_lt fun h => h.1.le
        · exact hbc.elim le_of_lt fun h => h.1.le
      subst hy
      have hab := hab.resolve_left (lt_irrefl x)
      have hbc := hbc.resolve_left (lt_irrefl x)
      exact List.cons_prefix_cons.mpr ⟨rfl, ih (List.prefix_append p a) (List.prefix_append p c) hab.2 hbc.2⟩

theorem ordConnected_extensions (p : List κ) : Set.OrdConnected {l | p <+: l} := by
  constructor
  intro a ha c hc b hb
  exact prefix_between ha hc hb.1 hb.2

/-- A list comes before every longer one that starts with it. -/
theorem lt_of_prefix {p l : List κ} (h : p <+: l) (hne : p ≠ l) : p < l := by
  obtain ⟨t, rfl⟩ := h
  cases t with
  | nil => exact absurd (List.append_nil p).symm hne
  | cons x t =>
    induction p with
    | nil => exact List.nil_lt_cons x t
    | cons y p ih =>
      apply List.cons_lt_cons_iff.mpr
      refine .inr ⟨rfl, ih ?_⟩
      intro heq
      exact hne (by rw [List.cons_append, ← heq])

end

end Interval
