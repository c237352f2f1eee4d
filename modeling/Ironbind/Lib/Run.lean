import Mathlib.Data.List.Basic
import Mathlib.Data.List.Induction

/- Runs of a step function over a list of inputs: what every step preserves, the
   whole run preserves. -/
namespace Run
variable {σ α ε : Type}

/-- A run that stops at the first failing step. -/
theorem foldlM_preserves {f : σ → α → Except ε σ} {P : σ → Prop} (hf : ∀ s a s', P s → f s a = .ok s' → P s') :
    ∀ {l : List α} {s s' : σ}, P s → l.foldlM f s = .ok s' → P s'
  | [], s, s', hs, h => by cases h; exact hs
  | a :: l, s, s', hs, h => by
    rw [List.foldlM_cons] at h
    cases hfa : f s a with
    | error e => rw [hfa] at h; cases h
    | ok s1 =>
      rw [hfa] at h
      exact foldlM_preserves hf (hf s a s1 hs hfa) h

/-- What holds at each position of a list holds wherever the list is split. -/
theorem forall_split {P : List α → α → Prop} {l : List α} (h : ∀ n : Fin l.length, P (l.take n) (l.get n))
    (before : List α) (a : α) (after : List α) (heq : l = before ++ a :: after) : P before a := by
  subst heq
  simpa using h ⟨before.length, by simp⟩

/-- A run in which every step, where it stands, keeps a property, has it at every point. -/
theorem foldl_prefix {f : σ → α → σ} {P : σ → Prop} {s : σ} {l : List α} (hs : P s)
    (hstep : ∀ before a after, l = before ++ a :: after → P (before.foldl f s) → P (f (before.foldl f s) a)) :
    ∀ before, before <+: l → P (before.foldl f s) := by
  intro before
  induction before using List.reverseRecOn with
  | nil => exact fun _ => hs
  | append_singleton before a ih =>
    rintro ⟨after, rfl⟩
    rw [List.foldl_append]
    exact hstep before a after (by simp) (ih ⟨a :: after, by simp⟩)

end Run
