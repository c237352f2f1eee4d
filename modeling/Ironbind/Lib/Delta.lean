import Mathlib.Data.Set.Insert
import Mathlib.Data.List.Infix

/- Deltas between sets and the log of them that brings an old copy up to date. A
   delta takes some elements out of a set and puts others in; a chain of deltas
   decides each element it mentions, whatever set it starts from, so running it
   twice is running it once. A log keeps a delta for each change of version, and
   is exact when every stretch of it up to its end leads from every copy of the
   version it starts at to the current set. -/
namespace Delta
variable {α ν : Type}

structure Patch (α : Type) where
  removed : Set α
  added : Set α

namespace Patch

def apply (p : Patch α) (s : Set α) : Set α := s \ p.removed ∪ p.added

/-- The deltas applied in order. -/
def run (ps : List (Patch α)) (s : Set α) : Set α := ps.foldl (fun s p => p.apply s) s

theorem mem_apply {p : Patch α} {s : Set α} {x : α} : x ∈ p.apply s ↔ (x ∈ s ∧ x ∉ p.removed) ∨ x ∈ p.added := Iff.rfl

@[simp] theorem run_nil (s : Set α) : run [] s = s := rfl
@[simp] theorem run_cons (p : Patch α) (ps : List (Patch α)) (s : Set α) : run (p :: ps) s = run ps (p.apply s) := rfl

theorem run_concat (ps : List (Patch α)) (p : Patch α) (s : Set α) : run (ps ++ [p]) s = p.apply (run ps s) := by
  rw [run, List.foldl_append]; rfl

/-- A chain leaves an element as it was, or decides it for every set alike. -/
theorem run_decides (x : α) (ps : List (Patch α)) :
    (∀ s, x ∈ run ps s ↔ x ∈ s) ∨ ∀ s t, x ∈ run ps s ↔ x ∈ run ps t := by
  induction ps with
  | nil => exact .inl fun s => Iff.rfl
  | cons p ps ih =>
    by_cases hadd : x ∈ p.added
    · have hall : ∀ s, x ∈ p.apply s := fun s => .inr hadd
      rcases ih with ih | ih
      · exact .inr fun s t => by rw [run_cons, run_cons, ih, ih]; exact iff_of_true (hall s) (hall t)
      · exact .inr fun s t => ih _ _
    · by_cases hrem : x ∈ p.removed
      · have hno : ∀ s, x ∉ p.apply s := fun s h => (mem_apply.mp h).elim (fun h => h.2 hrem) hadd
        rcases ih with ih | ih
        · exact .inr fun s t => by rw [run_cons, run_cons, ih, ih]; exact iff_of_false (hno s) (hno t)
        · exact .inr fun s t => ih _ _
      · have hsame : ∀ s, x ∈ p.apply s ↔ x ∈ s := fun s => by simp [mem_apply, hadd, hrem]
        rcases ih with ih | ih
        · exact .inl fun s => by rw [run_cons, ih, hsame]
        · exact .inr fun s t => ih _ _

theorem run_run (ps : List (Patch α)) (s : Set α) : run ps (run ps s) = run ps s := by
  ext x
  rcases run_decides x ps with h | h
  · exact h _
  · exact h _ _

/-- What no delta puts in stays out. -/
theorem not_mem_run {x : α} {ps : List (Patch α)} (h : ∀ p ∈ ps, x ∉ p.added) : ∀ {s : Set α}, x ∉ s → x ∉ run ps s := by
  induction ps with
  | nil => exact fun hs => hs
  | cons p ps ih =>
    intro s hs
    have hstep : x ∉ p.apply s := fun hx => (mem_apply.mp hx).elim (fun hx => hs hx.1) (h p List.mem_cons_self)
    exact ih (fun p' hp' => h p' (List.mem_cons_of_mem _ hp')) hstep

/-- A delta that takes out what is only in `a` and puts in what is only in `b` leads to `b`
    from every set between what the two share and what they have together. -/
theorem apply_eq {p : Patch α} {a b s : Set α} (hremoved : p.removed = a \ b) (hadded : b \ a ⊆ p.added)
    (hsub : p.added ⊆ b) (hshared : a ∩ b ⊆ s) (htogether : s ⊆ a ∪ b) : p.apply s = b := by
  ext x
  rw [mem_apply, hremoved]
  constructor
  · rintro (⟨hs, hkept⟩ | hx)
    · rcases htogether hs with ha | hb
      · exact by_contra fun hb => hkept ⟨ha, hb⟩
      · exact hb
    · exact hsub hx
  · intro hb
    by_cases ha : x ∈ a
    · exact .inl ⟨hshared ⟨ha, hb⟩, fun h => h.2 hb⟩
    · exact .inr (hadded ⟨hb, ha⟩)

end Patch

/-- What is left out of `b`, as far as a key tells. -/
def lost {κ : Type} (key : α → κ) (a b : Set α) : Set α := {x | x ∈ a ∧ ∀ y ∈ b, key y ≠ key x}

/-! Logs. -/

/-- A delta with the version it starts at. -/
abbrev Entry (ν α : Type) : Type := ν × Patch α

/-- Copies of the versions, any number of each. -/
abbrev Copies (ν α : Type) : Type := Set (ν × Set α)

def patches (log : List (Entry ν α)) : List (Patch α) := log.map Prod.snd

theorem patches_concat (log : List (Entry ν α)) (e : Entry ν α) : patches (log ++ [e]) = patches log ++ [e.2] := by
  rw [patches, List.map_append]; rfl

/-- Every stretch of the log up to its end brings each copy it starts at up to date, and
    starts at some copy. -/
structure Exact (log : List (Entry ν α)) (copies : Copies ν α) (current : Set α) : Prop where
  leads : ∀ e rest s, e :: rest <:+ log → (e.1, s) ∈ copies → Patch.run (patches (e :: rest)) s = current
  starts : ∀ e ∈ log, ∃ s, (e.1, s) ∈ copies

namespace Exact
variable {log log' : List (Entry ν α)} {copies : Copies ν α} {current next : Set α} {e : Entry ν α} {v : ν}

theorem nil (copies : Copies ν α) (current : Set α) : Exact ([] : List (Entry ν α)) copies current where
  leads := fun e rest s h => by simp at h
  starts := fun e h => absurd h List.not_mem_nil

/-- What is dropped is dropped from the front. -/
theorem suffix (h : Exact log copies current) (hs : log' <:+ log) : Exact log' copies current where
  leads := fun e rest s hsuf hmem => h.leads e rest s (hsuf.trans hs) hmem
  starts := fun e he => h.starts e (hs.subset he)

/-- One more delta, which leads from every copy of its version to the next set. -/
theorem push (h : Exact log copies current) (hcur : (e.1, current) ∈ copies)
    (he : ∀ s, (e.1, s) ∈ copies → e.2.apply s = next) : Exact (log ++ [e]) copies next where
  leads := fun e' rest s hsuf hmem => by
    rcases List.suffix_concat_iff.mp hsuf with hnil | ⟨init, heq, hinit⟩
    · exact absurd hnil (List.cons_ne_nil _ _)
    · cases init with
      | nil =>
        obtain ⟨rfl, rfl⟩ := List.cons.inj heq
        exact he s hmem
      | cons e₀ init =>
        obtain ⟨rfl, -⟩ := List.cons.inj heq
        have hlead : Patch.run (patches (e' :: init)) s = current := h.leads e' init s hinit hmem
        rw [heq, patches_concat, Patch.run_concat, hlead]
        exact he current hcur
  starts := fun e' he' => by
    rcases List.mem_append.mp he' with he' | he'
    · exact h.starts e' he'
    · rw [List.mem_singleton.mp he']; exact ⟨current, hcur⟩

/-- A new copy of what is current: a stretch that leads to it leaves it there. -/
theorem publish (h : Exact log copies current) (v : ν) : Exact log (insert (v, current) copies) current where
  leads := fun e rest s hsuf hmem => by
    rcases Set.mem_insert_iff.mp hmem with heq | hmem
    · obtain ⟨s₀, hs₀⟩ := h.starts e (hsuf.subset List.mem_cons_self)
      rw [(Prod.mk.inj heq).2, ← h.leads e rest s₀ hsuf hs₀, Patch.run_run]
    · exact h.leads e rest s hsuf hmem
  starts := fun e he => (h.starts e he).imp fun s hs => Set.mem_insert_of_mem _ hs

end Exact

end Delta
