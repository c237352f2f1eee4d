import Mathlib.Data.List.Basic
import Mathlib.Data.List.Induction

/- A store of slots and a run of updates. An update concerns the slot of its key and
   leaves all others alone (`Local`). So a run without updates of a key leaves its slot
   alone (`Local.frame`), a run with one update of it does to it what the update does
   (`Local.once`), and where an update writes a value or nothing, the last value written
   stays (`Local.last`). -/
namespace Slots
variable {σ ι κ ν : Type*} {step : σ → ι → σ} {key : ι → κ}

/-- Updates of one slot each. -/
structure Local (step : σ → ι → σ) (key : ι → κ) (slot : σ → κ → ν) : Prop where
  other : ∀ s i k, key i ≠ k → slot (step s i) k = slot s k

namespace Local

theorem frame {slot : σ → κ → ν} (h : Local step key slot) {k : κ} :
    ∀ {is : List ι}, (∀ i ∈ is, key i ≠ k) → ∀ s, slot (is.foldl step s) k = slot s k
  | [], _, _ => rfl
  | i :: is, hk, s => by
    rw [List.foldl_cons, h.frame fun j hj => hk j (List.mem_cons_of_mem i hj)]
    exact h.other s i k (hk i List.mem_cons_self)

/-- Among updates of different keys, what one does to its slot is all that is done to it. -/
theorem once {slot : σ → κ → ν} (h : Local step key slot) {is : List ι} (hnodup : (is.map key).Nodup) {i : ι}
    (hi : i ∈ is) (s : σ) : ∃ s', slot s' (key i) = slot s (key i) ∧
      slot (is.foldl step s) (key i) = slot (step s' i) (key i) := by
  obtain ⟨before, after, rfl⟩ := List.mem_iff_append.mp hi
  rw [List.map_append, List.map_cons, List.nodup_append, List.nodup_cons] at hnodup
  obtain ⟨-, ⟨hafter, -⟩, hbefore⟩ := hnodup
  refine ⟨before.foldl step s, h.frame (fun j hj he => ?_) s, ?_⟩
  · exact hbefore _ (List.mem_map_of_mem hj) _ List.mem_cons_self he
  · rw [List.foldl_append, List.foldl_cons]
    exact h.frame (fun j hj he => hafter (List.mem_map.mpr ⟨j, hj, he⟩)) _

/-- The last value written to a slot is what it holds. -/
theorem last [DecidableEq κ] {slot : σ → κ → Option ν} (h : Local step key slot) {write : ι → Option ν}
    (hown : ∀ s i, slot (step s i) (key i) = (write i).or (slot s (key i))) (k : κ) (s : σ) (is : List ι) :
    slot (is.foldl step s) k = ((is.filterMap fun i => if key i = k then write i else none).getLast?).or (slot s k) := by
  induction is using List.reverseRecOn with
  | nil => rfl
  | append_singleton is i ih =>
    rw [List.foldl_append, List.foldl_cons, List.foldl_nil, List.filterMap_append, List.getLast?_append]
    by_cases hk : key i = k
    · subst hk
      rw [hown, ih, List.filterMap_cons, if_pos rfl]
      cases write i <;> rfl
    · rw [h.other _ i k hk, ih, List.filterMap_cons, if_neg hk]
      rfl

end Local

end Slots
