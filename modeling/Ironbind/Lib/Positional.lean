import Mathlib.Data.List.Lex
import Mathlib.Data.Nat.Digits.Lemmas
import Mathlib.Data.Set.Function
import Mathlib.Order.Monotone.Basic

/- Numbers written with digits, the most significant first. As many digits of one base are
   in lexicographic order as their numbers are in order (`lt_iff_value_lt`), so that the
   order is the same in every base: a text that writes octets with other digits sorts as
   the octets do. `map_lt_map_iff` takes the order through the characters that stand for
   digits. -/
namespace Positional

/-- The number that digits of base `B` stand for. -/
def value (B : Nat) (ds : List Nat) : Nat := Nat.ofDigits B ds.reverse

section
variable {B : Nat}

@[simp] theorem value_nil : value B [] = 0 := rfl

theorem value_append (ds es : List Nat) : value B (ds ++ es) = value B ds * B ^ es.length + value B es := by
  rw [value, List.reverse_append, Nat.ofDigits_append, List.length_reverse, Nat.mul_comm, Nat.add_comm]
  rfl

@[simp] theorem value_cons (d : Nat) (ds : List Nat) : value B (d :: ds) = d * B ^ ds.length + value B ds := by
  have hdigit : value B [d] = d := Nat.ofDigits_singleton
  rw [← List.singleton_append, value_append, hdigit]

theorem value_lt (hB : 1 < B) {ds : List Nat} (h : ∀ d ∈ ds, d < B) : value B ds < B ^ ds.length := by
  have hlt := Nat.ofDigits_lt_base_pow_length hB fun d hd => h d (List.mem_reverse.mp hd)
  rwa [List.length_reverse] at hlt

/-- **Digits are in order when their numbers are.** -/
theorem lt_iff_value_lt (hB : 1 < B) : ∀ {ds es : List Nat}, ds.length = es.length → (∀ d ∈ ds, d < B) →
    (∀ e ∈ es, e < B) → (ds < es ↔ value B ds < value B es)
  | [], [], _, _, _ => by simp
  | d :: ds, e :: es, hlen, hds, hes => by
    have hlen' : ds.length = es.length := Nat.succ.inj hlen
    have hds' : ∀ d ∈ ds, d < B := fun d hd => hds d (List.mem_cons_of_mem _ hd)
    have hes' : ∀ e ∈ es, e < B := fun e he => hes e (List.mem_cons_of_mem _ he)
    have hd := value_lt hB hds'
    have he := value_lt hB hes'
    rw [List.cons_lt_cons_iff, lt_iff_value_lt hB hlen' hds' hes', value_cons, value_cons, hlen']
    rw [hlen'] at hd
    rcases Nat.lt_trichotomy d e with hlt | rfl | hgt
    · have hstep : (d + 1) * B ^ es.length ≤ e * B ^ es.length := Nat.mul_le_mul_right _ hlt
      rw [Nat.succ_mul] at hstep
      exact iff_of_true (.inl hlt) (by omega)
    · constructor
      · intro h
        have := h.resolve_left (Nat.lt_irrefl d)
        omega
      · intro h
        exact .inr ⟨rfl, by omega⟩
    · have hstep : (e + 1) * B ^ es.length ≤ d * B ^ es.length := Nat.mul_le_mul_right _ hgt
      rw [Nat.succ_mul] at hstep
      refine iff_of_false ?_ (by omega)
      intro h
      rcases h with h | h <;> omega

end

/-- Elements that stand for others in their order keep the order of lists. -/
theorem map_lt_map_iff {α β : Type} [LinearOrder α] [LinearOrder β] {f : α → β} {s : Set α} (hf : StrictMonoOn f s) :
    ∀ {l l' : List α}, (∀ a ∈ l, a ∈ s) → (∀ a ∈ l', a ∈ s) → (l.map f < l'.map f ↔ l < l')
  | _, [], _, _ => by simp
  | [], b :: l', _, _ => by simp
  | a :: l, b :: l', hl, hl' => by
    have ha := hl a List.mem_cons_self
    have hb := hl' b List.mem_cons_self
    rw [List.map_cons, List.map_cons, List.cons_lt_cons_iff, List.cons_lt_cons_iff, hf.lt_iff_lt ha hb,
      Set.InjOn.eq_iff hf.injOn ha hb,
      map_lt_map_iff hf (fun c hc => hl c (List.mem_cons_of_mem _ hc)) fun c hc => hl' c (List.mem_cons_of_mem _ hc)]

end Positional
