import Ironbind.Lib.Codec

/- Readings of a buffer of which more becomes known. A read that succeeds has seen octets
   that are there, and finds them where more octets follow as well. `Persists R x y` says
   that whatever `x` reads from a buffer, `y` reads from every longer one, stopping at the
   same place, with a value that is related by `R`: most reads give the same value
   (`Same`), one that looks at the whole buffer may not. The rules carry it along `bind`
   and repetition. -/
namespace Codec

/-- Where `x` succeeds on the start of a buffer, `y` succeeds on all of it and stops at the same place. -/
def Persists {ε α β : Type} (R : α → β → Prop) (x : Reader ε α) (y : Reader ε β) : Prop :=
  ∀ buf more pos a stop, x buf pos = (.ok a, stop) → ∃ b, y (buf ++ more) pos = (.ok b, stop) ∧ R a b

/-- The read gives the same of every longer buffer. -/
abbrev Same {ε α : Type} (x : Reader ε α) : Prop := Persists Eq x x

namespace Persists
variable {ε α β γ δ : Type} {R : α → β → Prop} {S : γ → δ → Prop}

theorem pure' {a : α} {b : β} (h : R a b) : Persists R (Pure.pure a : Reader ε α) (Pure.pure b) := by
  intro buf more pos a' stop hread
  cases hread
  exact ⟨b, rfl, h⟩

theorem bind' {x : Reader ε α} {y : Reader ε β} {f : α → Reader ε γ} {g : β → Reader ε δ} (hx : Persists R x y)
    (hf : ∀ a b, R a b → Persists S (f a) (g b)) : Persists S (x >>= f) (y >>= g) := by
  intro buf more pos c stop hread
  obtain ⟨a, mid, ha, hc⟩ := Reader.bind_eq_ok hread
  obtain ⟨b, hb, hab⟩ := hx buf more pos a mid ha
  obtain ⟨d, hd, hcd⟩ := hf a b hab buf more mid c stop hc
  exact ⟨d, by rw [Reader.bind_ok hb, hd], hcd⟩

/-- The rule for a first part that gives the same. -/
theorem step {x : Reader ε α} {f : α → Reader ε γ} {g : α → Reader ε δ} (hx : Same x)
    (hf : ∀ a, Persists S (f a) (g a)) : Persists S (x >>= f) (x >>= g) := by
  apply hx.bind'
  intro a b hab
  obtain rfl := hab
  exact hf a

/-- Repetition persists item by item. -/
theorem times {x : Reader ε α} {y : Reader ε β} (hx : Persists R x y) :
    ∀ n, Persists (List.Forall₂ R) (Reader.times n x) (Reader.times n y)
  | 0 => pure' .nil
  | n + 1 => hx.bind' fun _ _ hab => (times hx n).bind' fun _ _ hrest => pure' (.cons hab hrest)

/-- What is read from a buffer that was cut off is read from all of it. -/
theorem run_take {x : Reader ε α} {y : Reader ε β} (hx : Persists R x y) {buf : Bytes} {n : Nat} {a : α}
    (hread : x.run (buf.take n) = .ok a) : ∃ b, y.run buf = .ok b ∧ R a b := by
  obtain ⟨b, hb, hab⟩ := hx (buf.take n) (buf.drop n) 0 a _ (Prod.ext hread rfl)
  rw [List.take_append_drop] at hb
  exact ⟨b, congrArg Prod.fst hb, hab⟩

end Persists

end Codec
