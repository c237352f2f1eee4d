import Mathlib.Algebra.Order.Field.Basic
import Mathlib.Data.List.Basic
import Mathlib.Tactic.Linarith

/- Token buckets over an ordered field. A bucket gains `rate` tokens per unit of time,
   up to its capacity, and every admission takes one. `Accounts` relates a bucket to the
   times of the admissions so far: since any time it may have admitted only what it held
   and what it gained, less what it still holds. Taking a token no earlier than at the
   last refill keeps the account (`Accounts.take`), and an account bounds the admissions
   of every interval (`Accounts.between_le`). -/
namespace TokenBucket
variable {K : Type} [Field K] [LinearOrder K]

structure Bucket (K : Type) where
  tokens : K
  lastRefill : K

/-- What a bucket holds at a time, with what it has gained since the last refill. -/
def Bucket.refilled (capacity rate : K) (b : Bucket K) (now : K) : K :=
  min (b.tokens + (now - b.lastRefill) * rate) capacity

/-- A token is taken, if there is one. -/
def Bucket.take (capacity rate : K) (b : Bucket K) (now : K) : Bool × Bucket K :=
  if 1 ≤ b.refilled capacity rate now then (true, ⟨b.refilled capacity rate now - 1, now⟩)
  else (false, ⟨b.refilled capacity rate now, now⟩)

/-- A bucket that has gained all its tokens back takes like a full one. -/
theorem Bucket.take_of_full {capacity rate : K} {b : Bucket K} {now : K}
    (h : capacity ≤ b.tokens + (now - b.lastRefill) * rate) :
    b.take capacity rate now = Bucket.take capacity rate ⟨capacity, now⟩ now := by
  have hrefilled : b.refilled capacity rate now = capacity := min_eq_right h
  have hfull : Bucket.refilled capacity rate ⟨capacity, now⟩ now = capacity := by simp [Bucket.refilled]
  rw [Bucket.take, Bucket.take, hrefilled, hfull]

/-- The admissions from one time to another. -/
def between (times : List K) (t₁ t₂ : K) : Nat := times.countP fun t => t₁ ≤ t ∧ t ≤ t₂

/-- The admissions of a bucket: none after its last refill, within the bound in every interval, and since any time no
    more than what the bucket could have gained, less what it still holds. -/
structure Accounts (capacity rate : K) (b : Bucket K) (times : List K) : Prop where
  nonneg : 0 ≤ b.tokens
  past : ∀ t ∈ times, t ≤ b.lastRefill
  spent : ∀ t, t ≤ b.lastRefill → (between times t b.lastRefill : K) + b.tokens ≤ capacity + (b.lastRefill - t) * rate
  bounded : ∀ t₁ t₂, t₁ ≤ t₂ → (between times t₁ t₂ : K) ≤ capacity + (t₂ - t₁) * rate

section
variable {capacity rate : K} {b : Bucket K} {times : List K} {now t t₁ t₂ : K}

omit [Field K] in
theorem between_cons : between (now :: times) t₁ t₂ =
    between times t₁ t₂ + if t₁ ≤ now ∧ now ≤ t₂ then 1 else 0 := by
  simp [between, List.countP_cons]

omit [Field K] in
/-- After the last of the times there are none. -/
theorem between_eq_zero (h : ∀ t ∈ times, t < t₁) : between times t₁ t₂ = 0 :=
  List.countP_eq_zero.mpr fun t ht => by simp [not_le.mpr (h t ht)]

omit [Field K] in
/-- An interval that reaches past the last of the times may be cut there. -/
theorem between_cut (h : ∀ t ∈ times, t ≤ now) (hnow : now ≤ t₂) : between times t₁ t₂ = between times t₁ now :=
  List.countP_congr fun t ht => by simp [h t ht, (h t ht).trans hnow]

variable [IsStrictOrderedRing K]

/-- A full bucket that has admitted nothing. -/
theorem Accounts.full (hcapacity : 0 ≤ capacity) (hrate : 0 ≤ rate) (now : K) :
    Accounts capacity rate ⟨capacity, now⟩ [] where
  nonneg := hcapacity
  past := fun t ht => nomatch ht
  spent := fun t ht => by
    have := mul_nonneg (sub_nonneg.mpr ht) hrate
    simpa [between] using this
  bounded := fun t₁ t₂ ht => by
    have := mul_nonneg (sub_nonneg.mpr ht) hrate
    simp only [between, List.countP_nil, Nat.cast_zero]
    linarith

/-- Admissions up to a time, and what is held then, bound every interval. -/
theorem Accounts.of_spent (hrate : 0 ≤ rate) (hcapacity : 0 ≤ capacity) (hnonneg : 0 ≤ b.tokens)
    (hpast : ∀ t ∈ times, t ≤ b.lastRefill)
    (hspent : ∀ t, t ≤ b.lastRefill → (between times t b.lastRefill : K) + b.tokens ≤ capacity + (b.lastRefill - t) * rate)
    (hearlier : ∀ t₁ t₂, t₁ ≤ t₂ → t₂ < b.lastRefill → (between times t₁ t₂ : K) ≤ capacity + (t₂ - t₁) * rate) :
    Accounts capacity rate b times where
  nonneg := hnonneg
  past := hpast
  spent := hspent
  bounded := by
    intro t₁ t₂ ht
    rcases lt_or_ge t₂ b.lastRefill with hlt | hge
    · exact hearlier t₁ t₂ ht hlt
    · have hgained := mul_nonneg (sub_nonneg.mpr ht) hrate
      rcases lt_or_ge b.lastRefill t₁ with hlast | hlast
      · rw [between_eq_zero fun t ht => (hpast t ht).trans_lt hlast]
        simp only [Nat.cast_zero]
        linarith
      · rw [between_cut hpast hge]
        have hmore := mul_le_mul_of_nonneg_right (sub_le_sub_right hge t₁) hrate
        linarith [hspent t₁ hlast]

variable (h : Accounts capacity rate b times) (hrate : 0 ≤ rate) (hnow : b.lastRefill ≤ now)
include h hrate hnow

theorem Accounts.refilled_nonneg (hcapacity : 0 ≤ capacity) : 0 ≤ b.refilled capacity rate now :=
  le_min (add_nonneg h.nonneg (mul_nonneg (sub_nonneg.mpr hnow) hrate)) hcapacity

/-- What was admitted since any time, and what the bucket holds now. -/
theorem Accounts.refilled_spent (ht : t ≤ now) :
    (between times t now : K) + b.refilled capacity rate now ≤ capacity + (now - t) * rate := by
  rw [between_cut h.past hnow]
  rcases le_or_gt t b.lastRefill with hle | hgt
  · have hspent := h.spent t hle
    have hleft := min_le_left (b.tokens + (now - b.lastRefill) * rate) capacity
    rw [Bucket.refilled]
    linarith
  · rw [between_eq_zero fun t' ht' => (h.past t' ht').trans_lt hgt]
    have hgained := mul_nonneg (sub_nonneg.mpr ht) hrate
    have hright := min_le_right (b.tokens + (now - b.lastRefill) * rate) capacity
    simp only [Bucket.refilled, Nat.cast_zero]
    linarith

/-- **A token taken no earlier than at the last refill is accounted for.** -/
theorem Accounts.take (hcapacity : 0 ≤ capacity) : Accounts capacity rate (b.take capacity rate now).2
    (if (b.take capacity rate now).1 then now :: times else times) := by
  have hpast : ∀ t ∈ times, t ≤ now := fun t ht => (h.past t ht).trans hnow
  unfold Bucket.take
  split
  · next hone =>
    refine .of_spent hrate hcapacity (sub_nonneg.mpr hone) ?_ ?_ ?_
    · rintro t (_ | ⟨_, ht⟩)
      · exact le_rfl
      · exact hpast t ht
    · intro t ht
      have hspent := h.refilled_spent hrate hnow ht
      dsimp only at ht ⊢
      rw [if_pos rfl, between_cons, if_pos ⟨ht, le_rfl⟩]
      push_cast
      linarith
    · intro t₁ t₂ ht hlt
      dsimp only at hlt ⊢
      rw [if_pos rfl, between_cons, if_neg fun hboth => absurd hboth.2 (not_le.mpr hlt)]
      exact h.bounded t₁ t₂ ht
  · exact .of_spent hrate hcapacity (h.refilled_nonneg hrate hnow hcapacity) hpast
      (fun t ht => h.refilled_spent hrate hnow ht) fun t₁ t₂ ht _ => h.bounded t₁ t₂ ht

end

end TokenBucket
