import Mathlib.Tactic

/- Supervised loops (`run_supervised`). Every long-running loop of the server is started again
   when it returns or panics, after a pause of 1 s that doubles to 30 s and goes back to 1 s
   once the loop has stayed up for a minute (`pause_after`). A run is what became of one start
   after the other. With the potential below every start pays for 18 s:

     18 s · starts ≤ time + 59 s

   for any starts in a row, anywhere in any run (`restarts_bounded`), and the 59 s are
   needed: five starts that fail at once are over in 31 s. -/
namespace Ironbind
namespace Supervisor

/-- Time is in nanoseconds. -/
def SECOND : Nat := 1000000000

theorem second_pos : 0 < SECOND := Nat.zero_lt_succ _

/-- What became of one start: how long the loop stayed up, and how much longer than asked for the thread slept after
    it. Whether the loop returned or panicked shows in the log only. -/
structure Start where
  uptime : Nat
  overslept : Nat

/-- The loop has stayed up for a minute. -/
def Start.Stable (s : Start) : Prop := 60 * SECOND < s.uptime

instance (s : Start) : Decidable s.Stable := inferInstanceAs (Decidable (_ < _))

/-- What is slept after a start, from the delay that has built up. -/
def pause (delay : Nat) (s : Start) : Nat := if s.Stable then SECOND else delay

/-- The delay that has built up behind it. -/
def nextDelay (delay : Nat) (s : Start) : Nat := min (pause delay s * 2) (30 * SECOND)

/-- `run_supervised`: the pauses of a run, one after each start. -/
def pauses : Nat → List Start → List Nat
  | _, [] => []
  | delay, s :: starts => pause delay s :: pauses (nextDelay delay s) starts

def delayAfter (starts : List Start) : Nat := starts.foldl nextDelay SECOND

/-- The time from the first of some starts in a row to the one behind them. -/
def elapsed : Nat → List Start → Nat
  | _, [] => 0
  | delay, s :: starts => s.uptime + pause delay s + s.overslept + elapsed (nextDelay delay s) starts

/-! The delays that there are. -/

/-- The delay after so many doublings. -/
def rung (k : Nat) : Nat := min (SECOND * 2 ^ k) (30 * SECOND)

theorem rung_zero : rung 0 = SECOND := by
  rw [rung, Nat.pow_zero, Nat.mul_one]
  omega

theorem rung_succ (k : Nat) : min (rung k * 2) (30 * SECOND) = rung (k + 1) := by
  rw [rung, rung, Nat.pow_succ, ← Nat.mul_assoc]
  omega

theorem pause_of_not_stable {s : Start} (h : ¬ s.Stable) (delay : Nat) : pause delay s = delay := if_neg h

theorem pause_of_stable {s : Start} (h : s.Stable) (delay : Nat) : pause delay s = SECOND := if_pos h

theorem nextDelay_rung {s : Start} (h : ¬ s.Stable) (k : Nat) : nextDelay (rung k) s = rung (k + 1) := by
  rw [nextDelay, pause_of_not_stable h, rung_succ]

theorem nextDelay_of_stable {s : Start} (h : s.Stable) (delay : Nat) : nextDelay delay s = rung 1 := by
  rw [nextDelay, pause_of_stable h, ← rung_succ, rung_zero]

theorem foldl_rung : ∀ {streak : List Start} (k : Nat), (∀ s ∈ streak, ¬ s.Stable) →
    streak.foldl nextDelay (rung k) = rung (k + streak.length)
  | [], k, _ => by rw [List.foldl_nil, List.length_nil, Nat.add_zero]
  | s :: streak, k, h => by
    rw [List.foldl_cons, nextDelay_rung (h s List.mem_cons_self),
      foldl_rung (k + 1) fun s' hs => h s' (List.mem_cons_of_mem _ hs), List.length_cons]
    congr 1
    omega

theorem foldl_exists_rung : ∀ (starts : List Start) (k : Nat), ∃ k', starts.foldl nextDelay (rung k) = rung k'
  | [], k => ⟨k, List.foldl_nil⟩
  | s :: starts, k => by
    rw [List.foldl_cons]
    by_cases h : s.Stable
    · rw [nextDelay_of_stable h]
      exact foldl_exists_rung starts 1
    · rw [nextDelay_rung h]
      exact foldl_exists_rung starts (k + 1)

/-- In every run the delay is on the ladder. -/
theorem delayAfter_rung (starts : List Start) : ∃ k, delayAfter starts = rung k := by
  rw [delayAfter, ← rung_zero]
  exact foldl_exists_rung starts 0

/-- A start that fails at once, after so many of them since the first or since one that stayed up, is followed by a
    pause of that power of two, up to half a minute. -/
theorem pause_after {before streak : List Start} {s x : Start} (hs : before = [] ∨ s.Stable)
    (hstreak : ∀ y ∈ streak, ¬ y.Stable) (hx : ¬ x.Stable) :
    pause (delayAfter (before ++ s :: streak)) x = rung (streak.length + 1) := by
  have hfirst : nextDelay (delayAfter before) s = rung 1 := by
    by_cases hstable : s.Stable
    · exact nextDelay_of_stable hstable _
    · rw [hs.resolve_right hstable, delayAfter, List.foldl_nil, ← rung_zero]
      exact nextDelay_rung hstable 0
  rw [pause_of_not_stable hx, delayAfter, List.foldl_append, List.foldl_cons]
  show streak.foldl nextDelay (nextDelay (delayAfter before) s) = _
  rw [hfirst, foldl_rung 1 hstreak, Nat.add_comm]

/-! How often a loop is started. -/

/-- What a delay is worth: the pauses that were shorter than 18 s before it. -/
def potential (delay : Nat) : Nat :=
  if delay ≤ SECOND then 0
  else if delay ≤ 2 * SECOND then 17 * SECOND
  else if delay ≤ 4 * SECOND then 33 * SECOND
  else if delay ≤ 8 * SECOND then 47 * SECOND
  else if delay ≤ 16 * SECOND then 57 * SECOND
  else 59 * SECOND

theorem potential_le (delay : Nat) : potential delay ≤ 59 * SECOND := by
  unfold potential
  split_ifs <;> omega

theorem potential_values : potential SECOND = 0 ∧ potential (2 * SECOND) = 17 * SECOND ∧
    potential (4 * SECOND) = 33 * SECOND ∧ potential (8 * SECOND) = 47 * SECOND ∧
    potential (16 * SECOND) = 57 * SECOND ∧ potential (30 * SECOND) = 59 * SECOND := by
  have hpos := second_pos
  unfold potential
  refine ⟨?_, ?_, ?_, ?_, ?_, ?_⟩ <;> split_ifs <;> omega

/-- The delays by name. -/
theorem rung_cases : ∀ k : Nat, rung k = SECOND ∨ rung k = 2 * SECOND ∨ rung k = 4 * SECOND ∨ rung k = 8 * SECOND ∨
    rung k = 16 * SECOND ∨ rung k = 30 * SECOND
  | 0 => .inl rung_zero
  | k + 1 => by
    have ih := rung_cases k
    rw [← rung_succ]
    omega

/-- A start costs 18 s, paid in time or from the potential. -/
theorem start_pays (k : Nat) (s : Start) : 18 * SECOND + potential (rung k) ≤
    s.uptime + pause (rung k) s + potential (nextDelay (rung k) s) := by
  obtain ⟨h1, h2, h4, h8, h16, h30⟩ := potential_values
  by_cases h : s.Stable
  · have hup : 60 * SECOND < s.uptime := h
    have hle := potential_le (rung k)
    have hrung : rung 1 = 2 * SECOND := by
      rw [← rung_succ, rung_zero]
      omega
    rw [pause_of_stable h, nextDelay_of_stable h, hrung, h2]
    omega
  · rw [pause_of_not_stable h, nextDelay, pause_of_not_stable h]
    rcases rung_cases k with hk | hk | hk | hk | hk | hk <;> rw [hk]
    · rw [show min (SECOND * 2) (30 * SECOND) = 2 * SECOND by omega, h1, h2]
      omega
    · rw [show min (2 * SECOND * 2) (30 * SECOND) = 4 * SECOND by omega, h2, h4]
      omega
    · rw [show min (4 * SECOND * 2) (30 * SECOND) = 8 * SECOND by omega, h4, h8]
      omega
    · rw [show min (8 * SECOND * 2) (30 * SECOND) = 16 * SECOND by omega, h8, h16]
      omega
    · rw [show min (16 * SECOND * 2) (30 * SECOND) = 30 * SECOND by omega, h16, h30]
      omega
    · rw [show min (30 * SECOND * 2) (30 * SECOND) = 30 * SECOND by omega, h30]
      omega

theorem starts_pay : ∀ (starts : List Start) (k : Nat), 18 * SECOND * starts.length + potential (rung k) ≤
    elapsed (rung k) starts + 59 * SECOND
  | [], k => by
    have := potential_le (rung k)
    rw [List.length_nil, elapsed]
    omega
  | s :: starts, k => by
    obtain ⟨k', hk'⟩ := foldl_exists_rung [s] k
    have hnext : nextDelay (rung k) s = rung k' := hk'
    have hpays := start_pays k s
    have ih := starts_pay starts k'
    rw [hnext] at hpays
    rw [List.length_cons, Nat.mul_succ, elapsed, hnext]
    omega

theorem rung_bounds (k : Nat) : SECOND ≤ rung k ∧ rung k ≤ 30 * SECOND := by
  have hcases := rung_cases k
  omega

theorem pauses_bounds : ∀ (starts : List Start) (k : Nat), ∀ p ∈ pauses (rung k) starts, SECOND ≤ p ∧ p ≤ 30 * SECOND
  | [], _, p, hp => absurd hp List.not_mem_nil
  | s :: starts, k, p, hp => by
    obtain ⟨k', hk'⟩ := foldl_exists_rung [s] k
    have hnext : nextDelay (rung k) s = rung k' := hk'
    rw [pauses, hnext] at hp
    rcases List.mem_cons.mp hp with rfl | hp
    · by_cases h : s.Stable
      · rw [pause_of_stable h]
        omega
      · rw [pause_of_not_stable h]
        exact rung_bounds k
    · exact pauses_bounds starts k' p hp

/-- **A loop that fails is started again, and not too often.** Anywhere in any run: whatever becomes of the starts and
    however long they stay up, some starts in a row take at least 18 s each but for 59 s of all of them together, and
    no pause is shorter than a second or longer than half a minute. -/
theorem restarts_bounded (before starts : List Start) :
    18 * SECOND * starts.length ≤ elapsed (delayAfter before) starts + 59 * SECOND ∧
      ∀ p ∈ pauses (delayAfter before) starts, SECOND ≤ p ∧ p ≤ 30 * SECOND := by
  obtain ⟨k, hk⟩ := delayAfter_rung before
  rw [hk]
  have hpay := starts_pay starts k
  exact ⟨by omega, pauses_bounds starts k⟩

/-- Five starts that fail at once: the bound is met. -/
example : elapsed SECOND (List.replicate 5 ⟨0, 0⟩) + 59 * SECOND = 18 * SECOND * 5 := by decide

end Supervisor
end Ironbind
