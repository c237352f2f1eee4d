import Ironbind.RateLimit

/- The cap on all sources (`check_global`), step by step. A call that has computed its
   window swaps it in, resets the count if another window was there, and adds itself to
   the count: three atomic operations, with those of other calls between them. `Capped`
   is what holds as long as no old window is swapped in and a call is counted in its own
   window, after its resets (`window_cap_le`); a call that is late for its window gives
   the next ones a second count (`lateWindow_exceeds`). -/
namespace Ironbind

/-! The atomic operations. -/

/-- The next operation of a call. -/
inductive CapPhase where
  | swap | reset | add
  deriving DecidableEq, Repr

structure GlobalCall where
  window : UInt64
  phase : CapPhase
  deriving DecidableEq, Repr

/-- A decision, with the window the call had computed, if it computed one. -/
structure GlobalDecision where
  window : Option UInt64
  admitted : Bool
  deriving DecidableEq, Repr

structure Capping where
  clock : Nat
  globalWindow : UInt64
  globalCount : UInt64
  calls : List GlobalCall
  decided : List GlobalDecision

/-- Time passes; a call begins; a call makes its next operation. -/
inductive CapStep where
  | tick (nanos : Nat)
  | call
  | next (i : Nat)

namespace Capping

def start (now : Nat) : Capping := ⟨now, 0, 0, [], []⟩

section
variable (l : RateLimiter)

/-- `started.elapsed().as_secs()`. -/
def window (now : Nat) : UInt64 := UInt64.ofNat ((now - l.started) / nanosPerSec)

/-- The next operation of a call: the last one decides about it. -/
def advance (st : Capping) (i : Nat) (call : GlobalCall) : Capping :=
  match call.phase with
  | .swap =>
    { st with
      globalWindow := call.window
      calls := st.calls.set i ⟨call.window, if st.globalWindow ≠ call.window then .reset else .add⟩ }
  | .reset => { st with globalCount := 0, calls := st.calls.set i ⟨call.window, .add⟩ }
  | .add =>
    { st with
      globalCount := st.globalCount + 1
      calls := st.calls.eraseIdx i
      decided := ⟨some call.window, st.globalCount < l.globalLimit⟩ :: st.decided }

/-- Without a limit nothing is counted. -/
def step (st : Capping) : CapStep → Capping
  | .tick nanos => { st with clock := st.clock + nanos }
  | .call =>
    if l.globalLimit = 0 then { st with decided := ⟨none, true⟩ :: st.decided }
    else { st with calls := st.calls ++ [⟨window l st.clock, .swap⟩] }
  | .next i =>
    match st.calls[i]? with
    | none => st
    | some call => advance l st i call

def run (st : Capping) (steps : List CapStep) : Capping := steps.foldl (step l) st

end

/-- The calls that had computed a window and were admitted. -/
def admittedIn (st : Capping) (w : UInt64) : Nat := st.decided.countP fun d => d.window = some w ∧ d.admitted

/-! What keeps the cap. -/

def Resetting (st : Capping) : Prop := ∃ call ∈ st.calls, call.phase = .reset

/-- A window is not swapped in after a later one. A call is counted in its own window, with no reset to come, and below
    the largest count. -/
def Orderly (st : Capping) : CapStep → Prop
  | .next i =>
    match st.calls[i]? with
    | some ⟨w, .swap⟩ => st.globalWindow ≤ w
    | some ⟨w, .add⟩ => st.globalWindow = w ∧ ¬ Resetting st ∧ st.globalCount.toNat + 1 < UInt64.size
    | _ => True
  | _ => True

/-- No window has more admissions than the limit, and the windows to come have none. The current one has no more than are
    counted, and none while a reset is to come. -/
structure Capped (l : RateLimiter) (st : Capping) : Prop where
  limit : ∀ w, st.admittedIn w ≤ l.globalLimit.toNat
  ahead : ∀ w, st.globalWindow < w → st.admittedIn w = 0
  resetting : Resetting st → st.admittedIn st.globalWindow = 0
  counted : ¬ Resetting st → st.admittedIn st.globalWindow ≤ st.globalCount.toNat

section
variable {l : RateLimiter} {st : Capping} {i : Nat} {call : GlobalCall}

theorem resetting_set {phase : CapPhase} (hcall : st.calls[i]? = some call) (hphase : call.phase ≠ .reset)
    (hnext : phase ≠ .reset) (window count : UInt64) :
    Resetting { st with globalWindow := window, globalCount := count, calls := st.calls.set i ⟨call.window, phase⟩ } ↔
      Resetting st := by
  constructor
  · rintro ⟨other, hother, hreset⟩
    rcases List.mem_or_eq_of_mem_set hother with hother | rfl
    · exact ⟨other, hother, hreset⟩
    · exact absurd hreset hnext
  · rintro ⟨other, hother, hreset⟩
    obtain ⟨j, hj⟩ := List.mem_iff_getElem?.mp hother
    have hne : i ≠ j := by
      rintro rfl
      obtain rfl := Option.some.inj (hcall.symm.trans hj)
      exact hphase hreset
    exact ⟨other, List.mem_iff_getElem?.mpr ⟨j, by rw [List.getElem?_set_ne hne]; exact hj⟩, hreset⟩

/-- A call that has read its window for itself swaps it in. -/
theorem swap_capped (hcapped : Capped l st) (hcall : st.calls[i]? = some call) (hphase : call.phase = .swap)
    (horder : st.globalWindow ≤ call.window) : Capped l (advance l st i call) := by
  have hadvance : advance l st i call =
      { st with
        globalWindow := call.window
        calls := st.calls.set i ⟨call.window, if st.globalWindow ≠ call.window then .reset else .add⟩ } := by
    rw [advance, hphase]
  rw [hadvance]
  by_cases hsame : st.globalWindow = call.window
  · rw [if_neg (not_not.mpr hsame), ← hsame]
    have hnext : CapPhase.add ≠ .reset := by decide
    have hreset := resetting_set hcall (by rw [hphase]; decide) hnext st.globalWindow st.globalCount
    rw [← hsame] at hreset
    exact ⟨hcapped.limit, hcapped.ahead, fun h => hcapped.resetting (hreset.mp h),
      fun h => hcapped.counted (mt hreset.mpr h)⟩
  · have hlater : st.globalWindow < call.window := UInt64.lt_of_le_of_ne horder hsame
    have hnone := hcapped.ahead call.window hlater
    exact ⟨hcapped.limit, fun w hw => hcapped.ahead w (UInt64.lt_trans hlater hw), fun _ => hnone,
      fun _ => hnone.le.trans (Nat.zero_le _)⟩

theorem reset_capped (hcapped : Capped l st) (hcall : st.calls[i]? = some call) (hphase : call.phase = .reset) :
    Capped l (advance l st i call) := by
  have hadvance : advance l st i call =
      { st with globalCount := 0, calls := st.calls.set i ⟨call.window, .add⟩ } := by
    rw [advance, hphase]
  have hnone : st.admittedIn st.globalWindow = 0 :=
    hcapped.resetting ⟨call, List.mem_of_getElem? hcall, hphase⟩
  rw [hadvance]
  exact ⟨hcapped.limit, hcapped.ahead, fun _ => hnone, fun _ => hnone.le⟩

theorem add_capped (hcapped : Capped l st) (hphase : call.phase = .add) (hwindow : st.globalWindow = call.window)
    (hreset : ¬ Resetting st) (hcount : st.globalCount.toNat + 1 < UInt64.size) : Capped l (advance l st i call) := by
  have hadvance : advance l st i call =
      { st with
        globalCount := st.globalCount + 1
        calls := st.calls.eraseIdx i
        decided := ⟨some call.window, st.globalCount < l.globalLimit⟩ :: st.decided } := by
    rw [advance, hphase]
  have hadmitted : ∀ w, (advance l st i call).admittedIn w = st.admittedIn w +
      if w = call.window ∧ st.globalCount < l.globalLimit then 1 else 0 := by
    intro w
    rw [hadvance]
    simp only [admittedIn, List.countP_cons, Option.some.injEq, decide_eq_true_eq, @eq_comm _ call.window]
  have hcounted := hcapped.counted hreset
  have hnext : (st.globalCount + 1).toNat = st.globalCount.toNat + 1 := by
    rw [UInt64.toNat_add]
    exact Nat.mod_eq_of_lt hcount
  have hgone : ¬ Resetting (advance l st i call) := by
    rw [hadvance]
    rintro ⟨other, hother, hphase⟩
    exact hreset ⟨other, List.mem_of_mem_eraseIdx hother, hphase⟩
  refine ⟨fun w => ?_, fun w hw => ?_, fun h => absurd h hgone, fun _ => ?_⟩
  · rw [hadmitted]
    split
    · next hthis =>
      have hless := UInt64.lt_iff_toNat_lt.mp hthis.2
      rw [hthis.1, ← hwindow]
      omega
    · exact hcapped.limit w
  · have hw : st.globalWindow < w := by rwa [hadvance] at hw
    rw [hadmitted, hcapped.ahead w hw, if_neg]
    rintro ⟨rfl, -⟩
    exact UInt64.lt_irrefl _ (hwindow ▸ hw)
  · have hkept : (advance l st i call).globalWindow = st.globalWindow ∧
        (advance l st i call).globalCount = st.globalCount + 1 := by
      rw [hadvance]
      exact ⟨rfl, rfl⟩
    rw [hadmitted, hkept.1, hkept.2, hnext]
    split <;> omega

/-- **One step** keeps the cap, if it is orderly. -/
theorem step_capped {s : CapStep} (hcapped : Capped l st) (horder : Orderly st s) : Capped l (st.step l s) := by
  cases s with
  | tick nanos => exact ⟨hcapped.limit, hcapped.ahead, hcapped.resetting, hcapped.counted⟩
  | call =>
    rw [step]
    split
    · have hsame : ∀ w, admittedIn { st with decided := ⟨none, true⟩ :: st.decided } w = st.admittedIn w := fun w => by
        simp [admittedIn]
      exact ⟨fun w => (hsame w).le.trans (hcapped.limit w), fun w hw => (hsame w).trans (hcapped.ahead w hw),
        fun hreset => (hsame _).trans (hcapped.resetting hreset), fun hno => (hsame _).le.trans (hcapped.counted hno)⟩
    · have hsame : Resetting { st with calls := st.calls ++ [⟨window l st.clock, .swap⟩] } ↔ Resetting st := by
        simp [Resetting]
      exact ⟨hcapped.limit, hcapped.ahead, fun hreset => hcapped.resetting (hsame.mp hreset),
        fun hno => hcapped.counted (mt hsame.mpr hno)⟩
  | next i =>
    cases hcall : st.calls[i]? with
    | none =>
      have hsame : st.step l (.next i) = st := by simp only [step, hcall]
      rwa [hsame]
    | some call =>
      have hstep : st.step l (.next i) = advance l st i call := by simp only [step, hcall]
      rw [Orderly, hcall] at horder
      rw [hstep]
      match call, hcall, horder with
      | ⟨w, .swap⟩, hcall, horder => exact swap_capped hcapped hcall rfl horder
      | ⟨w, .reset⟩, hcall, _ => exact reset_capped hcapped hcall rfl
      | ⟨w, .add⟩, _, ⟨hwindow, hreset, hcount⟩ => exact add_capped hcapped rfl hwindow hreset hcount

end

/-- **The global cap.** In every interleaving of the operations of concurrent calls in which each is orderly, at most
    `global_limit` of the calls that computed one window are admitted. -/
theorem window_cap_le (l : RateLimiter) (now : Nat) (steps : List CapStep)
    (horder : ∀ before s after, steps = before ++ s :: after → Orderly ((start now).run l before) s) (w : UInt64) :
    ((start now).run l steps).admittedIn w ≤ l.globalLimit.toNat := by
  have hstart : Capped l (start now) :=
    ⟨fun _ => Nat.zero_le _, fun _ _ => rfl, fun _ => rfl, fun _ => Nat.zero_le _⟩
  exact (Run.foldl_prefix (f := step l) (P := Capped l) hstart
    (fun before s after heq hcapped => step_capped hcapped (horder before s after heq)) steps List.prefix_rfl).limit w

/-! One query a second. -/

def oneCap : RateLimiter := .new 0 1 1000 0

instance (st : Capping) : Decidable (Resetting st) := inferInstanceAs (Decidable (∃ call ∈ st.calls, call.phase = .reset))

theorem orderly_next_iff {st : Capping} {i : Nat} : Orderly st (.next i) ↔ ∀ call ∈ st.calls[i]?,
    (call.phase = .swap → st.globalWindow ≤ call.window) ∧
      (call.phase = .add → st.globalWindow = call.window ∧ ¬ Resetting st ∧ st.globalCount.toNat + 1 < UInt64.size) := by
  rcases hcall : st.calls[i]? with _ | ⟨w, _ | _ | _⟩ <;> simp [Orderly, hcall]

instance (st : Capping) : ∀ s, Decidable (Orderly st s)
  | .next _ => decidable_of_iff' _ orderly_next_iff
  | .tick _ => .isTrue trivial
  | .call => .isTrue trivial

/-- Two calls of the first second, of which the later one is counted first, and two of the next: the one that does not
    find its window resets the count before the other adds to it. -/
def turnsCap : List CapStep :=
  [.call, .call, .next 0, .next 1, .next 1, .next 0, .tick nanosPerSec, .call, .call, .next 0, .next 1, .next 0,
    .next 1, .next 0]

theorem window_cap_le_turns : ((start 0).run oneCap turnsCap).admittedIn 0 ≤ oneCap.globalLimit.toNat ∧
    ((start 0).run oneCap turnsCap).admittedIn 1 ≤ oneCap.globalLimit.toNat := by
  have horder :=
    Run.forall_split (l := turnsCap) (P := fun before s => Orderly ((start 0).run oneCap before) s) (by decide)
  exact ⟨window_cap_le oneCap 0 turnsCap horder 0, window_cap_le oneCap 0 turnsCap horder 1⟩

example : ((start 0).run oneCap turnsCap).decided =
    [⟨some 1, false⟩, ⟨some 1, true⟩, ⟨some 0, false⟩, ⟨some 0, true⟩] := by decide

/-- The first call computes its window and waits. In the next second a call is admitted; then the first one swaps its old
    window in, and a third call finds a window that is not its own, and resets the count. -/
def lateCap : List CapStep :=
  [.call, .tick nanosPerSec, .call, .next 1, .next 1, .next 1, .next 0, .call, .next 1, .next 1, .next 1]

/-- Two calls of one window are admitted. -/
theorem lateWindow_exceeds : ¬ ((start 0).run oneCap lateCap).admittedIn 1 ≤ oneCap.globalLimit.toNat := by
  decide

end Capping

end Ironbind
