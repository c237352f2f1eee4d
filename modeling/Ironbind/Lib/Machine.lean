import Ironbind.Lib.Codec

/- Machine arithmetic and reads that may fault. A step that leaves the range of its
   integers, or of a buffer, is a fault, and so is a loop that runs out of fuel.
   `SoundAt b p k g x` says that the guarded read `g`, at a position of a buffer, does
   not fault and does what the plain read `x` does, which stops at most `k` octets
   behind the buffer's end; `Sound j k g x` says so of every position up to `j` octets
   behind the end. A buffer has fewer than 2^63 octets, so there is room above it for
   the offsets of 16 bits that a format adds (`room`). `Agrees safe g x` says of steps
   without a buffer when the checked one goes through. -/
namespace Machine
open Codec

inductive Fault where
  | overflow
  | outOfBounds
  | diverges
  deriving DecidableEq, Repr

/-! Arithmetic. -/

/-- Addition of unsigned integers of so many bits. -/
def add (bits a b : Nat) : Except Fault Nat := if a + b < 2 ^ bits then .ok (a + b) else .error .overflow

def sub (a b : Nat) : Except Fault Nat := if b ≤ a then .ok (a - b) else .error .overflow

/-- `as i64` of an unsigned integer of 64 bits. -/
def asI64 (a : Nat) : Int := if a < 2 ^ 63 then a else a - 2 ^ 64

def subI64 (a b : Int) : Except Fault Int :=
  if -2 ^ 63 ≤ a - b ∧ a - b < 2 ^ 63 then .ok (a - b) else .error .overflow

def absI64 (a : Int) : Except Fault Int := if a = -2 ^ 63 then .error .overflow else .ok |a|

/-- `(a as i64 - b as i64).abs()`. -/
def distance (a b : Nat) : Except Fault Int := (subI64 (asI64 a) (asI64 b)).bind absI64

theorem add_ok {bits a b : Nat} (h : a + b < 2 ^ bits) : add bits a b = .ok (a + b) := if_pos h

theorem sub_ok {a b : Nat} (h : b ≤ a) : sub a b = .ok (a - b) := if_pos h

/-- The distance of two times that an i64 holds. -/
theorem distance_ok {a b : Nat} (ha : a < 2 ^ 63) (hb : b < 2 ^ 63) :
    distance a b = .ok |(a : Int) - b| := by
  have hsub : subI64 a b = .ok ((a : Int) - b) := if_pos (by omega)
  rw [distance, asI64, asI64, if_pos ha, if_pos hb, hsub]
  exact if_neg (by omega)

/-! Buffers. -/

def index (b : Bytes) (i : Nat) : Except Fault UInt8 :=
  match b[i]? with
  | some v => .ok v
  | none => .error .outOfBounds

/-- `b[i..j]`. -/
def slice (b : Bytes) (i j : Nat) : Except Fault Bytes :=
  if i ≤ j ∧ j ≤ b.length then .ok ((b.drop i).take (j - i)) else .error .outOfBounds

/-- `b[i..i + v.len()].copy_from_slice(v)`. -/
def patch (b : Bytes) (i : Nat) (v : Bytes) : Except Fault Bytes :=
  if i + v.length ≤ b.length then .ok (b.take i ++ v ++ b.drop (i + v.length)) else .error .outOfBounds

theorem index_ok {b : Bytes} {i : Nat} {v : UInt8} (h : b[i]? = some v) : index b i = .ok v := by
  rw [index, h]

theorem slice_ok {b : Bytes} {i j : Nat} (hij : i ≤ j) (hj : j ≤ b.length) : slice b i j = .ok ((b.drop i).take (j - i)) :=
  if_pos ⟨hij, hj⟩

theorem patch_ok {b : Bytes} {i : Nat} {v : Bytes} (h : i + v.length ≤ b.length) :
    patch b i v = .ok (b.take i ++ v ++ b.drop (i + v.length)) := if_pos h

/-! Checked steps. -/

/-- The checked step gives a value exactly when nothing it checks goes wrong and the plain step
    gives that value. -/
def Agrees {φ ε α : Type} (safe : Prop) (g : Except φ α) (x : Except ε α) : Prop := ∀ a, g = .ok a ↔ safe ∧ x = .ok a

namespace Agrees
variable {φ ε α β : Type} {P Q : Prop}

theorem ok (a : α) : Agrees True (.ok a : Except φ α) (.ok a : Except ε α) := by
  intro b
  simp

theorem congr {g : Except φ α} {x : Except ε α} (h : Agrees P g x) (hpq : P ↔ Q) : Agrees Q g x := by
  intro a
  rw [← hpq]
  exact h a

/-- What is checked matters only where the plain step succeeds. -/
theorem congr_ok {g : Except φ α} {x : Except ε α} (h : Agrees P g x) (hpq : ∀ a, x = .ok a → (P ↔ Q)) :
    Agrees Q g x := by
  intro a
  rw [h a]
  constructor
  · intro ha
    exact ⟨(hpq a ha.2).mp ha.1, ha.2⟩
  · intro ha
    exact ⟨(hpq a ha.2).mpr ha.1, ha.2⟩

theorem bind' {g : Except φ α} {x : Except ε α} {f : α → Except φ β} {k : α → Except ε β} {Q : α → Prop}
    (h : Agrees P g x) (h' : ∀ a, x = .ok a → Agrees (Q a) (f a) (k a)) :
    Agrees (P ∧ ∀ a, x = .ok a → Q a) (g >>= f) (x >>= k) := by
  intro b
  cases hx : x with
  | error e =>
    have hg : ∀ a, g ≠ .ok a := by
      intro a ha
      exact absurd (hx.symm.trans ((h a).mp ha).2) (by simp)
    cases hgv : g with
    | error e' => simp [bind, Except.bind]
    | ok a => exact absurd hgv (hg a)
  | ok a =>
    have hstep := h' a hx b
    have hcheck : (∀ c, Except.ok a = (.ok c : Except ε α) → Q c) ↔ Q a := by
      constructor
      · intro hq
        exact hq a rfl
      · intro hq c hc
        cases hc
        exact hq
    rw [hcheck]
    cases hgv : g with
    | error e' =>
      have hp : ¬ P := fun hp => absurd (hgv.symm.trans ((h a).mpr ⟨hp, hx⟩)) (by simp)
      simp [bind, Except.bind, hp]
    | ok a' =>
      obtain ⟨hp, ha⟩ := (h a').mp hgv
      obtain rfl : a = a' := Except.ok.inj (hx.symm.trans ha)
      simp only [bind, Except.bind, hp, true_and]
      exact hstep

theorem error {e : ε} {c : φ} : Agrees P (.error c : Except φ α) (.error e : Except ε α) := by
  intro a
  simp

theorem map' {g : Except φ α} {x : Except ε α} (h : Agrees P g x) (f : α → β) : Agrees P (g.map f) (x.map f) := by
  intro b
  constructor
  · intro hb
    cases hg : g with
    | error e => rw [hg] at hb; cases hb
    | ok a =>
      obtain ⟨hp, hx⟩ := (h a).mp hg
      rw [hg] at hb
      rw [hx]
      cases hb
      exact ⟨hp, rfl⟩
  · intro hb
    cases hx : x with
    | error e => rw [hx] at hb; cases hb.2
    | ok a =>
      rw [hx] at hb
      rw [(h a).mpr ⟨hb.1, hx⟩]
      cases hb.2
      rfl

/-- A plain step that cannot fail goes on with its value. -/
theorem bind_ok {g : Except φ α} {a : α} {f : α → Except φ β} {x : Except ε β} (h : Agrees P g (.ok a : Except ε α))
    (h' : Agrees Q (f a) x) : Agrees (P ∧ Q) (g >>= f) x := by
  have hbind : Agrees (P ∧ ∀ c, (.ok a : Except ε α) = .ok c → Q) (g >>= f) ((.ok a : Except ε α) >>= fun _ => x) := by
    apply h.bind'
    intro c hc
    cases hc
    exact h'
  exact hbind.congr (and_congr_right fun _ => ⟨fun hq => hq a rfl, fun hq _ _ => hq⟩)

end Agrees

/-! Guarded reads. -/

/-- A read from a buffer at a position that may fault besides failing. -/
def Read (ε α : Type) : Type := Bytes → Nat → Except Fault (Except ε α × Nat)

namespace Read
variable {ε α β : Type}

def pure (a : α) : Read ε α := fun _ p => .ok (.ok a, p)

def bind (x : Read ε α) (f : α → Read ε β) : Read ε β := fun b p =>
  match x b p with
  | .error fault => .error fault
  | .ok (.error e, p') => .ok (.error e, p')
  | .ok (.ok a, p') => f a b p'

instance : Monad (Read ε) where
  pure := Read.pure
  bind := Read.bind

/-- A step of arithmetic in a read. -/
def lift (v : Except Fault α) : Read ε α := fun _ p => v.map fun a => (.ok a, p)

def fail (e : ε) : Read ε α := fun _ p => .ok (.error e, p)
def buffer : Read ε Bytes := fun b p => .ok (.ok b, p)
def position : Read ε Nat := fun _ p => .ok (.ok p, p)

/-- `p.pos += n`. -/
def advance (n : Nat) : Read ε Unit := fun _ p => (add 64 p n).map fun p' => (.ok (), p')

def times : Nat → Read ε α → Read ε (List α)
  | 0, _ => Read.pure []
  | n + 1, x => Read.bind x fun a => Read.bind (times n x) fun l => Read.pure (a :: l)

theorem lift_bind {v : Except Fault α} {a : α} (h : v = .ok a) (f : α → Read ε β) : (lift v >>= f) = f a := by
  subst h
  rfl

end Read

/-- At the position the guarded read does what the plain one does. -/
structure SoundAt {ε α : Type} (b : Bytes) (p k : Nat) (g : Read ε α) (x : Reader ε α) : Prop where
  run : g b p = .ok (x b p)
  stop : ∀ a q, x b p = (.ok a, q) → q ≤ b.length + k

def Sound {ε α : Type} (j k : Nat) (g : Read ε α) (x : Reader ε α) : Prop :=
  ∀ b p, b.length < 2 ^ 63 → p ≤ b.length + j → SoundAt b p k g x

/-- Above a buffer there is room for two offsets of 16 bits. -/
theorem room {n p k : Nat} {b : Bytes} (hb : b.length < 2 ^ 63) (hp : p ≤ b.length + k) (hk : k ≤ 65535) (hn : n ≤ 65535) :
    p + n < 2 ^ 64 := by omega

namespace SoundAt
variable {ε α β : Type} {b : Bytes} {p k l : Nat}

theorem bind' {g : Read ε α} {x : Reader ε α} {g' : α → Read ε β} {x' : α → Reader ε β} (h : SoundAt b p k g x)
    (h' : ∀ a q, x b p = (.ok a, q) → SoundAt b q l (g' a) (x' a)) : SoundAt b p l (g >>= g') (x >>= x') := by
  cases hx : x b p with
  | mk r q =>
    have hg : g b p = .ok (r, q) := hx ▸ h.run
    cases r with
    | error e =>
      refine ⟨?_, fun a q' hq => ?_⟩
      · show Read.bind g g' b p = _
        rw [Reader.bind_error hx, Read.bind, hg]
      · rw [Reader.bind_error hx] at hq
        cases hq
    | ok a =>
      refine ⟨?_, fun v q' hq => ?_⟩
      · show Read.bind g g' b p = _
        rw [Reader.bind_ok hx, Read.bind, hg]
        exact (h' a q hx).run
      · rw [Reader.bind_ok hx] at hq
        exact (h' a q hx).stop v q' hq

theorem mono {g : Read ε α} {x : Reader ε α} (h : SoundAt b p k g x) (hk : k ≤ l) : SoundAt b p l g x :=
  ⟨h.run, fun a q hq => Nat.le_trans (h.stop a q hq) (Nat.add_le_add_left hk _)⟩

end SoundAt

namespace Sound
variable {ε α β : Type} {j k l : Nat}

theorem pure' (a : α) : Sound k k (pure a : Read ε α) (pure a) := fun _ _ _ hp =>
  ⟨rfl, fun _ _ hq => by cases hq; exact hp⟩

theorem fail (e : ε) : Sound j k (Read.fail e : Read ε α) (Reader.fail e) := fun _ _ _ _ =>
  ⟨rfl, fun _ _ hq => by cases hq⟩

theorem position : Sound k k (Read.position : Read ε Nat) Reader.position := fun _ _ _ hp =>
  ⟨rfl, fun _ _ hq => by cases hq; exact hp⟩

theorem bind' {g : Read ε α} {x : Reader ε α} {g' : α → Read ε β} {x' : α → Reader ε β} (h : Sound j k g x)
    (h' : ∀ a, Sound k l (g' a) (x' a)) : Sound j l (g >>= g') (x >>= x') := fun b p hb hp =>
  (h b p hb hp).bind' fun a q hq => h' a b q hb ((h b p hb hp).stop a q hq)

theorem mono {g : Read ε α} {x : Reader ε α} {j' k' : Nat} (h : Sound j k g x) (hj : j' ≤ j) (hk : k ≤ k') :
    Sound j' k' g x := fun b p hb hp => (h b p hb (Nat.le_trans hp (Nat.add_le_add_left hj _))).mono hk

theorem times {g : Read ε α} {x : Reader ε α} (h : Sound k k g x) : ∀ n, Sound k k (Read.times n g) (Reader.times n x)
  | 0 => pure' []
  | n + 1 => by
    show Sound k k (g >>= fun a => Read.times n g >>= fun l => pure (a :: l))
      (x >>= fun a => Reader.times n x >>= fun l => pure (a :: l))
    exact h.bind' fun _ => (times h n).bind' fun _ => pure' _

end Sound

end Machine
