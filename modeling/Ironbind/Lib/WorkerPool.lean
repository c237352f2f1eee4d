import Mathlib.Algebra.Order.Group.Multiset
import Mathlib.Data.List.ReduceOption
import Mathlib.Tactic.Abel

/- A queue of bounded length that workers serve. A job that finds no room is turned away;
   a free worker takes the oldest job and has it in hand until it ends. No operation loses
   a job or has it twice: the jobs that are pending are one more after `submit`, the same
   after `take` and one fewer after `finish`. Workers alone empty the pool: while a job is
   pending some worker can go on (`exists_ready`), and each of their operations takes one
   off the work that is left. -/
namespace WorkerPool
variable {ι : Type*}

structure Pool (ι : Type*) where
  capacity : Nat
  /-- The jobs that wait, the oldest first. -/
  queue : List ι
  /-- What each worker has in hand. -/
  hands : List (Option ι)
  room : queue.length ≤ capacity

namespace Pool

def empty (capacity workers : Nat) : Pool ι := ⟨capacity, [], List.replicate workers none, Nat.zero_le _⟩

variable (p : Pool ι)

def inHand : List ι := p.hands.reduceOption

/-- The jobs that have not ended. -/
def pending : Multiset ι := p.inHand + p.queue

/-- A job at the end of the queue, unless that is full. -/
def submit (job : ι) : Option (Pool ι) :=
  if h : p.queue.length < p.capacity then
    some { p with queue := p.queue ++ [job], room := by rw [List.length_append]; exact h }
  else none

/-- A free worker takes the oldest job. -/
def take (w : Nat) : Option (ι × Pool ι) :=
  match p.hands[w]?, p.queue.head? with
  | some none, some job =>
    some (job, { p with
      queue := p.queue.tail
      hands := p.hands.set w (some job)
      room := Nat.le_trans (by rw [List.length_tail]; exact Nat.sub_le _ _) p.room })
  | _, _ => none

/-- The job a worker has in hand ends. -/
def finish (w : Nat) : Option (ι × Pool ι) :=
  match p.hands[w]? with
  | some (some job) => some (job, { p with hands := p.hands.set w none })
  | _ => none

/-- The operations that workers have left: two for a job in the queue, one for a job in hand. -/
def work : Nat := 2 * p.queue.length + p.inHand.length

/-! The hands. -/

theorem reduceOption_set {hands : List (Option ι)} {w : Nat} {o : Option ι} (hw : hands[w]? = some o) (o' : Option ι) :
    (o.toList + (hands.set w o').reduceOption : Multiset ι) = o'.toList + hands.reduceOption := by
  obtain ⟨hlt, rfl⟩ := List.getElem?_eq_some_iff.mp hw
  have hcons (x : Option ι) : (hands.take w ++ x :: hands.drop (w + 1)).reduceOption =
      (hands.take w).reduceOption ++ (x.toList ++ (hands.drop (w + 1)).reduceOption) := by
    rw [List.reduceOption_append]
    cases x <;> rfl
  have hsplit := hcons hands[w]
  rw [List.getElem_cons_drop, List.take_append_drop] at hsplit
  rw [List.set_eq_take_append_cons_drop, if_pos hlt, hcons, hsplit]
  simp only [← Multiset.coe_add]
  abel

theorem length_inHand_le : p.inHand.length ≤ p.hands.length := List.reduceOption_length_le _

@[simp] theorem pending_empty (capacity workers : Nat) : (empty capacity workers : Pool ι).pending = 0 := by
  have hnone : (List.replicate workers (none : Option ι)).reduceOption = [] := List.reduceOption_replicate_none
  rw [pending, inHand, empty, hnone]
  rfl

/-! The operations. -/

section
variable {p} {p' : Pool ι} {job : ι} {w : Nat}

theorem submit_eq_some (h : p.submit job = some p') :
    p'.queue = p.queue ++ [job] ∧ p'.hands = p.hands ∧ p'.capacity = p.capacity := by
  unfold submit at h
  split at h
  · cases h
    exact ⟨rfl, rfl, rfl⟩
  · cases h

theorem take_eq_some (h : p.take w = some (job, p')) :
    p.hands[w]? = some none ∧ p.queue = job :: p'.queue ∧ p'.hands = p.hands.set w (some job) ∧
      p'.capacity = p.capacity := by
  unfold take at h
  split at h
  · next hw hq =>
    cases h
    exact ⟨hw, (List.cons_head?_tail hq).symm, rfl, rfl⟩
  · cases h

theorem finish_eq_some (h : p.finish w = some (job, p')) :
    p.hands[w]? = some (some job) ∧ p'.queue = p.queue ∧ p'.hands = p.hands.set w none ∧ p'.capacity = p.capacity := by
  unfold finish at h
  split at h
  · next hw =>
    cases h
    exact ⟨hw, rfl, rfl, rfl⟩
  · cases h

/-! What they do to the jobs that are pending. -/

theorem pending_submit (h : p.submit job = some p') : p'.pending = {job} + p.pending := by
  obtain ⟨hqueue, hhands, -⟩ := submit_eq_some h
  rw [pending, pending, inHand, inHand, hqueue, hhands, ← Multiset.coe_add, Multiset.coe_singleton]
  abel

theorem inHand_take (h : p.take w = some (job, p')) : (p'.inHand : Multiset ι) = {job} + p.inHand := by
  obtain ⟨hw, -, hhands, -⟩ := take_eq_some h
  have hset := reduceOption_set hw (some job)
  rw [inHand, inHand, hhands]
  simpa using hset

theorem pending_take (h : p.take w = some (job, p')) : p'.pending = p.pending := by
  rw [pending, pending, inHand_take h, (take_eq_some h).2.1, ← Multiset.cons_coe, ← Multiset.singleton_add]
  abel

theorem inHand_finish (h : p.finish w = some (job, p')) : (p.inHand : Multiset ι) = {job} + p'.inHand := by
  obtain ⟨hw, -, hhands, -⟩ := finish_eq_some h
  have hset := reduceOption_set hw none
  rw [inHand, inHand, hhands]
  simpa using hset.symm

theorem pending_finish (h : p.finish w = some (job, p')) : p.pending = {job} + p'.pending := by
  rw [pending, pending, inHand_finish h, (finish_eq_some h).2.1, add_assoc]

/-! The work that is left. -/

theorem work_submit (h : p.submit job = some p') : p'.work = p.work + 2 := by
  obtain ⟨hqueue, hhands, -⟩ := submit_eq_some h
  rw [work, work, inHand, inHand, hqueue, hhands, List.length_append, List.length_singleton]
  omega

theorem work_take (h : p.take w = some (job, p')) : p'.work + 1 = p.work := by
  have hlen := congrArg Multiset.card (inHand_take h)
  rw [Multiset.card_add, Multiset.coe_card, Multiset.coe_card, Multiset.card_singleton] at hlen
  rw [work, work, (take_eq_some h).2.1, List.length_cons]
  omega

theorem work_finish (h : p.finish w = some (job, p')) : p'.work + 1 = p.work := by
  have hlen := congrArg Multiset.card (inHand_finish h)
  rw [Multiset.card_add, Multiset.coe_card, Multiset.coe_card, Multiset.card_singleton] at hlen
  rw [work, work, (finish_eq_some h).2.1]
  omega

end

theorem work_le : p.work ≤ 2 * p.capacity + p.hands.length :=
  Nat.add_le_add (Nat.mul_le_mul_left 2 p.room) p.length_inHand_le

theorem card_pending_le : Multiset.card p.pending ≤ p.capacity + p.hands.length := by
  rw [pending, Multiset.card_add, Multiset.coe_card, Multiset.coe_card, Nat.add_comm]
  exact Nat.add_le_add p.room p.length_inHand_le

/-- A worker that has a job can end it, and one that has none can take the next. -/
theorem exists_ready (hworkers : p.hands ≠ []) (hpending : p.pending ≠ 0) :
    ∃ w, (p.take w).isSome ∨ (p.finish w).isSome := by
  by_cases hbusy : ∃ (w : Nat) (job : ι), p.hands[w]? = some (some job)
  · obtain ⟨w, job, hw⟩ := hbusy
    refine ⟨w, .inr ?_⟩
    rw [finish, hw]
    rfl
  · have hfree : ∀ o ∈ p.hands, o = none := by
      intro o ho
      obtain ⟨w, hw⟩ := List.mem_iff_getElem?.mp ho
      cases o with
      | none => rfl
      | some job => exact absurd ⟨w, job, hw⟩ hbusy
    have hhand : p.inHand = [] := by
      rw [inHand, List.eq_replicate_iff.mpr ⟨rfl, hfree⟩]
      exact List.reduceOption_replicate_none
    obtain ⟨o, hands, hcons⟩ := List.exists_cons_of_ne_nil hworkers
    have hfirst : p.hands[0]? = some none := by
      rw [hcons, List.getElem?_cons_zero, hfree o (by rw [hcons]; exact List.mem_cons_self)]
    cases hqueue : p.queue with
    | nil =>
      rw [pending, hhand, hqueue] at hpending
      exact absurd rfl hpending
    | cons job queue =>
      have hhead : p.queue.head? = some job := by rw [hqueue, List.head?_cons]
      refine ⟨0, .inl ?_⟩
      simp only [take, hfirst, hhead, Option.isSome_some]

end Pool

end WorkerPool
