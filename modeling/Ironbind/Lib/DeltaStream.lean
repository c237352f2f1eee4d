import Ironbind.Lib.Delta

/- Differences in one flat stream of records. Some records are marks, those that stand for
   a version, and what a difference takes out and puts in are none. So a difference needs
   no brackets: it is the mark of the version it starts at, what it takes out, the mark of
   the version it ends at, and what it puts in, and the next one follows. A reader who
   knows the marks gets the differences back, when one more mark ends the stream
   (`differences_flatten`). -/
namespace DeltaStream

variable {ρ α : Type}

/-- From one version to another, each with its mark. -/
structure Difference (ρ : Type) where
  before : ρ
  removed : List ρ
  after : ρ
  added : List ρ

namespace Difference

def records (d : Difference ρ) : List ρ := d.before :: d.removed ++ d.after :: d.added

/-- Only the records of the versions are marks. -/
structure Marked (mark : ρ → Bool) (d : Difference ρ) : Prop where
  before : mark d.before = true
  after : mark d.after = true
  removed : ∀ r ∈ d.removed, mark r = false
  added : ∀ r ∈ d.added, mark r = false

/-- What a difference does to a set of what the records say. -/
def patch (say : ρ → α) (d : Difference ρ) : Delta.Patch α where
  removed := {x | x ∈ (d.before :: d.removed).map say}
  added := {x | x ∈ (d.after :: d.added).map say}

end Difference

def flatten (ds : List (Difference ρ)) : List ρ := ds.flatMap Difference.records

section
variable (mark : ρ → Bool)

/-- What stands in front of the first mark, and each mark with what stands between it and the next. -/
def sections : List ρ → List ρ × List (ρ × List ρ)
  | [] => ([], [])
  | r :: rs =>
    if mark r then ([], (r, (sections rs).1) :: (sections rs).2) else (r :: (sections rs).1, (sections rs).2)

/-- Sections two by two; one that is left over ends the stream. -/
def pairUp : List (ρ × List ρ) → List (Difference ρ)
  | (before, removed) :: (after, added) :: rest => ⟨before, removed, after, added⟩ :: pairUp rest
  | _ => []

def differences (rs : List ρ) : List (Difference ρ) := pairUp (sections mark rs).2

variable {mark}

theorem sections_mark {r : ρ} (h : mark r = true) (rs : List ρ) :
    sections mark (r :: rs) = ([], (r, (sections mark rs).1) :: (sections mark rs).2) := by
  rw [sections, if_pos h]

theorem sections_plain : ∀ {l : List ρ}, (∀ r ∈ l, mark r = false) → ∀ rs : List ρ,
    sections mark (l ++ rs) = (l ++ (sections mark rs).1, (sections mark rs).2)
  | [], _, _ => rfl
  | r :: l, h, rs => by
    have hr : ¬ mark r = true := by
      rw [h r List.mem_cons_self]
      exact Bool.false_ne_true
    rw [List.cons_append, sections, if_neg hr, sections_plain (fun r hr => h r (List.mem_cons_of_mem _ hr)) rs]
    rfl

/-- A difference is two sections, if a mark follows. -/
theorem sections_records {d : Difference ρ} (hd : d.Marked mark) {rs : List ρ} (h : (sections mark rs).1 = []) :
    sections mark (d.records ++ rs) = ([], (d.before, d.removed) :: (d.after, d.added) :: (sections mark rs).2) := by
  rw [Difference.records, List.append_assoc, List.cons_append, List.cons_append, sections_mark hd.before,
    sections_plain hd.removed, sections_mark hd.after, sections_plain hd.added, h, List.append_nil, List.append_nil]

theorem sections_flatten {last : ρ} (hlast : mark last = true) : ∀ {ds : List (Difference ρ)}, (∀ d ∈ ds, d.Marked mark) →
    sections mark (flatten ds ++ [last]) =
      ([], ds.flatMap (fun d => [(d.before, d.removed), (d.after, d.added)]) ++ [(last, [])])
  | [], _ => sections_mark hlast []
  | d :: ds, h => by
    have ih := sections_flatten hlast fun d hd => h d (List.mem_cons_of_mem _ hd)
    have hfront : (sections mark (flatten ds ++ [last])).1 = [] := congrArg Prod.fst ih
    rw [flatten, List.flatMap_cons, List.append_assoc]
    exact (sections_records (h d List.mem_cons_self) hfront).trans (by rw [ih]; rfl)

theorem pairUp_flatMap (last : ρ) : ∀ ds : List (Difference ρ),
    pairUp (ds.flatMap (fun d => [(d.before, d.removed), (d.after, d.added)]) ++ [(last, [])]) = ds
  | [] => rfl
  | d :: ds => by
    rw [List.flatMap_cons]
    exact congrArg (d :: ·) (pairUp_flatMap last ds)

/-- **The differences are read back** from a stream that one more mark ends. -/
theorem differences_flatten {ds : List (Difference ρ)} (h : ∀ d ∈ ds, d.Marked mark) {last : ρ}
    (hlast : mark last = true) :
    differences mark (flatten ds ++ [last]) = ds := by
  rw [differences, sections_flatten hlast h]
  exact pairUp_flatMap last ds

end

end DeltaStream
