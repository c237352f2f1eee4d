import Ironbind.Lib.Codec

/- Readings that depend on where they stand. `Decodes` says that an item is read
   the same in every buffer; an item that points back into the buffer is not.
   `ReadsAs x e f` says that `x`, started on the octets `e`, stops right behind them
   and gives `f` of the buffer and the position. The rules follow those of
   `Decodes`; a list is read item by item, each at the place it has behind those
   in front of it (`placed`). -/
namespace Codec

/-- Where each item of a list starts when they are written one behind the other. -/
def placed {α : Type} (enc : α → Bytes) : Nat → List α → List (Nat × α)
  | _, [] => []
  | pos, a :: l => (pos, a) :: placed enc (pos + (enc a).length) l

section
variable {α : Type} {enc : α → Bytes}

theorem placed_append (pos : Nat) (l l' : List α) :
    placed enc pos (l ++ l') = placed enc pos l ++ placed enc (pos + (l.flatMap enc).length) l' := by
  induction l generalizing pos with
  | nil => rfl
  | cons a l ih =>
    rw [List.cons_append, placed, placed, ih, List.cons_append, List.flatMap_cons, List.length_append, Nat.add_assoc]

theorem map_placed_snd {β : Type} (f : α → β) (pos : Nat) (l : List α) :
    (placed enc pos l).map (fun x => f x.2) = l.map f := by
  induction l generalizing pos with
  | nil => rfl
  | cons a l ih => rw [placed, List.map_cons, ih, List.map_cons]

@[simp] theorem placed_snd (pos : Nat) (l : List α) : (placed enc pos l).map Prod.snd = l :=
  (map_placed_snd id pos l).trans (List.map_id l)

theorem mem_of_mem_placed {pos : Nat} {l : List α} {x : Nat × α} (h : x ∈ placed enc pos l) : x.2 ∈ l := by
  rw [← @placed_snd α enc pos l]
  exact List.mem_map_of_mem h

/-- An item of the list stands in the octets at its place. -/
theorem exists_of_mem_placed (pre post : Bytes) {l : List α} {x : Nat × α} (h : x ∈ placed enc pre.length l) :
    ∃ front back, pre ++ (l.flatMap enc ++ post) = front ++ (enc x.2 ++ back) ∧ front.length = x.1 := by
  induction l generalizing pre with
  | nil => cases h
  | cons a l ih =>
    rw [List.flatMap_cons, List.append_assoc]
    rcases List.mem_cons.mp h with rfl | h
    · exact ⟨pre, _, rfl, rfl⟩
    · rw [← List.append_assoc pre]
      exact ih (pre ++ enc a) (by rwa [List.length_append])

/-- A map of the placed items gives the items back when it does so on each. -/
theorem map_placed_eq_iff {f : Nat × α → α} {pos : Nat} {l : List α} :
    (placed enc pos l).map f = l ↔ ∀ x ∈ placed enc pos l, f x = x.2 := by
  rw [← List.map_inj_left, placed_snd]

end

/-- Wherever the octets `e` stand, `x` stops behind them, with a value that the buffer and the position decide. -/
def ReadsAs {ε α : Type} (x : Reader ε α) (e : Bytes) (f : Bytes → Nat → α) : Prop :=
  ∀ pre post : Bytes, x (pre ++ (e ++ post)) pre.length =
    (.ok (f (pre ++ (e ++ post)) pre.length), pre.length + e.length)

theorem Decodes.readsAs {ε α : Type} {x : Reader ε α} {e : Bytes} {a : α} (h : Decodes x e a) :
    ReadsAs x e fun _ _ => a := h

/-- Behind a part that is read the same everywhere, the rest is read at its place. -/
theorem Decodes.bindReadsAs {ε α β : Type} {x : Reader ε α} {g : α → Reader ε β} {e e' : Bytes} {a : α}
    {f : Bytes → Nat → β} (hx : Decodes x e a) (hg : ReadsAs (g a) e' f) :
    ReadsAs (x >>= g) (e ++ e') fun b p => f b (p + e.length) := by
  intro pre post
  have hrest := hg (pre ++ e) post
  rw [List.append_assoc e e' post, hx.step g pre (e' ++ post), hrest]
  simp only [List.append_assoc, List.length_append, Nat.add_assoc]

namespace ReadsAs
variable {ε α β : Type}

theorem bind' {x : Reader ε α} {g : α → Reader ε β} {e e' : Bytes} {f : Bytes → Nat → α} {f' : α → Bytes → Nat → β}
    (hx : ReadsAs x e f) (hg : ∀ a, ReadsAs (g a) e' (f' a)) :
    ReadsAs (x >>= g) (e ++ e') fun b p => f' (f b p) b (p + e.length) := by
  intro pre post
  have hfirst := hx pre (e' ++ post)
  have hsecond := hg (f (pre ++ (e ++ (e' ++ post))) pre.length) (pre ++ e) post
  rw [List.append_assoc, List.length_append] at hsecond
  rw [List.append_assoc e e' post, Reader.bind_ok hfirst, hsecond, List.length_append, Nat.add_assoc]

/-- The last part of a sequence only rearranges what was read. -/
theorem map' {x : Reader ε α} {e : Bytes} {f : Bytes → Nat → α} (hx : ReadsAs x e f) (g : α → β) :
    ReadsAs (x >>= fun a => Pure.pure (g a)) e fun b p => g (f b p) := by
  intro pre post
  rw [Reader.bind_ok (hx pre post)]
  rfl

/-- Repetition reads each item at its place. -/
theorem times {x : Reader ε α} {γ : Type} (enc : γ → Bytes) (f : γ → Bytes → Nat → α) (l : List γ)
    (h : ∀ c ∈ l, ReadsAs x (enc c) (f c)) :
    ReadsAs (Reader.times l.length x) (l.flatMap enc) fun b p => (placed enc p l).map fun y => f y.2 b y.1 := by
  induction l with
  | nil => exact fun _ _ => rfl
  | cons c l ih =>
    have htail := ih fun c' h' => h c' (List.mem_cons_of_mem c h')
    exact (h c List.mem_cons_self).bind' (g := fun a => Reader.times l.length x >>= fun as => Pure.pure (a :: as))
      fun a => htail.map' fun as => a :: as

end ReadsAs

end Codec
