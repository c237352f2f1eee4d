import Mathlib

/- Reading values out of a byte buffer by position. A `Reader` is handed the
   whole buffer and a position, and gives back an error or a value, together
   with the position it stopped at; the position is kept on failure too, so a
   caller may go on after a failed read. `Decodes x e a` says that wherever the
   octets `e` stand in a buffer, `x` started on the first of them returns `a`
   and stops right behind the last: nothing before them or after them matters.
   The rules below carry it along `bind`, `map` and repetition, so a record
   format is decoded field by field and never by index arithmetic. -/
namespace Codec

abbrev Bytes := List UInt8

/-- Octets in their numeric order, so that octet strings are ordered left-justified. -/
instance instLinearOrderOctet : LinearOrder UInt8 where
  le_refl _ := UInt8.le_refl _
  le_trans _ _ _ := UInt8.le_trans
  le_antisymm _ _ := UInt8.le_antisymm
  le_total := UInt8.le_total
  lt_iff_le_not_ge a b := by rw [UInt8.le_iff_toNat_le, UInt8.le_iff_toNat_le, UInt8.lt_iff_toNat_lt]; omega
  toDecidableLE := inferInstance

theorem cons_le_cons_iff {a b : UInt8} {l l' : Bytes} : a :: l ≤ b :: l' ↔ a < b ∨ a = b ∧ l ≤ l' := by
  rw [← not_lt, ← not_lt, List.cons_lt_cons_iff]
  rcases lt_trichotomy a b with h | rfl | h
  · simp [h, not_lt_of_gt h, ne_of_gt h]
  · simp
  · simp [h, not_lt_of_gt h, ne_of_gt h]

theorem append_le_append_iff (p : Bytes) {a b : Bytes} : p ++ a ≤ p ++ b ↔ a ≤ b := by
  induction p with
  | nil => rfl
  | cons x p ih =>
    rw [List.cons_append, List.cons_append, cons_le_cons_iff, ih]
    simp

/-- A read from a buffer at a position. -/
def Reader (ε α : Type) : Type := Bytes → Nat → Except ε α × Nat

namespace Reader
variable {ε α β : Type}

def pure (a : α) : Reader ε α := fun _ p => (.ok a, p)

/-- Sequencing: a failed read ends the whole read where it stopped. -/
def bind (x : Reader ε α) (f : α → Reader ε β) : Reader ε β := fun b p =>
  match x b p with
  | (.error e, p') => (.error e, p')
  | (.ok a, p') => f a b p'

instance : Monad (Reader ε) where
  pure := Reader.pure
  bind := Reader.bind

def fail (e : ε) : Reader ε α := fun _ p => (.error e, p)
/-- The whole buffer. -/
def buffer : Reader ε Bytes := fun b p => (.ok b, p)
/-- The current position. -/
def position : Reader ε Nat := fun _ p => (.ok p, p)

/-- `n` reads in a row. -/
def times : Nat → Reader ε α → Reader ε (List α)
  | 0, _ => Reader.pure []
  | n + 1, x => Reader.bind x fun a => Reader.bind (times n x) fun l => Reader.pure (a :: l)

/-- The value read from the start of a buffer. -/
def run (x : Reader ε α) (b : Bytes) : Except ε α := (x b 0).1

theorem pure_run (a : α) (b : Bytes) (p : Nat) : (Pure.pure a : Reader ε α) b p = (.ok a, p) := rfl

theorem bind_ok {x : Reader ε α} {f : α → Reader ε β} {b : Bytes} {p p' : Nat} {a : α}
    (h : x b p = (.ok a, p')) : (x >>= f) b p = f a b p' := by
  show Reader.bind x f b p = _
  simp only [Reader.bind, h]

theorem bind_error {x : Reader ε α} {f : α → Reader ε β} {b : Bytes} {p p' : Nat} {e : ε}
    (h : x b p = (.error e, p')) : (x >>= f) b p = (.error e, p') := by
  show Reader.bind x f b p = _
  simp only [Reader.bind, h]

/-- A sequence that succeeds succeeded in both parts. -/
theorem bind_eq_ok {x : Reader ε α} {f : α → Reader ε β} {b : Bytes} {p q : Nat} {v : β}
    (h : (x >>= f) b p = (.ok v, q)) : ∃ a p', x b p = (.ok a, p') ∧ f a b p' = (.ok v, q) := by
  change Reader.bind x f b p = _ at h
  unfold Reader.bind at h
  split at h
  · simp at h
  · next a p' hx => exact ⟨a, p', hx, h⟩

/-- A sequence that fails failed in its first part, or in the second. -/
theorem bind_eq_error {x : Reader ε α} {f : α → Reader ε β} {b : Bytes} {p q : Nat} {e : ε}
    (h : (x >>= f) b p = (.error e, q)) :
    x b p = (.error e, q) ∨ ∃ a p', x b p = (.ok a, p') ∧ f a b p' = (.error e, q) := by
  cases hx : x b p with
  | mk result p' =>
    cases result with
    | error e' =>
      rw [bind_error hx] at h
      cases h
      exact .inl rfl
    | ok a =>
      rw [bind_ok hx] at h
      exact .inr ⟨a, p', rfl, h⟩

/-- Every item of a repeated read was read somewhere. -/
theorem times_ok {x : Reader ε α} {b : Bytes} : ∀ {n p q : Nat} {l : List α}, times n x b p = (.ok l, q) →
    l.length = n ∧ ∀ a ∈ l, ∃ p' q', x b p' = (.ok a, q')
  | 0, p, q, l, h => by
    obtain rfl : [] = l := by cases h; rfl
    exact ⟨rfl, fun _ ha => absurd ha List.not_mem_nil⟩
  | n + 1, p, q, l, h => by
    obtain ⟨a, p', ha, h⟩ := bind_eq_ok (f := fun a => times n x >>= fun l => Pure.pure (a :: l)) h
    obtain ⟨rest, p'', hrest, h⟩ := bind_eq_ok h
    obtain rfl : a :: rest = l := by cases h; rfl
    obtain ⟨hlen, hmem⟩ := times_ok hrest
    exact ⟨by rw [List.length_cons, hlen], List.forall_mem_cons.mpr ⟨⟨p, p', ha⟩, hmem⟩⟩

/-- A repeated read is a shorter one and what follows it. -/
theorem times_add {x : Reader ε α} {b : Bytes} {n : Nat} : ∀ {m p q : Nat} {l : List α},
    times (m + n) x b p = (.ok l, q) →
    ∃ l1 p' l2, times m x b p = (.ok l1, p') ∧ times n x b p' = (.ok l2, q) ∧ l = l1 ++ l2
  | 0, p, q, l, h => by
    rw [Nat.zero_add] at h
    exact ⟨[], p, l, rfl, h, rfl⟩
  | m + 1, p, q, l, h => by
    rw [Nat.succ_add] at h
    obtain ⟨a, p1, ha, h⟩ := bind_eq_ok (f := fun a => times (m + n) x >>= fun l => Pure.pure (a :: l)) h
    obtain ⟨rest, p2, hrest, h⟩ := bind_eq_ok h
    obtain ⟨rfl, rfl⟩ : a :: rest = l ∧ p2 = q := by cases h; exact ⟨rfl, rfl⟩
    obtain ⟨l1, p', l2, hl1, hl2, rfl⟩ := times_add hrest
    refine ⟨a :: l1, p', l2, ?_, hl2, rfl⟩
    exact (bind_ok (f := fun a => times m x >>= fun l => Pure.pure (a :: l)) ha).trans ((bind_ok hl1).trans rfl)

end Reader

/-- Wherever the octets `e` stand in a buffer, `x` reads `a` from them and stops behind them. -/
def Decodes {ε α : Type} (x : Reader ε α) (e : Bytes) (a : α) : Prop :=
  ∀ pre post : Bytes, x (pre ++ (e ++ post)) pre.length = (.ok a, pre.length + e.length)

namespace Decodes
variable {ε α β : Type}

theorem pure' (a : α) : Decodes (Pure.pure a : Reader ε α) [] a := fun _ _ => rfl

/-- After the first part, the read goes on behind it in the same buffer. -/
theorem step {x : Reader ε α} {e : Bytes} {a : α} (hx : Decodes x e a) (f : α → Reader ε β)
    (pre rest : Bytes) :
    (x >>= f) (pre ++ (e ++ rest)) pre.length = f a ((pre ++ e) ++ rest) (pre ++ e).length := by
  rw [Reader.bind_ok (hx pre rest), List.append_assoc, List.length_append]

theorem bind' {x : Reader ε α} {f : α → Reader ε β} {e e' : Bytes} {a : α} {v : β}
    (hx : Decodes x e a) (hf : Decodes (f a) e' v) : Decodes (x >>= f) (e ++ e') v := by
  intro pre post
  rw [List.append_assoc e e' post, hx.step f pre (e' ++ post), hf (pre ++ e) post]
  simp [Nat.add_assoc]

/-- The last part of a sequence only rearranges what was read. -/
theorem map' {x : Reader ε α} {f : α → β} {e : Bytes} {a : α} (hx : Decodes x e a) :
    Decodes (x >>= fun v => Pure.pure (f v)) e (f a) := by
  have := hx.bind' (f := fun v => Pure.pure (f v)) (pure' (f a))
  rwa [List.append_nil] at this

/-- Repetition reads a list of items from their encodings laid end to end. -/
theorem times {x : Reader ε α} (enc : α → Bytes) (l : List α) (h : ∀ a ∈ l, Decodes x (enc a) a) :
    Decodes (Reader.times l.length x) (l.flatMap enc) l := by
  induction l with
  | nil => exact pure' []
  | cons a l ih =>
    have hl := ih (fun a' h' => h a' (List.mem_cons_of_mem a h'))
    exact (h a List.mem_cons_self).bind' (f := fun v => Reader.times l.length x >>= fun w => Pure.pure (v :: w))
      hl.map'

/-- A buffer that is exactly the encoding is read to its end. -/
theorem run {x : Reader ε α} {e : Bytes} {a : α} (h : Decodes x e a) : x e 0 = (.ok a, e.length) := by
  have := h [] []
  simpa using this

/-- Encodings that are read back can be told apart with anything behind them. -/
theorem append_inj {x : Reader ε α} {e e' s t : Bytes} {a b : α} (ha : Decodes x e a) (hb : Decodes x e' b)
    (h : e ++ s = e' ++ t) : a = b ∧ s = t := by
  have h1 := ha [] s
  have h2 := hb [] t
  simp only [List.nil_append, h, List.length_nil, Nat.zero_add] at h1 h2
  obtain ⟨hab, hlen⟩ := Prod.mk.inj (h1.symm.trans h2)
  exact ⟨Except.ok.inj hab, (List.append_inj h hlen).2⟩

/-- ... so their concatenation determines the list. -/
theorem flatMap_inj {x : Reader ε α} (enc : α → Bytes) : ∀ {l l' : List α},
    (∀ a ∈ l, Decodes x (enc a) a ∧ enc a ≠ []) → (∀ a ∈ l', Decodes x (enc a) a ∧ enc a ≠ []) →
    l.flatMap enc = l'.flatMap enc → l = l'
  | [], [], _, _, _ => rfl
  | [], b :: l', _, h', e => absurd (List.append_eq_nil_iff.mp e.symm).1 (h' b List.mem_cons_self).2
  | a :: l, [], h, _, e => absurd (List.append_eq_nil_iff.mp e).1 (h a List.mem_cons_self).2
  | a :: l, b :: l', h, h', e => by
    rw [List.flatMap_cons, List.flatMap_cons] at e
    obtain ⟨rfl, htail⟩ := (h a List.mem_cons_self).1.append_inj (h' b List.mem_cons_self).1 e
    exact congrArg (a :: ·) (flatMap_inj enc (fun a ha => h a (List.mem_cons_of_mem _ ha))
      (fun b hb => h' b (List.mem_cons_of_mem _ hb)) htail)

end Decodes

/-! Reads that depend on what they pass over only. -/

/-- Two buffers hold the same octets from `p` up to `q`. -/
def AgreeOn (b b' : Bytes) (p q : Nat) : Prop := ∀ i, p ≤ i → i < q → b[i]? = b'[i]?

theorem AgreeOn.mono {b b' : Bytes} {p p' q q' : Nat} (h : AgreeOn b b' p q) (hp : p ≤ p') (hq : q' ≤ q) :
    AgreeOn b b' p' q' := fun i hi hi' => h i (Nat.le_trans hp hi) (Nat.lt_of_lt_of_le hi' hq)

theorem AgreeOn.symm {b b' : Bytes} {p q : Nat} (h : AgreeOn b b' p q) : AgreeOn b' b p q :=
  fun i hi hi' => (h i hi hi').symm

/-- A read that succeeds does not stop in front of where it started. -/
def Forward {ε α : Type} (x : Reader ε α) : Prop := ∀ (b : Bytes) (p q : Nat) (a : α), x b p = (.ok a, q) → p ≤ q

/-- If both reads succeed from the same position, the first over octets that both buffers hold, they
    stop at the same position, with related values. What they see elsewhere may differ. -/
def SameRun {ε α β : Type} (x : Reader ε α) (y : Reader ε β) (R : α → β → Prop) : Prop :=
  ∀ (b b' : Bytes) (p q q' : Nat) (a : α) (a' : β),
    x b p = (.ok a, q) → y b' p = (.ok a', q') → AgreeOn b b' p q → q = q' ∧ R a a'

namespace Forward
variable {ε α β : Type}

theorem pure' (a : α) : Forward (Pure.pure a : Reader ε α) := by
  intro b p q v h
  cases h
  exact Nat.le_refl _

theorem bind' {x : Reader ε α} {f : α → Reader ε β} (hx : Forward x) (hf : ∀ a, Forward (f a)) : Forward (x >>= f) := by
  intro b p q v h
  obtain ⟨a, p', hxa, hfa⟩ := Reader.bind_eq_ok h
  exact Nat.le_trans (hx _ _ _ _ hxa) (hf a _ _ _ _ hfa)

theorem times {x : Reader ε α} (hx : Forward x) : ∀ n, Forward (Reader.times n x)
  | 0 => pure' []
  | n + 1 => hx.bind' (f := fun a => Reader.times n x >>= fun l => Pure.pure (a :: l)) fun _ =>
      (times hx n).bind' fun _ => pure' _

end Forward

namespace SameRun
variable {ε α α' β β' : Type}

theorem pure' {a : α} {a' : β} {R : α → β → Prop} (h : R a a') :
    SameRun (Pure.pure a : Reader ε α) (Pure.pure a' : Reader ε β) R := by
  intro b b' p q q' v v' hx hy _
  cases hx
  cases hy
  exact ⟨rfl, h⟩

theorem bind' {x : Reader ε α} {y : Reader ε α'} {f : α → Reader ε β} {g : α' → Reader ε β'} {R : α → α' → Prop}
    {S : β → β' → Prop} (hxy : SameRun x y R) (hx : Forward x) (hf : ∀ a, Forward (f a))
    (hfg : ∀ a a', R a a' → SameRun (f a) (g a') S) : SameRun (x >>= f) (y >>= g) S := by
  intro b b' p q q' v v' hxv hyv hb
  obtain ⟨a, p1, hxa, hfa⟩ := Reader.bind_eq_ok hxv
  obtain ⟨a', p2, hya, hga⟩ := Reader.bind_eq_ok hyv
  obtain ⟨rfl, hR⟩ := hxy _ _ _ _ _ _ _ hxa hya (hb.mono (Nat.le_refl _) (hf a _ _ _ _ hfa))
  exact hfg a a' hR _ _ _ _ _ _ _ hfa hga (hb.mono (hx _ _ _ _ hxa) (Nat.le_refl _))

theorem times {x : Reader ε α} {y : Reader ε β} (hf : Forward x) (hxy : SameRun x y fun _ _ => True) :
    ∀ n, SameRun (Reader.times n x) (Reader.times n y) fun _ _ => True
  | 0 => pure' trivial
  | n + 1 => by
    have htail : ∀ a : α, Forward (Reader.times n x >>= fun l => (Pure.pure (a :: l) : Reader ε (List α))) :=
      fun a => (hf.times n).bind' fun _ => Forward.pure' _
    exact hxy.bind' hf htail fun a a' _ => (times hf hxy n).bind' (hf.times n) (fun _ => Forward.pure' _)
      fun _ _ _ => pure' trivial

end SameRun

/-! Big-endian integers, as shifts and byte truncations write and read them. -/

def be16 (v : UInt16) : Bytes := [(v >>> 8).toUInt8, v.toUInt8]
def be32 (v : UInt32) : Bytes :=
  [(v >>> 24).toUInt8, (v >>> 16).toUInt8, (v >>> 8).toUInt8, v.toUInt8]

@[simp] theorem be16_length (v : UInt16) : (be16 v).length = 2 := rfl
@[simp] theorem be32_length (v : UInt32) : (be32 v).length = 4 := rfl

theorem join16_toNat (hi lo : UInt8) :
    (hi.toUInt16 <<< 8 ||| lo.toUInt16).toNat = hi.toNat * 256 + lo.toNat := by
  have h1 := hi.toNat_lt
  have h2 := lo.toNat_lt
  rw [UInt16.toNat_or, UInt16.toNat_shiftLeft]
  have hs : hi.toUInt16.toNat <<< 8 % 2 ^ 16 = hi.toNat <<< 8 := by
    rw [Nat.shiftLeft_eq, Nat.shiftLeft_eq, UInt8.toNat_toUInt16]; omega
  rw [show (8 : UInt16).toNat % 16 = 8 from rfl, hs, UInt8.toNat_toUInt16,
    ← Nat.shiftLeft_add_eq_or_of_lt (by omega), Nat.shiftLeft_eq]

theorem join32_toNat (hi lo : UInt16) :
    (hi.toUInt32 <<< 16 ||| lo.toUInt32).toNat = hi.toNat * 65536 + lo.toNat := by
  have h1 := hi.toNat_lt
  have h2 := lo.toNat_lt
  rw [UInt32.toNat_or, UInt32.toNat_shiftLeft]
  have hs : hi.toUInt32.toNat <<< 16 % 2 ^ 32 = hi.toNat <<< 16 := by
    rw [Nat.shiftLeft_eq, Nat.shiftLeft_eq, UInt16.toNat_toUInt32]; omega
  rw [show (16 : UInt32).toNat % 32 = 16 from rfl, hs, UInt16.toNat_toUInt32,
    ← Nat.shiftLeft_add_eq_or_of_lt (by omega), Nat.shiftLeft_eq]

theorem join16_split (v : UInt16) : ((v >>> 8).toUInt8.toUInt16 <<< 8 ||| v.toUInt8.toUInt16) = v := by
  apply UInt16.toNat_inj.mp
  have := v.toNat_lt
  rw [join16_toNat]
  simp only [UInt16.toNat_toUInt8, UInt16.toNat_shiftRight, Nat.shiftRight_eq_div_pow]
  rw [show (8 : UInt16).toNat % 16 = 8 from rfl]
  omega

theorem join32_split (v : UInt32) : ((v >>> 16).toUInt16.toUInt32 <<< 16 ||| v.toUInt16.toUInt32) = v := by
  apply UInt32.toNat_inj.mp
  have := v.toNat_lt
  rw [join32_toNat]
  simp only [UInt32.toNat_toUInt16, UInt32.toNat_shiftRight, Nat.shiftRight_eq_div_pow]
  rw [show (16 : UInt32).toNat % 32 = 16 from rfl]
  omega

/-- Four octets are two big-endian halves. -/
theorem be32_halves (v : UInt32) : be32 v = be16 (v >>> 16).toUInt16 ++ be16 v.toUInt16 := by
  have h := v.toNat_lt
  simp only [be32, be16, List.cons_append, List.nil_append, List.cons.injEq, and_true]
  refine ⟨?_, ?_, ?_, ?_⟩ <;> apply UInt8.toNat_inj.mp <;>
    simp [Nat.shiftRight_eq_div_pow] <;> omega

end Codec
