import Mathlib.Analysis.Real.Sqrt
import Mathlib.Analysis.SpecialFunctions.Pow.Real
import Mathlib.Data.Nat.Nth
import Mathlib.Data.Nat.Prime.Basic

/- SHA-256, SHA-384 and SHA-512 as FIPS 180-4 defines them: on strings of bits, for words
   of any width. A message is padded to whole blocks of sixteen words (`pad`), each block
   is spread into the words of its schedule, and the rounds mix these into eight words.
   The constants are the first bits behind the point of roots of primes. Where the
   definitions say "smallest" or speak of roots, lemmas say how a program meets them:
   `zeros_octets` for a message of whole octets, `cubeRoot_eq` and `squareRoot_eq` for a
   constant in a table, `nth_prime` for the primes. -/
namespace Fips180

abbrev Bits : Type := List Bool

/-! Numbers and bits, the most significant first. -/

def value : Bits → Nat
  | [] => 0
  | b :: s => b.toNat * 2 ^ s.length + value s

def digits : Nat → Nat → Bits
  | 0, _ => []
  | n + 1, x => x.testBit n :: digits n x

@[simp] theorem digits_length (x : Nat) : ∀ n, (digits n x).length = n
  | 0 => rfl
  | n + 1 => by rw [digits, List.length_cons, digits_length x n]

theorem value_lt : ∀ s : Bits, value s < 2 ^ s.length
  | [] => Nat.one_pos
  | b :: s => by
    have ih := value_lt s
    have hb : b.toNat ≤ 1 := b.toNat_le
    rw [value, List.length_cons, Nat.pow_succ]
    nlinarith

theorem value_append (s t : Bits) : value (s ++ t) = value s * 2 ^ t.length + value t := by
  induction s with
  | nil => simp [value]
  | cons b s ih =>
    rw [List.cons_append, value, value, ih, List.length_append, Nat.pow_add]
    ring

theorem value_digits (x : Nat) : ∀ n, value (digits n x) = x % 2 ^ n
  | 0 => by rw [digits, value, Nat.pow_zero, Nat.mod_one]
  | n + 1 => by
    have hbit : (x.testBit n).toNat = x / 2 ^ n % 2 := by
      rw [Nat.testBit_eq_decide_div_mod_eq]
      rcases Nat.mod_two_eq_zero_or_one (x / 2 ^ n) with h | h <;> rw [h] <;> rfl
    rw [digits, value, digits_length, value_digits x n, Nat.mod_pow_succ, hbit]
    ring

/-- Bits are decided by their number and their value. -/
theorem value_inj {s t : Bits} (hlen : s.length = t.length) (h : value s = value t) : s = t := by
  induction s generalizing t with
  | nil => exact (List.length_eq_zero_iff.mp hlen.symm).symm
  | cons b s ih =>
    cases t with
    | nil => cases hlen
    | cons c t =>
      have hrest : s.length = t.length := Nat.succ.inj hlen
      have hs := value_lt s
      have ht := value_lt t
      rw [value, value, hrest] at h
      rw [hrest] at hs
      -- the first bit is the quotient by what the others can reach
      have hbit : b = c := by
        cases b <;> cases c <;> simp at h ⊢ <;> omega
      subst hbit
      rw [ih hrest (Nat.add_left_cancel h)]

theorem digits_append (m n x : Nat) : digits (m + n) x = digits m (x / 2 ^ n) ++ digits n x := by
  induction m with
  | zero => rw [Nat.zero_add, digits, List.nil_append]
  | succ m ih => rw [Nat.succ_add, digits, digits, ih, Nat.testBit_div_two_pow, List.cons_append]

theorem digits_mod {n m : Nat} (h : n ≤ m) (x : Nat) : digits n (x % 2 ^ m) = digits n x := by
  apply value_inj
  · rw [digits_length, digits_length]
  · rw [value_digits, value_digits, Nat.mod_mod_of_dvd x (Nat.pow_dvd_pow 2 h)]

/-! Octets. -/

/-- The bits of octets. -/
def bits (bytes : List UInt8) : Bits := bytes.flatMap fun b => digits 8 b.toNat

@[simp] theorem bits_nil : bits [] = [] := rfl
theorem bits_cons (b : UInt8) (bytes : List UInt8) : bits (b :: bytes) = digits 8 b.toNat ++ bits bytes := rfl
theorem bits_append (a b : List UInt8) : bits (a ++ b) = bits a ++ bits b := List.flatMap_append

@[simp] theorem bits_length : ∀ bytes : List UInt8, (bits bytes).length = 8 * bytes.length
  | [] => rfl
  | b :: bytes => by
    rw [bits_cons, List.length_append, digits_length, bits_length bytes, List.length_cons]
    omega

theorem bits_injective : Function.Injective bits := by
  intro a b h
  induction a generalizing b with
  | nil =>
    have hlen := congrArg List.length h
    rw [bits_length, bits_length] at hlen
    exact (List.length_eq_zero_iff.mp (by simpa using hlen.symm)).symm
  | cons x a ih =>
    cases b with
    | nil => simp [bits_cons, digits] at h
    | cons y b =>
      rw [bits_cons, bits_cons] at h
      obtain ⟨hoctet, hrest⟩ := List.append_inj h (by simp)
      have hvalue := congrArg value hoctet
      rw [value_digits, value_digits, Nat.mod_eq_of_lt x.toNat_lt, Nat.mod_eq_of_lt y.toNat_lt] at hvalue
      rw [UInt8.toNat_inj.mp hvalue, ih hrest]

theorem bits_take (n : Nat) : ∀ bytes : List UInt8, bits (bytes.take n) = (bits bytes).take (8 * n) := by
  induction n with
  | zero => intro bytes; simp
  | succ n ih =>
    intro bytes
    cases bytes with
    | nil => simp
    | cons b bytes =>
      have hsplit : 8 * (n + 1) = (digits 8 b.toNat).length + 8 * n := by rw [digits_length]; omega
      rw [List.take_succ_cons, bits_cons, bits_cons, hsplit, List.take_length_add_append, ih]

theorem bits_drop (n : Nat) : ∀ bytes : List UInt8, bits (bytes.drop n) = (bits bytes).drop (8 * n) := by
  induction n with
  | zero => intro bytes; simp
  | succ n ih =>
    intro bytes
    cases bytes with
    | nil => simp
    | cons b bytes =>
      have hsplit : 8 * (n + 1) = (digits 8 b.toNat).length + 8 * n := by rw [digits_length]; omega
      rw [List.drop_succ_cons, bits_cons, hsplit, List.drop_length_add_append, ih]

theorem bits_zeros (n : Nat) : bits (List.replicate n 0) = List.replicate (8 * n) false := by
  induction n with
  | zero => rfl
  | succ n ih =>
    have hsplit : 8 * (n + 1) = 8 + 8 * n := by omega
    rw [List.replicate_succ, bits_cons, ih, hsplit, ← List.replicate_append_replicate]
    rfl

/-! Words (sections 2.2 and 4.1). -/

section
variable {w : Nat}

def shr (n : Nat) (x : BitVec w) : BitVec w := x >>> n
def rotr (n : Nat) (x : BitVec w) : BitVec w := x >>> n ||| x <<< (w - n)
def Ch (x y z : BitVec w) : BitVec w := (x &&& y) ^^^ (~~~x &&& z)
def Maj (x y z : BitVec w) : BitVec w := (x &&& y) ^^^ (x &&& z) ^^^ (y &&& z)
def bigSigma (r s t : Nat) (x : BitVec w) : BitVec w := rotr r x ^^^ rotr s x ^^^ rotr t x
def smallSigma (r s t : Nat) (x : BitVec w) : BitVec w := rotr r x ^^^ rotr s x ^^^ shr t x

/-- The words `a` to `h`, which are the eight words of a hash value too. -/
structure Words (w : Nat) where
  a : BitVec w
  b : BitVec w
  c : BitVec w
  d : BitVec w
  e : BitVec w
  f : BitVec w
  g : BitVec w
  h : BitVec w
  deriving DecidableEq

def Words.toList (v : Words w) : List (BitVec w) := [v.a, v.b, v.c, v.d, v.e, v.f, v.g, v.h]
def Words.add (v u : Words w) : Words w :=
  ⟨v.a + u.a, v.b + u.b, v.c + u.c, v.d + u.d, v.e + u.e, v.f + u.f, v.g + u.g, v.h + u.h⟩
def Words.bits (v : Words w) : Bits := v.toList.flatMap fun x => digits w x.toNat

end

/-! The parts in which the algorithms differ. -/

structure Algorithm (w : Nat) where
  rounds : Nat
  bigSigma0 : BitVec w → BitVec w
  bigSigma1 : BitVec w → BitVec w
  smallSigma0 : BitVec w → BitVec w
  smallSigma1 : BitVec w → BitVec w
  constant : Nat → BitVec w
  initial : Words w

/-- The first bits of the fractional part of the cube root. -/
noncomputable def cubeRoot (w p : Nat) : BitVec w := BitVec.ofNat w ⌊(p : ℝ) ^ (1 / 3 : ℝ) * 2 ^ w⌋₊

/-- The first bits of the fractional part of the square root. -/
noncomputable def squareRoot (w p : Nat) : BitVec w := BitVec.ofNat w ⌊√(p : ℝ) * 2 ^ w⌋₊

/-- The prime with this number, the first is `prime 0`. -/
noncomputable def prime (n : Nat) : Nat := Nat.nth Nat.Prime n

/-- The square roots of eight primes in a row. -/
noncomputable def rootWords (w first : Nat) : Words w where
  a := squareRoot w (prime first)
  b := squareRoot w (prime (first + 1))
  c := squareRoot w (prime (first + 2))
  d := squareRoot w (prime (first + 3))
  e := squareRoot w (prime (first + 4))
  f := squareRoot w (prime (first + 5))
  g := squareRoot w (prime (first + 6))
  h := squareRoot w (prime (first + 7))

noncomputable def words32 : Algorithm 32 where
  rounds := 64
  bigSigma0 := bigSigma 2 13 22
  bigSigma1 := bigSigma 6 11 25
  smallSigma0 := smallSigma 7 18 3
  smallSigma1 := smallSigma 17 19 10
  constant t := cubeRoot 32 (prime t)
  initial := rootWords 32 0

noncomputable def words64 (first : Nat) : Algorithm 64 where
  rounds := 80
  bigSigma0 := bigSigma 28 34 39
  bigSigma1 := bigSigma 14 18 41
  smallSigma0 := smallSigma 1 8 7
  smallSigma1 := smallSigma 19 61 6
  constant t := cubeRoot 64 (prime t)
  initial := rootWords 64 first

/-! Roots of primes. -/

theorem floor_root {x : ℝ} {k N r : Nat} (hx : 0 ≤ x) (hk : k ≠ 0) (hpow : x ^ k = N) (hle : r ^ k ≤ N)
    (hlt : N < (r + 1) ^ k) : ⌊x⌋₊ = r := by
  rw [Nat.floor_eq_iff hx]
  constructor
  · rw [← pow_le_pow_iff_left₀ (Nat.cast_nonneg r) hx hk, hpow]
    exact_mod_cast hle
  · rw [← pow_lt_pow_iff_left₀ hx (by positivity) hk, hpow]
    exact_mod_cast hlt

theorem cubeRoot_eq {w p r : Nat} (hle : r ^ 3 ≤ p * 2 ^ (3 * w)) (hlt : p * 2 ^ (3 * w) < (r + 1) ^ 3) :
    cubeRoot w p = BitVec.ofNat w r := by
  have hcube : ((p : ℝ) ^ (1 / 3 : ℝ)) ^ 3 = p := by
    rw [← Real.rpow_natCast, ← Real.rpow_mul (Nat.cast_nonneg p)]
    norm_num
  have hpow : ((p : ℝ) ^ (1 / 3 : ℝ) * 2 ^ w) ^ 3 = (p * 2 ^ (3 * w) : Nat) := by
    rw [mul_pow, hcube, ← pow_mul, Nat.mul_comm 3 w]
    push_cast
    rfl
  rw [cubeRoot, floor_root (by positivity) (by decide) hpow hle hlt]

theorem squareRoot_eq {w p r : Nat} (hle : r ^ 2 ≤ p * 2 ^ (2 * w)) (hlt : p * 2 ^ (2 * w) < (r + 1) ^ 2) :
    squareRoot w p = BitVec.ofNat w r := by
  have hpow : (√(p : ℝ) * 2 ^ w) ^ 2 = (p * 2 ^ (2 * w) : Nat) := by
    rw [mul_pow, Real.sq_sqrt (Nat.cast_nonneg p), ← pow_mul, Nat.mul_comm 2 w]
    push_cast
    rfl
  rw [squareRoot, floor_root (by positivity) (by decide) hpow hle hlt]

theorem filter_prime_range : ∀ n : Nat,
    (List.range n).filter (fun m => m.Prime) = (List.range (Nat.count Nat.Prime n)).map prime
  | 0 => rfl
  | n + 1 => by
    rw [List.range_succ, List.filter_append, filter_prime_range n, Nat.count_succ]
    by_cases hn : n.Prime
    · rw [if_pos hn, List.range_succ, List.map_append, List.map_singleton, prime, Nat.nth_count hn]
      simp [hn]
    · rw [if_neg hn]
      simp [hn]

def firstPrimes : List Nat := [
  2, 3, 5, 7, 11, 13, 17, 19, 23, 29, 31, 37, 41, 43, 47, 53, 59, 61, 67, 71,
  73, 79, 83, 89, 97, 101, 103, 107, 109, 113, 127, 131, 137, 139, 149, 151, 157, 163, 167, 173,
  179, 181, 191, 193, 197, 199, 211, 223, 227, 229, 233, 239, 241, 251, 257, 263, 269, 271, 277, 281,
  283, 293, 307, 311, 313, 317, 331, 337, 347, 349, 353, 359, 367, 373, 379, 383, 389, 397, 401, 409]

/-- Division by the numbers up to 20 finds the primes below the square of 21. -/
theorem prime_iff_no_divisor {n : Nat} (h : n < 441) :
    n.Prime ↔ 2 ≤ n ∧ (List.range' 2 19).all (fun d => n ≤ d || n % d != 0) = true := by
  rw [Nat.prime_def_le_sqrt, List.all_eq_true]
  apply and_congr_right
  intro hn
  constructor
  · intro hprime d hd
    obtain ⟨hlow, -⟩ := List.mem_range'_1.mp hd
    rw [Bool.or_eq_true, decide_eq_true_eq, bne_iff_ne]
    by_contra hdivides
    push Not at hdivides
    have hp : n.Prime := Nat.prime_def_le_sqrt.mpr ⟨hn, hprime⟩
    rcases (Nat.dvd_prime hp).mp (Nat.dvd_of_mod_eq_zero hdivides.2) with h | h <;> omega
  · intro hall m hm hroot hdvd
    have hsq : m * m ≤ n := Nat.le_sqrt.mp hroot
    have hsmall : m ≤ 20 := by nlinarith
    have hlt : m < n := by nlinarith
    have htest := hall m (List.mem_range'_1.mpr ⟨hm, by omega⟩)
    rw [Bool.or_eq_true, decide_eq_true_eq, bne_iff_ne] at htest
    exact (htest.resolve_left (by omega)) (Nat.mod_eq_zero_of_dvd hdvd)

theorem prime_eq {t : Nat} (h : t < 80) : prime t = firstPrimes.getD t 0 := by
  -- the table is what is prime among the numbers up to its last one
  have htable : firstPrimes = (List.range (Nat.count Nat.Prime 410)).map prime := by
    have hfilter : (List.range 410).filter (fun n => n.Prime) =
        (List.range 410).filter fun n => 2 ≤ n ∧ (List.range' 2 19).all (fun d => n ≤ d || n % d != 0) = true := by
      apply List.filter_congr
      intro n hn
      have hn := List.mem_range.mp hn
      rw [decide_eq_decide]
      exact prime_iff_no_divisor (by omega)
    rw [← filter_prime_range, hfilter]
    decide +kernel
  have hlen : firstPrimes.length = Nat.count Nat.Prime 410 := by rw [htable, List.length_map, List.length_range]
  have hcount : t < Nat.count Nat.Prime 410 := by
    rw [← hlen]
    exact h
  rw [htable, List.getD_eq_getElem?_getD, List.getElem?_map, List.getElem?_range hcount]
  rfl

/-- The word has the first bits behind the point of the root; the roots in question are below 8. -/
def IsRootWord (k p : Nat) {w : Nat} (x : BitVec w) : Prop :=
  ∃ n < 8, (n * 2 ^ w + x.toNat) ^ k ≤ p * 2 ^ (k * w) ∧ p * 2 ^ (k * w) < (n * 2 ^ w + x.toNat + 1) ^ k

instance (k p : Nat) {w : Nat} (x : BitVec w) : Decidable (IsRootWord k p x) :=
  inferInstanceAs (Decidable (∃ n < 8, _ ∧ _))

theorem ofNat_fraction {w : Nat} (n : Nat) (x : BitVec w) : BitVec.ofNat w (n * 2 ^ w + x.toNat) = x := by
  apply BitVec.eq_of_toNat_eq
  rw [BitVec.toNat_ofNat, Nat.mul_add_mod_self_right, Nat.mod_eq_of_lt x.isLt]

theorem cubeRoot_of_isRootWord {w p : Nat} {x : BitVec w} (h : IsRootWord 3 p x) : cubeRoot w p = x := by
  obtain ⟨n, -, hle, hlt⟩ := h
  rw [cubeRoot_eq hle hlt, ofNat_fraction]

theorem squareRoot_of_isRootWord {w p : Nat} {x : BitVec w} (h : IsRootWord 2 p x) : squareRoot w p = x := by
  obtain ⟨n, -, hle, hlt⟩ := h
  rw [squareRoot_eq hle hlt, ofNat_fraction]

/-- Eight words in a table of square roots. -/
theorem rootWords_eq {w first : Nat} {v : Words w} (hfirst : first + 8 ≤ 80)
    (h : ∀ i < 8, IsRootWord 2 (firstPrimes.getD (first + i) 0) (v.toList.getD i 0)) : rootWords w first = v := by
  have hroot : ∀ i < 8, squareRoot w (prime (first + i)) = v.toList.getD i 0 := by
    intro i hi
    rw [prime_eq (by omega)]
    exact squareRoot_of_isRootWord (h i hi)
  rw [rootWords, ← Nat.add_zero first, hroot 0 (by decide), Nat.add_zero, hroot 1 (by decide), hroot 2 (by decide),
    hroot 3 (by decide), hroot 4 (by decide), hroot 5 (by decide), hroot 6 (by decide), hroot 7 (by decide)]
  rfl

/-! Preprocessing (section 5). -/

/-- The smallest `k` for which `l + 1 + k` bits leave room for the length at the end of a block. -/
noncomputable def zeros (w l : Nat) : Nat := sInf {k | l + 1 + k ≡ 14 * w [MOD 16 * w]}

noncomputable def pad (w : Nat) (M : Bits) : Bits :=
  M ++ true :: (List.replicate (zeros w M.length) false ++ digits (2 * w) M.length)

/-- Behind a message of octets the zeros fill the octet of the "1" and whole octets. -/
theorem zeros_octets {w l k : Nat} (h : IsLeast {k | (l + 1 + k) % (16 * w) = 14 * w} k) :
    zeros (8 * w) (8 * l) = 7 + 8 * k := by
  have hmem : (l + 1 + k) % (16 * w) = 14 * w := h.1
  have hmod : 16 * (8 * w) = 8 * (16 * w) := by ring
  have hres : 14 * (8 * w) % (8 * (16 * w)) = 8 * (14 * w) := by
    have hpos : 14 * w % (16 * w) = 14 * w := by rw [← hmem, Nat.mod_mod]
    rw [show 14 * (8 * w) = 8 * (14 * w) by ring, Nat.mul_mod_mul_left, hpos]
  have hleast : IsLeast {k | 8 * l + 1 + k ≡ 14 * (8 * w) [MOD 16 * (8 * w)]} (7 + 8 * k) := by
    constructor
    · have hsum : 8 * l + 1 + (7 + 8 * k) = 8 * (l + 1 + k) := by ring
      rw [Set.mem_ofPred_eq, Nat.ModEq, hmod, hres, hsum, Nat.mul_mod_mul_left, hmem]
    · intro j hj
      rw [Set.mem_ofPred_eq, Nat.ModEq, hmod, hres] at hj
      -- the bits in front of the length are whole octets
      have hdvd : 8 ∣ 8 * l + 1 + j := by
        rw [← Nat.mod_add_div (8 * l + 1 + j) (8 * (16 * w)), hj, Nat.mul_assoc, ← Nat.mul_add]
        exact Nat.dvd_mul_right _ _
      obtain ⟨n, hn⟩ := hdvd
      obtain ⟨i, rfl⟩ : ∃ i, j = 7 + 8 * i := ⟨j / 8, by omega⟩
      have hsum : 8 * l + 1 + (7 + 8 * i) = 8 * (l + 1 + i) := by ring
      rw [hsum, Nat.mul_mod_mul_left] at hj
      have hle : k ≤ i := h.2 (Nat.eq_of_mul_eq_mul_left (by decide) hj)
      omega
  exact hleast.csInf_eq

/-- The word with this number in a string of bits. -/
def word (w : Nat) (P : Bits) (n : Nat) : BitVec w := BitVec.ofNat w (value ((P.drop (n * w)).take w))

/-! Computation (section 6). -/

section
variable {w : Nat} (alg : Algorithm w)

/-- The message schedule of a block. -/
def schedule (M : Nat → BitVec w) (t : Nat) : BitVec w :=
  if t < 16 then M t
  else alg.smallSigma1 (schedule M (t - 2)) + schedule M (t - 7) + alg.smallSigma0 (schedule M (t - 15)) +
    schedule M (t - 16)
  termination_by t

def round (W : Nat → BitVec w) (v : Words w) (t : Nat) : Words w :=
  let T₁ := v.h + alg.bigSigma1 v.e + Ch v.e v.f v.g + alg.constant t + W t
  let T₂ := alg.bigSigma0 v.a + Maj v.a v.b v.c
  ⟨T₁ + T₂, v.a, v.b, v.c, v.d + T₁, v.e, v.f, v.g⟩

def compress (H : Words w) (M : Nat → BitVec w) : Words w :=
  ((List.range alg.rounds).foldl (round alg (schedule alg M)) H).add H

def hash (P : Bits) : Words w :=
  (List.range (P.length / (16 * w))).foldl (fun H i => compress alg H fun j => word w P (16 * i + j)) alg.initial

end

noncomputable def sha256 (M : Bits) : Bits := (hash words32 (pad 32 M)).bits
noncomputable def sha512 (M : Bits) : Bits := (hash (words64 0) (pad 64 M)).bits

/-- It starts from the ninth to the sixteenth prime, and keeps the left-most bits. -/
noncomputable def sha384 (M : Bits) : Bits := (hash (words64 8) (pad 64 M)).bits.take 384

end Fips180
