import Ironbind.Lib.Fips180
import Ironbind.SignThenValidate
import Ironbind.Transfer

/- The hashes of `dnssec.rs`. `sha256` and `sha512_internal` are written alike, with words
   of 32 and of 64 bits: a loop pads the message, a table is filled in place with the words
   of a block and those behind them, and eight variables are moved along round by round.
   What they compute is what FIPS 180-4 defines (`sha_fips`): the loop finds the smallest
   padding (`padLoop_eq`), the filled table is the message schedule (`messageSchedule_eq`),
   and the constants are the roots they are meant to be (`sha256Words_realizes`). -/
namespace Ironbind
open Codec Fips180

/-! The functions. -/

/-- `from_be_bytes` of a word. -/
def wordFromBe (w : Nat) (bytes : Bytes) : BitVec w := BitVec.ofNat w (fromBytesBe bytes)

/-- `to_be_bytes` of a word of so many octets. -/
def toBe : Nat → Nat → Bytes
  | 0, _ => []
  | n + 1, x => UInt8.ofNat (x / 256 ^ n) :: toBe n x

/-- What is different in the two functions: the octets of a word, the rounds, how far words are rotated
    and shifted, and the table. -/
structure ShaWords (w : Nat) where
  octets : Nat
  rounds : Nat
  schedule0 : Nat × Nat × Nat
  schedule1 : Nat × Nat × Nat
  round0 : Nat × Nat × Nat
  round1 : Nat × Nat × Nat
  k : List (BitVec w)

section
variable {w : Nat} (p : ShaWords w)

def scheduleSigma (r : Nat × Nat × Nat) (x : BitVec w) : BitVec w :=
  x.rotateRight r.1 ^^^ x.rotateRight r.2.1 ^^^ x >>> r.2.2

def roundSigma (r : Nat × Nat × Nat) (x : BitVec w) : BitVec w :=
  x.rotateRight r.1 ^^^ x.rotateRight r.2.1 ^^^ x.rotateRight r.2.2

/-- `while padded.len() % block != target { padded.push(0); }`; a block of passes is enough. -/
def padLoop (block target : Nat) : Nat → Bytes → Bytes
  | 0, padded => padded
  | fuel + 1, padded => if padded.length % block ≠ target then padLoop block target fuel (padded ++ [0]) else padded

def nextWord (ws : List (BitVec w)) (i : Nat) : BitVec w :=
  let s0 := scheduleSigma p.schedule0 (ws.getD (i - 15) 0)
  let s1 := scheduleSigma p.schedule1 (ws.getD (i - 2) 0)
  ws.getD (i - 16) 0 + s0 + ws.getD (i - 7) 0 + s1

/-- The table `w`: the words of the block, and those that follow from them. -/
def messageSchedule (block : Bytes) : List (BitVec w) :=
  let ws := (List.range' 0 16).foldl (fun ws i =>
    ws.set i (wordFromBe w ((block.drop (i * p.octets)).take p.octets))) (List.replicate p.rounds 0)
  (List.range' 16 (p.rounds - 16)).foldl (fun ws i => ws.set i (nextWord p ws i)) ws

def shaRound (ws : List (BitVec w)) (v : Words w) (i : Nat) : Words w :=
  let s1 := roundSigma p.round1 v.e
  let ch := (v.e &&& v.f) ^^^ (~~~v.e &&& v.g)
  let temp1 := v.h + s1 + ch + p.k.getD i 0 + ws.getD i 0
  let s0 := roundSigma p.round0 v.a
  let maj := (v.a &&& v.b) ^^^ (v.a &&& v.c) ^^^ (v.b &&& v.c)
  let temp2 := s0 + maj
  { h := v.g, g := v.f, f := v.e, e := v.d + temp1, d := v.c, c := v.b, b := v.a, a := temp1 + temp2 }

def shaBlock (h : Words w) (block : Bytes) : Words w :=
  let v := (List.range p.rounds).foldl (shaRound p (messageSchedule p block)) h
  { a := h.a + v.a, b := h.b + v.b, c := h.c + v.c, d := h.d + v.d,
    e := h.e + v.e, f := h.f + v.f, g := h.g + v.g, h := h.h + v.h }

def shaOutput (h : Words w) : Bytes := h.toList.flatMap fun v => toBe p.octets v.toNat

end

def K256 : List (BitVec 32) := [
  0x428a2f98, 0x71374491, 0xb5c0fbcf, 0xe9b5dba5, 0x3956c25b, 0x59f111f1, 0x923f82a4, 0xab1c5ed5,
  0xd807aa98, 0x12835b01, 0x243185be, 0x550c7dc3, 0x72be5d74, 0x80deb1fe, 0x9bdc06a7, 0xc19bf174,
  0xe49b69c1, 0xefbe4786, 0x0fc19dc6, 0x240ca1cc, 0x2de92c6f, 0x4a7484aa, 0x5cb0a9dc, 0x76f988da,
  0x983e5152, 0xa831c66d, 0xb00327c8, 0xbf597fc7, 0xc6e00bf3, 0xd5a79147, 0x06ca6351, 0x14292967,
  0x27b70a85, 0x2e1b2138, 0x4d2c6dfc, 0x53380d13, 0x650a7354, 0x766a0abb, 0x81c2c92e, 0x92722c85,
  0xa2bfe8a1, 0xa81a664b, 0xc24b8b70, 0xc76c51a3, 0xd192e819, 0xd6990624, 0xf40e3585, 0x106aa070,
  0x19a4c116, 0x1e376c08, 0x2748774c, 0x34b0bcb5, 0x391c0cb3, 0x4ed8aa4a, 0x5b9cca4f, 0x682e6ff3,
  0x748f82ee, 0x78a5636f, 0x84c87814, 0x8cc70208, 0x90befffa, 0xa4506ceb, 0xbef9a3f7, 0xc67178f2]

def sha256Words : ShaWords 32 where
  octets := 4
  rounds := 64
  schedule0 := (7, 18, 3)
  schedule1 := (17, 19, 10)
  round0 := (2, 13, 22)
  round1 := (6, 11, 25)
  k := K256

/-- The words that `sha256` starts from. -/
def sha256Start : Words 32 :=
  ⟨0x6a09e667, 0xbb67ae85, 0x3c6ef372, 0xa54ff53a, 0x510e527f, 0x9b05688c, 0x1f83d9ab, 0x5be0cd19⟩

def sha256 (msg : Bytes) : Bytes :=
  let bitLen := UInt64.ofNat msg.length * 8
  let padded := padLoop 64 56 64 (msg ++ [0x80]) ++ toBe 8 bitLen.toNat
  shaOutput sha256Words ((chunks 64 padded.length padded).foldl (shaBlock sha256Words) sha256Start)

def K512 : List (BitVec 64) := [
  0x428a2f98d728ae22, 0x7137449123ef65cd, 0xb5c0fbcfec4d3b2f, 0xe9b5dba58189dbbc,
  0x3956c25bf348b538, 0x59f111f1b605d019, 0x923f82a4af194f9b, 0xab1c5ed5da6d8118,
  0xd807aa98a3030242, 0x12835b0145706fbe, 0x243185be4ee4b28c, 0x550c7dc3d5ffb4e2,
  0x72be5d74f27b896f, 0x80deb1fe3b1696b1, 0x9bdc06a725c71235, 0xc19bf174cf692694,
  0xe49b69c19ef14ad2, 0xefbe4786384f25e3, 0x0fc19dc68b8cd5b5, 0x240ca1cc77ac9c65,
  0x2de92c6f592b0275, 0x4a7484aa6ea6e483, 0x5cb0a9dcbd41fbd4, 0x76f988da831153b5,
  0x983e5152ee66dfab, 0xa831c66d2db43210, 0xb00327c898fb213f, 0xbf597fc7beef0ee4,
  0xc6e00bf33da88fc2, 0xd5a79147930aa725, 0x06ca6351e003826f, 0x142929670a0e6e70,
  0x27b70a8546d22ffc, 0x2e1b21385c26c926, 0x4d2c6dfc5ac42aed, 0x53380d139d95b3df,
  0x650a73548baf63de, 0x766a0abb3c77b2a8, 0x81c2c92e47edaee6, 0x92722c851482353b,
  0xa2bfe8a14cf10364, 0xa81a664bbc423001, 0xc24b8b70d0f89791, 0xc76c51a30654be30,
  0xd192e819d6ef5218, 0xd69906245565a910, 0xf40e35855771202a, 0x106aa07032bbd1b8,
  0x19a4c116b8d2d0c8, 0x1e376c085141ab53, 0x2748774cdf8eeb99, 0x34b0bcb5e19b48a8,
  0x391c0cb3c5c95a63, 0x4ed8aa4ae3418acb, 0x5b9cca4f7763e373, 0x682e6ff3d6b2b8a3,
  0x748f82ee5defb2fc, 0x78a5636f43172f60, 0x84c87814a1f0ab72, 0x8cc702081a6439ec,
  0x90befffa23631e28, 0xa4506cebde82bde9, 0xbef9a3f7b2c67915, 0xc67178f2e372532b,
  0xca273eceea26619c, 0xd186b8c721c0c207, 0xeada7dd6cde0eb1e, 0xf57d4f7fee6ed178,
  0x06f067aa72176fba, 0x0a637dc5a2c898a6, 0x113f9804bef90dae, 0x1b710b35131c471b,
  0x28db77f523047d84, 0x32caab7b40c72493, 0x3c9ebe0a15c9bebc, 0x431d67c49c100d4c,
  0x4cc5d4becb3e42b6, 0x597f299cfc657e2a, 0x5fcb6fab3ad6faec, 0x6c44198c4a475817]

def sha512Words : ShaWords 64 where
  octets := 8
  rounds := 80
  schedule0 := (1, 8, 7)
  schedule1 := (19, 61, 6)
  round0 := (28, 34, 39)
  round1 := (14, 18, 41)
  k := K512

def sha384Start : Words 64 :=
  ⟨0xcbbb9d5dc1059ed8, 0x629a292a367cd507, 0x9159015a3070dd17, 0x152fecd8f70e5939,
    0x67332667ffc00b31, 0x8eb44a8768581511, 0xdb0c2e0d64f98fa7, 0x47b5481dbefa4fa4⟩

def sha512Start : Words 64 :=
  ⟨0x6a09e667f3bcc908, 0xbb67ae8584caa73b, 0x3c6ef372fe94f82b, 0xa54ff53a5f1d36f1,
    0x510e527fade682d1, 0x9b05688c2b3e6c1f, 0x1f83d9abfb41bd6b, 0x5be0cd19137e2179⟩

/-- The length is a `u128`, of which the lower half is written behind eight zero octets. -/
def sha512Internal (msg : Bytes) (truncated : Bool) : Bytes :=
  let bitLen := BitVec.ofNat 128 msg.length * 8
  let padded := padLoop 128 112 128 (msg ++ [0x80]) ++ toBe 8 0 ++ toBe 8 (bitLen.toNat % 2 ^ 64)
  let h := if truncated then sha384Start else sha512Start
  shaOutput sha512Words ((chunks 128 padded.length padded).foldl (shaBlock sha512Words) h)

def sha384 (msg : Bytes) : Bytes := (sha512Internal msg true).take 48

def sha512 (msg : Bytes) : Bytes := sha512Internal msg false

/-! Octets and words. -/

theorem value_bits (bytes : Bytes) : value (bits bytes) = fromBytesBe bytes := by
  have hfold : ∀ n, bytes.foldl (fun n x => n * 256 + x.toNat) n = n * 256 ^ bytes.length + value (bits bytes) := by
    induction bytes with
    | nil => intro n; simp [value]
    | cons b bytes ih =>
      intro n
      have hpow : 2 ^ (8 * bytes.length) = 256 ^ bytes.length := by rw [Nat.pow_mul]
      rw [List.foldl_cons, ih, bits_cons, value_append, value_digits, Nat.mod_eq_of_lt b.toNat_lt, bits_length, hpow,
        List.length_cons, Nat.pow_succ]
      ring
  rw [fromBytesBe, hfold 0, Nat.zero_mul, Nat.zero_add]

theorem bits_toBe (x : Nat) : ∀ n, bits (toBe n x) = digits (8 * n) x
  | 0 => rfl
  | n + 1 => by
    have hpow : 256 ^ n = 2 ^ (8 * n) := by rw [Nat.pow_mul]
    have hsplit : 8 * (n + 1) = 8 + 8 * n := by omega
    rw [toBe, bits_cons, bits_toBe x n, hsplit, digits_append, UInt8.toNat_ofNat', hpow, digits_mod (Nat.le_refl 8)]

theorem bits_shaOutput {w : Nat} {p : ShaWords w} (hw : w = 8 * p.octets) (v : Words w) :
    bits (shaOutput p v) = v.bits := by
  rw [shaOutput, Words.bits, bits, List.flatMap_assoc]
  congr 1
  funext x
  have hword := bits_toBe x.toNat p.octets
  rwa [← hw] at hword

/-! Padding. -/

/-- The loop appends as few zeros as reach the target. -/
theorem padLoop_eq {block target k : Nat} : ∀ {fuel : Nat} {padded : Bytes},
    IsLeast {k | (padded.length + k) % block = target} k → k ≤ fuel →
      padLoop block target fuel padded = padded ++ List.replicate k 0 := by
  induction k with
  | zero =>
    intro fuel padded hleast _
    have hstop : padded.length % block = target := hleast.1
    rw [List.replicate_zero, List.append_nil]
    cases fuel with
    | zero => rfl
    | succ fuel => rw [padLoop, if_neg (not_not.mpr hstop)]
  | succ k ih =>
    intro fuel padded hleast hfuel
    have hgo : padded.length % block ≠ target := by
      intro hstop
      exact absurd (hleast.2 (show 0 ∈ _ from hstop)) (by omega)
    have hshift : ∀ j, (padded ++ [0]).length + j = padded.length + (j + 1) := by
      intro j
      rw [List.length_append, List.length_singleton]
      omega
    have hrest : IsLeast {j | ((padded ++ [0]).length + j) % block = target} k := by
      constructor
      · rw [Set.mem_ofPred_eq, hshift]
        exact hleast.1
      · intro j hj
        rw [Set.mem_ofPred_eq, hshift] at hj
        exact Nat.le_of_succ_le_succ (hleast.2 hj)
    obtain ⟨fuel, rfl⟩ : ∃ n, fuel = n + 1 := ⟨fuel - 1, by omega⟩
    rw [padLoop, if_pos hgo, ih hrest (by omega), List.append_assoc, List.replicate_succ, List.singleton_append]

/-- There is a smallest padding, and it is shorter than a block. -/
theorem exists_least {block target : Nat} (h : target < block) (n : Nat) :
    ∃ k, IsLeast {k | (n + k) % block = target} k ∧ k ≤ block := by
  have hreach : (n + (block - n % block + target) % block) % block = target := by
    have hlt := Nat.mod_lt n (Nat.zero_lt_of_lt h)
    have hsum : n + (block - n % block + target) = target + block * (n / block + 1) := by
      have hdiv := Nat.mod_add_div n block
      rw [Nat.mul_add]
      omega
    rw [Nat.add_mod_mod, hsum, Nat.add_mul_mod_self_left, Nat.mod_eq_of_lt h]
  have hleast : IsLeast {k | (n + k) % block = target} (sInf {k | (n + k) % block = target}) :=
    ⟨Nat.sInf_mem ⟨_, hreach⟩, fun j hj => Nat.sInf_le hj⟩
  exact ⟨_, hleast, (hleast.2 hreach).trans (Nat.mod_lt _ (Nat.zero_lt_of_lt h)).le⟩

/-- The padded message: the bits are those of the definition, and its octets make whole blocks. -/
theorem padded_spec {w : Nat} (hw : 0 < w) (msg : Bytes) {tail : Bytes}
    (htail : bits tail = digits (2 * (8 * w)) (8 * msg.length)) :
    bits (padLoop (16 * w) (14 * w) (16 * w) (msg ++ [0x80]) ++ tail) = pad (8 * w) (bits msg) ∧
      16 * w ∣ (padLoop (16 * w) (14 * w) (16 * w) (msg ++ [0x80]) ++ tail).length := by
  obtain ⟨k, hleast, hk⟩ := exists_least (show 14 * w < 16 * w by omega) (msg ++ [0x80]).length
  have hpad := padLoop_eq hleast hk
  rw [List.length_append, List.length_singleton] at hleast
  constructor
  · have hone : bits [0x80] = true :: List.replicate 7 false := by decide
    have hzeros : List.replicate 7 false ++ List.replicate (8 * k) false =
        List.replicate (zeros (8 * w) (8 * msg.length)) false := by
      rw [zeros_octets hleast, List.replicate_append_replicate]
    rw [hpad, bits_append, bits_append, bits_append, hone, bits_zeros, htail, pad, bits_length, ← hzeros]
    simp only [List.append_assoc, List.cons_append]
  · have hlen := congrArg List.length htail
    rw [bits_length, digits_length] at hlen
    have hmod : (msg.length + 1 + k) % (16 * w) = 14 * w := hleast.1
    have hdiv := Nat.mod_add_div (msg.length + 1 + k) (16 * w)
    rw [hpad, List.length_append, List.length_append, List.length_append, List.length_replicate, List.length_singleton]
    refine ⟨(msg.length + 1 + k) / (16 * w) + 1, ?_⟩
    rw [Nat.mul_add]
    omega

/-! Blocks. -/

/-- A table filled in order: each entry is found from those in front of it. -/
theorem fill_spec {α : Type} {d : α} (next : List α → Nat → α) (W : Nat → α) {a : Nat} {ws : List α}
    (hstart : ∀ t < a, ws.getD t d = W t) : ∀ n, a + n ≤ ws.length →
      (∀ ws' i, a ≤ i → i < a + n → (∀ t < i, ws'.getD t d = W t) → next ws' i = W i) →
      ((List.range' a n).foldl (fun ws i => ws.set i (next ws i)) ws).length = ws.length ∧
        ∀ t < a + n, ((List.range' a n).foldl (fun ws i => ws.set i (next ws i)) ws).getD t d = W t
  | 0, _, _ => ⟨rfl, hstart⟩
  | n + 1, hlen, hnext => by
    obtain ⟨ihlen, ih⟩ := fill_spec next W hstart n (by omega) fun ws' i ha hi => hnext ws' i ha (by omega)
    rw [List.range'_concat, List.foldl_append, Nat.one_mul, List.foldl_cons, List.foldl_nil]
    refine ⟨by rw [List.length_set, ihlen], fun t ht => ?_⟩
    rw [List.getD_eq_getElem?_getD, List.getElem?_set]
    by_cases hlast : a + n = t
    · subst hlast
      rw [if_pos rfl, if_pos (by omega), Option.getD_some]
      exact hnext _ _ (Nat.le_add_right a n) (by omega) ih
    · rw [if_neg hlast, ← List.getD_eq_getElem?_getD]
      exact ih t (by omega)

theorem schedule_of_lt {w : Nat} (alg : Algorithm w) (M : Nat → BitVec w) {t : Nat} (h : t < 16) :
    schedule alg M t = M t := by
  rw [schedule, if_pos h]

theorem schedule_of_le {w : Nat} (alg : Algorithm w) (M : Nat → BitVec w) {t : Nat} (h : 16 ≤ t) :
    schedule alg M t = alg.smallSigma1 (schedule alg M (t - 2)) + schedule alg M (t - 7) +
      alg.smallSigma0 (schedule alg M (t - 15)) + schedule alg M (t - 16) := by
  rw [schedule, if_neg (by omega)]

/-- The parameters of the function are those of the definition. -/
structure Realizes {w : Nat} (p : ShaWords w) (alg : Algorithm w) : Prop where
  width : w = 8 * p.octets
  octets : 0 < p.octets
  enough : 16 ≤ p.rounds
  rounds : alg.rounds = p.rounds
  bigSigma0 : ∀ x, alg.bigSigma0 x = roundSigma p.round0 x
  bigSigma1 : ∀ x, alg.bigSigma1 x = roundSigma p.round1 x
  smallSigma0 : ∀ x, alg.smallSigma0 x = scheduleSigma p.schedule0 x
  smallSigma1 : ∀ x, alg.smallSigma1 x = scheduleSigma p.schedule1 x
  constant : ∀ t < p.rounds, alg.constant t = p.k.getD t 0

section
variable {w : Nat} {p : ShaWords w} {alg : Algorithm w} (hp : Realizes p alg) {block : Bytes} {M : Nat → BitVec w}
include hp

/-- **The table is the message schedule.** -/
theorem messageSchedule_eq (hM : ∀ j < 16, wordFromBe w ((block.drop (j * p.octets)).take p.octets) = M j) {t : Nat}
    (ht : t < p.rounds) : (messageSchedule p block).getD t 0 = schedule alg M t := by
  have henough := hp.enough
  have hempty : ∀ t < 0, (List.replicate p.rounds (0 : BitVec w)).getD t 0 = M t :=
    fun t ht => absurd ht (Nat.not_lt_zero t)
  obtain ⟨hlen, hwords⟩ := fill_spec (fun _ i => wordFromBe w ((block.drop (i * p.octets)).take p.octets)) M hempty 16
    (by rw [List.length_replicate]; omega) fun _ i _ hi _ => hM i (by omega)
  rw [List.length_replicate] at hlen
  obtain ⟨-, hrest⟩ := fill_spec (nextWord p) (schedule alg M)
    (fun t ht => by rw [hwords t (by omega), schedule_of_lt alg M ht]) (p.rounds - 16) (by rw [hlen]; omega)
    fun ws i ha _ hbefore => by
      rw [schedule_of_le alg M ha, nextWord, hbefore (i - 16) (by omega), hbefore (i - 15) (by omega),
        hbefore (i - 7) (by omega), hbefore (i - 2) (by omega), hp.smallSigma0, hp.smallSigma1]
      abel
  exact hrest t (by omega)

/-- The rounds of a block, and the sums behind them. -/
theorem shaBlock_eq (hM : ∀ j < 16, wordFromBe w ((block.drop (j * p.octets)).take p.octets) = M j) (h : Words w) :
    shaBlock p h block = compress alg h M := by
  have hrounds : (List.range p.rounds).foldl (shaRound p (messageSchedule p block)) h =
      (List.range alg.rounds).foldl (Fips180.round alg (schedule alg M)) h := by
    rw [hp.rounds]
    apply List.foldl_ext
    intro v t ht
    have ht := List.mem_range.mp ht
    rw [shaRound, Fips180.round, messageSchedule_eq hp hM ht, hp.constant t ht, hp.bigSigma0, hp.bigSigma1]
    rfl
  rw [shaBlock, hrounds, compress, Words.add]
  simp only [BitVec.add_comm]

end

/-- `chunks` of a slice that is made of whole ones. -/
theorem chunks_eq {α : Type} {n : Nat} (hn : 0 < n) : ∀ (m : Nat) {fuel : Nat} {l : List α}, l.length = n * m →
    l.length ≤ fuel → chunks n fuel l = (List.range m).map fun i => (l.drop (n * i)).take n
  | 0, fuel, l, hlen, _ => by
    rw [List.length_eq_zero_iff.mp hlen]
    cases fuel <;> rfl
  | m + 1, fuel, l, hlen, hfuel => by
    rw [Nat.mul_add, Nat.mul_one] at hlen
    obtain ⟨fuel, rfl⟩ : ∃ k, fuel = k + 1 := ⟨fuel - 1, by omega⟩
    obtain ⟨a, l, rfl⟩ : ∃ a l', l = a :: l' := List.exists_cons_of_length_pos (by omega)
    have hrest : ((a :: l).drop n).length = n * m := by
      rw [List.length_drop, hlen, Nat.add_sub_cancel]
    rw [chunks, chunks_eq hn m hrest (by rw [hrest]; omega), List.range_succ_eq_map, List.map_cons, List.map_map,
      Nat.mul_zero, List.drop_zero]
    congr 1
    apply List.map_congr_left
    intro i _
    rw [Function.comp_apply, List.drop_drop, Nat.mul_succ, Nat.add_comm]

section
variable {w : Nat} {p : ShaWords w} {alg : Algorithm w} (hp : Realizes p alg)
include hp

/-- The words of a block are read from its bits. -/
theorem wordFromBe_eq (padded : Bytes) (i : Nat) {j : Nat} (hj : j < 16) :
    wordFromBe w ((((padded.drop (16 * p.octets * i)).take (16 * p.octets)).drop (j * p.octets)).take p.octets) =
      word w (bits padded) (16 * i + j) := by
  have hroom : p.octets ≤ 16 * p.octets - j * p.octets := by
    have hle : (j + 1) * p.octets ≤ 16 * p.octets := Nat.mul_le_mul_right _ hj
    rw [Nat.succ_mul] at hle
    omega
  have hstart : 8 * (16 * p.octets * i + j * p.octets) = (16 * i + j) * w := by
    calc 8 * (16 * p.octets * i + j * p.octets)
        = (16 * i + j) * (8 * p.octets) := by ring
      _ = (16 * i + j) * w := by rw [← hp.width]
  rw [wordFromBe, word, ← value_bits, List.drop_take, List.take_take, Nat.min_eq_left hroom, List.drop_drop, bits_take,
    bits_drop, hstart, ← hp.width]

theorem shaBlocks_eq {padded : Bytes} (hdvd : 16 * p.octets ∣ padded.length) (start : Words w)
    (hstart : alg.initial = start) :
    (chunks (16 * p.octets) padded.length padded).foldl (shaBlock p) start =
    Fips180.hash alg (bits padded) := by
  obtain ⟨m, hm⟩ := hdvd
  have hpos : 0 < 16 * p.octets := Nat.mul_pos (by decide) hp.octets
  have hblocks : (bits padded).length / (16 * w) = m := by
    have hwidth : 16 * w = 8 * (16 * p.octets) := by
      have := hp.width
      omega
    rw [bits_length, hm, hwidth, ← Nat.mul_assoc, Nat.mul_div_cancel_left m (Nat.mul_pos (by decide) hpos)]
  rw [chunks_eq hpos m hm (Nat.le_refl _), List.foldl_map, Fips180.hash, hblocks, hstart]
  apply List.foldl_ext
  intro h i _
  exact shaBlock_eq hp (fun j hj => wordFromBe_eq hp padded i hj) h

end

/-! Tables and results. -/

theorem sha256Words_realizes : Realizes sha256Words words32 where
  width := rfl
  octets := by decide
  enough := by decide
  rounds := rfl
  bigSigma0 := fun _ => rfl
  bigSigma1 := fun _ => rfl
  smallSigma0 := fun _ => rfl
  smallSigma1 := fun _ => rfl
  constant := by
    have htable : ∀ t < 64, IsRootWord 3 (firstPrimes.getD t 0) (K256.getD t 0) := by decide
    intro t (ht : t < 64)
    show cubeRoot 32 (prime t) = K256.getD t 0
    rw [prime_eq (by omega), cubeRoot_of_isRootWord (htable t ht)]

theorem sha512Words_realizes (first : Nat) : Realizes sha512Words (words64 first) where
  width := rfl
  octets := by decide
  enough := by decide
  rounds := rfl
  bigSigma0 := fun _ => rfl
  bigSigma1 := fun _ => rfl
  smallSigma0 := fun _ => rfl
  smallSigma1 := fun _ => rfl
  constant := by
    have htable : ∀ t < 80, IsRootWord 3 (firstPrimes.getD t 0) (K512.getD t 0) := by decide
    intro t (ht : t < 80)
    show cubeRoot 64 (prime t) = K512.getD t 0
    rw [prime_eq ht, cubeRoot_of_isRootWord (htable t ht)]

theorem sha256Start_eq : rootWords 32 0 = sha256Start := rootWords_eq (by decide) (by decide)
theorem sha384Start_eq : rootWords 64 8 = sha384Start := rootWords_eq (by decide) (by decide)
theorem sha512Start_eq : rootWords 64 0 = sha512Start := rootWords_eq (by decide) (by decide)

section
variable {msg : Bytes} (hlen : msg.length < 2 ^ 61)
include hlen

theorem bits_sha256 : bits (sha256 msg) = Fips180.sha256 (bits msg) := by
  have hbitLen : (UInt64.ofNat msg.length * 8).toNat = 8 * msg.length := by
    have hmsg : (UInt64.ofNat msg.length).toNat = msg.length := by
      rw [UInt64.toNat_ofNat']
      exact Nat.mod_eq_of_lt (by omega)
    rw [UInt64.toNat_mul, hmsg, show (8 : UInt64).toNat = 8 from rfl, Nat.mod_eq_of_lt (by omega), Nat.mul_comm]
  have htail : bits (toBe 8 (UInt64.ofNat msg.length * 8).toNat) = digits (2 * (8 * 4)) (8 * msg.length) := by
    rw [bits_toBe, hbitLen]
  obtain ⟨hpad, hdvd⟩ := padded_spec (show 0 < 4 by decide) msg htail
  have hblocks := shaBlocks_eq sha256Words_realizes hdvd sha256Start sha256Start_eq
  rw [hpad] at hblocks
  rw [sha256, bits_shaOutput sha256Words_realizes.width, Fips180.sha256, ← hblocks]
  rfl

/-- The upper half of the length is zero for such a message. -/
theorem bits_sha512Internal {truncated : Bool} {first : Nat}
    (hstart : rootWords 64 first = if truncated then sha384Start else sha512Start) :
    bits (sha512Internal msg truncated) = (Fips180.hash (words64 first) (pad 64 (bits msg))).bits := by
  have hbitLen : (BitVec.ofNat 128 msg.length * 8).toNat = 8 * msg.length := by
    rw [BitVec.toNat_mul, BitVec.toNat_ofNat, Nat.mod_eq_of_lt (show msg.length < 2 ^ 128 by omega),
      show (8 : BitVec 128).toNat = 8 from rfl, Nat.mod_eq_of_lt (by omega), Nat.mul_comm]
  have htail : bits (toBe 8 0 ++ toBe 8 ((BitVec.ofNat 128 msg.length * 8).toNat % 2 ^ 64)) =
      digits (2 * (8 * 8)) (8 * msg.length) := by
    have hupper : 8 * msg.length / 2 ^ 64 = 0 := Nat.div_eq_of_lt (by omega)
    rw [hbitLen, Nat.mod_eq_of_lt (show 8 * msg.length < 2 ^ 64 by omega), bits_append, bits_toBe, bits_toBe]
    have hsplit := digits_append (8 * 8) (8 * 8) (8 * msg.length)
    rw [show 2 ^ (8 * 8) = 2 ^ 64 from rfl, hupper] at hsplit
    exact hsplit.symm
  obtain ⟨hpad, hdvd⟩ := padded_spec (show 0 < 8 by decide) msg htail
  have hblocks := shaBlocks_eq (sha512Words_realizes first) hdvd _ hstart
  rw [hpad] at hblocks
  rw [sha512Internal, bits_shaOutput (sha512Words_realizes first).width, ← hblocks, List.append_assoc]
  rfl

theorem bits_sha512 : bits (sha512 msg) = Fips180.sha512 (bits msg) := bits_sha512Internal hlen sha512Start_eq

theorem bits_sha384 : bits (sha384 msg) = Fips180.sha384 (bits msg) := by
  rw [sha384, bits_take, bits_sha512Internal hlen sha384Start_eq]
  rfl

end

/-- The crate's digests are those of the standard, for messages that it defines a SHA-256 of. -/
structure Rsa.FipsDigests (rsa : Rsa) : Prop where
  sha256 : ∀ msg : Bytes, msg.length < 2 ^ 61 → bits (rsa.sha256 msg) = Fips180.sha256 (bits msg)
  sha512 : ∀ msg : Bytes, msg.length < 2 ^ 61 → bits (rsa.sha512 msg) = Fips180.sha512 (bits msg)

theorem Rsa.FipsDigests.sha256_eq {rsa : Rsa} (hrsa : rsa.FipsDigests) {msg : Bytes} (hlen : msg.length < 2 ^ 61) :
    rsa.sha256 msg = Ironbind.sha256 msg := by
  apply bits_injective
  rw [hrsa.sha256 msg hlen, bits_sha256 hlen]

theorem Rsa.FipsDigests.sha512_eq {rsa : Rsa} (hrsa : rsa.FipsDigests) {msg : Bytes} (hlen : msg.length < 2 ^ 61) :
    rsa.sha512 msg = Ironbind.sha512 msg := by
  apply bits_injective
  rw [hrsa.sha512 msg hlen, bits_sha512 hlen]

/-- **The hashes are those of FIPS 180-4**, so that the verifier's are the signer's. -/
theorem sha_fips {msg : Bytes} (hlen : msg.length < 2 ^ 61) :
    (bits (sha256 msg) = Fips180.sha256 (bits msg) ∧ bits (sha384 msg) = Fips180.sha384 (bits msg) ∧
      bits (sha512 msg) = Fips180.sha512 (bits msg)) ∧
    ∀ rsa : Rsa, rsa.FipsDigests → rsa.sha256 msg = sha256 msg ∧ rsa.sha512 msg = sha512 msg := by
  constructor
  · exact ⟨bits_sha256 hlen, bits_sha384 hlen, bits_sha512 hlen⟩
  · intro rsa hrsa
    exact ⟨hrsa.sha256_eq hlen, hrsa.sha512_eq hlen⟩

def fipsRsa : Rsa := { sampleRsa with sha256 := sha256, sha512 := sha512 }

theorem fipsRsa_digests : fipsRsa.FipsDigests where
  sha256 := fun _ hlen => bits_sha256 hlen
  sha512 := fun _ hlen => bits_sha512 hlen

/-- The digest of "abc". -/
theorem sha_fips_abc : Fips180.sha256 (bits [0x61, 0x62, 0x63]) =
      bits [0xba, 0x78, 0x16, 0xbf, 0x8f, 0x01, 0xcf, 0xea, 0x41, 0x41, 0x40, 0xde, 0x5d, 0xae, 0x22, 0x23,
        0xb0, 0x03, 0x61, 0xa3, 0x96, 0x17, 0x7a, 0x9c, 0xb4, 0x10, 0xff, 0x61, 0xf2, 0x00, 0x15, 0xad] ∧
    fipsRsa.sha256 [0x61, 0x62, 0x63] = sha256 [0x61, 0x62, 0x63] := by
  have hdigest : sha256 [0x61, 0x62, 0x63] =
      [0xba, 0x78, 0x16, 0xbf, 0x8f, 0x01, 0xcf, 0xea, 0x41, 0x41, 0x40, 0xde, 0x5d, 0xae, 0x22, 0x23,
        0xb0, 0x03, 0x61, 0xa3, 0x96, 0x17, 0x7a, 0x9c, 0xb4, 0x10, 0xff, 0x61, 0xf2, 0x00, 0x15, 0xad] := by
    decide +kernel
  obtain ⟨⟨hfips, -⟩, hcrate⟩ := sha_fips (show ([0x61, 0x62, 0x63] : Bytes).length < 2 ^ 61 by decide)
  refine ⟨?_, (hcrate fipsRsa fipsRsa_digests).1⟩
  rw [← hfips, hdigest]

end Ironbind
