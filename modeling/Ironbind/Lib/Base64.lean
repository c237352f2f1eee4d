import Ironbind.Lib.Text

/- Base64 text: three octets as four sextets, each a digit of the alphabet, and one or
   two octets at the end padded with '='. Joining four sextets again is arithmetic to
   the base 64 (`toNat_joined`), and the octets are its quotients (`join_three`). -/
namespace Base64
open Codec

/-- The digit of a sextet. -/
def digit (n : Nat) : Char :=
  if n < 26 then Char.ofNat (65 + n)
  else if n < 52 then Char.ofNat (97 + (n - 26))
  else if n < 62 then Char.ofNat (48 + (n - 52))
  else if n = 62 then '+'
  else '/'

/-- The text of an octet string. -/
def text : Bytes → Text
  | [] => []
  | [x] => [digit (x.toNat / 4), digit (x.toNat % 4 * 16), '=', '=']
  | [x, y] => [digit (x.toNat / 4), digit (x.toNat % 4 * 16 + y.toNat / 16), digit (y.toNat % 16 * 4), '=']
  | x :: y :: z :: rest =>
    digit (x.toNat / 4) :: digit (x.toNat % 4 * 16 + y.toNat / 16) :: digit (y.toNat % 16 * 4 + z.toNat / 64) ::
      digit (z.toNat % 64) :: text rest

/-- Digits are ASCII, and none is the padding or a blank. -/
theorem digit_ascii : ∀ n < 64, (digit n).toNat < 128 ∧ (digit n).toNat ≠ 61 ∧ 32 < (digit n).toNat := by decide

/-- Four sextets side by side. -/
def joined (a b c d : UInt32) : UInt32 := (a <<< 18) ||| (b <<< 12) ||| (c <<< 6) ||| d

theorem or_shift {hi lo : Nat} (k : Nat) (h : lo < 2 ^ k) : hi * 2 ^ k ||| lo = hi * 2 ^ k + lo := by
  rw [← Nat.shiftLeft_eq, Nat.shiftLeft_add_eq_or_of_lt h]

theorem toNat_joined {a b c d : Nat} (ha : a < 64) (hb : b < 64) (hc : c < 64) (hd : d < 64) :
    (joined (UInt32.ofNat a) (UInt32.ofNat b) (UInt32.ofNat c) (UInt32.ofNat d)).toNat =
      ((a * 64 + b) * 64 + c) * 64 + d := by
  have hshift : ∀ n k, n < 64 → k ≤ 18 → ((UInt32.ofNat n) <<< (UInt32.ofNat k)).toNat = n * 2 ^ k := by
    intro n k hn hk
    have hpow : 2 ^ k ≤ 2 ^ 18 := Nat.pow_le_pow_right (by decide) hk
    have hle : n * 2 ^ k ≤ 63 * 2 ^ 18 := Nat.mul_le_mul (by omega) hpow
    have hsize : n * 2 ^ k < 2 ^ 32 := by omega
    have hn' : n < UInt32.size := Nat.lt_trans hn (by decide)
    have hk' : k < UInt32.size := Nat.lt_of_le_of_lt hk (by decide)
    rw [UInt32.toNat_shiftLeft, UInt32.toNat_ofNat_of_lt' hn', UInt32.toNat_ofNat_of_lt' hk',
      Nat.mod_eq_of_lt (a := k) (by omega), Nat.shiftLeft_eq, Nat.mod_eq_of_lt hsize]
  have h18 := hshift a 18 ha (by decide)
  have h12 := hshift b 12 hb (by decide)
  have h6 := hshift c 6 hc (by decide)
  have hd' : (UInt32.ofNat d).toNat = d := UInt32.toNat_ofNat_of_lt' (Nat.lt_trans hd (by decide))
  calc (joined (UInt32.ofNat a) (UInt32.ofNat b) (UInt32.ofNat c) (UInt32.ofNat d)).toNat
      = a * 2 ^ 18 ||| b * 2 ^ 12 ||| c * 2 ^ 6 ||| d := by
        simp only [joined, UInt32.toNat_or]
        rw [show (18 : UInt32) = UInt32.ofNat 18 from rfl, show (12 : UInt32) = UInt32.ofNat 12 from rfl,
          show (6 : UInt32) = UInt32.ofNat 6 from rfl, h18, h12, h6, hd']
    _ = a * 2 ^ 18 ||| (b * 2 ^ 12 ||| (c * 2 ^ 6 ||| d)) := by simp only [Nat.or_assoc]
    _ = a * 2 ^ 18 + (b * 2 ^ 12 + (c * 2 ^ 6 + d)) := by
        rw [or_shift 6 (by omega), or_shift 12 (by omega), or_shift 18 (by omega)]
    _ = ((a * 64 + b) * 64 + c) * 64 + d := by ring

/-- The three octets of four sextets. -/
theorem joined_octets {a b c d : Nat} (ha : a < 64) (hb : b < 64) (hc : c < 64) (hd : d < 64) :
    let n := joined (UInt32.ofNat a) (UInt32.ofNat b) (UInt32.ofNat c) (UInt32.ofNat d)
    (n >>> 16).toUInt8 = UInt8.ofNat (a * 4 + b / 16) ∧ (n >>> 8).toUInt8 = UInt8.ofNat (b % 16 * 16 + c / 4) ∧
      n.toUInt8 = UInt8.ofNat (c % 4 * 64 + d) := by
  intro n
  have hn : n.toNat = ((a * 64 + b) * 64 + c) * 64 + d := toNat_joined ha hb hc hd
  have h16 : (n >>> 16).toNat = n.toNat / 65536 := by
    rw [UInt32.toNat_shiftRight, Nat.shiftRight_eq_div_pow]; rfl
  have h8 : (n >>> 8).toNat = n.toNat / 256 := by
    rw [UInt32.toNat_shiftRight, Nat.shiftRight_eq_div_pow]; rfl
  refine ⟨?_, ?_, ?_⟩
  · apply UInt8.toNat_inj.mp
    rw [UInt32.toNat_toUInt8, h16, hn, UInt8.toNat_ofNat']
    omega
  · apply UInt8.toNat_inj.mp
    rw [UInt32.toNat_toUInt8, h8, hn, UInt8.toNat_ofNat']
    omega
  · apply UInt8.toNat_inj.mp
    rw [UInt32.toNat_toUInt8, hn, UInt8.toNat_ofNat']
    omega

end Base64
