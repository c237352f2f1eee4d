import Ironbind.ConfigFile
import Ironbind.Lib.Machine

/- Client networks (`config.rs`). A network holds an address when the two are of one
   family and agree on the network's first bits, with an IPv4-mapped client taken for
   the IPv4 client that it is. The mask is made by a shift of the whole width less the
   prefix, which never overflows: a prefix that is read is at most the width, and a
   shift by the whole width, at prefix 0, leaves no mask (`network_contains_iff`). -/
namespace Ironbind
open Codec Machine

/-! The check, with its arithmetic in the open. -/

def checkedShl {w : Nat} (x : BitVec w) (n : Nat) : Option (BitVec w) := if n < w then some (x <<< n) else none

namespace Checked

def prefixMask (w : Nat) (prefixLength : UInt8) : Except Fault (BitVec w) :=
  (sub w prefixLength.toNat).map fun shift => (checkedShl (BitVec.allOnes w) shift).getD 0

/-- `Network::contains`. -/
def contains (network : Network) (ip : IpAddr) : Except Fault Bool :=
  match network.address, ip.toCanonical with
  | .V4 address, .V4 ip => (prefixMask 32 network.prefixLength).map fun mask => address &&& mask == ip &&& mask
  | .V6 address, .V6 ip => (prefixMask 128 network.prefixLength).map fun mask => address &&& mask == ip &&& mask
  | _, _ => .ok false

end Checked

/-! Addresses and their first bits. -/

/-- An IPv4-mapped IPv6 address (`::ffff:a.b.c.d`) is an IPv4 address; every other address is itself. -/
inductive Canonical : IpAddr → IpAddr → Prop
  | V4 (x : BitVec 32) : Canonical (.V4 x) (.V4 x)
  | mapped (x : BitVec 32) : Canonical (.V6 ((0xFFFF : BitVec 96) ++ x)) (.V4 x)
  | V6 (x : BitVec 128) (plain : ∀ y : BitVec 32, x ≠ (0xFFFF : BitVec 96) ++ y) : Canonical (.V6 x) (.V6 x)

/-- Bits are counted from the most significant one. -/
def SameBits {w : Nat} (n : Nat) (x y : BitVec w) : Prop := ∀ i < n, x.getMsbD i = y.getMsbD i

/-- One family, and the same first bits. -/
inductive SameNetwork (n : Nat) : IpAddr → IpAddr → Prop
  | V4 {x y : BitVec 32} (bits : SameBits n x y) : SameNetwork n (.V4 x) (.V4 y)
  | V6 {x y : BitVec 128} (bits : SameBits n x y) : SameNetwork n (.V6 x) (.V6 y)

theorem toNat_mapped (y : BitVec 32) : ((0xFFFF : BitVec 96) ++ y).toNat = 0xFFFF * 2 ^ 32 + y.toNat := by
  rw [BitVec.toNat_append, ← Nat.shiftLeft_add_eq_or_of_lt y.isLt, Nat.shiftLeft_eq]
  rfl

/-- The test for a mapped address. -/
theorem mapped_iff (x : BitVec 128) : x >>> 32 = BitVec.ofNat 128 0xFFFF ↔ x = (0xFFFF : BitVec 96) ++ x.setWidth 32 := by
  have hx := x.isLt
  have hleft : x >>> 32 = BitVec.ofNat 128 0xFFFF ↔ x.toNat / 2 ^ 32 = 0xFFFF := by
    rw [← BitVec.toNat_inj, BitVec.toNat_ushiftRight, Nat.shiftRight_eq_div_pow]
    rfl
  have hright : x = (0xFFFF : BitVec 96) ++ x.setWidth 32 ↔ x.toNat = 0xFFFF * 2 ^ 32 + x.toNat % 2 ^ 32 := by
    rw [← BitVec.toNat_inj, toNat_mapped, BitVec.toNat_setWidth]
  rw [hleft, hright]
  omega

theorem canonical_iff {ip c : IpAddr} : Canonical ip c ↔ ip.toCanonical = c := by
  constructor
  · intro h
    cases h with
    | V4 x => rfl
    | mapped y =>
      have hwidth : ((0xFFFF : BitVec 96) ++ y).setWidth 32 = y := BitVec.setWidth_append_eq_right
      have htest : ((0xFFFF : BitVec 96) ++ y) >>> 32 = BitVec.ofNat 128 0xFFFF :=
        (mapped_iff _).mpr (by rw [hwidth])
      rw [IpAddr.toCanonical, if_pos htest, hwidth]
    | V6 x hplain =>
      rw [IpAddr.toCanonical, if_neg]
      intro htest
      exact hplain _ ((mapped_iff x).mp htest)
  · intro h
    rw [← h]
    cases ip with
    | V4 x => exact .V4 x
    | V6 x =>
      rw [IpAddr.toCanonical]
      split
      · next htest =>
        have hmapped := Canonical.mapped (x.setWidth 32)
        rwa [← (mapped_iff x).mp htest] at hmapped
      · next htest =>
        apply Canonical.V6
        intro y hy
        apply htest
        rw [mapped_iff, hy]
        congr 1
        exact BitVec.setWidth_append_eq_right.symm

/-! The mask. -/

theorem SameBits.mono {w n m : Nat} {x y : BitVec w} (h : SameBits n x y) (hm : m ≤ n) : SameBits m x y := by
  intro i hi
  exact h i (Nat.lt_of_lt_of_le hi hm)

/-- Addresses are the same under the mask when their first bits are. -/
theorem mask_eq_iff {w p : Nat} (x y : BitVec w) (hp : p ≤ w) :
    x &&& (BitVec.allOnes w <<< (w - p)) = y &&& (BitVec.allOnes w <<< (w - p)) ↔ SameBits p x y := by
  have hbit : ∀ (z : BitVec w) (i : Nat), i < w →
      (z &&& (BitVec.allOnes w <<< (w - p))).getMsbD i = (z.getMsbD i && decide (i < p)) := by
    intro z i hi
    rw [BitVec.getMsbD_and, BitVec.getMsbD_shiftLeft, BitVec.getMsbD_allOnes]
    congr 1
    rw [decide_eq_decide]
    omega
  constructor
  · intro h i hi
    have hmasked := congrArg (BitVec.getMsbD · i) h
    rwa [hbit x i (by omega), hbit y i (by omega), decide_eq_true hi, Bool.and_true, Bool.and_true] at hmasked
  · intro h
    apply BitVec.eq_of_getMsbD_eq
    intro i hi
    rw [hbit x i hi, hbit y i hi]
    by_cases hip : i < p
    · rw [h i hip]
    · rw [decide_eq_false hip, Bool.and_false, Bool.and_false]

/-- A shift by the whole width leaves nothing, as the missing shift does. -/
theorem prefixMask_eq {w : Nat} {p : UInt8} (hp : p.toNat ≤ w) :
    Checked.prefixMask w p = .ok (prefixMask w p) ∧ prefixMask w p = BitVec.allOnes w <<< (w - p.toNat) := by
  have hmask : prefixMask w p = BitVec.allOnes w <<< (w - p.toNat) := by
    unfold prefixMask
    split
    · rfl
    · next hshift =>
      rw [BitVec.shiftLeft_eq_zero (by omega)]
      rfl
  refine ⟨?_, hmask⟩
  rw [Checked.prefixMask, sub_ok hp, Except.map, checkedShl, prefixMask]
  split <;> rfl

/-! Networks that are read. -/

theorem parse_prefixLength {text : Text} {network : Network} (hparse : Network.parse text = some network) :
    network.prefixLength ≤ network.address.maxPrefix := by
  unfold Network.parse at hparse
  obtain ⟨address, -, hnetwork⟩ := Option.bind_eq_some_iff.mp hparse
  split at hnetwork
  · obtain ⟨p, hp, rfl⟩ := Option.map_eq_some_iff.mp hnetwork
    exact decide_eq_true_eq.mp (Option.filter_eq_some_iff.mp hp).2
  · obtain rfl := Option.some.inj hnetwork
    exact UInt8.le_refl _

section
variable {network : Network} (hbound : network.prefixLength ≤ network.address.maxPrefix)
include hbound

/-- Nothing overflows: the subtraction stays above zero, and the shift is checked. -/
theorem checked_contains (ip : IpAddr) : Checked.contains network ip = .ok (network.contains ip) := by
  obtain ⟨address, p⟩ := network
  unfold Checked.contains Network.contains
  cases address with
  | V4 x =>
    have hp : p.toNat ≤ 32 := UInt8.le_iff_toNat_le.mp hbound
    cases ip.toCanonical with
    | V4 y =>
      dsimp only
      rw [(prefixMask_eq hp).1, Except.map]
    | V6 y => rfl
  | V6 x =>
    have hp : p.toNat ≤ 128 := UInt8.le_iff_toNat_le.mp hbound
    cases ip.toCanonical with
    | V4 y => rfl
    | V6 y =>
      dsimp only
      rw [(prefixMask_eq hp).1, Except.map]

theorem contains_iff_sameNetwork {ip c : IpAddr} (hc : Canonical ip c) :
    network.contains ip = true ↔ SameNetwork network.prefixLength.toNat network.address c := by
  obtain rfl := canonical_iff.mp hc
  obtain ⟨address, p⟩ := network
  unfold Network.contains
  cases address with
  | V4 x =>
    have hp : p.toNat ≤ 32 := UInt8.le_iff_toNat_le.mp hbound
    cases ip.toCanonical with
    | V4 y =>
      dsimp only
      rw [beq_iff_eq, (prefixMask_eq hp).2, mask_eq_iff x y hp]
      constructor
      · exact .V4
      · intro h
        cases h
        assumption
    | V6 y => exact iff_of_false Bool.false_ne_true (fun h => by cases h)
  | V6 x =>
    have hp : p.toNat ≤ 128 := UInt8.le_iff_toNat_le.mp hbound
    cases ip.toCanonical with
    | V4 y => exact iff_of_false Bool.false_ne_true (fun h => by cases h)
    | V6 y =>
      dsimp only
      rw [beq_iff_eq, (prefixMask_eq hp).2, mask_eq_iff x y hp]
      constructor
      · exact .V6
      · intro h
        cases h
        assumption

end

theorem SameNetwork.mono {n m : Nat} {address ip : IpAddr} (h : SameNetwork n address ip) (hm : m ≤ n) :
    SameNetwork m address ip := by
  cases h with
  | V4 hbits => exact .V4 (hbits.mono hm)
  | V6 hbits => exact .V6 (hbits.mono hm)

/-- **A network that is read holds the addresses with its first bits**, computed without an overflow,
    and with a longer prefix no more of them. -/
theorem network_contains_iff {text : Text} {network : Network} (hparse : Network.parse text = some network) {ip c : IpAddr}
    (hc : Canonical ip c) :
    Checked.contains network ip = .ok (network.contains ip) ∧
      (network.contains ip = true ↔ SameNetwork network.prefixLength.toNat network.address c) ∧
      ∀ text' network', Network.parse text' = some network' → network'.address = network.address →
        network.prefixLength ≤ network'.prefixLength → network'.contains ip = true → network.contains ip = true := by
  have hbound := parse_prefixLength hparse
  refine ⟨checked_contains hbound ip, contains_iff_sameNetwork hbound hc, ?_⟩
  intro text' network' hparse' hsame hlonger hcontains
  rw [contains_iff_sameNetwork (parse_prefixLength hparse') hc, hsame] at hcontains
  rw [contains_iff_sameNetwork hbound hc]
  exact hcontains.mono (UInt8.le_iff_toNat_le.mp hlonger)

/-- `10.0.0.0/8` holds the client `::ffff:10.1.2.3`. -/
theorem privateNetwork_contains : ∃ network, Network.parse "10.0.0.0/8".toList = some network ∧
    network.contains (.V6 0xFFFF0A010203) = true := by
  have hparse : Network.parse "10.0.0.0/8".toList = some ⟨.V4 0x0A000000, 8⟩ := by rfl
  have hmapped : Canonical (.V6 0xFFFF0A010203) (.V4 0x0A010203) := canonical_iff.mpr (by decide)
  refine ⟨_, hparse, (network_contains_iff hparse hmapped).2.1.mpr (.V4 ?_)⟩
  intro i hi
  have hbits : ∀ i < 8, (0x0A000000 : BitVec 32).getMsbD i = (0x0A010203 : BitVec 32).getMsbD i := by decide
  exact hbits i hi

end Ironbind
