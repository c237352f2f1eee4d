import Ironbind.Zone

/- The type bitmap of an NSEC record (RFC 4034 section 4.1.2), read back: a type is
   in the bitmap that `encode_nsec_bitmap` makes of a list of types exactly when it
   is in the list (`bitmapContains_encode`). Windows are kept in the order of their
   numbers, each with 32 octets, until the zero octets at their ends are cut off. -/
namespace Ironbind
open Codec

/-! Reading a bitmap. -/

/-- Bit `n` of a window, counted from the most significant bit of its first octet; octets
    that are not there are zero. -/
def testBit (bits : Bytes) (n : Nat) : Bool := bits.getD (n / 8) 0 &&& (0x80 >>> UInt8.ofNat (n % 8)) != 0

def windowOf (t : UInt16) : UInt8 := (t >>> 8).toUInt8
def bitOf (t : UInt16) : Nat := (t &&& 0xFF).toNat

/-- Whether a window holds the type: the windows are a number, a length and as many octets each. -/
def containsLoop : Nat → Bytes → UInt16 → Bool
  | fuel + 1, win :: len :: rest, t =>
    (win == windowOf t && testBit (rest.take len.toNat) (bitOf t)) || containsLoop fuel (rest.drop len.toNat) t
  | _, _, _ => false

def bitmapContains (bitmap : Bytes) (t : UInt16) : Bool := containsLoop bitmap.length bitmap t

/-! Bits. -/

theorem bitOf_lt (t : UInt16) : bitOf t < 256 := by
  rw [bitOf, UInt16.toNat_and]
  exact Nat.lt_of_le_of_lt Nat.and_le_right (by decide)

theorem windowOf_toNat (t : UInt16) : (windowOf t).toNat = t.toNat / 256 := by
  have hlt := t.toNat_lt
  rw [windowOf, UInt16.toNat_toUInt8, UInt16.toNat_shiftRight, Nat.shiftRight_eq_div_pow]
  exact Nat.mod_eq_of_lt (by simp; omega)

theorem bitOf_eq (t : UInt16) : bitOf t = t.toNat % 256 := by
  rw [bitOf, UInt16.toNat_and]
  exact Nat.and_two_pow_sub_one_eq_mod t.toNat 8

theorem eq_of_window_bit {t t' : UInt16} (hw : windowOf t = windowOf t') (hb : bitOf t = bitOf t') : t = t' := by
  have hdiv := congrArg UInt8.toNat hw
  rw [windowOf_toNat, windowOf_toNat] at hdiv
  rw [bitOf_eq, bitOf_eq] at hb
  exact UInt16.toNat_inj.mp (by omega)

/-- The masks of two bits of an octet meet only when the bits are one. -/
theorem mask_and_mask : ∀ i j : Fin 8,
    ((0x80 : UInt8) >>> UInt8.ofNat i &&& 0x80 >>> UInt8.ofNat j != 0) = decide (i = j) := by decide

theorem or_and_ne_zero (a x y : UInt8) : ((a ||| x) &&& y != 0) = ((a &&& y != 0) || (x &&& y != 0)) := by
  have hdistrib : (a ||| x) &&& y = (a &&& y) ||| (x &&& y) := by
    apply UInt8.toNat_inj.mp
    simp only [UInt8.toNat_and, UInt8.toNat_or]
    exact Nat.and_or_distrib_right ..
  rw [hdistrib, Bool.eq_iff_iff]
  simp only [bne_iff_ne, ne_eq, UInt8.or_eq_zero_iff, not_and_or, Bool.or_eq_true]

theorem setBit_length (bits : Bytes) (n : Nat) : (setBit bits n).length = bits.length := List.length_modify ..

theorem testBit_setBit {bits : Bytes} (hlen : bits.length = 32) {n : Nat} (hn : n < 256) (m : Nat) :
    testBit (setBit bits n) m = (decide (m = n) || testBit bits m) := by
  unfold testBit setBit
  by_cases hoct : n / 8 = m / 8
  · have hlt : m / 8 < bits.length := by omega
    have hget : (bits.modify (n / 8) (· ||| 0x80 >>> UInt8.ofNat (n % 8))).getD (m / 8) 0 =
        bits.getD (m / 8) 0 ||| 0x80 >>> UInt8.ofNat (n % 8) := by
      rw [List.getD_eq_getElem?_getD, List.getElem?_modify, List.getD_eq_getElem?_getD,
        List.getElem?_eq_getElem hlt]
      exact if_pos hoct
    have hmask := mask_and_mask ⟨n % 8, Nat.mod_lt n (by decide)⟩ ⟨m % 8, Nat.mod_lt m (by decide)⟩
    have hbit : decide (n % 8 = m % 8) = decide (m = n) := by
      rw [decide_eq_decide]; omega
    rw [hget, or_and_ne_zero, Bool.or_comm]
    congr 1
    rw [hmask, ← hbit]
    exact decide_eq_decide.mpr (Fin.mk.injEq ..).to_iff
  · have hget : (bits.modify (n / 8) (· ||| 0x80 >>> UInt8.ofNat (n % 8))).getD (m / 8) 0 = bits.getD (m / 8) 0 := by
      rw [List.getD_eq_getElem?_getD, List.getElem?_modify, List.getD_eq_getElem?_getD]
      simp [hoct]
    have hne : m ≠ n := fun e => hoct (by rw [e])
    rw [hget, decide_eq_false hne, Bool.false_or]

theorem testBit_zeros (m : Nat) : testBit (List.replicate 32 0) m = false := by
  have hget : (List.replicate 32 (0 : UInt8)).getD (m / 8) 0 = 0 := by
    rw [List.getD_eq_getElem?_getD, List.getElem?_replicate]
    split <;> rfl
  rw [testBit, hget]
  simp

/-! Windows. -/

/-- Whether the windows hold a type. -/
def windowsContain (windows : List (UInt8 × Bytes)) (t : UInt16) : Bool :=
  windows.any fun w => w.1 == windowOf t && testBit w.2 (bitOf t)

/-- Window numbers increase, and every window has its 32 octets. -/
structure Windows (windows : List (UInt8 × Bytes)) : Prop where
  sorted : windows.Pairwise fun a b => a.1 < b.1
  full : ∀ w ∈ windows, w.2.length = 32

theorem addType_mem_fst (t : UInt16) : ∀ (windows : List (UInt8 × Bytes)) (w : UInt8 × Bytes), w ∈ addType t windows →
    w.1 = windowOf t ∨ ∃ w' ∈ windows, w'.1 = w.1
  | [], w, h => by
    rw [addType, List.mem_singleton] at h
    exact .inl (congrArg Prod.fst h)
  | (win, bits) :: windows, w, h => by
    rw [addType] at h
    split at h
    · rcases List.mem_cons.mp h with rfl | h
      · exact .inl rfl
      · exact .inr ⟨w, h, rfl⟩
    · split at h
      · rcases List.mem_cons.mp h with rfl | h
        · exact .inr ⟨_, List.mem_cons_self, rfl⟩
        · exact .inr ⟨w, List.mem_cons_of_mem _ h, rfl⟩
      · rcases List.mem_cons.mp h with rfl | h
        · exact .inr ⟨_, List.mem_cons_self, rfl⟩
        · rcases addType_mem_fst t windows w h with h | ⟨w', hw', hfst⟩
          · exact .inl h
          · exact .inr ⟨w', List.mem_cons_of_mem _ hw', hfst⟩

theorem setBit_zeros_length (n : Nat) : (setBit (List.replicate 32 0) n).length = 32 := by
  rw [setBit_length, List.length_replicate]

theorem Windows.addType (t : UInt16) : ∀ {windows : List (UInt8 × Bytes)}, Windows windows →
    Windows (addType t windows)
  | [], _ => ⟨List.pairwise_singleton _ _, fun w hw => by
      rw [List.mem_singleton.mp hw]; exact setBit_zeros_length _⟩
  | (win, bits) :: windows, h => by
    obtain ⟨hwin, hrest⟩ := List.pairwise_cons.mp h.sorted
    have hbits : bits.length = 32 := h.full _ List.mem_cons_self
    rw [Ironbind.addType]
    split
    · next hlt =>
      refine ⟨List.pairwise_cons.mpr ⟨fun w hw => ?_, h.sorted⟩, fun w hw => ?_⟩
      · rcases List.mem_cons.mp hw with rfl | hw
        · exact hlt
        · exact lt_trans hlt (hwin w hw)
      · rcases List.mem_cons.mp hw with rfl | hw
        · exact setBit_zeros_length _
        · exact h.full w hw
    · next hnlt =>
      split
      · refine ⟨List.pairwise_cons.mpr ⟨hwin, hrest⟩, fun w hw => ?_⟩
        rcases List.mem_cons.mp hw with rfl | hw
        · exact (setBit_length bits _).trans hbits
        · exact h.full w (List.mem_cons_of_mem _ hw)
      · next hne =>
        have ih := Windows.addType t ⟨hrest, fun w hw => h.full w (List.mem_cons_of_mem _ hw)⟩
        refine ⟨List.pairwise_cons.mpr ⟨fun w hw => ?_, ih.sorted⟩, fun w hw => ?_⟩
        · rcases addType_mem_fst t windows w hw with hfst | ⟨w', hw', hfst⟩
          · rw [hfst]
            exact lt_of_le_of_ne (not_lt.mp hnlt) fun e => hne e.symm
          · rw [← hfst]; exact hwin w' hw'
        · rcases List.mem_cons.mp hw with rfl | hw
          · exact hbits
          · exact ih.full w hw

/-- Entering a type adds that type and no other. -/
theorem windowsContain_addType (t t' : UInt16) : ∀ {windows : List (UInt8 × Bytes)}, (∀ w ∈ windows, w.2.length = 32) →
    windowsContain (addType t windows) t' = (decide (t' = t) || windowsContain windows t') := by
  have hnew : ∀ {bits : Bytes}, bits.length = 32 →
      (windowOf t == windowOf t' && testBit (setBit bits (bitOf t)) (bitOf t'))
      = (decide (t' = t) || (windowOf t == windowOf t' && testBit bits (bitOf t'))) := fun {bits} hbits => by
    rw [testBit_setBit hbits (bitOf_lt t), Bool.and_or_distrib_left]
    congr 1
    rw [Bool.eq_iff_iff, Bool.and_eq_true, beq_iff_eq, decide_eq_true_eq, decide_eq_true_eq]
    exact ⟨fun h => (eq_of_window_bit h.1 h.2.symm).symm, fun h => by rw [h]; exact ⟨rfl, rfl⟩⟩
  have hfresh : (windowOf t == windowOf t' && testBit (setBit (List.replicate 32 0) (bitOf t)) (bitOf t')) =
      decide (t' = t) := by
    rw [hnew (List.length_replicate ..), testBit_zeros, Bool.and_false, Bool.or_false]
  intro windows
  induction windows with
  | nil => intro _; exact (Bool.or_false _).trans (hfresh.trans (Bool.or_false _).symm)
  | cons w windows ih =>
    obtain ⟨win, bits⟩ := w
    intro hfull
    have hbits : bits.length = 32 := hfull _ List.mem_cons_self
    rw [addType]
    split
    · exact congrArg (· || _) hfresh
    · split
      · next hwin =>
        have hwin : windowOf t = win := hwin
        show ((win == windowOf t' && testBit (setBit bits (bitOf t)) (bitOf t')) || _) =
          (decide (t' = t) || ((win == windowOf t' && testBit bits (bitOf t')) || _))
        rw [← hwin, hnew hbits, Bool.or_assoc]
      · have ih := ih fun w hw => hfull w (List.mem_cons_of_mem _ hw)
        show (_ || windowsContain (addType t windows) t') = (decide (t' = t) || (_ || windowsContain windows t'))
        rw [ih, Bool.or_left_comm]

theorem foldl_addType (t' : UInt16) : ∀ (types : List UInt16) {windows : List (UInt8 × Bytes)}, Windows windows →
    Windows (types.foldl (fun windows t => addType t windows) windows) ∧
      windowsContain (types.foldl (fun windows t => addType t windows) windows) t' =
        (decide (t' ∈ types) || windowsContain windows t')
  | [], _, h => ⟨h, by simp⟩
  | t :: types, windows, h => by
    obtain ⟨hw, hc⟩ := foldl_addType t' types (h.addType t)
    refine ⟨hw, ?_⟩
    have hmem : decide (t' ∈ t :: types) = (decide (t' = t) || decide (t' ∈ types)) := by
      rw [← Bool.decide_or]; exact decide_eq_decide.mpr List.mem_cons
    rw [List.foldl_cons, hc, windowsContain_addType t t' h.full, ← Bool.or_assoc, hmem,
      Bool.or_comm (decide (t' ∈ types))]

/-! The wire form. -/

/-- What stands of a window on the wire. -/
def usedBits (bits : Bytes) : Bytes := bits.rdropWhile (· == 0)

theorem testBit_usedBits (bits : Bytes) (m : Nat) : testBit (usedBits bits) m = testBit bits m := by
  have hsplit : bits = usedBits bits ++ bits.rtakeWhile (· == 0) := List.rdropWhile_append_rtakeWhile.symm
  have hget : (usedBits bits).getD (m / 8) 0 = bits.getD (m / 8) 0 := by
    conv_rhs => rw [hsplit]
    simp only [List.getD_eq_getElem?_getD]
    rcases Nat.lt_or_ge (m / 8) (usedBits bits).length with h | h
    · rw [List.getElem?_append_left h]
    · -- behind the used octets there are only zeros
      rw [List.getElem?_append_right h, List.getElem?_eq_none h]
      cases hz : (bits.rtakeWhile (· == 0))[m / 8 - (usedBits bits).length]? with
      | none => rfl
      | some b =>
        have hzero := List.mem_rtakeWhile_imp (List.mem_of_getElem? hz)
        exact (beq_iff_eq.mp hzero).symm
  rw [testBit, testBit, hget]

theorem encodeWindow_eq {w : UInt8 × Bytes} : encodeWindow w =
    if usedBits w.2 = [] then [] else w.1 :: UInt8.ofNat (usedBits w.2).length :: usedBits w.2 := by
  have htake : w.2.take (usedBits w.2).length = usedBits w.2 :=
    (List.prefix_iff_eq_take.mp (List.rdropWhile_prefix _ _)).symm
  rw [encodeWindow]
  show (if (usedBits w.2).length = 0 then _ else _) = _
  simp only [List.length_eq_zero_iff]
  split
  · rfl
  · exact congrArg (w.1 :: UInt8.ofNat (usedBits w.2).length :: ·) htake

/-- Windows on the wire hold the types they hold. -/
theorem containsLoop_encode (t : UInt16) : ∀ {windows : List (UInt8 × Bytes)} (fuel : Nat),
    (∀ w ∈ windows, w.2.length = 32) → (windows.flatMap encodeWindow).length ≤ fuel →
    containsLoop fuel (windows.flatMap encodeWindow) t = windowsContain windows t
  | [], fuel, _, _ => by cases fuel <;> rfl
  | w :: windows, fuel, hfull, hfuel => by
    have hrest : ∀ w' ∈ windows, w'.2.length = 32 := fun w' hw' => hfull w' (List.mem_cons_of_mem _ hw')
    have hused : (usedBits w.2).length ≤ 32 := (hfull w List.mem_cons_self) ▸ (List.rdropWhile_prefix _ _).length_le
    rw [List.flatMap_cons, encodeWindow_eq] at hfuel ⊢
    have hhead : windowsContain (w :: windows) t =
        ((w.1 == windowOf t && testBit (usedBits w.2) (bitOf t)) || windowsContain windows t) := by
      rw [testBit_usedBits]; rfl
    rw [hhead]
    by_cases hnil : usedBits w.2 = []
    · rw [if_pos hnil] at hfuel ⊢
      have hbit : testBit (usedBits w.2) (bitOf t) = false := by rw [hnil]; simp [testBit]
      rw [hbit, Bool.and_false, Bool.false_or]
      exact containsLoop_encode t fuel hrest hfuel
    · rw [if_neg hnil] at hfuel ⊢
      simp only [List.cons_append, List.length_cons] at hfuel ⊢
      obtain ⟨fuel, rfl⟩ : ∃ n, fuel = n + 1 := ⟨fuel - 1, by omega⟩
      have hlen : (UInt8.ofNat (usedBits w.2).length).toNat = (usedBits w.2).length := by
        rw [UInt8.toNat_ofNat']; exact Nat.mod_eq_of_lt (by omega)
      rw [containsLoop, hlen, List.take_left, List.drop_left]
      rw [List.length_append] at hfuel
      rw [containsLoop_encode t fuel hrest (by omega)]

/-- **The bitmap of a list of types holds exactly those types.** -/
theorem bitmapContains_encode (types : List UInt16) (t : UInt16) :
    bitmapContains (encodeNsecBitmap types) t = true ↔ t ∈ types := by
  have hnone : Windows [] := ⟨List.Pairwise.nil, by simp⟩
  obtain ⟨hw, hc⟩ := foldl_addType t types hnone
  rw [bitmapContains, encodeNsecBitmap, containsLoop_encode t _ hw.full (Nat.le_refl _), hc]
  simp [windowsContain]

end Ironbind
