import Ironbind.TypeBitmap

/- The form of a type bitmap (RFC 4034 section 4.1.2). A bitmap is a list of window
   blocks, each a number, a length and as many octets. Blocks stand in the order of
   their numbers, have between 1 and 32 octets, and do not end in a zero octet
   (`RfcBitmap`). The types in it then decide a bitmap: two of the form that hold the
   same types are the same (`RfcBitmap.unique`), so `encode_nsec_bitmap` makes the one
   bitmap of the form that holds the types it is given (`encodes_iff`). -/
namespace Ironbind
open Codec

/-! Blocks. -/

/-- The form of the blocks of a bitmap. -/
structure RfcBitmap (blocks : List (UInt8 × Bytes)) : Prop where
  increasing : blocks.Pairwise fun a b => a.1 < b.1
  length_pos : ∀ w ∈ blocks, 1 ≤ w.2.length
  length_le : ∀ w ∈ blocks, w.2.length ≤ 32
  last : ∀ w ∈ blocks, w.2.getLast? ≠ some 0

def blockBytes (w : UInt8 × Bytes) : Bytes := w.1 :: UInt8.ofNat w.2.length :: w.2

/-- The blocks of a bitmap, when it is made of whole blocks. -/
def readBlocks : Nat → Bytes → Option (List (UInt8 × Bytes))
  | _, [] => some []
  | fuel + 1, win :: len :: rest =>
    if len.toNat ≤ rest.length then
      (readBlocks fuel (rest.drop len.toNat)).map fun blocks => (win, rest.take len.toNat) :: blocks
    else none
  | _, _ => none

/-- The bitmap has the form, and the types in it are those of the set. -/
def Encodes (bitmap : Bytes) (types : Set UInt16) : Prop :=
  ∃ blocks, readBlocks bitmap.length bitmap = some blocks ∧ RfcBitmap blocks ∧
    ∀ t, t ∈ types ↔ windowsContain blocks t = true

theorem readBlocks_sound {blocks : List (UInt8 × Bytes)} : ∀ {fuel : Nat} {bitmap : Bytes},
    readBlocks fuel bitmap = some blocks → bitmap = blocks.flatMap blockBytes := by
  induction blocks with
  | nil =>
    intro fuel bitmap h
    cases bitmap with
    | nil => rfl
    | cons win rest =>
      cases fuel with
      | zero => simp [readBlocks] at h
      | succ fuel =>
        cases rest with
        | nil => cases h
        | cons len rest =>
          rw [readBlocks] at h
          split at h
          · obtain ⟨blocks, -, heq⟩ := Option.map_eq_some_iff.mp h
            cases heq
          · cases h
  | cons w blocks ih =>
    intro fuel bitmap h
    cases bitmap with
    | nil => cases fuel <;> cases h
    | cons win rest =>
      cases fuel with
      | zero => simp [readBlocks] at h
      | succ fuel =>
        cases rest with
        | nil => cases h
        | cons len rest =>
          rw [readBlocks] at h
          split at h
          · next hlen =>
            obtain ⟨blocks', hrest, heq⟩ := Option.map_eq_some_iff.mp h
            cases heq
            have htake : (rest.take len.toNat).length = len.toNat := List.length_take_of_le hlen
            rw [List.flatMap_cons, blockBytes, ← ih hrest, htake, UInt8.ofNat_toNat, List.cons_append,
              List.cons_append, List.take_append_drop]
          · cases h

theorem readBlocks_blockBytes : ∀ {blocks : List (UInt8 × Bytes)} (fuel : Nat), (∀ w ∈ blocks, w.2.length ≤ 32) →
    (blocks.flatMap blockBytes).length ≤ fuel → readBlocks fuel (blocks.flatMap blockBytes) = some blocks
  | [], fuel, _, _ => by cases fuel <;> rfl
  | w :: blocks, fuel, hlen, hfuel => by
    obtain ⟨hw, hrest⟩ := List.forall_mem_cons.mp hlen
    rw [List.flatMap_cons, blockBytes, List.cons_append, List.cons_append] at hfuel ⊢
    rw [List.length_cons, List.length_cons, List.length_append] at hfuel
    obtain ⟨fuel, rfl⟩ : ∃ n, fuel = n + 1 := ⟨fuel - 1, by omega⟩
    have hoctet : (UInt8.ofNat w.2.length).toNat = w.2.length := by
      rw [UInt8.toNat_ofNat']
      exact Nat.mod_eq_of_lt (by omega)
    have hroom : w.2.length ≤ (w.2 ++ blocks.flatMap blockBytes).length := by
      rw [List.length_append]
      exact Nat.le_add_right _ _
    rw [readBlocks, hoctet, if_pos hroom, List.take_left, List.drop_left, readBlocks_blockBytes fuel hrest (by omega)]
    rfl

/-! The types decide the blocks. -/

/-- The type of a window with this bit. -/
def typeOf (win : UInt8) (n : Nat) : UInt16 := UInt16.ofNat (win.toNat * 256 + n)

theorem typeOf_parts (win : UInt8) {n : Nat} (hn : n < 256) :
    windowOf (typeOf win n) = win ∧ bitOf (typeOf win n) = n := by
  have hwin := win.toNat_lt
  have hnat : (typeOf win n).toNat = win.toNat * 256 + n := by
    rw [typeOf, UInt16.toNat_ofNat']
    exact Nat.mod_eq_of_lt (by omega)
  constructor
  · apply UInt8.toNat_inj.mp
    rw [windowOf_toNat, hnat]
    omega
  · rw [bitOf_eq, hnat]
    omega

/-- The masks take the bits of an octet, the most significant first. -/
theorem mask_testBit (a : UInt8) (j : Fin 8) : (a &&& (0x80 >>> UInt8.ofNat j) != 0) = a.toNat.testBit (7 - j) := by
  have hall : ∀ (a : Fin 256) (j : Fin 8),
      (UInt8.ofNat a &&& (0x80 >>> UInt8.ofNat j) != 0) = a.val.testBit (7 - j) := by decide +kernel
  have h := hall ⟨a.toNat, a.toNat_lt⟩ j
  rwa [UInt8.ofNat_toNat] at h

theorem octet_ext {a b : UInt8}
    (h : ∀ j < 8, (a &&& (0x80 >>> UInt8.ofNat j) != 0) = (b &&& (0x80 >>> UInt8.ofNat j) != 0)) :
    a = b := by
  apply UInt8.toNat_inj.mp
  apply Nat.eq_of_testBit_eq
  intro i
  by_cases hi : i < 8
  · have hj := h (7 - i) (by omega)
    rw [mask_testBit a ⟨7 - i, by omega⟩, mask_testBit b ⟨7 - i, by omega⟩] at hj
    have hback : 7 - (7 - i) = i := by omega
    rwa [hback] at hj
  · have hpow : 2 ^ 8 ≤ 2 ^ i := Nat.pow_le_pow_right (by decide) (by omega)
    rw [Nat.testBit_lt_two_pow (Nat.lt_of_lt_of_le a.toNat_lt hpow),
      Nat.testBit_lt_two_pow (Nat.lt_of_lt_of_le b.toNat_lt hpow)]

/-- The bits of a window decide its octets. -/
theorem getD_ext {bits bits' : Bytes} (h : ∀ n < 256, testBit bits n = testBit bits' n) {i : Nat} (hi : i < 32) :
    bits.getD i 0 = bits'.getD i 0 := by
  apply octet_ext
  intro j hj
  have hbit := h (8 * i + j) (by omega)
  have hdiv : (8 * i + j) / 8 = i := by omega
  have hmod : (8 * i + j) % 8 = j := by omega
  rwa [testBit, testBit, hdiv, hmod] at hbit

theorem getLast?_getD {bits : Bytes} (hpos : 1 ≤ bits.length) : bits.getLast? = some (bits.getD (bits.length - 1) 0) := by
  rw [List.getLast?_eq_getElem?, List.getD_eq_getElem?_getD, List.getElem?_eq_getElem (by omega), Option.getD_some]

theorem length_le_of_bits {bits bits' : Bytes} (h : ∀ n < 256, testBit bits n = testBit bits' n) (hpos : 1 ≤ bits.length)
    (hle : bits.length ≤ 32) (hlast : bits.getLast? ≠ some 0) : bits.length ≤ bits'.length := by
  by_contra hlt
  -- behind its octets the other window is zero
  have hzero : bits'.getD (bits.length - 1) 0 = 0 := by
    rw [List.getD_eq_getElem?_getD, List.getElem?_eq_none (by omega), Option.getD_none]
  apply hlast
  rw [getLast?_getD hpos, getD_ext h (by omega), hzero]

theorem bits_ext {bits bits' : Bytes} (h : ∀ n < 256, testBit bits n = testBit bits' n) (hpos : 1 ≤ bits.length)
    (hpos' : 1 ≤ bits'.length) (hle : bits.length ≤ 32) (hle' : bits'.length ≤ 32) (hlast : bits.getLast? ≠ some 0)
    (hlast' : bits'.getLast? ≠ some 0) : bits = bits' := by
  have hlen : bits.length = bits'.length := Nat.le_antisymm (length_le_of_bits h hpos hle hlast)
    (length_le_of_bits (fun n hn => (h n hn).symm) hpos' hle' hlast')
  apply List.ext_getElem hlen
  intro i hi hi'
  have hget := getD_ext h (i := i) (by omega)
  rwa [List.getD_eq_getElem?_getD, List.getD_eq_getElem?_getD, List.getElem?_eq_getElem hi,
    List.getElem?_eq_getElem hi'] at hget

/-- A block holds a type. -/
theorem exists_bit {bits : Bytes} (hpos : 1 ≤ bits.length) (hle : bits.length ≤ 32) (hlast : bits.getLast? ≠ some 0) :
    ∃ n < 256, testBit bits n = true := by
  by_contra hnone
  have hzero : ∀ n < 256, testBit bits n = testBit [] n := by
    intro n hn
    have hbit : testBit bits n = false := by
      rw [Bool.eq_false_iff]
      intro h
      exact hnone ⟨n, hn, h⟩
    rw [hbit]
    simp [testBit]
  have hlen := length_le_of_bits hzero hpos hle hlast
  rw [List.length_nil] at hlen
  omega

theorem windowsContain_iff {blocks : List (UInt8 × Bytes)} {t : UInt16} :
    windowsContain blocks t = true ↔ ∃ w ∈ blocks, w.1 = windowOf t ∧ testBit w.2 (bitOf t) = true := by
  simp [windowsContain, List.any_eq_true]

namespace RfcBitmap
variable {w : UInt8 × Bytes} {blocks blocks' : List (UInt8 × Bytes)}

theorem tail (h : RfcBitmap (w :: blocks)) : RfcBitmap blocks where
  increasing := (List.pairwise_cons.mp h.increasing).2
  length_pos := (List.forall_mem_cons.mp h.length_pos).2
  length_le := (List.forall_mem_cons.mp h.length_le).2
  last := (List.forall_mem_cons.mp h.last).2

theorem window_lt (h : RfcBitmap (w :: blocks)) : ∀ w' ∈ blocks, w.1 < w'.1 := (List.pairwise_cons.mp h.increasing).1

/-- The first block's bits are the types of its window. -/
theorem head_bits (h : RfcBitmap (w :: blocks)) {n : Nat} (hn : n < 256) :
    testBit w.2 n = true ↔ windowsContain (w :: blocks) (typeOf w.1 n) = true := by
  obtain ⟨hwin, hbit⟩ := typeOf_parts w.1 hn
  rw [windowsContain_iff, hwin, hbit]
  constructor
  · intro hset
    exact ⟨w, List.mem_cons_self, rfl, hset⟩
  · intro hcontains
    obtain ⟨w', hw', hsame, hset⟩ := hcontains
    rcases List.mem_cons.mp hw' with rfl | hlater
    · exact hset
    · exact absurd hsame (h.window_lt w' hlater).ne'

theorem head_contained (h : RfcBitmap (w :: blocks)) : ∃ t, windowOf t = w.1 ∧ windowsContain (w :: blocks) t = true := by
  obtain ⟨n, hn, hset⟩ := exists_bit (h.length_pos w List.mem_cons_self) (h.length_le w List.mem_cons_self)
    (h.last w List.mem_cons_self)
  exact ⟨typeOf w.1 n, (typeOf_parts w.1 hn).1, (h.head_bits hn).mp hset⟩

/-- No window comes before the first. -/
theorem window_ge (h : RfcBitmap (w :: blocks)) {t : UInt16} (hcontains : windowsContain (w :: blocks) t = true) :
    w.1 ≤ windowOf t := by
  obtain ⟨w', hw', hsame, -⟩ := windowsContain_iff.mp hcontains
  rw [← hsame]
  rcases List.mem_cons.mp hw' with rfl | hlater
  · exact le_refl _
  · exact (h.window_lt w' hlater).le

/-- The types behind the first block are those of later windows. -/
theorem tail_contains (h : RfcBitmap (w :: blocks)) (t : UInt16) :
    windowsContain blocks t = true ↔ w.1 ≠ windowOf t ∧ windowsContain (w :: blocks) t = true := by
  constructor
  · intro hcontains
    obtain ⟨w', hw', hsame, hset⟩ := windowsContain_iff.mp hcontains
    refine ⟨?_, windowsContain_iff.mpr ⟨w', List.mem_cons_of_mem _ hw', hsame, hset⟩⟩
    rw [← hsame]
    exact (h.window_lt w' hw').ne
  · intro hcontains
    obtain ⟨hne, hcontains⟩ := hcontains
    obtain ⟨w', hw', hsame, hset⟩ := windowsContain_iff.mp hcontains
    rcases List.mem_cons.mp hw' with rfl | hlater
    · exact absurd hsame hne
    · exact windowsContain_iff.mpr ⟨w', hlater, hsame, hset⟩

/-- **Bitmaps of the form that hold the same types are the same.** -/
theorem unique : ∀ {blocks blocks' : List (UInt8 × Bytes)}, RfcBitmap blocks → RfcBitmap blocks' →
    (∀ t, windowsContain blocks t = true ↔ windowsContain blocks' t = true) → blocks = blocks'
  | [], [], _, _, _ => rfl
  | [], w' :: blocks', _, h', hsame => by
    obtain ⟨t, -, hcontains⟩ := h'.head_contained
    have hnone := (hsame t).mpr hcontains
    cases hnone
  | w :: blocks, [], h, _, hsame => by
    obtain ⟨t, -, hcontains⟩ := h.head_contained
    have hnone := (hsame t).mp hcontains
    cases hnone
  | w :: blocks, w' :: blocks', h, h', hsame => by
    have hwin : w.1 = w'.1 := by
      apply le_antisymm
      · obtain ⟨t, ht, hcontains⟩ := h'.head_contained
        rw [← ht]
        exact h.window_ge ((hsame t).mpr hcontains)
      · obtain ⟨t, ht, hcontains⟩ := h.head_contained
        rw [← ht]
        exact h'.window_ge ((hsame t).mp hcontains)
    have hbits : w.2 = w'.2 := by
      apply bits_ext
      · intro n hn
        rw [Bool.eq_iff_iff, h.head_bits hn, h'.head_bits hn, ← hwin]
        exact hsame _
      · exact h.length_pos w List.mem_cons_self
      · exact h'.length_pos w' List.mem_cons_self
      · exact h.length_le w List.mem_cons_self
      · exact h'.length_le w' List.mem_cons_self
      · exact h.last w List.mem_cons_self
      · exact h'.last w' List.mem_cons_self
    have hrest : blocks = blocks' := by
      apply unique h.tail h'.tail
      intro t
      rw [h.tail_contains, h'.tail_contains, hwin, hsame]
    rw [Prod.ext hwin hbits, hrest]

end RfcBitmap

/-! The bitmap of a list of types. -/

/-- The windows that are written: those with a bit, cut behind their last one. -/
def writtenBlocks (windows : List (UInt8 × Bytes)) : List (UInt8 × Bytes) :=
  (windows.map fun w => (w.1, usedBits w.2)).filter (·.2 ≠ [])

theorem flatMap_encodeWindow (windows : List (UInt8 × Bytes)) :
    windows.flatMap encodeWindow = (writtenBlocks windows).flatMap blockBytes := by
  induction windows with
  | nil => rfl
  | cons w windows ih =>
    rw [List.flatMap_cons, ih, encodeWindow_eq, writtenBlocks, writtenBlocks, List.map_cons, List.filter_cons]
    by_cases hnil : usedBits w.2 = []
    · rw [if_pos hnil, if_neg (by simp [hnil])]
      rfl
    · rw [if_neg hnil, if_pos (by simp [hnil])]
      rfl

theorem Windows.written {windows : List (UInt8 × Bytes)} (h : Windows windows) : RfcBitmap (writtenBlocks windows) := by
  have hmem : ∀ w' ∈ writtenBlocks windows, ∃ w ∈ windows, w' = (w.1, usedBits w.2) ∧ usedBits w.2 ≠ [] := by
    intro w' hw'
    obtain ⟨hmap, hne⟩ := List.mem_filter.mp hw'
    obtain ⟨w, hw, rfl⟩ := List.mem_map.mp hmap
    exact ⟨w, hw, rfl, by simpa using hne⟩
  constructor
  · have hcut : (windows.map fun w => (w.1, usedBits w.2)).Pairwise fun a b => a.1 < b.1 :=
      List.pairwise_map.mpr h.sorted
    exact hcut.sublist List.filter_sublist
  · intro w' hw'
    obtain ⟨w, -, rfl, hne⟩ := hmem w' hw'
    exact List.length_pos_of_ne_nil hne
  · intro w' hw'
    obtain ⟨w, hw, rfl, -⟩ := hmem w' hw'
    rw [← h.full w hw]
    exact (List.rdropWhile_prefix _ _).length_le
  · intro w' hw' hlast
    obtain ⟨w, -, rfl, hne⟩ := hmem w' hw'
    rw [List.getLast?_eq_some_getLast hne] at hlast
    exact List.rdropWhile_last_not _ _ hne (beq_iff_eq.mpr (Option.some.inj hlast))

theorem windowsContain_written (windows : List (UInt8 × Bytes)) (t : UInt16) :
    windowsContain (writtenBlocks windows) t = windowsContain windows t := by
  rw [Bool.eq_iff_iff, windowsContain_iff, windowsContain_iff]
  constructor
  · intro h
    obtain ⟨w', hw', hwin, hset⟩ := h
    obtain ⟨w, hw, rfl⟩ := List.mem_map.mp (List.mem_filter.mp hw').1
    rw [testBit_usedBits] at hset
    exact ⟨w, hw, hwin, hset⟩
  · intro h
    obtain ⟨w, hw, hwin, hset⟩ := h
    rw [← testBit_usedBits] at hset
    refine ⟨(w.1, usedBits w.2), List.mem_filter.mpr ⟨List.mem_map_of_mem hw, ?_⟩, hwin, hset⟩
    rw [decide_eq_true_eq]
    intro hnil
    have hnil : usedBits w.2 = [] := hnil
    rw [hnil] at hset
    simp [testBit] at hset

/-- **The bitmap of a list of types is the one bitmap of the form that holds exactly those types.** -/
theorem encodes_iff (types : List UInt16) (bitmap : Bytes) :
    Encodes bitmap {t | t ∈ types} ↔ bitmap = encodeNsecBitmap types := by
  have hnone : Windows [] := ⟨List.Pairwise.nil, by simp⟩
  have hwindows := (foldl_addType 0 types hnone).1
  have hcontains : ∀ t, t ∈ types ↔
      windowsContain (writtenBlocks (types.foldl (fun windows t => addType t windows) [])) t = true := by
    intro t
    rw [windowsContain_written, (foldl_addType t types hnone).2]
    simp [windowsContain]
  have hencode : encodeNsecBitmap types =
      (writtenBlocks (types.foldl (fun windows t => addType t windows) [])).flatMap blockBytes := flatMap_encodeWindow _
  constructor
  · intro h
    obtain ⟨blocks, hread, hform, htypes⟩ := h
    have hsame : blocks = writtenBlocks (types.foldl (fun windows t => addType t windows) []) := by
      apply hform.unique hwindows.written
      intro t
      rw [← htypes t, ← hcontains t]
      rfl
    rw [readBlocks_sound hread, hencode, hsame]
  · intro h
    rw [h, hencode]
    exact ⟨_, readBlocks_blockBytes _ hwindows.written.length_le (Nat.le_refl _), hwindows.written, hcontains⟩

end Ironbind
