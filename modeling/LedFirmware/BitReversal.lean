import LedFirmware.BitOperations

/-!
# Reversed bits and counted bits

`BitValueReverse` overwrites a value bit by bit while it shifts a copy.  The reversals of the
fixed widths and the count of the set bits are networks of masks.
-/

namespace LedFirmware

/-- The loop of `BitValueReverse`, with the shifted copy `t`. -/
def bitValueReverseLoop (wide : WideShifts) (len i : UInt8) (t value : UInt64) : UInt64 :=
  if i < len then
    let value :=
      if t &&& 1 ≠ 0 then value ||| bitMask wide (len - 1 - i)
      else value &&& ~~~ bitMask wide (len - 1 - i)
    bitValueReverseLoop wide len (i + 1) (t >>> 1) value
  else value
termination_by len.toNat - i.toNat
decreasing_by
  have inside : i.toNat < len.toNat := UInt8.lt_iff_toNat_lt.mp ‹i < len›
  have next : (i + 1).toNat = (i.toNat + 1) % 256 := UInt8.toNat_add i 1
  have bound := len.toNat_lt
  omega

def bitValueReverse (wide : WideShifts) (value : UInt64) (len : UInt8) : UInt64 :=
  bitValueReverseLoop wide len 0 value value

/-- One line of a reversal, in 32 bits. -/
def swapBits (low high shift value : UInt32) : UInt32 :=
  ((value &&& low) <<< shift) ||| ((value &&& high) >>> shift)

def bitValueU8Reverse (value : UInt8) : UInt8 :=
  let value := (swapBits 0x55 0xAA 1 value.toUInt32).toUInt8
  let value := (swapBits 0x33 0xCC 2 value.toUInt32).toUInt8
  let value := (swapBits 0x0F 0xF0 4 value.toUInt32).toUInt8
  value

def bitValueU16Reverse (value : UInt16) : UInt16 :=
  let value := (swapBits 0x5555 0xAAAA 1 value.toUInt32).toUInt16
  let value := (swapBits 0x3333 0xCCCC 2 value.toUInt32).toUInt16
  let value := (swapBits 0x0F0F 0xF0F0 4 value.toUInt32).toUInt16
  let value := (swapBits 0x00FF 0xFF00 8 value.toUInt32).toUInt16
  value

def bitValueU32Reverse (value : UInt32) : UInt32 :=
  let value := swapBits 0x55555555 0xAAAAAAAA 1 value
  let value := swapBits 0x33333333 0xCCCCCCCC 2 value
  let value := swapBits 0x0F0F0F0F 0xF0F0F0F0 4 value
  let value := swapBits 0x00FF00FF 0xFF00FF00 8 value
  let value := swapBits 0x0000FFFF 0xFFFF0000 16 value
  value

/-- One line of the count. -/
def addBits (mask shift value : UInt32) : UInt32 := (value &&& mask) + ((value >>> shift) &&& mask)

def bitValueGetSetNum (value : UInt32) : UInt32 :=
  let value := addBits 0x55555555 1 value
  let value := addBits 0x33333333 2 value
  let value := addBits 0x0F0F0F0F 4 value
  let value := addBits 0x00FF00FF 8 value
  let value := addBits 0x0000FFFF 16 value
  value

/-! ### The specification -/

/-- Where the low bits are in the reverse. -/
def reversed (len bit : Nat) : Nat := if bit < len then len - 1 - bit else bit

/-- The reversals and the count do what their names say. -/
structure ReversesBits (wide : WideShifts) : Prop where
  bits : ∀ value len, len.toNat ≤ 64 → ∀ bit < 64,
    (bitValueReverse wide value len).toNat.testBit bit =
      value.toNat.testBit (reversed len.toNat bit)
  twice : ∀ value len, len.toNat ≤ 64 →
    bitValueReverse wide (bitValueReverse wide value len) len = value
  u8 : ∀ value, bitValueReverse wide value.toUInt64 8 = (bitValueU8Reverse value).toUInt64
  u16 : ∀ value, bitValueReverse wide value.toUInt64 16 = (bitValueU16Reverse value).toUInt64
  u32 : ∀ value, bitValueReverse wide value.toUInt64 32 = (bitValueU32Reverse value).toUInt64
  setNum : ∀ value, (bitValueGetSetNum value).toNat =
    (List.range 32).countP value.toNat.testBit

/-! ### The loop -/

variable {wide : WideShifts} {len : UInt8} {value : UInt64}

theorem lowest_iff (t : UInt64) : t &&& 1 ≠ 0 ↔ t.toNat.testBit 0 = true := by
  have lowest : (t &&& 1).toNat = (t.toNat.testBit 0).toNat := by
    rw [UInt64.toNat_and, Nat.toNat_testBit, pow_zero, Nat.div_one]
    exact Nat.and_two_pow_sub_one_eq_mod _ 1
  rw [Ne, ← UInt64.toNat_inj, lowest]
  cases t.toNat.testBit 0 <;> simp

/-- A pass of the loop gives one bit of the value the lowest one of the copy. -/
theorem testBit_written (t value : UInt64) {pos : UInt8} (inside : pos.toNat < 64) :
    (if t &&& 1 ≠ 0 then value ||| bitMask wide pos
      else value &&& ~~~ bitMask wide pos).toNat.testBit =
        Function.update value.toNat.testBit pos.toNat (t.toNat.testBit 0) := by
  have mask := @bitMask_toNat wide pos inside
  by_cases one : t &&& 1 ≠ 0
  · rw [if_pos one, (lowest_iff t).mp one]
    exact masksBit_or_64 value _ _ mask
  · rw [if_neg one, Bool.eq_false_iff.mpr (one ∘ (lowest_iff t).mpr)]
    exact masksBit_andNot_64 value _ _ mask

/-- The bits that the loop has yet to write come from the copy, and the others are those of
the value. -/
theorem testBit_bitValueReverseLoop (short : len.toNat ≤ 64) (i : UInt8) (t value : UInt64)
    (bit : Nat) :
    (bitValueReverseLoop wide len i t value).toNat.testBit bit =
      if bit < len.toNat - i.toNat then t.toNat.testBit (len.toNat - 1 - i.toNat - bit)
      else value.toNat.testBit bit := by
  induction rest : len.toNat - i.toNat generalizing i t value with
  | zero =>
      have ended : ¬ i < len := by
        rw [UInt8.lt_iff_toNat_lt]
        omega
      rw [bitValueReverseLoop, if_neg ended, if_neg (Nat.not_lt_zero bit)]
  | succ rest' ih =>
      have more : i < len := UInt8.lt_iff_toNat_lt.mpr (by omega)
      have next : (i + 1).toNat = i.toNat + 1 := by
        rw [UInt8.toNat_add]
        exact Nat.mod_eq_of_lt (by change i.toNat + 1 < 256; omega)
      have place : (len - 1 - i).toNat = len.toNat - 1 - i.toNat := by
        have first : (len - 1).toNat = len.toNat - 1 :=
          UInt8.toNat_sub_of_le len 1 (UInt8.le_iff_toNat_le.mpr (by change 1 ≤ len.toNat; omega))
        rw [UInt8.toNat_sub_of_le _ _ (UInt8.le_iff_toNat_le.mpr (by omega)), first]
      have shifted (position : Nat) :
          (t >>> 1).toNat.testBit position = t.toNat.testBit (position + 1) := by
        rw [UInt64.toNat_shiftRight, Nat.testBit_shiftRight, Nat.add_comm]
        rfl
      rw [bitValueReverseLoop, if_pos more, ih _ _ _ (by omega), next, shifted,
        testBit_written t value (by omega), place]
      rcases Nat.lt_trichotomy bit rest' with below | last | above
      · rw [if_pos below, if_pos (by omega),
          show len.toNat - 1 - (i.toNat + 1) - bit + 1 = len.toNat - 1 - i.toNat - bit by omega]
      · rw [if_neg (by omega), if_pos (by omega),
          show bit = len.toNat - 1 - i.toNat by omega, Function.update_self, Nat.sub_self]
      · rw [if_neg (by omega), if_neg (by omega), Function.update_of_ne (by omega)]

theorem testBit_bitValueReverse (short : len.toNat ≤ 64) (bit : Nat) :
    (bitValueReverse wide value len).toNat.testBit bit =
      value.toNat.testBit (reversed len.toNat bit) := by
  rw [bitValueReverse, testBit_bitValueReverseLoop short, UInt8.toNat_zero, Nat.sub_zero,
    Nat.sub_zero, reversed]
  split <;> rfl

theorem reversed_reversed (len bit : Nat) : reversed len (reversed len bit) = bit := by
  simp only [reversed]
  split_ifs <;> omega

theorem bitValueReverse_twice (short : len.toNat ≤ 64) :
    bitValueReverse wide (bitValueReverse wide value len) len = value := by
  apply UInt64.toNat_inj.mp
  apply Nat.eq_of_testBit_eq
  intro bit
  rw [testBit_bitValueReverse short, testBit_bitValueReverse short, reversed_reversed]

/-! ### The networks -/

section

variable {low high shift : UInt32} {bit : Nat}

/-- A line of a reversal moves every bit of the width by one exclusive or. -/
theorem testBit_swapBits {width : Nat} (narrow : width ≤ 32) (place : Nat)
    (isPlace : shift.toNat = place) (small : place < 32)
    (swaps : BitPatterns.Swaps width low.toNat high.toNat place) (inside : bit < width)
    (value : UInt32) :
    (swapBits low high shift value).toNat.testBit bit = value.toNat.testBit (bit ^^^ place) := by
  have known := BitPatterns.testBit_swap swaps inside value.toNat
  rw [BitPatterns.swap, Nat.testBit_or] at known
  rw [swapBits, UInt32.toNat_or, UInt32.toNat_shiftLeft, UInt32.toNat_shiftRight,
    UInt32.toNat_and, UInt32.toNat_and, isPlace, Nat.mod_eq_of_lt small, Nat.testBit_or,
    Nat.testBit_mod_two_pow, decide_eq_true (by omega), Bool.true_and, known]

/-- Converted back to 8 bits, and to 16. -/
theorem testBit_swapBits_8 (place : Nat) (isPlace : shift.toNat = place) (small : place < 32)
    (swaps : BitPatterns.Swaps 8 low.toNat high.toNat place) (inside : bit < 8) (value : UInt8) :
    (swapBits low high shift value.toUInt32).toUInt8.toNat.testBit bit =
      value.toNat.testBit (bit ^^^ place) := by
  rw [UInt32.toNat_toUInt8, Nat.testBit_mod_two_pow, decide_eq_true inside, Bool.true_and,
    testBit_swapBits (by decide) place isPlace small swaps inside, UInt8.toNat_toUInt32]

theorem testBit_swapBits_16 (place : Nat) (isPlace : shift.toNat = place) (small : place < 32)
    (swaps : BitPatterns.Swaps 16 low.toNat high.toNat place) (inside : bit < 16)
    (value : UInt16) :
    (swapBits low high shift value.toUInt32).toUInt16.toNat.testBit bit =
      value.toNat.testBit (bit ^^^ place) := by
  rw [UInt32.toNat_toUInt16, Nat.testBit_mod_two_pow, decide_eq_true inside, Bool.true_and,
    testBit_swapBits (by decide) place isPlace small swaps inside, UInt16.toNat_toUInt32]

end

/-- A number of some width whose bits are those of a value in the other order is its reverse. -/
theorem bitValueReverse_eq (width : Nat) {result : UInt64} (isLen : len.toNat = width)
    (short : width ≤ 64) (fits : value.toNat < 2 ^ width) (fits' : result.toNat < 2 ^ width)
    (bits : ∀ bit < width, result.toNat.testBit bit = value.toNat.testBit (width - 1 - bit)) :
    bitValueReverse wide value len = result := by
  subst isLen
  apply UInt64.toNat_inj.mp
  apply Nat.eq_of_testBit_eq
  intro bit
  rw [testBit_bitValueReverse short, reversed]
  by_cases inside : bit < len.toNat
  · rw [if_pos inside, bits bit inside]
  · have beyond : 2 ^ len.toNat ≤ 2 ^ bit := Nat.pow_le_pow_right (by decide) (by omega)
    rw [if_neg inside, Nat.testBit_lt_two_pow (fits.trans_le beyond),
      Nat.testBit_lt_two_pow (fits'.trans_le beyond)]

/-- The places through which the lines of a reversal move a bit. -/
theorem places_8 : ∀ bit < 8, bit ^^^ 4 < 8 ∧ bit ^^^ 4 ^^^ 2 < 8 ∧
    bit ^^^ 4 ^^^ 2 ^^^ 1 = 8 - 1 - bit := by
  decide

theorem places_16 : ∀ bit < 16, bit ^^^ 8 < 16 ∧ bit ^^^ 8 ^^^ 4 < 16 ∧
    bit ^^^ 8 ^^^ 4 ^^^ 2 < 16 ∧ bit ^^^ 8 ^^^ 4 ^^^ 2 ^^^ 1 = 16 - 1 - bit := by
  decide

theorem places_32 : ∀ bit < 32, bit ^^^ 16 < 32 ∧ bit ^^^ 16 ^^^ 8 < 32 ∧
    bit ^^^ 16 ^^^ 8 ^^^ 4 < 32 ∧ bit ^^^ 16 ^^^ 8 ^^^ 4 ^^^ 2 < 32 ∧
    bit ^^^ 16 ^^^ 8 ^^^ 4 ^^^ 2 ^^^ 1 = 32 - 1 - bit := by
  decide

theorem bitValueReverse_U8 (value : UInt8) :
    bitValueReverse wide value.toUInt64 8 = (bitValueU8Reverse value).toUInt64 := by
  refine bitValueReverse_eq 8 rfl (by decide) ?_ ?_ fun bit inside => ?_
  · exact UInt8.toNat_toUInt64 _ ▸ value.toNat_lt
  · exact UInt8.toNat_toUInt64 _ ▸ UInt8.toNat_lt _
  · obtain ⟨first, second, last⟩ := places_8 bit inside
    rw [UInt8.toNat_toUInt64, UInt8.toNat_toUInt64, bitValueU8Reverse,
      testBit_swapBits_8 4 rfl (by decide) (by decide) inside,
      testBit_swapBits_8 2 rfl (by decide) (by decide) first,
      testBit_swapBits_8 1 rfl (by decide) (by decide) second, last]

theorem bitValueReverse_U16 (value : UInt16) :
    bitValueReverse wide value.toUInt64 16 = (bitValueU16Reverse value).toUInt64 := by
  refine bitValueReverse_eq 16 rfl (by decide) ?_ ?_ fun bit inside => ?_
  · exact UInt16.toNat_toUInt64 _ ▸ value.toNat_lt
  · exact UInt16.toNat_toUInt64 _ ▸ UInt16.toNat_lt _
  · obtain ⟨first, second, third, last⟩ := places_16 bit inside
    rw [UInt16.toNat_toUInt64, UInt16.toNat_toUInt64, bitValueU16Reverse,
      testBit_swapBits_16 8 rfl (by decide) (by decide) inside,
      testBit_swapBits_16 4 rfl (by decide) (by decide) first,
      testBit_swapBits_16 2 rfl (by decide) (by decide) second,
      testBit_swapBits_16 1 rfl (by decide) (by decide) third, last]

theorem bitValueReverse_U32 (value : UInt32) :
    bitValueReverse wide value.toUInt64 32 = (bitValueU32Reverse value).toUInt64 := by
  refine bitValueReverse_eq 32 rfl (by decide) ?_ ?_ fun bit inside => ?_
  · exact UInt32.toNat_toUInt64 _ ▸ value.toNat_lt
  · exact UInt32.toNat_toUInt64 _ ▸ UInt32.toNat_lt _
  · obtain ⟨first, second, third, fourth, last⟩ := places_32 bit inside
    rw [UInt32.toNat_toUInt64, UInt32.toNat_toUInt64, bitValueU32Reverse,
      testBit_swapBits (Nat.le_refl 32) 16 rfl (by decide) (by decide) inside,
      testBit_swapBits (Nat.le_refl 32) 8 rfl (by decide) (by decide) first,
      testBit_swapBits (Nat.le_refl 32) 4 rfl (by decide) (by decide) second,
      testBit_swapBits (Nat.le_refl 32) 2 rfl (by decide) (by decide) third,
      testBit_swapBits (Nat.le_refl 32) 1 rfl (by decide) (by decide) fourth, last]

/-! ### The count -/

/-- A line of the count adds the lanes of each pair. -/
theorem laneSum_addBits (width pairs : Nat) {mask shift : UInt32} (positive : 0 < width)
    (isWidth : shift.toNat = width) (isMask : mask.toNat = BitPatterns.lowLanes width pairs)
    (small : width < 32) (half : mask.toNat < 2 ^ 31) (value : UInt32) :
    BitPatterns.laneSum (width + width) pairs (addBits mask shift value).toNat =
      BitPatterns.laneSum width (2 * pairs) value.toNat := by
  have first : value.toNat &&& mask.toNat ≤ mask.toNat := Nat.and_le_right
  have second : value.toNat >>> width &&& mask.toNat ≤ mask.toNat := Nat.and_le_right
  have sum : (addBits mask shift value).toNat =
      BitPatterns.addLanes width (BitPatterns.lowLanes width pairs) value.toNat := by
    rw [addBits, UInt32.toNat_add, UInt32.toNat_and, UInt32.toNat_and, UInt32.toNat_shiftRight,
      isWidth, Nat.mod_eq_of_lt small, Nat.mod_eq_of_lt (by omega), BitPatterns.addLanes, isMask]
  rw [sum, BitPatterns.laneSum_addLanes positive]

theorem bitValueGetSetNum_eq (value : UInt32) :
    (bitValueGetSetNum value).toNat = (List.range 32).countP value.toNat.testBit := by
  have whole (word : UInt32) : BitPatterns.laneSum 32 1 word.toNat = word.toNat :=
    Nat.mod_eq_of_lt word.toNat_lt
  rw [← BitPatterns.laneSum_one, ← whole, bitValueGetSetNum]
  calc BitPatterns.laneSum (16 + 16) 1 _
      = BitPatterns.laneSum (8 + 8) 2 _ :=
        laneSum_addBits 16 1 (by decide) rfl (by decide) (by decide) (by decide) _
    _ = BitPatterns.laneSum (4 + 4) 4 _ :=
        laneSum_addBits 8 2 (by decide) rfl (by decide) (by decide) (by decide) _
    _ = BitPatterns.laneSum (2 + 2) 8 _ :=
        laneSum_addBits 4 4 (by decide) rfl (by decide) (by decide) (by decide) _
    _ = BitPatterns.laneSum (1 + 1) 16 _ :=
        laneSum_addBits 2 8 (by decide) rfl (by decide) (by decide) (by decide) _
    _ = BitPatterns.laneSum 1 32 value.toNat :=
        laneSum_addBits 1 16 (by decide) rfl (by decide) (by decide) (by decide) _

theorem reversesBits (wide : WideShifts) : ReversesBits wide where
  bits _ _ short bit _ := testBit_bitValueReverse short bit
  twice _ _ := bitValueReverse_twice
  u8 := bitValueReverse_U8
  u16 := bitValueReverse_U16
  u32 := bitValueReverse_U32
  setNum := bitValueGetSetNum_eq

end LedFirmware
