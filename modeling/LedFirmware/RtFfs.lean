import Mathlib.Data.BitVec

/-!
# The lowest bit of a word

`__rt_ffs` of `kservice.c` looks the lowest byte that is not zero up in a table.  What it
returns is the lowest bit of the word, counted from one.
-/

namespace LedFirmware

/-- `__lowest_bit_bitmap`. -/
def lowestBitBitmap : List Nat :=
  [0, 4, 5, 4, 6, 4, 5, 4, 7, 4, 5, 4, 6, 4, 5, 4].flatMap fun first =>
    [first, 0, 1, 0, 2, 0, 1, 0, 3, 0, 1, 0, 2, 0, 1, 0]

/-- `__rt_ffs`. -/
def rtFfs (value : BitVec 32) : Nat :=
  if value = 0 then 0
  else if value &&& 0xff ≠ 0 then lowestBitBitmap.getD (value &&& 0xff).toNat 0 + 1
  else if value &&& 0xff00 ≠ 0 then lowestBitBitmap.getD ((value &&& 0xff00) >>> 8).toNat 0 + 9
  else if value &&& 0xff0000 ≠ 0 then
    lowestBitBitmap.getD ((value &&& 0xff0000) >>> 16).toNat 0 + 17
  else lowestBitBitmap.getD ((value &&& 0xff000000) >>> 24).toNat 0 + 25

/-- The bit is set and no lower one is. -/
def LowestBit (value : BitVec 32) (bit : Nat) : Prop :=
  value.getLsbD bit = true ∧ ∀ lower < bit, value.getLsbD lower = false

set_option maxRecDepth 4000 in
theorem lowestBitBitmap_spec : ∀ byte < 256, byte ≠ 0 →
    byte.testBit (lowestBitBitmap.getD byte 0) = true ∧
      ∀ lower < lowestBitBitmap.getD byte 0, byte.testBit lower = false := by
  decide

/-- A byte of a word, if all bytes below it are zero. -/
theorem lowestBit_byte {value field : BitVec 32} {shift : Nat} (nonzero : field ≠ 0)
    (bits : ∀ bit, field.getLsbD bit = (decide (bit < 8) && value.getLsbD (shift + bit)))
    (clear : ∀ lower < shift, value.getLsbD lower = false) :
    LowestBit value (lowestBitBitmap.getD field.toNat 0 + shift) := by
  have small : field.toNat < 256 := by
    refine Nat.lt_pow_two_of_testBit field.toNat (n := 8) fun bit high => ?_
    rw [BitVec.testBit_toNat, bits]
    simp [Nat.not_lt.mpr high]
  obtain ⟨set, least⟩ := lowestBitBitmap_spec field.toNat small fun zero =>
    nonzero (BitVec.eq_of_toNat_eq zero)
  rw [BitVec.testBit_toNat, bits, Bool.and_eq_true, decide_eq_true_eq] at set
  refine ⟨by rw [Nat.add_comm]; exact set.2, fun lower below => ?_⟩
  by_cases here : lower < shift
  · exact clear lower here
  · have under := least (lower - shift) (by omega)
    rw [BitVec.testBit_toNat, bits, Nat.add_sub_cancel' (Nat.not_lt.mp here),
      Bool.and_eq_false_iff] at under
    refine under.resolve_left ?_
    have := set.1
    simp only [decide_eq_false_iff_not, not_not]
    omega

/-- The bits of one byte of a word. -/
def byteMask (shift : Nat) : BitVec 32 := 0xff#32 <<< shift

theorem getLsbD_byteMask {shift bit : Nat} (low : shift ≤ 24) :
    (byteMask shift).getLsbD bit = decide (shift ≤ bit ∧ bit < shift + 8) := by
  have byte : 0xff#32 = BitVec.ofNat 32 (2 ^ 8 - 1) := rfl
  rw [byteMask, BitVec.getLsbD_shiftLeft, byte, BitVec.getLsbD_ofNat, Nat.testBit_two_pow_sub_one,
    Bool.eq_iff_iff]
  simp only [Bool.and_eq_true, Bool.not_eq_true', decide_eq_true_eq, decide_eq_false_iff_not]
  omega

/-- The bits of a byte that is masked and shifted down. -/
theorem getLsbD_byte {value : BitVec 32} {shift : Nat} (low : shift ≤ 24) (bit : Nat) :
    ((value &&& byteMask shift) >>> shift).getLsbD bit =
      (decide (bit < 8) && value.getLsbD (shift + bit)) := by
  rw [BitVec.getLsbD_ushiftRight, BitVec.getLsbD_and, getLsbD_byteMask low, Bool.and_comm]
  congr 1
  simp

theorem shifted_ne_zero {value : BitVec 32} {shift : Nat} (low : shift ≤ 24)
    (nonzero : value &&& byteMask shift ≠ 0) : (value &&& byteMask shift) >>> shift ≠ 0 := by
  intro zero
  refine nonzero (BitVec.eq_of_getLsbD_eq fun bit _ => ?_)
  rw [BitVec.getLsbD_and, getLsbD_byteMask low, BitVec.ofNat_eq_ofNat, BitVec.getLsbD_zero]
  by_cases inside : shift ≤ bit ∧ bit < shift + 8
  · have none := congrArg (fun word => word.getLsbD (bit - shift)) zero
    simp only [getLsbD_byte low, Nat.add_sub_cancel' inside.1, BitVec.ofNat_eq_ofNat,
      BitVec.getLsbD_zero,
      Bool.and_eq_false_iff, decide_eq_false_iff_not] at none
    rw [none.resolve_left (by omega), Bool.false_and]
  · simp [inside]

theorem clear_byte {value : BitVec 32} {shift : Nat} (low : shift ≤ 24)
    (below : ∀ lower < shift, value.getLsbD lower = false)
    (zero : value &&& byteMask shift = 0) : ∀ lower < shift + 8, value.getLsbD lower = false := by
  intro lower under
  by_cases here : lower < shift
  · exact below lower here
  · have none := congrArg (fun word => word.getLsbD lower) zero
    rw [BitVec.getLsbD_and, getLsbD_byteMask low, BitVec.ofNat_eq_ofNat, BitVec.getLsbD_zero]
      at none
    simpa [Nat.not_lt.mp here, under] using none

/-- `__rt_ffs` finds the lowest bit and counts it from one. -/
theorem rtFfs_spec {value : BitVec 32} (nonzero : value ≠ 0) :
    ∃ bit, rtFfs value = bit + 1 ∧ LowestBit value bit := by
  have masks : (0xff : BitVec 32) = byteMask 0 ∧ (0xff00 : BitVec 32) = byteMask 8 ∧
      (0xff0000 : BitVec 32) = byteMask 16 ∧ (0xff000000 : BitVec 32) = byteMask 24 := by decide
  have byte {shift : Nat} (low : shift ≤ 24) (found : value &&& byteMask shift ≠ 0)
      (clear : ∀ lower < shift, value.getLsbD lower = false) :=
    lowestBit_byte (shifted_ne_zero low found) (getLsbD_byte low) clear
  rw [rtFfs, if_neg nonzero]
  split
  next first =>
    refine ⟨_, rfl, ?_⟩
    rw [masks.1] at first ⊢
    simpa using byte (Nat.zero_le _) first (by simp)
  next first =>
    have clear8 := clear_byte (Nat.zero_le _) (by simp) (by rw [← masks.1]; simpa using first)
    split
    next second =>
      refine ⟨_, rfl, ?_⟩
      rw [masks.2.1] at second ⊢
      exact byte (by omega) second clear8
    next second =>
      have clear16 := clear_byte (by omega) clear8 (by rw [← masks.2.1]; simpa using second)
      split
      next third =>
        refine ⟨_, rfl, ?_⟩
        rw [masks.2.2.1] at third ⊢
        exact byte (by omega) third clear16
      next third =>
        have clear24 := clear_byte (by omega) clear16 (by rw [← masks.2.2.1]; simpa using third)
        refine ⟨_, rfl, ?_⟩
        rw [masks.2.2.2]
        refine byte (by omega) (fun zero => nonzero (BitVec.eq_of_getLsbD_eq fun bit under => ?_))
          clear24
        rw [clear_byte (by omega) clear24 zero bit under, BitVec.ofNat_eq_ofNat,
          BitVec.getLsbD_zero]

end LedFirmware
