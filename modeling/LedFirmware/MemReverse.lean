import LedFirmware.TracedArray
import Mathlib.Data.UInt

/-!
# Reversal in place

`MemReverse` exchanges the cells at two indices that move towards each other.  The second one
starts at `length - 1`, so that an empty array is reversed from index 0 to the last one that
an unsigned word has.
-/

namespace LedFirmware

open TracedArray

/-- The loop of `MemReverse`. -/
def memReverseLoop (array : TracedArray UInt8) (i j : UInt32) : TracedArray UInt8 :=
  if i < j then memReverseLoop (array.exchange (· ^^^ ·) i.toNat j.toNat) (i + 1) (j - 1)
  else array
termination_by j.toNat - i.toNat
decreasing_by
  have less : i.toNat < j.toNat := UInt32.lt_iff_toNat_lt.mp ‹i < j›
  have bound := j.toNat_lt
  rw [UInt32.toNat_add, UInt32.toNat_sub]
  simp only [UInt32.toNat_one]
  omega

def memReverse (array : TracedArray UInt8) (length : UInt32) : TracedArray UInt8 :=
  memReverseLoop array 0 (length - 1)

theorem xor_cancels : Cancels fun x y : UInt8 => x ^^^ y where
  left x y := by rw [UInt8.xor_comm x, ← UInt8.xor_assoc, UInt8.xor_self, UInt8.zero_xor]
  right x y := by rw [UInt8.xor_comm x, UInt8.xor_assoc, UInt8.xor_self, UInt8.xor_zero]

variable {array : TracedArray UInt8} {i j : UInt32}

theorem next_indices (less : i < j) :
    (i + 1).toNat = i.toNat + 1 ∧ (j - 1).toNat = j.toNat - 1 := by
  have numbers : i.toNat < j.toNat := UInt32.lt_iff_toNat_lt.mp less
  have bound := j.toNat_lt
  rw [UInt32.toNat_add, UInt32.toNat_sub]
  simp only [UInt32.toNat_one]
  omega

/-- The cells from one index to the other are reversed. -/
theorem memReverseLoop_cell (array : TracedArray UInt8) (i j : UInt32) (index : Nat) :
    (memReverseLoop array i j).cell index =
      if i.toNat ≤ index ∧ index ≤ j.toNat then array.cell (i.toNat + j.toNat - index)
      else array.cell index := by
  induction array, i, j using memReverseLoop.induct with
  | case1 array i j less ih =>
      have numbers : i.toNat < j.toNat := UInt32.lt_iff_toNat_lt.mp less
      obtain ⟨next, previous⟩ := next_indices less
      rw [memReverseLoop, if_pos less, ih, next, previous,
        exchange_cell xor_cancels numbers.ne, Function.comp_apply, Function.comp_apply]
      by_cases within : i.toNat ≤ index ∧ index ≤ j.toNat
      · rw [if_pos within]
        by_cases first : index = i.toNat
        · rw [if_neg (by omega), first, Equiv.swap_apply_left, Nat.add_sub_cancel_left]
        · by_cases last : index = j.toNat
          · rw [if_neg (by omega), last, Equiv.swap_apply_right, Nat.add_sub_cancel]
          · rw [if_pos (by omega), Equiv.swap_apply_of_ne_of_ne (by omega) (by omega)]
            congr 1
            omega
      · rw [if_neg within, if_neg (by omega),
          Equiv.swap_apply_of_ne_of_ne (by omega) (by omega)]
  | case2 array i j ended =>
      have numbers : ¬ i.toNat < j.toNat := ended ∘ UInt32.lt_iff_toNat_lt.mpr
      rw [memReverseLoop, if_neg ended]
      by_cases within : i.toNat ≤ index ∧ index ≤ j.toNat
      · rw [if_pos within]
        congr 1
        omega
      · rw [if_neg within]

theorem memReverseLoop_within {bound : Nat} (within : array.Within bound)
    (below : j.toNat < bound) : (memReverseLoop array i j).Within bound := by
  induction array, i, j using memReverseLoop.induct with
  | case1 array i j less ih =>
      have numbers : i.toNat < j.toNat := UInt32.lt_iff_toNat_lt.mp less
      rw [memReverseLoop, if_pos less]
      refine ih (within.exchange (numbers.trans below) below) ?_
      rw [(next_indices less).2]
      omega
  | case2 array i j ended =>
      rw [memReverseLoop, if_neg ended]
      exact within

theorem memReverseLoop_touched (array : TracedArray UInt8) (i j : UInt32) :
    array.touched ⊆ (memReverseLoop array i j).touched := by
  induction array, i, j using memReverseLoop.induct with
  | case1 array i j less ih =>
      rw [memReverseLoop, if_pos less]
      exact List.Subset.trans (exchange_touched array _ _) ih
  | case2 array i j ended =>
      rw [memReverseLoop, if_neg ended]
      exact List.Subset.refl _

/-- An array is reversed without an access behind it, and reversed once more it is as before. -/
structure MemReverses (cell : Nat → UInt8) (length : UInt32) : Prop where
  within : (memReverse (fresh cell) length).Within length.toNat
  reversed : ∀ index, (memReverse (fresh cell) length).cell index =
    if index < length.toNat then cell (length.toNat - 1 - index) else cell index
  restored : (memReverse (fresh (memReverse (fresh cell) length).cell) length).cell = cell

theorem last_index {length : UInt32} (some : length ≠ 0) :
    (length - 1).toNat = length.toNat - 1 ∧ 0 < length.toNat := by
  have positive : 0 < length.toNat := Nat.pos_of_ne_zero fun zero => some (UInt32.toNat_inj.mp zero)
  have one_le : 1 ≤ length := UInt32.le_iff_toNat_le.mpr positive
  exact ⟨UInt32.toNat_sub_of_le _ _ one_le, positive⟩

theorem memReverse_cell {length : UInt32} (some : length ≠ 0) (cell : Nat → UInt8)
    (index : Nat) : (memReverse (fresh cell) length).cell index =
      if index < length.toNat then cell (length.toNat - 1 - index) else cell index := by
  obtain ⟨last, positive⟩ := last_index some
  rw [memReverse, memReverseLoop_cell, last, UInt32.toNat_zero, Nat.zero_add]
  by_cases inside : index < length.toNat
  · rw [if_pos inside, if_pos (by omega)]
    rfl
  · rw [if_neg inside, if_neg (by omega)]
    rfl

/-- With no cells the last index wraps around, and the first exchange is at index 0. -/
theorem MemReverses.nonempty {cell : Nat → UInt8} {length : UInt32}
    (reverses : MemReverses cell length) : length ≠ 0 := by
  rintro rfl
  have entered : (0 : UInt32) < 0 - 1 := by decide
  have touched : 0 ∈ (memReverse (fresh cell) 0).touched := by
    rw [memReverse, memReverseLoop, if_pos entered]
    exact memReverseLoop_touched _ _ _ (mem_exchange _ _ _)
  exact absurd (reverses.within 0 touched) (Nat.lt_irrefl 0)

/-- Arrays that are not empty are reversed, and no others. -/
theorem memReverses_iff (cell : Nat → UInt8) (length : UInt32) :
    MemReverses cell length ↔ length ≠ 0 := by
  constructor
  · exact MemReverses.nonempty
  · intro some
    obtain ⟨last, positive⟩ := last_index some
    have reversed := memReverse_cell some cell
    refine ⟨memReverseLoop_within (within_fresh cell _) (by omega), reversed, ?_⟩
    funext index
    rw [memReverse_cell some, reversed, reversed]
    by_cases inside : index < length.toNat
    · rw [if_pos inside, if_pos (by omega)]
      congr 1
      omega
    · rw [if_neg inside, if_neg inside]

/-- Reversing the empty array exchanges cells behind it. -/
theorem memReverse_empty : ¬ MemReverses (fun _ => 0) 0 := fun reverses =>
  reverses.nonempty rfl

end LedFirmware
