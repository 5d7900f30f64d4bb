import LedFirmware.BubblePasses
import LedFirmware.StrToXL
import LedFirmware.TracedArray

/-!
# Sorting half-words

`BubbleSort` runs passes of neighbour exchanges from the end of the array, as long as a pass
exchanges anything.  Its counters are signed words and are integers here, since none of them
leaves the range of such a word while the length does not.
-/

namespace LedFirmware

open TracedArray Bubble

/-- The inner loop, with the array and the flag it leaves. -/
def bubbleSortInner (i : Int) (array : TracedArray UInt16) (flag : Bool) (j : Int) :
    TracedArray UInt16 × Bool :=
  if j ≥ i then
    let (first, array) := array.read j.toNat
    let (second, array) := array.read (j + 1).toNat
    if first > second then
      bubbleSortInner i (array.exchange (· ^^^ ·) j.toNat (j + 1).toNat) true (j - 1)
    else bubbleSortInner i array flag (j - 1)
  else (array, flag)
termination_by (j + 1 - i).toNat

/-- The outer loop. -/
def bubbleSortOuter (len : UInt32) (i : Int) (array : TracedArray UInt16) (flag : Bool) :
    TracedArray UInt16 :=
  if i < len.toNat ∧ flag then
    let (array, flag) := bubbleSortInner i array false (len - 2).toInt32.toInt
    bubbleSortOuter len (i + 1) array flag
  else array
termination_by (len.toNat - i).toNat

def bubbleSort (array : TracedArray UInt16) (len : UInt32) : TracedArray UInt16 :=
  bubbleSortOuter len 0 array true

instance linearOrderUInt16 : LinearOrder UInt16 where
  le_refl _ := UInt16.le_refl _
  le_trans _ _ _ := UInt16.le_trans
  lt_iff_le_not_ge _ _ := by rw [UInt16.not_le, and_iff_right_of_imp UInt16.le_of_lt]
  le_antisymm _ _ := UInt16.le_antisymm
  le_total := UInt16.le_total
  toDecidableLE := inferInstance

theorem xor16_cancels : Cancels fun x y : UInt16 => x ^^^ y where
  left x y := by rw [UInt16.xor_comm x, ← UInt16.xor_assoc, UInt16.xor_self, UInt16.zero_xor]
  right x y := by rw [UInt16.xor_comm x, UInt16.xor_assoc, UInt16.xor_self, UInt16.xor_zero]

variable {array : TracedArray UInt16} {flag : Bool} {len : UInt32}

/-- One round of the inner loop reads two neighbours, exchanges them if they are out of order
and goes on below. -/
theorem bubbleSortInner_succ (low count : Nat) (array : TracedArray UInt16) (flag : Bool) :
    bubbleSortInner low array flag (low + (count + 1 : Nat) - 1) =
      if array.cell (low + count + 1) < array.cell (low + count) then
        bubbleSortInner low (((array.read (low + count)).2.read (low + count + 1)).2.exchange
          (· ^^^ ·) (low + count) (low + count + 1)) true (low + count - 1)
      else
        bubbleSortInner low ((array.read (low + count)).2.read (low + count + 1)).2 flag
          (low + count - 1) := by
  have top : (low : Int) + (count + 1 : Nat) - 1 = (low + count : Nat) := by omega
  have next : ((low + count : Nat) : Int) - 1 = low + count - 1 := by omega
  have above : (((low + count : Nat) : Int) + 1).toNat = low + count + 1 := by omega
  rw [top, bubbleSortInner, if_pos (by omega)]
  simp only [read_value, read_cell, gt_iff_lt, Int.toNat_natCast, above, next]

/-- The inner loop is a pass. -/
theorem bubbleSortInner_eq (low count : Nat) (array : TracedArray UInt16) (flag : Bool) :
    (bubbleSortInner low array flag (low + count - 1)).1.cell =
        (Bubble.pass low count array.cell).1 ∧
      (bubbleSortInner low array flag (low + count - 1)).2 =
        (flag || (Bubble.pass low count array.cell).2) := by
  induction count generalizing array flag with
  | zero =>
      rw [bubbleSortInner, if_neg (by omega), Bubble.pass, Bool.or_false]
      exact ⟨rfl, rfl⟩
  | succ count ih =>
      rw [bubbleSortInner_succ, Bubble.pass]
      by_cases less : array.cell (low + count + 1) < array.cell (low + count)
      · rw [if_pos less, if_pos less]
        obtain ⟨cells, flags⟩ := ih (((array.read (low + count)).2.read
          (low + count + 1)).2.exchange (· ^^^ ·) (low + count) (low + count + 1)) true
        rw [exchange_cell xor16_cancels (by omega), read_cell, read_cell] at cells flags
        rw [cells, flags]
        exact ⟨rfl, (Bool.or_true flag).symm⟩
      · rw [if_neg less, if_neg less]
        exact ih _ flag

/-- The inner loop accesses the cells it goes over only. -/
theorem bubbleSortInner_within {bound : Nat} (low count : Nat) (within : array.Within bound)
    (inside : low + count < bound) :
    (bubbleSortInner low array flag (low + count - 1)).1.Within bound := by
  induction count generalizing array flag with
  | zero =>
      rw [bubbleSortInner, if_neg (by omega)]
      exact within
  | succ count ih =>
      have first : low + count < bound := by omega
      have second : low + count + 1 < bound := by omega
      have compared := (within.read first).read second
      rw [bubbleSortInner_succ]
      split
      · exact ih (compared.exchange first second) first
      · exact ih compared first

/-- The inner loop starts with the last two cells. -/
theorem inner_start {low : Nat} (short : len.toNat < 2 ^ 31) (inside : low < len.toNat) :
    (len - 2).toInt32.toInt = low + (len.toNat - 1 - low : Nat) - 1 := by
  have number : (len - 2).toNat = (2 ^ 32 - 2 + len.toNat) % 2 ^ 32 := UInt32.toNat_sub len 2
  rw [toInt_toInt32, number]
  split
  · omega
  · omega

/-- The outer loop repeats the passes. -/
theorem bubbleSortOuter_eq {rounds : Nat} (short : len.toNat < 2 ^ 31) (low : Nat)
    (total : low + rounds = len.toNat) (array : TracedArray UInt16) :
    (bubbleSortOuter len low array true).cell =
      Bubble.sort (len.toNat - 1) rounds low array.cell := by
  induction rounds generalizing low array with
  | zero =>
      rw [bubbleSortOuter, if_neg (by omega), sort]
  | succ rounds ih =>
      have next : (low : Int) + 1 = (low + 1 : Nat) := rfl
      obtain ⟨cells, flags⟩ := bubbleSortInner_eq low (len.toNat - 1 - low) array false
      rw [bubbleSortOuter, if_pos ⟨by omega, rfl⟩, sort, inner_start short (by omega : low < _)]
      dsimp only
      rw [flags, Bool.false_or, ← cells, next]
      cases (Bubble.pass low (len.toNat - 1 - low) array.cell).2 with
      | true => exact ih (low + 1) (by omega) _
      | false =>
          rw [bubbleSortOuter, if_neg fun more => Bool.noConfusion more.2]
          rfl

theorem bubbleSortOuter_within {rounds : Nat} (short : len.toNat < 2 ^ 31) (low : Nat)
    (total : low + rounds = len.toNat) (within : array.Within len.toNat) :
    (bubbleSortOuter len low array flag).Within len.toNat := by
  induction rounds generalizing low array flag with
  | zero =>
      rw [bubbleSortOuter, if_neg (by omega)]
      exact within
  | succ rounds ih =>
      rw [bubbleSortOuter]
      split
      · rw [inner_start short (by omega : low < _)]
        exact ih (low + 1) (by omega) (bubbleSortInner_within low _ within (by omega))
      · exact within

/-- The cells of an array ascend, are a permutation of those before, and nothing behind the
array was accessed or has changed. -/
structure SortsArray (cells : Nat → UInt16) (len : Nat) (result : TracedArray UInt16) : Prop where
  ascending : Ascending len result.cell
  permutation : List.Perm ((List.range len).map result.cell) ((List.range len).map cells)
  behind : ∀ index, len ≤ index → result.cell index = cells index
  within : result.Within len

theorem bubbleSort_sorts (cells : Nat → UInt16) (len : UInt32) (short : len.toNat < 2 ^ 31) :
    SortsArray cells len.toNat (bubbleSort (fresh cells) len) := by
  have sorted := bubbleSortOuter_eq short 0 (Nat.zero_add _) (fresh cells)
  have within := @bubbleSortOuter_within _ true len _ short 0 (Nat.zero_add _)
    (within_fresh cells len.toNat)
  change (bubbleSort (fresh cells) len).cell = _ at sorted
  have settled (high : Nat) : Settled 0 high (fresh cells).cell := fun first _ before => by omega
  by_cases none : len.toNat = 0
  · rw [none, sort] at sorted
    rw [none] at within ⊢
    refine ⟨fun first second _ inside => by omega, List.Perm.refl _, fun index _ => ?_, within⟩
    rw [sorted]
    rfl
  · have last : len.toNat - 1 + 1 = len.toNat := by omega
    have total : 0 + len.toNat = len.toNat - 1 + 1 := by rw [Nat.zero_add, last]
    have ascending := (settled _).sort total
    have rearranged := sort_rearranged total (fresh cells).cell
    rw [← sorted, last] at ascending rearranged
    exact ⟨ascending, rearranged.perm, fun index behind => rearranged.outside (.inr behind), within⟩

theorem bubbleSort_sorts_three :
    SortsArray (fun index => [3, 1, 2].getD index 0) 3
      (bubbleSort (fresh fun index => [3, 1, 2].getD index 0) 3) :=
  bubbleSort_sorts (fun index => [3, 1, 2].getD index 0) 3 (by decide)

end LedFirmware
