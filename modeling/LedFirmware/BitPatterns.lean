import Mathlib.Data.List.Range
import Mathlib.Data.Nat.Bitwise
import Mathlib.Logic.Function.Basic
import Mathlib.Tactic.Ring

/-!
# Bit patterns of numbers

The bits of a number are a function from positions.  A mask of one bit updates the function,
a stage of a swapping network permutes its positions, and a stage of a counting network adds
neighbouring lanes.
-/

namespace BitPatterns

/-! ### One bit -/

variable {number pos width : Nat}

theorem testBit_or_two_pow (number pos : Nat) :
    (number ||| 2 ^ pos).testBit = Function.update number.testBit pos true := by
  funext bit
  by_cases here : bit = pos
  · simp [here, Nat.testBit_two_pow_self]
  · simp [Function.update_of_ne here, Nat.testBit_two_pow_of_ne (Ne.symm here)]

theorem testBit_xor_two_pow (number pos : Nat) :
    (number ^^^ 2 ^ pos).testBit = Function.update number.testBit pos (!number.testBit pos) := by
  funext bit
  by_cases here : bit = pos
  · simp [here, Nat.testBit_two_pow_self]
  · simp [Function.update_of_ne here, Nat.testBit_two_pow_of_ne (Ne.symm here)]

/-- A mask that has all bits of the number but one. -/
theorem testBit_and_mask {mask : Nat}
    (others : ∀ bit, bit ≠ pos → number.testBit bit = true → mask.testBit bit = true)
    (clear : mask.testBit pos = false) :
    (number &&& mask).testBit = Function.update number.testBit pos false := by
  funext bit
  by_cases here : bit = pos
  · simp [here, clear]
  · rw [Nat.testBit_and, Function.update_of_ne here]
    cases one : number.testBit bit with
    | false => rfl
    | true => exact others bit here one

/-! ### Swapping networks -/

/-- A stage exchanges neighbouring groups of bits, which two masks select. -/
def swap (low high shift number : Nat) : Nat :=
  ((number &&& low) <<< shift) ||| ((number &&& high) >>> shift)

/-- The masks of a stage exchange the groups of a number of some width. -/
def Swaps (width low high shift : Nat) : Prop := ∀ bit < width, (bit ^^^ shift) < width ∧
  if low.testBit (bit - shift) = true ∧ shift ≤ bit then
    high.testBit (bit + shift) = false ∧ bit - shift = bit ^^^ shift
  else high.testBit (bit + shift) = true ∧ bit + shift = bit ^^^ shift

instance (width low high shift : Nat) : Decidable (Swaps width low high shift) :=
  inferInstanceAs (Decidable (∀ bit < width, _))

theorem testBit_swap {low high shift bit : Nat} (swaps : Swaps width low high shift)
    (inside : bit < width) (number : Nat) :
    (swap low high shift number).testBit bit = number.testBit (bit ^^^ shift) := by
  have := (swaps bit inside).2
  rw [swap, Nat.testBit_or, Nat.testBit_shiftLeft, Nat.testBit_shiftRight, Nat.testBit_and,
    Nat.testBit_and, Nat.add_comm shift]
  split at this
  · rename_i up
    rw [this.1, ← this.2, up.1]
    simp [up.2]
  · rename_i up
    rw [this.1, ← this.2]
    by_cases behind : shift ≤ bit
    · have unselected : low.testBit (bit - shift) = false :=
        Bool.eq_false_iff.mpr fun selected => up ⟨selected, behind⟩
      simp [unselected]
    · simp [behind]

/-! ### Counting networks -/

/-- The sum of the lanes of a number. -/
def laneSum (width : Nat) : (count number : Nat) → Nat
  | 0, _ => 0
  | count + 1, number => number % 2 ^ width + laneSum width count (number / 2 ^ width)

/-- The lower lane of each pair. -/
def lowLanes (width : Nat) : (pairs : Nat) → Nat
  | 0 => 0
  | pairs + 1 => 2 ^ width - 1 + 2 ^ (width + width) * lowLanes width pairs

/-- A stage adds the lanes of each pair. -/
def addLanes (width mask number : Nat) : Nat := (number &&& mask) + ((number >>> width) &&& mask)

/-- The lowest pair of lanes, and the others. -/
theorem addLanes_succ (width pairs number : Nat) :
    addLanes width (lowLanes width (pairs + 1)) number =
      number % 2 ^ width + number / 2 ^ width % 2 ^ width +
        2 ^ (width + width) *
          addLanes width (lowLanes width pairs) (number / 2 ^ (width + width)) := by
  have narrow : 2 ^ width - 1 < 2 ^ (width + width) :=
    Nat.lt_of_lt_of_le (Nat.sub_one_lt (Nat.two_pow_pos width).ne')
      (Nat.pow_le_pow_right (by decide) (Nat.le_add_right _ _))
  have low : lowLanes width (pairs + 1) % 2 ^ (width + width) = 2 ^ width - 1 := by
    rw [lowLanes, Nat.add_mul_mod_self_left, Nat.mod_eq_of_lt narrow]
  have high : lowLanes width (pairs + 1) / 2 ^ (width + width) = lowLanes width pairs := by
    rw [lowLanes, Nat.add_mul_div_left _ _ (Nat.two_pow_pos _), Nat.div_eq_of_lt narrow,
      Nat.zero_add]
  have masked (number : Nat) : number &&& lowLanes width (pairs + 1) =
      number % 2 ^ width +
        2 ^ (width + width) * (number / 2 ^ (width + width) &&& lowLanes width pairs) := by
    have parts := Nat.mod_add_div (number &&& lowLanes width (pairs + 1)) (2 ^ (width + width))
    rw [Nat.and_mod_two_pow, Nat.and_div_two_pow, low, high, Nat.and_two_pow_sub_one_eq_mod,
      Nat.mod_mod_of_dvd _ (Nat.pow_dvd_pow 2 (Nat.le_add_right _ _))] at parts
    exact parts.symm
  rw [addLanes, masked, masked, addLanes, Nat.shiftRight_eq_div_pow, Nat.shiftRight_eq_div_pow,
    Nat.div_div_eq_div_mul, Nat.div_div_eq_div_mul, Nat.mul_comm (2 ^ width)]
  ring

/-- The sum of all lanes remains the same. -/
theorem laneSum_addLanes (positive : 0 < width) (pairs number : Nat) :
    laneSum (width + width) pairs (addLanes width (lowLanes width pairs) number) =
      laneSum width (2 * pairs) number := by
  induction pairs generalizing number with
  | zero => rfl
  | succ pairs ih =>
      have room : number % 2 ^ width + number / 2 ^ width % 2 ^ width < 2 ^ (width + width) := by
        have first := Nat.mod_lt number (Nat.two_pow_pos width)
        have second := Nat.mod_lt (number / 2 ^ width) (Nat.two_pow_pos width)
        have twice : 2 * 2 ^ width ≤ 2 ^ width * 2 ^ width :=
          Nat.mul_le_mul_right _ (Nat.le_self_pow positive.ne' 2)
        rw [pow_add]
        omega
      rw [laneSum, addLanes_succ, Nat.add_mul_mod_self_left, Nat.mod_eq_of_lt room,
        Nat.add_mul_div_left _ _ (Nat.two_pow_pos _), Nat.div_eq_of_lt room, Nat.zero_add, ih,
        Nat.mul_succ, laneSum, laneSum, Nat.div_div_eq_div_mul, ← pow_add, Nat.add_assoc]

/-- Lanes of one bit. -/
theorem laneSum_one (count number : Nat) :
    laneSum 1 count number = (List.range count).countP number.testBit := by
  induction count generalizing number with
  | zero => rfl
  | succ count ih =>
      have low : number % 2 = if number.testBit 0 = true then 1 else 0 := by
        rw [Nat.testBit_zero]
        rcases Nat.mod_two_eq_zero_or_one number with even | odd
        · simp [even]
        · simp [odd]
      have high : (number / 2).testBit = number.testBit ∘ Nat.succ :=
        funext (Nat.testBit_div_two number)
      rw [laneSum, pow_one, ih, List.range_succ_eq_map, List.countP_cons, List.countP_map, high,
        low, Nat.add_comm]

end BitPatterns
