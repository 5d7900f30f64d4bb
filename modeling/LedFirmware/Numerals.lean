import Mathlib.Data.List.GetD
import Mathlib.Data.Nat.Digits.Lemmas
import Mathlib.Tactic.Ring

/-!
# Numerals of a base

A numeral is the list of its digits, the most significant one first.  Its value is
accumulated from the left, which undoes the repeated division that produces the digits
from the right.
-/

namespace Numerals

/-- The number to which digits extend another one. -/
def extend (base : Nat) (number : Nat) (digits : List Nat) : Nat :=
  digits.foldl (fun number digit => number * base + digit) number

variable {base number : Nat} {digits : List Nat}

@[simp]
theorem extend_nil : extend base number [] = number := rfl

@[simp]
theorem extend_cons (digit : Nat) :
    extend base number (digit :: digits) = extend base (number * base + digit) digits := rfl

/-- Repeated division gives the digits of a number in the reverse order. -/
theorem extend_digits (base number : Nat) :
    extend base 0 (Nat.digits base number).reverse = number := by
  have value : (Nat.digits base number).foldr (fun digit rest => digit + base * rest) 0 =
      number := by
    have known := Nat.ofDigits_digits base number
    rw [Nat.ofDigits_eq_foldr] at known
    exact known
  rw [extend, List.foldl_reverse]
  calc (Nat.digits base number).foldr (fun digit rest => rest * base + digit) 0
      = (Nat.digits base number).foldr (fun digit rest => digit + base * rest) 0 := by
        congr 1
        funext digit rest
        ring
    _ = number := value

/-- The test one step ahead that a number can be extended within a limit. -/
theorem fits_iff {limit digit : Nat} (below : digit < base) :
    number < limit / base ∨ number = limit / base ∧ digit ≤ limit % base ↔
      number * base + digit ≤ limit := by
  have positive := Nat.zero_lt_of_lt below
  have whole := Nat.div_add_mod limit base
  have rest := Nat.mod_lt limit positive
  rw [Nat.mul_comm] at whole
  constructor
  · rintro (smaller | ⟨rfl, small⟩)
    · have room : (number + 1) * base ≤ limit / base * base := Nat.mul_le_mul_right base smaller
      rw [Nat.succ_mul] at room
      omega
    · omega
  · intro fits
    rcases Nat.lt_trichotomy number (limit / base) with smaller | same | larger
    · exact Or.inl smaller
    · subst same
      exact Or.inr ⟨rfl, by omega⟩
    · have room : (limit / base + 1) * base ≤ number * base := Nat.mul_le_mul_right base larger
      rw [Nat.succ_mul] at room
      omega

/-- A number does not shrink when it is extended. -/
theorem le_extended (positive : 0 < base) (digit : Nat) : number ≤ number * base + digit :=
  (Nat.le_mul_of_pos_right number positive).trans (Nat.le_add_right _ _)

/-! ### Digits read in another base -/

/-- The number that the digits of a number in one base stand for in another one. -/
def rebase (source target number : Nat) : Nat :=
  Nat.ofDigits target (Nat.digits source number)

section

variable {source target width : Nat}

theorem rebase_step (several : 1 < source) (target number : Nat) :
    rebase source target number =
      number % source + target * rebase source target (number / source) := by
  rcases Nat.eq_zero_or_pos number with rfl | positive
  · simp [rebase]
  · rw [rebase, Nat.digits_def' several positive, Nat.ofDigits_cons, rebase]

/-- Digits that the other base has too remain the digits of the number. -/
theorem digits_rebase (several : 1 < target)
    (small : ∀ digit ∈ Nat.digits source number, digit < target) :
    Nat.digits target (rebase source target number) = Nat.digits source number := by
  refine Nat.digits_ofDigits target several _ small fun some => ?_
  have nonzero : number ≠ 0 := fun zero => some (by rw [zero, Nat.digits_zero])
  exact Nat.getLast_digit_ne_zero source nonzero

/-- Digits read in another base and back. -/
theorem rebase_rebase (several : 1 < target)
    (small : ∀ digit ∈ Nat.digits source number, digit < target) :
    rebase target source (rebase source target number) = number := by
  rw [rebase, digits_rebase several small, Nat.ofDigits_digits]

theorem rebase_lt (several : 1 < source) (several' : 1 < target)
    (small : ∀ digit ∈ Nat.digits source number, digit < target)
    (fits : number < source ^ width) : rebase source target number < target ^ width := by
  rw [← Nat.digits_length_le_iff several', digits_rebase several' small]
  exact (Nat.digits_length_le_iff several number).mpr fits

/-- The digits of a number of limited width, place by place. -/
theorem forall_digits_iff (several : 1 < source) (positive : 0 < target)
    (fits : number < source ^ width) :
    (∀ digit ∈ Nat.digits source number, digit < target) ↔
      ∀ position < width, number / source ^ position % source < target := by
  constructor
  · intro small position inside
    rw [← Nat.getD_digits number position several]
    rcases Nat.lt_or_ge position (Nat.digits source number).length with within | beyond
    · rw [List.getD_eq_getElem _ _ within]
      exact small _ (List.getElem_mem within)
    · rwa [List.getD_eq_default _ _ beyond]
  · intro small digit member
    obtain ⟨position, within, rfl⟩ := List.getElem_of_mem member
    have inside : position < width :=
      Nat.lt_of_lt_of_le within ((Nat.digits_length_le_iff several number).mpr fits)
    rw [← List.getD_eq_getElem _ 0 within, Nat.getD_digits number position several]
    exact small position inside

end

end Numerals
