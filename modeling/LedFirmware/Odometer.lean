import Mathlib.Data.Nat.ModEq

/-!
# The wheels of an odometer

A wheel shows a digit, and the wheels above it count its turns.  The topmost wheel runs
round, so a reading is kept modulo its size.  To carry and to borrow on one wheel is to
add and to subtract on the reading.

Nothing here is specific to what is counted.
-/

namespace Odometer

/-- What a wheel and those above it show. -/
def reading (base count digit : Nat) : Nat := count * base + digit

variable {base size count next digit nextDigit rest : Nat}

theorem reading_lt (above : count < size) (below : digit < base) :
    reading base count digit < size * base := by
  have turns : (count + 1) * base ≤ size * base := Nat.mul_le_mul_right base above
  rw [Nat.add_one_mul] at turns
  unfold reading
  omega

/-- The wheels above come first. -/
theorem reading_lt_of_count (below : digit < base) (later : count < next) :
    reading base count digit < reading base next nextDigit := by
  have turns : (count + 1) * base ≤ next * base := Nat.mul_le_mul_right base later
  rw [Nat.add_one_mul] at turns
  unfold reading
  omega

theorem reading_lt_of_digit (later : digit < nextDigit) :
    reading base count digit < reading base count nextDigit :=
  Nat.add_lt_add_left later _

/-- The wheel keeps the remainder, and the wheels above are moved by the turns. -/
theorem carry (sum : Nat) (carried : next ≡ count + sum / base [MOD size]) :
    reading base next (sum % base) ≡ reading base count 0 + sum [MOD size * base] := by
  have turns := (carried.mul_right' base).add_right (sum % base)
  have parts : (count + sum / base) * base + sum % base = count * base + sum := by
    rw [Nat.add_mul, Nat.add_assoc, Nat.div_add_mod']
  rw [parts] at turns
  exact turns

/-- A wheel that would fall below zero takes one turn more from the wheels above. -/
theorem borrow (positive : 0 < base)
    (taken : next + ((if rest % base ≠ 0 then 1 else 0) + rest / base) ≡ count [MOD size]) :
    reading base next (if rest % base ≠ 0 then base - rest % base else 0) + rest ≡
      reading base count 0 [MOD size * base] := by
  have turns := taken.mul_right' base
  have small := Nat.mod_lt rest positive
  have whole : rest / base * base + rest % base = rest := Nat.div_add_mod' rest base
  have parts : (next + ((if rest % base ≠ 0 then 1 else 0) + rest / base)) * base =
      reading base next (if rest % base ≠ 0 then base - rest % base else 0) + rest := by
    unfold reading
    rw [Nat.add_mul, Nat.add_mul]
    by_cases zero : rest % base = 0
    · rw [if_neg (not_not.mpr zero), if_neg (not_not.mpr zero)]
      omega
    · rw [if_pos zero, if_pos zero]
      omega
  rw [parts] at turns
  exact turns

end Odometer
