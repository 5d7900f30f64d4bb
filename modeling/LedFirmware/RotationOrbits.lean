import Mathlib.Data.Int.GCD
import Mathlib.Data.Nat.ModEq
import Mathlib.Data.Set.Finite.Basic
import Mathlib.Data.Fintype.Card
import Mathlib.Tactic.Ring

/-!
# The orbits of a rotation

Adding `shift` modulo `len` splits the positions below `len` into orbits of one length.
A walk goes through them one after the other, from the positions zero, one and so on,
and meets every position once.
-/

namespace RotationOrbits

/-- The length of every orbit. -/
def period (len shift : Nat) : Nat := len / len.gcd shift

/-- The position after `n` steps: the orbit that is walked, and the steps along it. -/
def walk (len shift n : Nat) : Nat :=
  (n / period len shift + n % period len shift * shift) % len

variable {len shift n m : Nat}

theorem gcd_mul_period : len.gcd shift * period len shift = len :=
  Nat.mul_div_cancel' (Nat.gcd_dvd_left len shift)

theorem period_pos (positive : 0 < len) : 0 < period len shift :=
  Nat.div_pos (Nat.gcd_le_left shift positive) (Nat.gcd_pos_of_pos_left shift positive)

theorem walk_lt (positive : 0 < len) : walk len shift n < len := Nat.mod_lt _ positive

/-- There are as many orbits as the greatest common divisor says. -/
theorem orbit_lt (inside : n < len) : n / period len shift < len.gcd shift := by
  rw [Nat.div_lt_iff_lt_mul (period_pos (Nat.zero_lt_of_lt inside)), gcd_mul_period]
  exact inside

theorem orbit_lt_len (inside : n < len) : n / period len shift < len :=
  (orbit_lt inside).trans_le (Nat.gcd_le_left shift (Nat.zero_lt_of_lt inside))

theorem walk_start (inside : n < len) (start : n % period len shift = 0) :
    walk len shift n = n / period len shift := by
  rw [walk, start, Nat.zero_mul, Nat.add_zero, Nat.mod_eq_of_lt (orbit_lt_len inside)]

/-- One more step along the orbit. -/
theorem walk_add_shift : (walk len shift n + shift) % len =
    (n / period len shift + (n % period len shift + 1) * shift) % len := by
  rw [walk, Nat.mod_add_mod, Nat.add_assoc, Nat.succ_mul]

theorem walk_succ (positive : 0 < len) (goesOn : (n + 1) % period len shift ≠ 0) :
    walk len shift (n + 1) = (walk len shift n + shift) % len := by
  have turn := @period_pos len shift positive
  rw [walk_add_shift, walk]
  have same : (n + 1) / period len shift =
      n / period len shift :=
    Nat.succ_div_of_not_dvd fun divides => goesOn (Nat.mod_eq_zero_of_dvd divides)
  have next : (n + 1) % period len shift =
      n % period len shift + 1 := by
    have whole := Nat.div_add_mod (n + 1) (period len shift)
    have part := Nat.div_add_mod n (period len shift)
    rw [same] at whole
    omega
  rw [same, next]

/-- A multiple of the shift vanishes exactly at the multiples of the period. -/
theorem mul_shift_modEq_zero (count : Nat) (positive : 0 < len) :
    count * shift ≡ 0 [MOD len] ↔ count % period len shift = 0 := by
  constructor
  · intro vanishes
    have cancelled := Nat.ModEq.cancel_right_div_gcd positive
      (show count * shift ≡ 0 * shift [MOD len] by rwa [Nat.zero_mul])
    exact cancelled
  · intro multiple
    obtain ⟨factor, rfl⟩ := Nat.dvd_of_mod_eq_zero multiple
    obtain ⟨part, whole⟩ := Nat.gcd_dvd_right len shift
    apply (Nat.modEq_zero_iff_dvd).mpr
    refine ⟨factor * part, ?_⟩
    calc period len shift * factor * shift
        = period len shift * factor * (len.gcd shift * part) := by rw [← whole]
      _ = len.gcd shift * period len shift * (factor * part) := by ring
      _ = len * (factor * part) := by rw [gcd_mul_period]

/-- A step comes back to the start of its orbit exactly at the end of it. -/
theorem returns_iff (inside : n < len) :
    (walk len shift n + shift) % len = n / period len shift ↔
      (n + 1) % period len shift = 0 := by
  have positive := Nat.zero_lt_of_lt inside
  have start : n / period len shift % len = n / period len shift :=
    Nat.mod_eq_of_lt (orbit_lt_len inside)
  have count : (n % period len shift + 1) % period len shift = (n + 1) % period len shift :=
    Nat.mod_add_mod n _ 1
  rw [walk_add_shift, ← count, ← mul_shift_modEq_zero _ positive]
  conv_lhs => rhs; rw [← start]
  exact ⟨fun same => Nat.ModEq.add_left_cancel' (n / period len shift) same,
    fun vanishes => Nat.ModEq.add_left (n / period len shift) vanishes⟩

/-- The walk does not meet a position twice. -/
theorem walk_injective (inside : n < len) (inside' : m < len)
    (same : walk len shift n = walk len shift m) : n = m := by
  have positive := Nat.zero_lt_of_lt inside
  have turn := @period_pos len shift positive
  have orbit {k : Nat} (inside : k < len) :
      walk len shift k % len.gcd shift = k / period len shift := by
    rw [walk, Nat.mod_mod_of_dvd _ (Nat.gcd_dvd_left len shift),
      ← Nat.add_mod_mod, Nat.mod_eq_zero_of_dvd ((Nat.gcd_dvd_right len shift).mul_left _),
      Nat.add_zero, Nat.mod_eq_of_lt (orbit_lt inside)]
  have orbits : n / period len shift = m / period len shift := by
    rw [← orbit inside, ← orbit inside', same]
  have steps : n % period len shift = m % period len shift := by
    have shifts : n / period len shift +
        n % period len shift * shift ≡
          m / period len shift +
            m % period len shift * shift [MOD len] := same
    rw [orbits] at shifts
    have cancelled : n % period len shift ≡
        m % period len shift [MOD period len shift] :=
      Nat.ModEq.cancel_right_div_gcd positive (Nat.ModEq.add_left_cancel' _ shifts)
    rwa [Nat.ModEq, Nat.mod_mod, Nat.mod_mod] at cancelled
  rw [← Nat.div_add_mod n (period len shift), orbits, steps, Nat.div_add_mod]

/-- The walk meets every position. -/
theorem exists_walk {position : Nat} (inside : position < len) :
    ∃ n < len, walk len shift n = position := by
  have injective : Function.Injective fun n : Fin len =>
      (⟨walk len shift n, walk_lt (Nat.zero_lt_of_lt inside)⟩ : Fin len) :=
    fun n m same => Fin.ext (walk_injective n.isLt m.isLt (congrArg Fin.val same))
  obtain ⟨n, found⟩ := Finite.surjective_of_injective injective ⟨position, inside⟩
  exact ⟨n, n.isLt, congrArg Fin.val found⟩

/-- A rotation does not move two positions to one. -/
theorem rotate_injective {first second : Nat} (inside : first < len) (inside' : second < len)
    (same : (first + shift) % len = (second + shift) % len) : first = second := by
  have cancelled : first ≡ second [MOD len] := Nat.ModEq.add_right_cancel' shift same
  rwa [Nat.ModEq, Nat.mod_eq_of_lt inside, Nat.mod_eq_of_lt inside'] at cancelled

/-- Different steps of the walk come to different positions. -/
theorem step_injective (inside : n < len) (inside' : m < len)
    (same : (walk len shift n + shift) % len = (walk len shift m + shift) % len) : n = m :=
  have positive := Nat.zero_lt_of_lt inside
  walk_injective inside inside' (rotate_injective (walk_lt positive) (walk_lt positive) same)

/-- The position that begins the next orbit is the one its last step comes to. -/
theorem begins_next (inside : n + 1 < len) (ended : (n + 1) % period len shift = 0) :
    n + period len shift < len ∧
      walk len shift (n + 1) = (walk len shift (n + period len shift) + shift) % len := by
  have positive := Nat.zero_lt_of_lt inside
  have turn := @period_pos len shift positive
  obtain ⟨orbits, counted⟩ := Nat.dvd_of_mod_eq_zero ended
  have total := @gcd_mul_period len shift
  have below : orbits < len.gcd shift := by
    have product : orbits * period len shift < len.gcd shift * period len shift := by
      rwa [total, Nat.mul_comm, ← counted]
    exact Nat.lt_of_mul_lt_mul_right product
  have room : n + period len shift < len := by
    have more : period len shift * (orbits + 1) ≤ len := by
      have product := Nat.mul_le_mul_right (period len shift) (Nat.succ_le_of_lt below)
      rwa [total, Nat.mul_comm] at product
    rw [Nat.mul_succ, ← counted] at more
    omega
  have last : (n + period len shift + 1) % period len shift = 0 := by
    rw [show n + period len shift + 1 =
      n + 1 + period len shift by omega, Nat.add_mod_right, ended]
  refine ⟨room, ?_⟩
  rw [(returns_iff room).mpr last, walk_start inside ended, counted,
    Nat.mul_div_cancel_left _ turn, Nat.add_div_right _ turn]
  have before : n / period len shift + 1 = orbits := by
    rw [← Nat.succ_div_of_dvd (Nat.dvd_of_mod_eq_zero ended), counted,
      Nat.mul_div_cancel_left _ turn]
  exact before.symm

end RotationOrbits
