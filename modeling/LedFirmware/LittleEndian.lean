import Mathlib.Algebra.Order.Ring.Nat
import Mathlib.Tactic.Ring

/-!
# Little-endian numbers in byte streams

A byte stream is a function from positions to bytes, so that a buffer and a
region of memory are read in the same way.
-/

namespace LittleEndian

/-- What holds of the 256 numbers below 256 holds of every byte. -/
theorem forall_byte {holds : UInt8 → Prop} (all : ∀ number < 256, holds (UInt8.ofNat number))
    (byte : UInt8) : holds byte := by
  have this := all byte.toNat byte.toNat_lt
  rwa [UInt8.ofNat_toNat] at this

/-- The number stored little-endian in the first `width` bytes. -/
def value : (width : Nat) → (bytes : Nat → UInt8) → Nat
  | 0, _ => 0
  | width + 1, bytes => (bytes 0).toNat + 256 * value width fun index => bytes (index + 1)

/-- The byte of a number at a position, least significant first. -/
def byte (number position : Nat) : UInt8 := UInt8.ofNat (number / 256 ^ position)

theorem value_congr {width : Nat} {first second : Nat → UInt8}
    (same : ∀ index < width, first index = second index) :
    value width first = value width second := by
  induction width generalizing first second with
  | zero => rfl
  | succ width ih =>
      have rest := ih fun index inside => same (index + 1) (by omega)
      simp only [value, same 0 (by omega), rest]

@[simp] theorem byte_succ (number position : Nat) :
    byte number (position + 1) = byte (number / 256) position := by
  rw [byte, byte, pow_succ', Nat.div_div_eq_div_mul]

/-- The bytes of a number behind its lowest half-word. -/
theorem byte_half (number : Nat) :
    byte (number / 65536) = fun index => byte number (2 + index) := by
  funext index
  rw [Nat.add_comm, byte_succ, byte_succ, Nat.div_div_eq_div_mul]

@[simp] theorem byte_zero (number : Nat) : byte number 0 = UInt8.ofNat number := by
  simp [byte]

theorem ofNat_add_mul (digit : UInt8) (rest : Nat) :
    UInt8.ofNat (digit.toNat + 256 * rest) = digit := by
  apply UInt8.toNat_inj.mp
  have bound := digit.toNat_lt
  rw [UInt8.toNat_ofNat']
  omega

/-- The bytes of a stored number are the bytes it was stored in. -/
theorem byte_value {width position : Nat} (bytes : Nat → UInt8) (inside : position < width) :
    byte (value width bytes) position = bytes position := by
  induction width generalizing position bytes with
  | zero => omega
  | succ width ih =>
      cases position with
      | zero => exact (byte_zero _).trans (ofNat_add_mul _ _)
      | succ position =>
          have bound := (bytes 0).toNat_lt
          have shifted : value (width + 1) bytes / 256 =
              value width fun index => bytes (index + 1) := by
            simp only [value]
            omega
          rw [byte_succ, shifted, ih _ (by omega)]

theorem value_lt (width : Nat) (bytes : Nat → UInt8) : value width bytes < 256 ^ width := by
  induction width generalizing bytes with
  | zero => exact Nat.one_pos
  | succ width ih =>
      have bound := (bytes 0).toNat_lt
      have rest := ih fun index => bytes (index + 1)
      rw [value, pow_succ']
      omega

/-- The bytes of a number stand for its remainder. -/
theorem value_byte_mod (width number : Nat) :
    value width (byte number) = number % 256 ^ width := by
  induction width generalizing number with
  | zero => simp [value, Nat.mod_one]
  | succ width ih =>
      have tail : value width (fun index => byte number (index + 1)) =
          number / 256 % 256 ^ width := by
        rw [← ih]
        exact value_congr fun index _ => byte_succ number index
      rw [value, tail, byte_zero, UInt8.toNat_ofNat', pow_succ' 256 width]
      exact Nat.mod_mul.symm

/-- The first bytes of a number stand for its remainder. -/
theorem value_mod_of_le {short width : Nat} (inside : short ≤ width) (bytes : Nat → UInt8) :
    value width bytes % 256 ^ short = value short bytes := by
  have same : value short bytes = value short (byte (value width bytes)) :=
    value_congr fun index before => (byte_value bytes (Nat.lt_of_lt_of_le before inside)).symm
  rw [same, value_byte_mod]

/-- A number that fits is stored without loss. -/
theorem value_byte {width number : Nat} (fits : number < 256 ^ width) :
    value width (byte number) = number := by
  rw [value_byte_mod, Nat.mod_eq_of_lt fits]

/-- Equal numbers of one width have equal bytes. -/
theorem value_inj {width : Nat} {first second : Nat → UInt8} :
    value width first = value width second ↔ ∀ index < width, first index = second index := by
  refine ⟨fun same index inside => ?_, value_congr⟩
  rw [← byte_value first inside, same, byte_value second inside]

end LittleEndian
