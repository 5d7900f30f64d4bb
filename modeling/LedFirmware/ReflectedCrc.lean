import Mathlib.Data.UInt
import Mathlib.Logic.Function.Iterate

/-!
# Reflected cyclic redundancy checks, bit by bit

A remainder is divided one bit at a time, least significant bit first.  The division
of a bit is linear over exclusive or, so that of eight bits can be read from a table
of the 256 low bytes.

Nothing here is specific to a width or to a polynomial.
-/

namespace ReflectedCrc

variable {width : Nat} (poly : BitVec width)

/-- Divide one bit out of the remainder. -/
def shift (crc : BitVec width) : BitVec width :=
  if crc.getLsbD 0 then crc >>> 1 ^^^ poly else crc >>> 1

/-- Divide `count` bits out of the remainder. -/
def shifts (count : Nat) (crc : BitVec width) : BitVec width := (shift poly)^[count] crc

/-- Add a byte to the remainder and divide its bits out. -/
def feed (crc : BitVec width) (byte : UInt8) : BitVec width :=
  shifts poly 8 (crc ^^^ byte.toBitVec.setWidth width)

/-- The remainder after all bytes. -/
def remainder (crc : BitVec width) (bytes : List UInt8) : BitVec width :=
  bytes.foldl (feed poly) crc

@[simp]
theorem remainder_nil (crc : BitVec width) : remainder poly crc [] = crc :=
  rfl

@[simp]
theorem remainder_cons (crc : BitVec width) (byte : UInt8) (bytes : List UInt8) :
    remainder poly crc (byte :: bytes) = remainder poly (feed poly crc byte) bytes :=
  rfl

theorem remainder_append (crc : BitVec width) (first second : List UInt8) :
    remainder poly crc (first ++ second) = remainder poly (remainder poly crc first) second :=
  List.foldl_append

/-- The remainder does not depend on how the bytes are cut into chunks. -/
theorem remainder_flatten (crc : BitVec width) (chunks : List (List UInt8)) :
    remainder poly crc chunks.flatten = chunks.foldl (remainder poly) crc := by
  induction chunks generalizing crc with
  | nil => simp
  | cons chunk chunks ih => simp [remainder_append, ih]

theorem shift_xor (first second : BitVec width) :
    shift poly (first ^^^ second) = shift poly first ^^^ shift poly second := by
  unfold shift
  rw [BitVec.getLsbD_xor, BitVec.ushiftRight_xor_distrib]
  cases first.getLsbD 0 <;> cases second.getLsbD 0
  · simp
  · simp [BitVec.xor_assoc]
  · simp only [Bool.xor_false, if_true, Bool.false_eq_true, if_false]
    ac_rfl
  · have cancel : first >>> 1 ^^^ poly ^^^ (second >>> 1 ^^^ poly) =
        first >>> 1 ^^^ second >>> 1 ^^^ (poly ^^^ poly) := by ac_rfl
    simp [cancel]

theorem shifts_succ (count : Nat) (crc : BitVec width) :
    shifts poly (count + 1) crc = shift poly (shifts poly count crc) :=
  Function.iterate_succ_apply' _ _ _

theorem shifts_xor (count : Nat) (first second : BitVec width) :
    shifts poly count (first ^^^ second) =
      shifts poly count first ^^^ shifts poly count second := by
  induction count with
  | zero => rfl
  | succ count ih => simp only [shifts_succ, ih, shift_xor]

/-- Bits that are zero are divided out by moving down. -/
theorem shifts_of_zeros {count : Nat} {crc : BitVec width}
    (zeros : ∀ index < count, crc.getLsbD index = false) :
    shifts poly count crc = crc >>> count := by
  induction count with
  | zero => simp [shifts]
  | succ count ih =>
      have low : (crc >>> count).getLsbD 0 = false := by
        rw [BitVec.getLsbD_ushiftRight]
        exact zeros count (by omega)
      rw [shifts_succ, ih fun index inside => zeros index (by omega), shift, low,
        BitVec.shiftRight_add]
      simp

/-- A remainder is its low byte and the rest. -/
theorem low_xor_high (crc : BitVec width) :
    (crc.setWidth 8).setWidth width ^^^ crc >>> 8 <<< 8 = crc := by
  ext index inside
  by_cases low : index < 8
  · simp [low, inside]
  · have back : 8 + (index - 8) = index := by omega
    simp [low, back, inside]

theorem high_down (crc : BitVec width) : crc >>> 8 <<< 8 >>> 8 = crc >>> 8 := by
  ext index inside
  by_cases high : 8 + index < width
  · simp [high]
  · have zero : crc.getLsbD (8 + index) = false := BitVec.getLsbD_of_ge crc _ (by omega)
    simp [high, zero]

/-- The eight bits of a byte at once: a table of the low bytes, and the rest moves down. -/
theorem feed_eq_table (crc : BitVec width) (byte : UInt8) :
    feed poly crc byte =
      shifts poly 8 ((crc.setWidth 8 ^^^ byte.toBitVec).setWidth width) ^^^ crc >>> 8 := by
  have high : shifts poly 8 (crc >>> 8 <<< 8) = crc >>> 8 := by
    rw [shifts_of_zeros, high_down]
    intro index inside
    simp [inside]
  have parts : crc ^^^ byte.toBitVec.setWidth width =
      (crc.setWidth 8 ^^^ byte.toBitVec).setWidth width ^^^ crc >>> 8 <<< 8 := by
    conv_lhs => rw [← low_xor_high crc]
    rw [BitVec.setWidth_xor]
    ac_rfl
  rw [feed, parts, shifts_xor, high]

end ReflectedCrc
