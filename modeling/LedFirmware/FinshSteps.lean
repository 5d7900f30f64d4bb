import LedFirmware.FinshMeaning
import Mathlib.Tactic.Ring

/-!
# Runs of the finsh machine over emitted code

Where the text holds an operation that the compiler has emitted, the machine performs
it.  Each lemma says which slot is written and what can be read from it; the slots
below stay as they are.
-/

namespace LedFirmware

open Relation

/-- Two parts of a computation that succeed. -/
theorem except_bind_eq_ok {Error α β : Type} {first : Except Error α}
    {next : α → Except Error β} {result : β} :
    (first >>= next) = .ok result ↔ ∃ value, first = .ok value ∧ next value = .ok result := by
  cases first <;> simp [bind, Except.bind]

/-- The slot has the value in its low bits. -/
def FinshValue.Fits (value : FinshValue) (slot : FinshLong) : Prop :=
  value.width.read slot = value.bits

theorem FinshValue.fits_of {width : FinshWidth} {slot bits : FinshLong}
    (same : width.read slot = width.read bits) : (FinshValue.of width bits).Fits slot := same

/-- An operand as wide as its operator is read from its slot. -/
theorem FinshValue.Fits.operand {value : FinshValue} {slot bits : FinshLong} {width : FinshWidth}
    (fits : value.Fits slot) (operand : value.operand width = .ok bits) :
    width.read slot = bits := by
  rw [FinshValue.operand] at operand
  split at operand
  next covers =>
      rw [← Except.ok.inj operand, ← fits, FinshWidth.read_read covers]
  next => cases operand

namespace FinshVm

variable {text : List UInt8} {syscalls : FinshSyscalls} {vm : FinshVm} {pc : Nat}
  {width : FinshWidth} {op : FinshBinary} {code : List UInt8}

/-- The text has this code at a place. -/
def Holds (text : List UInt8) : (pc : Nat) → (code : List UInt8) → Prop
  | _, [] => True
  | pc, byte :: code => text[pc]? = some byte ∧ Holds text (pc + 1) code

theorem holds_append {first later : List UInt8} :
    Holds text pc (first ++ later) ↔
      Holds text pc first ∧ Holds text (pc + first.length) later := by
  induction first generalizing pc with
  | nil => simp [Holds]
  | cons byte first ih =>
      simp only [List.cons_append, Holds, ih, List.length_cons, and_assoc]
      rw [Nat.add_right_comm, Nat.add_assoc pc]

theorem Holds.get (holds : Holds text pc code) (index : Nat) (inside : index < code.length) :
    text[pc + index]? = some code[index] := by
  induction code generalizing pc index with
  | nil => simp at inside
  | cons byte code ih =>
      cases index with
      | zero => exact holds.1
      | succ index =>
          have later := ih holds.2 index (by simpa using inside)
          rw [Nat.add_right_comm] at later
          exact later

theorem length_finshCode (width : FinshWidth) (value : FinshLong) :
    (finshCode width value).length = width.bytes := by
  simp [finshCode]

/-- The operand that the compiler has put into the text. -/
theorem operand_finshCode {value : FinshLong} (holds : Holds text pc (finshCode width value)) :
    operand text pc width.bytes =
      some (BitVec.ofNat 32 (value.toNat % 256 ^ width.bytes)) := by
  have get : ∀ index < width.bytes,
      text[pc + index]? = some (LittleEndian.byte value.toNat index) := by
    intro index inside
    rw [holds.get index (by rwa [length_finshCode])]
    simp [finshCode]
  have last := get (width.bytes - 1) (by cases width <;> decide)
  have whole : pc + width.bytes ≤ text.length := by
    have := (List.getElem?_eq_some_iff.mp last).1
    omega
  rw [operand, if_pos whole, @LittleEndian.value_congr _ _ (LittleEndian.byte value.toNat),
    LittleEndian.value_byte_mod]
  intro index inside
  rw [List.getD_eq_getElem?_getD, get index inside, Option.getD_some]

/-- The table has every operation under the code that the compiler emits. -/
theorem opTable_code (op : FinshOp) : opTable[op.code.toNat]? = some op := by
  cases op with
  | binary op width => cases op <;> cases width <;> rfl
  | bitwise width => cases width <;> rfl
  | ld width => cases width <;> rfl
  | ldValue width => cases width <;> rfl
  | st width => cases width <;> rfl
  | ldValueStack width => cases width <;> rfl
  | noOp => rfl
  | pop => rfl
  | call => rfl

/-- Rounds of the loop of `finsh_vm_run`. -/
def Reaches (text : List UInt8) (syscalls : FinshSyscalls) : FinshVm → FinshVm → Prop :=
  ReflTransGen fun before after => step text syscalls before = some after

/-- The operation under the program counter is performed. -/
theorem reaches_op {op : FinshOp} {vm' : FinshVm} (here : text[vm.pc]? = some op.code)
    (performed : perform text syscalls { vm with pc := vm.pc + 1 } op = some vm') :
    Reaches text syscalls vm vm' := by
  apply ReflTransGen.single
  simp [step, here, opTable_code, performed]

/-- The machine with `count` slots replaced by one, behind so many bytes of code. -/
def answer (vm : FinshVm) (count : Nat) (slot : FinshLong) (bytes : Nat) : FinshVm :=
  { vm with
    stack := Function.update vm.stack (vm.sp - count) slot
    sp := vm.sp - count + 1
    pc := vm.pc + bytes }

theorem reaches_ld (syscalls : FinshSyscalls) (vm : FinshVm) {value : FinshLong}
    (holds : Holds text vm.pc ((FinshOp.ld width).code :: finshCode width value))
    (room : vm.sp < finshStackMax) :
    ∃ slot, width.read slot = width.read value ∧
      Reaches text syscalls vm (vm.answer 0 slot (1 + width.bytes)) := by
  let operand : FinshLong := BitVec.ofNat 32 (value.toNat % 256 ^ width.bytes)
  refine ⟨width.write (vm.slot 0) operand, ?_, reaches_op holds.1 ?_⟩
  · rw [FinshWidth.read_write]
    apply FinshWidth.read_congr
    rw [BitVec.toNat_ofNat, Nat.mod_mod_of_dvd _ (by cases width <;> decide), Nat.mod_mod]
  · simp only [perform, operand_finshCode holds.2, Option.bind_eq_bind, Option.bind_some, push,
      room, if_true]
    simp only [setSlot, answer, slot, Nat.sub_zero, Nat.add_assoc, operand]

theorem reaches_ldValue (syscalls : FinshSyscalls) (vm : FinshVm) {address : FinshLong}
    (holds : Holds text vm.pc ((FinshOp.ldValue width).code :: finshCode .dword address))
    (room : vm.sp < finshStackMax) :
    ∃ slot, width.read slot = width.read (width.load vm.mem address) ∧
      Reaches text syscalls vm (vm.answer 0 slot 5) := by
  have whole : BitVec.ofNat 32 (address.toNat % 256 ^ FinshWidth.dword.bytes) = address := by
    apply BitVec.eq_of_toNat_eq
    have := address.isLt
    rw [BitVec.toNat_ofNat]
    simp only [FinshWidth.bytes]
    omega
  refine ⟨width.write (vm.slot 0) (width.load vm.mem address), FinshWidth.read_write ..,
    reaches_op holds.1 ?_⟩
  have operand := operand_finshCode holds.2
  rw [whole] at operand
  simp only [perform, show (4 : Nat) = FinshWidth.dword.bytes from rfl, operand,
    Option.bind_eq_bind, Option.bind_some, push, room, if_true]
  simp only [setSlot, answer, slot, Nat.sub_zero, Nat.add_assoc]
  rfl

theorem reaches_binary (syscalls : FinshSyscalls) (vm : FinshVm) {result : FinshLong}
    (holds : Holds text vm.pc [(FinshOp.binary op width).code]) (operands : 2 ≤ vm.sp)
    (applied : op.apply (width.read (vm.slot 2)) (width.read (vm.slot 1)) = some result) :
    ∃ slot, width.read slot = width.read result ∧
      Reaches text syscalls vm (vm.answer 2 slot 1) := by
  refine ⟨width.write (vm.slot 2) result, FinshWidth.read_write .., reaches_op holds.1 ?_⟩
  simp only [slot] at applied
  simp only [perform, operands, if_true, slot, applied, Option.bind_eq_bind, Option.bind_some]
  simp only [setSlot, answer, slot, show vm.sp - 2 + 1 = vm.sp - 1 by omega]

theorem reaches_bitwise (syscalls : FinshSyscalls) (vm : FinshVm)
    (holds : Holds text vm.pc [(FinshOp.bitwise width).code])
    (operand : 1 ≤ vm.sp) :
    ∃ slot, width.read slot = width.read (~~~ width.read (vm.slot 1)) ∧
      Reaches text syscalls vm (vm.answer 1 slot 1) := by
  refine ⟨width.write (vm.slot 1) (~~~ width.read (vm.slot 1)), FinshWidth.read_write ..,
    reaches_op holds.1 ?_⟩
  simp only [perform, operand, if_true]
  simp only [setSlot, answer, slot, show vm.sp - 1 + 1 = vm.sp by omega]

theorem reaches_ldValueStack (syscalls : FinshSyscalls) (vm : FinshVm)
    (holds : Holds text vm.pc [(FinshOp.ldValueStack width).code])
    (operand : 1 ≤ vm.sp) :
    ∃ slot, width.read slot = width.read (width.load vm.mem (vm.slot 1)) ∧
      Reaches text syscalls vm (vm.answer 1 slot 1) := by
  refine ⟨width.write (vm.slot 1) (width.load vm.mem (vm.slot 1)), FinshWidth.read_write ..,
    reaches_op holds.1 ?_⟩
  simp only [perform, operand, if_true]
  simp only [setSlot, answer, slot, show vm.sp - 1 + 1 = vm.sp by omega]

theorem reaches_st (syscalls : FinshSyscalls) (vm : FinshVm)
    (holds : Holds text vm.pc [(FinshOp.st width).code]) (operands : 2 ≤ vm.sp) :
    Reaches text syscalls vm { vm with
      mem := width.store vm.mem (vm.slot 2) (vm.slot 1), sp := vm.sp - 1, pc := vm.pc + 1 } :=
  reaches_op holds.1 (by
    simp only [perform, operands, if_true]
    rfl)

theorem reaches_pop (syscalls : FinshSyscalls) (vm : FinshVm)
    (holds : Holds text vm.pc [FinshOp.pop.code]) (operand : 1 ≤ vm.sp) :
    Reaches text syscalls vm { vm with sp := vm.sp - 1, pc := vm.pc + 1 } :=
  reaches_op holds.1 (by simp only [perform, operand, if_true])

end FinshVm

end LedFirmware
