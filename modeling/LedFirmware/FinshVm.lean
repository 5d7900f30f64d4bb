import LedFirmware.LittleEndian
import Mathlib.Algebra.Group.Basic
import Mathlib.Data.BitVec
import Mathlib.Logic.Function.Basic
import Mathlib.Logic.Relation

/-!
# The virtual machine of the finsh shell

A stack machine over slots of 32 bits.  An operation of a narrow width changes only
the low bits of a slot; what is above them is left over from before.  The operations
stand in a table under their codes.  The memory of the machine is what its programs
can point to apart from its own stack and text.
-/

namespace LedFirmware

/-- The widths of operands. -/
inductive FinshWidth
  | byte
  | word
  | dword
  deriving DecidableEq, Repr

/-- An address or the bits of a `long`. -/
abbrev FinshLong := BitVec 32

/-- What a program of the shell can point to. -/
abbrev FinshMem := FinshLong → UInt8

namespace FinshWidth

def bytes : FinshWidth → Nat
  | .byte => 1
  | .word => 2
  | .dword => 4

/-- A member of `finsh_value`, promoted: `char` is unsigned, `short` is not. -/
def read : FinshWidth → FinshLong → FinshLong
  | .byte, slot => (slot.setWidth 8).setWidth 32
  | .word, slot => (slot.setWidth 16).signExtend 32
  | .dword, slot => slot

/-- Assign to a member of `finsh_value`: the bits above it stay. -/
def write : FinshWidth → (slot value : FinshLong) → FinshLong
  | .byte, slot, value => slot.extractLsb' 8 24 ++ value.setWidth 8
  | .word, slot, value => slot.extractLsb' 16 16 ++ value.setWidth 16
  | .dword, _, value => value

/-- The bytes at an address. -/
def load (width : FinshWidth) (mem : FinshMem) (address : FinshLong) : FinshLong :=
  BitVec.ofNat 32 (LittleEndian.value width.bytes fun index =>
    mem (address + BitVec.ofNat 32 index))

/-- The bytes of a value put at an address. -/
def store (width : FinshWidth) (mem : FinshMem) (address value : FinshLong) : FinshMem :=
  fun place =>
    if (place - address).toNat < width.bytes then
      LittleEndian.byte value.toNat (place - address).toNat
    else mem place

/-- A slot of the first width has the bits of the second one. -/
def Covers (width other : FinshWidth) : Prop := other.bytes ≤ width.bytes

instance instDecidableCovers (width other : FinshWidth) : Decidable (width.Covers other) :=
  inferInstanceAs (Decidable (_ ≤ _))

end FinshWidth

/-- The operators with two operands. -/
inductive FinshBinary
  | add
  | sub
  | div
  | mod
  | mul
  | and
  | or
  | xor
  | shl
  | shr
  deriving DecidableEq, Repr

/-- The operator on promoted operands, where C defines it on this machine. -/
def FinshBinary.apply : FinshBinary → (left right : FinshLong) → Option FinshLong
  | .add, left, right => some (left + right)
  | .sub, left, right => some (left - right)
  | .div, left, right =>
      if right = 0 ∨ left = BitVec.intMin 32 ∧ right = -1 then none else some (left.sdiv right)
  | .mod, left, right =>
      if right = 0 ∨ left = BitVec.intMin 32 ∧ right = -1 then none else some (left.srem right)
  | .mul, left, right => some (left * right)
  | .and, left, right => some (left &&& right)
  | .or, left, right => some (left ||| right)
  | .xor, left, right => some (left ^^^ right)
  | .shl, left, right => if right.toNat < 32 then some (left <<< right.toNat) else none
  | .shr, left, right => if right.toNat < 32 then some (left.sshiftRight right.toNat) else none

/-- The operations of `finsh_ops.c`. -/
inductive FinshOp
  | noOp
  | binary (op : FinshBinary) (width : FinshWidth)
  | bitwise (width : FinshWidth)
  | ld (width : FinshWidth)
  | ldValue (width : FinshWidth)
  | st (width : FinshWidth)
  | pop
  | call
  | ldValueStack (width : FinshWidth)
  deriving DecidableEq, Repr

/-- `op_table`, whose next entry is `NULL`. -/
def opTable : List FinshOp :=
  [.noOp,
    .binary .add .byte, .binary .add .word, .binary .add .dword,
    .binary .sub .byte, .binary .sub .word, .binary .sub .dword,
    .binary .div .byte, .binary .div .word, .binary .div .dword,
    .binary .mod .byte, .binary .mod .word, .binary .mod .dword,
    .binary .mul .byte, .binary .mul .word, .binary .mul .dword,
    .binary .and .byte, .binary .and .word, .binary .and .dword,
    .binary .or .byte, .binary .or .word, .binary .or .dword,
    .binary .xor .byte, .binary .xor .word, .binary .xor .dword,
    .bitwise .byte, .bitwise .word, .bitwise .dword,
    .binary .shl .byte, .binary .shl .word, .binary .shl .dword,
    .binary .shr .byte, .binary .shr .word, .binary .shr .dword,
    .ld .byte, .ld .word, .ld .dword,
    .ldValue .byte, .ldValue .word, .ldValue .dword,
    .st .byte, .st .word, .st .dword,
    .pop, .call,
    .ldValueStack .byte, .ldValueStack .word, .ldValueStack .dword]

/-- `FINSH_STACK_MAX` -/
def finshStackMax : Nat := 64

/-- `FINSH_TEXT_MAX` -/
def finshTextMax : Nat := 128

/-- The size of `parameterv`. -/
def finshParameterMax : Nat := 16

/-- The variables of the machine.  A slot that is not in use keeps its contents. -/
structure FinshVm where
  stack : Nat → FinshLong
  sp : Nat
  pc : Nat
  mem : FinshMem

/-- The functions of the system: the arguments, and if the function returns, its result and
the memory behind it. -/
abbrev FinshSyscalls :=
  (func : FinshLong) → List FinshLong → FinshMem → Option (FinshLong × FinshMem)

namespace FinshVm

/-- `*(finsh_sp - depth)` -/
def slot (vm : FinshVm) (depth : Nat) : FinshLong := vm.stack (vm.sp - depth)

def setSlot (vm : FinshVm) (depth : Nat) (width : FinshWidth) (value : FinshLong) : FinshVm :=
  { vm with
    stack := Function.update vm.stack (vm.sp - depth) (width.write (vm.slot depth) value) }

/-- A member of `*finsh_sp` assigned and `finsh_sp` one further. -/
def push (vm : FinshVm) (width : FinshWidth) (value : FinshLong) : Option FinshVm :=
  if vm.sp < finshStackMax then some { vm.setSlot 0 width value with sp := vm.sp + 1 } else none

/-- The operand behind the operation. -/
def operand (text : List UInt8) (pc count : Nat) : Option FinshLong :=
  if pc + count ≤ text.length then
    some (BitVec.ofNat 32 (LittleEndian.value count fun index => text.getD (pc + index) 0))
  else none

/-- One operation; `finsh_pc` is behind its code.  No result stands for an access outside
the stack or the text, for a parameter outside `parameterv`, for an undefined result and
for a function that does not return. -/
def perform (text : List UInt8) (syscalls : FinshSyscalls) (vm : FinshVm) :
    FinshOp → Option FinshVm
  | .noOp => some vm
  | .binary op width =>
      if 2 ≤ vm.sp then do
        let result ← op.apply (width.read (vm.slot 2)) (width.read (vm.slot 1))
        some { vm.setSlot 2 width result with sp := vm.sp - 1 }
      else none
  | .bitwise width =>
      if 1 ≤ vm.sp then some (vm.setSlot 1 width (~~~ width.read (vm.slot 1))) else none
  | .ld width => do
      let value ← operand text vm.pc width.bytes
      let vm ← vm.push width value
      some { vm with pc := vm.pc + width.bytes }
  | .ldValue width => do
      let address ← operand text vm.pc 4
      let vm ← vm.push width (width.load vm.mem address)
      some { vm with pc := vm.pc + 4 }
  | .st width =>
      if 2 ≤ vm.sp then
        some { vm with mem := width.store vm.mem (vm.slot 2) (vm.slot 1), sp := vm.sp - 1 }
      else none
  | .pop => if 1 ≤ vm.sp then some { vm with sp := vm.sp - 1 } else none
  | .call => do
      let parameters ← text[vm.pc]?
      let count := parameters.toNat
      if count ≤ finshParameterMax ∧ count + 1 ≤ vm.sp then
        let arguments := (List.range count).map fun index => vm.slot (count - index)
        let (result, mem) ← syscalls (vm.slot (count + 1))
          (if count = 0 then [0] else arguments) vm.mem
        some { vm with
          stack := Function.update vm.stack (vm.sp - (count + 1)) result
          sp := vm.sp - count
          pc := vm.pc + 1
          mem }
      else none
  | .ldValueStack width =>
      if 1 ≤ vm.sp then some (vm.setSlot 1 width (width.load vm.mem (vm.slot 1))) else none

/-- One round of the loop of `finsh_vm_run`. -/
def step (text : List UInt8) (syscalls : FinshSyscalls) (vm : FinshVm) : Option FinshVm := do
  let op ← text[vm.pc]?
  let op ← opTable[op.toNat]?
  perform text syscalls { vm with pc := vm.pc + 1 } op

/-- The loop of `finsh_vm_run`, for at most so many rounds. -/
def loop (text : List UInt8) (syscalls : FinshSyscalls) : (fuel : Nat) → FinshVm → Option FinshVm
  | 0, vm => if vm.pc < finshTextMax then none else some vm
  | fuel + 1, vm =>
      if vm.pc < finshTextMax then (step text syscalls vm).bind (loop text syscalls fuel)
      else some vm

/-- `finsh_vm_run`: no operation takes less than a byte of the text. -/
def finshVmRun (text : List UInt8) (syscalls : FinshSyscalls) (stack : Nat → FinshLong)
    (mem : FinshMem) : Option FinshVm :=
  loop text syscalls finshTextMax { stack, sp := 0, pc := 0, mem }

end FinshVm

/-! ## Members of a slot -/

namespace FinshWidth

variable {width other : FinshWidth}

theorem covers_refl (width : FinshWidth) : width.Covers width := Nat.le_refl _

theorem dword_covers (width : FinshWidth) : FinshWidth.dword.Covers width := by
  cases width <;> decide

/-- The member that was assigned has the new value. -/
@[simp]
theorem read_write (width : FinshWidth) (slot value : FinshLong) :
    width.read (width.write slot value) = width.read value := by
  cases width with
  | byte =>
      have low : (write .byte slot value).setWidth 8 = value.setWidth 8 :=
        BitVec.setWidth_append_eq_right
      rw [read, read, low]
  | word =>
      have low : (write .word slot value).setWidth 16 = value.setWidth 16 :=
        BitVec.setWidth_append_eq_right
      rw [read, read, low]
  | dword => rfl

theorem setWidth_signExtend {count : Nat} (inside : count ≤ 16) (half : BitVec 16) :
    (half.signExtend 32).setWidth count = half.setWidth count := by
  ext index before
  simp [BitVec.getElem_signExtend, show index < 32 by omega, show index < 16 by omega]

/-- A member of a member. -/
theorem read_read (covers : width.Covers other) (slot : FinshLong) :
    other.read (width.read slot) = other.read slot := by
  cases width <;> cases other <;>
    simp_all [Covers, bytes, read, setWidth_signExtend]

/-- A member has the bytes of the slot. -/
theorem read_mod (width : FinshWidth) (slot : FinshLong) :
    (width.read slot).toNat % 256 ^ width.bytes = slot.toNat % 256 ^ width.bytes := by
  cases width with
  | byte => simp [read, bytes]
  | word =>
      have half := congrArg BitVec.toNat
        (setWidth_signExtend (Nat.le_refl 16) (slot.setWidth 16))
      simpa [read, bytes] using half
  | dword => rfl

/-- A member depends on its bytes only. -/
theorem read_congr {slot slot' : FinshLong}
    (same : slot.toNat % 256 ^ width.bytes = slot'.toNat % 256 ^ width.bytes) :
    width.read slot = width.read slot' := by
  cases width with
  | byte =>
      have low : slot.setWidth 8 = slot'.setWidth 8 :=
        BitVec.eq_of_toNat_eq (by simpa [bytes] using same)
      rw [read, read, low]
  | word =>
      have low : slot.setWidth 16 = slot'.setWidth 16 :=
        BitVec.eq_of_toNat_eq (by simpa [bytes] using same)
      rw [read, read, low]
  | dword =>
      apply BitVec.eq_of_toNat_eq
      have := slot.isLt
      have := slot'.isLt
      simp only [bytes] at same
      simp only [read]
      omega

/-- Only the member is stored. -/
theorem store_congr {value value' : FinshLong} (same : width.read value = width.read value')
    (mem : FinshMem) (address : FinshLong) :
    width.store mem address value = width.store mem address value' := by
  have numbers := read_mod width value
  rw [same, read_mod] at numbers
  have stored : ∀ index < width.bytes,
      LittleEndian.byte value.toNat index = LittleEndian.byte value'.toNat index :=
    LittleEndian.value_inj.mp (by
      rw [LittleEndian.value_byte_mod, LittleEndian.value_byte_mod, numbers])
  funext place
  simp only [store]
  split
  next inside => exact stored _ inside
  next => rfl

/-- What was stored is loaded, also as the low part of something wider. -/
theorem read_load_store (covers : other.Covers width) (mem : FinshMem)
    (address value : FinshLong) :
    width.read (other.load (width.store mem address value) address) = width.read value := by
  apply read_congr
  have inside : ∀ index < width.bytes,
      width.store mem address value (address + BitVec.ofNat 32 index) =
        LittleEndian.byte value.toNat index := by
    intro index before
    have few : index < 2 ^ 32 := Nat.lt_of_lt_of_le before (by cases width <;> decide)
    have offset : (address + BitVec.ofNat 32 index - address).toNat = index := by
      rw [add_sub_cancel_left]
      exact Nat.mod_eq_of_lt few
    rw [store, offset, if_pos before]
  rw [load, BitVec.toNat_ofNat, Nat.mod_mod_of_dvd _ (by cases width <;> decide),
    LittleEndian.value_mod_of_le covers, LittleEndian.value_congr inside,
    LittleEndian.value_byte_mod]

end FinshWidth

end LedFirmware
