import LedFirmware.FinshCompiler

/-!
# The meaning of a line of the finsh shell

A checked tree is evaluated in the order of its nodes.  A value has the width of its
data type; an operator needs operands at least as wide as itself.  A static check of
the widths excludes every fault but that of an undefined operation and that of a
function that does not return.
-/

namespace LedFirmware

/-- Why a tree has no meaning. -/
inductive FinshFault
  | type
  | arithmetic
  | call
  deriving DecidableEq, Repr

/-- A value with as many bits as its width. -/
structure FinshValue where
  width : FinshWidth
  bits : FinshLong

namespace FinshValue

def of (width : FinshWidth) (bits : FinshLong) : FinshValue := ⟨width, width.read bits⟩

/-- The value as an operand of a width. -/
def operand (value : FinshValue) (width : FinshWidth) : Except FinshFault FinshLong :=
  if value.width.Covers width then .ok (width.read value.bits) else .error .type

end FinshValue

/-- A width, or the fault of a data type without one. -/
def finshWidth (dataType : UInt8) : Except FinshFault FinshWidth :=
  match FinshWidth.ofDataType dataType with
  | some width => .ok width
  | none => .error .type

def FinshBinary.result (op : FinshBinary) (left right : FinshLong) :
    Except FinshFault FinshLong :=
  match op.apply left right with
  | some result => .ok result
  | none => .error .arithmetic

namespace FinshNodeInfo

variable (info : FinshNodeInfo)

/-- A variable of either kind: its address or its value. -/
def variableMeaning (type : FinshType) (address : FinshLong) (mem : FinshMem) :
    Except FinshFault FinshValue :=
  match type.loadWidth with
  | some width =>
      if info.idtype &&& finshIdtypeAddress ≠ 0 then .ok (.of .dword address)
      else .ok (.of width (width.load mem address))
  | none => .error .type

def idMeaning (mem : FinshMem) : Except FinshFault FinshValue :=
  if info.idtype &&& finshIdtypeSyscall ≠ 0 then .ok (.of .dword info.id.func)
  else if info.idtype &&& finshIdtypeSysvar ≠ 0 then
    info.variableMeaning info.id.sysvarType info.id.sysvarVar mem
  else info.variableMeaning info.id.varType info.id.varValue mem

/-- The identifier is a variable of the shell, taken by its address or by its value. -/
def IsVariable (byAddress : Bool) : Prop :=
  info.nodeType = .id ∧
    info.idtype = finshIdtypeVar ||| if byAddress then finshIdtypeAddress else 0

instance instDecidableIsVariable (byAddress : Bool) : Decidable (info.IsVariable byAddress) :=
  inferInstanceAs (Decidable (_ ∧ _))

/-- The value at an address one further, and the memory with it. -/
def stepMeaning (op : FinshBinary) (address : FinshLong) (mem : FinshMem) :
    Except FinshFault (FinshValue × FinshMem) := do
  let width ← finshWidth info.dataType
  let next ← op.result (width.read (width.load mem address)) 1
  .ok (.of width next, width.store mem address next)

/-- The first operand of `++` and `--` has to be a variable. -/
def stepTarget (byAddress : Bool) : FinshNode → Except FinshFault FinshNodeInfo
  | .node target _ _ => if target.IsVariable byAddress then .ok target else .error .type
  | .null => .error .type

def binaryMeaning (op : FinshBinary) (mem : FinshMem) :
    List FinshValue → Except FinshFault (FinshValue × FinshMem)
  | [left, right] => do
      let width ← finshWidth info.dataType
      let result ← op.result (← left.operand width) (← right.operand width)
      .ok (.of width result, mem)
  | _ => .error .type

def bitwiseMeaning (mem : FinshMem) : List FinshValue → Except FinshFault (FinshValue × FinshMem)
  | [value] => do
      let width ← finshWidth info.dataType
      .ok (.of width (~~~ (← value.operand width)), mem)
  | _ => .error .type

/-- All arguments are passed as `long`. -/
def funcMeaning (syscalls : FinshSyscalls) (mem : FinshMem) :
    List FinshValue → Except FinshFault (FinshValue × FinshMem)
  | func :: parameters => do
      let func ← func.operand .dword
      let arguments ← parameters.mapM (·.operand .dword)
      if parameters.length ≤ finshParameterMax then
        match syscalls func (if arguments = [] then [0] else arguments) mem with
        | some (result, mem) => .ok (.of .dword result, mem)
        | none => .error .call
      else .error .type
  | [] => .error .type

def assignMeaning (child : FinshNode) (mem : FinshMem) :
    List FinshValue → Except FinshFault (FinshValue × FinshMem)
  | [target, value] =>
      match assignDataType child with
      | some dataType => do
          let width ← finshWidth dataType
          let address ← target.operand .dword
          let bits ← value.operand width
          .ok (.of width bits, width.store mem address bits)
      | none => .error .type
  | _ => .error .type

def prestepMeaning (op : FinshBinary) (child : FinshNode) (mem : FinshMem) :
    List FinshValue → Except FinshFault (FinshValue × FinshMem)
  | [_] => do
      let target ← stepTarget true child
      info.stepMeaning op target.id.varValue mem
  | _ => .error .type

/-- The value before the step. -/
def poststepMeaning (op : FinshBinary) (child : FinshNode) (mem : FinshMem) :
    List FinshValue → Except FinshFault (FinshValue × FinshMem)
  | [before] => do
      let target ← stepTarget false child
      let after ← info.stepMeaning op target.id.varValue mem
      .ok (before, after.2)
  | _ => .error .type

def getValueMeaning (mem : FinshMem) : List FinshValue → Except FinshFault (FinshValue × FinshMem)
  | [pointer] =>
      if info.idtype &&& finshIdtypeAddress ≠ 0 then .ok (pointer, mem)
      else do
        let width ← finshWidth info.dataType
        .ok (.of width (width.load mem (← pointer.operand .dword)), mem)
  | _ => .error .type

/-- A node applied to the values of its children. -/
def meaning (syscalls : FinshSyscalls) (child : FinshNode) (values : List FinshValue)
    (mem : FinshMem) : Except FinshFault (FinshValue × FinshMem) :=
  match info.nodeType with
  | .id => if child = .null then (info.idMeaning mem).map (·, mem) else .error .type
  | .valueChar => if child = .null then .ok (.of .byte info.value, mem) else .error .type
  | .valueInt | .valueLong | .valueNull | .valueString =>
      if child = .null then .ok (.of .dword info.value, mem) else .error .type
  | .binary op => info.binaryMeaning op mem values
  | .bitwise => info.bitwiseMeaning mem values
  | .func => funcMeaning syscalls mem values
  | .assign => assignMeaning child mem values
  | .preinc => info.prestepMeaning .add child mem values
  | .predec => info.prestepMeaning .sub child mem values
  | .inc => info.poststepMeaning .add child mem values
  | .dec => info.poststepMeaning .sub child mem values
  | .getValue => info.getValueMeaning mem values
  | .getAddr =>
      match values with
      | [address] => .ok (address, mem)
      | _ => .error .type
  | .cast | .unknown | .null => .error .type

end FinshNodeInfo

/-- The values of a node and its siblings, and the memory behind them. -/
def FinshNode.meaning (syscalls : FinshSyscalls) :
    FinshNode → FinshMem → Except FinshFault (List FinshValue × FinshMem)
  | .null, mem => .ok ([], mem)
  | .node info child sibling, mem => do
      let (values, mem) ← child.meaning syscalls mem
      let (value, mem) ← info.meaning syscalls child values mem
      let (later, mem) ← sibling.meaning syscalls mem
      .ok (value :: later, mem)

end LedFirmware
