import LedFirmware.FinshVm

/-!
# The compiler of the finsh shell

The syntax tree has a first child and a next sibling at every node.  The type check
gives each node the data type of its first child and marks those identifiers whose
address is wanted; the compiler emits the code of the child, of the node and of the
sibling.
-/

namespace LedFirmware

/-- `enum finsh_type` -/
inductive FinshType
  | unknown
  | void
  | voidp
  | char
  | uchar
  | charp
  | short
  | ushort
  | shortp
  | int
  | uint
  | intp
  | long
  | ulong
  | longp
  deriving DecidableEq, Repr

/-- The `FINSH_NODE_` constants; `binary` are the ten from `FINSH_NODE_SYS_ADD` to
`FINSH_NODE_SYS_SHR` with two operands. -/
inductive FinshNodeType
  | unknown
  | id
  | valueChar
  | valueInt
  | valueLong
  | valueString
  | valueNull
  | binary (op : FinshBinary)
  | bitwise
  | func
  | assign
  | cast
  | preinc
  | predec
  | inc
  | dec
  | getValue
  | getAddr
  | null
  deriving DecidableEq, Repr

/-- The errors that the type check and the compiler set. -/
inductive FinshError
  | unknownType
  | unknownNode
  deriving DecidableEq, Repr

/-- `FINSH_DATA_TYPE_VOID` to `FINSH_DATA_TYPE_DWORD` -/
def finshDataTypeVoid : UInt8 := 0
def finshDataTypeByte : UInt8 := 1
def finshDataTypeWord : UInt8 := 2
def finshDataTypeDword : UInt8 := 3

/-- The `FINSH_IDTYPE_` bits. -/
def finshIdtypeVar : UInt8 := 0x01
def finshIdtypeSysvar : UInt8 := 0x02
def finshIdtypeSyscall : UInt8 := 0x04
def finshIdtypeAddress : UInt8 := 0x08

/-- What the union `id` points to, read as each of its members: the type of a variable and
the address of its value, the type and the address of a system variable, the address of a
function. -/
structure FinshId where
  varType : FinshType
  varValue : FinshLong
  sysvarType : FinshType
  sysvarVar : FinshLong
  func : FinshLong
  deriving DecidableEq, Repr

/-- The fields of `finsh_node` apart from its links; `value` are the bits of the union. -/
structure FinshNodeInfo where
  nodeType : FinshNodeType
  dataType : UInt8
  idtype : UInt8
  value : FinshLong
  id : FinshId
  deriving DecidableEq, Repr

/-- A node with its first child and its next sibling, or `NULL`. -/
inductive FinshNode
  | null
  | node (info : FinshNodeInfo) (child sibling : FinshNode)
  deriving DecidableEq, Repr

namespace FinshNode

/-- The nodes of the tree. -/
def count : FinshNode → Nat
  | .null => 0
  | .node _ child sibling => child.count + sibling.count + 1

/-- The node and its siblings. -/
def siblings : FinshNode → Nat
  | .null => 0
  | .node _ _ sibling => sibling.siblings + 1

end FinshNode

/-! ## The type check -/

/-- The data type of an identifier; `void` has none of the widths. -/
def FinshType.dataType : FinshType → Option UInt8
  | .void => some finshDataTypeVoid
  | .char | .uchar => some finshDataTypeByte
  | .short | .ushort => some finshDataTypeWord
  | .int | .uint | .long | .ulong => some finshDataTypeDword
  | .charp | .voidp | .shortp | .intp | .longp => some finshDataTypeDword
  | .unknown => none

/-- What the check of the child is told. -/
def FinshNodeInfo.childAddr (info : FinshNodeInfo) (isAddr : UInt8) : UInt8 :=
  if info.nodeType = .assign ∨ info.nodeType = .preinc ∨ info.nodeType = .predec ∨
      info.nodeType = .getAddr then finshIdtypeAddress
  else if info.nodeType = .getValue ∧ isAddr ≠ 0 then 0
  else isAddr

/-- A data type, or what is left if the identifier has an unknown type. -/
def FinshNodeInfo.typed (info : FinshNodeInfo) (type : FinshType) :
    FinshNodeInfo × List FinshError :=
  match type.dataType with
  | some dataType => ({ info with dataType }, [])
  | none => (info, [.unknownType])

/-- The data type of a node without a child. -/
def FinshNodeInfo.checkLeaf (info : FinshNodeInfo) : FinshNodeInfo × List FinshError :=
  match info.nodeType with
  | .id =>
      if info.idtype &&& finshIdtypeVar ≠ 0 then info.typed info.id.varType
      else if info.idtype &&& finshIdtypeSysvar ≠ 0 then info.typed info.id.sysvarType
      else (info, [])
  | .valueChar => ({ info with dataType := finshDataTypeByte }, [])
  | .valueInt | .valueLong | .valueString | .valueNull =>
      ({ info with dataType := finshDataTypeDword }, [])
  | _ => (info, [])

/-- The attributes of the current node, behind the check of its child. -/
def FinshNodeInfo.check (info : FinshNodeInfo) (isAddr : UInt8) (child : FinshNode) :
    FinshNodeInfo × List FinshError :=
  let info := if info.idtype ≠ finshIdtypeSyscall then
    { info with idtype := info.idtype ||| isAddr } else info
  match child with
  | .node first _ _ => ({ info with dataType := first.dataType }, [])
  | .null => info.checkLeaf

/-- `finsh_type_check`: the checked tree and the errors in the order they are set. -/
def finshTypeCheck : FinshNode → (isAddr : UInt8) → FinshNode × List FinshError
  | .null, _ => (.null, [])
  | .node info child sibling, isAddr =>
      let child := finshTypeCheck child (info.childAddr isAddr)
      let sibling := finshTypeCheck sibling 0
      let info := info.check isAddr child.1
      (.node info.1 child.1 sibling.1, child.2 ++ sibling.2 ++ info.2)

/-! ## The code -/

namespace FinshWidth

/-- The place of a width among the codes of an operation. -/
def offset : FinshWidth → UInt8
  | .byte => 0
  | .word => 1
  | .dword => 2

/-- The width of a data type. -/
def ofDataType (dataType : UInt8) : Option FinshWidth :=
  if dataType = finshDataTypeByte then some .byte
  else if dataType = finshDataTypeWord then some .word
  else if dataType = finshDataTypeDword then some .dword
  else none

end FinshWidth

/-- The `FINSH_OP_` constants of the operators, for bytes. -/
def FinshBinary.code : FinshBinary → UInt8
  | .add => 0x01
  | .sub => 0x04
  | .div => 0x07
  | .mod => 0x0A
  | .mul => 0x0D
  | .and => 0x10
  | .or => 0x13
  | .xor => 0x16
  | .shl => 0x1C
  | .shr => 0x1F

/-- The `FINSH_OP_` constants. -/
def FinshOp.code : FinshOp → UInt8
  | .noOp => 0x00
  | .binary op width => op.code + width.offset
  | .bitwise width => 0x19 + width.offset
  | .ld width => 0x22 + width.offset
  | .ldValue width => 0x25 + width.offset
  | .st width => 0x28 + width.offset
  | .pop => 0x2B
  | .call => 0x2C
  | .ldValueStack width => 0x2D + width.offset

/-- An operand in the text: `FINSH_SET16`, `FINSH_SET32` or a byte. -/
def finshCode (width : FinshWidth) (value : FinshLong) : List UInt8 :=
  (List.range width.bytes).map (LittleEndian.byte value.toNat)

/-- The width of the load of an identifier; two types have no case. -/
def FinshType.loadWidth : FinshType → Option FinshWidth
  | .char | .uchar => some .byte
  | .short | .ushort => some .word
  | .int | .uint | .long | .ulong | .charp | .shortp | .intp | .longp => some .dword
  | .void | .voidp | .unknown => none

/-- The address or the value of a variable of either kind. -/
def FinshNodeInfo.loadCode (info : FinshNodeInfo) (type : FinshType) (address : FinshLong) :
    List UInt8 :=
  match type.loadWidth with
  | some width =>
      (if info.idtype &&& finshIdtypeAddress ≠ 0 then FinshOp.ld .dword
        else FinshOp.ldValue width).code :: finshCode .dword address
  | none => []

/-- `FINSH_NODE_ID` -/
def FinshNodeInfo.idCode (info : FinshNodeInfo) : List UInt8 :=
  if info.idtype &&& finshIdtypeSyscall ≠ 0 then
    (FinshOp.ld .dword).code :: finshCode .dword info.id.func
  else if info.idtype &&& finshIdtypeSysvar ≠ 0 then
    info.loadCode info.id.sysvarType info.id.sysvarVar
  else info.loadCode info.id.varType info.id.varValue

/-- The operation of the node's own width, if it has one. -/
def finshWidthCode (dataType : UInt8) (code : FinshWidth → List UInt8) : List UInt8 :=
  match FinshWidth.ofDataType dataType with
  | some width => code width
  | none => []

/-- The data type that an assignment goes by, if its target is one that it knows. -/
def assignDataType : FinshNode → Option UInt8
  | .node target _ _ =>
      match target.nodeType with
      | .id => some target.dataType
      | .getValue => some (target.dataType &&& 0x0F)
      | _ => none
  | .null => none

/-- The value at an address increased or decreased by one. -/
def finshStepCode (op : FinshBinary) (address : FinshLong) (width : FinshWidth) : List UInt8 :=
  (FinshOp.ldValue width).code :: finshCode .dword address ++
    (FinshOp.ld width).code :: finshCode width 1 ++
    [(FinshOp.binary op width).code, (FinshOp.st width).code]

/-- `FINSH_NODE_SYS_PREINC` and `FINSH_NODE_SYS_PREDEC`: the result is loaded as a `long`
whatever the width. -/
def FinshNodeInfo.prestepCode (info : FinshNodeInfo) (op : FinshBinary) (child : FinshNode) :
    List UInt8 :=
  match child with
  | .node target _ _ =>
      if target.nodeType = .id then
        finshWidthCode info.dataType fun width =>
          finshStepCode op target.id.varValue width ++ [(FinshOp.ldValueStack .dword).code]
      else []
  | .null => []

/-- `FINSH_NODE_SYS_INC` and `FINSH_NODE_SYS_DEC` -/
def FinshNodeInfo.stepCode (info : FinshNodeInfo) (op : FinshBinary) (child : FinshNode) :
    List UInt8 :=
  match child with
  | .node target _ _ =>
      if target.nodeType = .id then
        finshWidthCode info.dataType fun width =>
          (FinshOp.ld .dword).code :: finshCode .dword target.id.varValue ++
            finshStepCode op target.id.varValue width ++ [FinshOp.pop.code]
      else []
  | .null => []

/-- The code of a node behind that of its child. -/
def FinshNodeInfo.code (info : FinshNodeInfo) (child : FinshNode) : List UInt8 :=
  match info.nodeType with
  | .id => info.idCode
  | .valueChar => (FinshOp.ld .byte).code :: finshCode .byte info.value
  | .valueInt | .valueLong | .valueNull | .valueString =>
      (FinshOp.ld .dword).code :: finshCode .dword info.value
  | .binary op => finshWidthCode info.dataType fun width => [(FinshOp.binary op width).code]
  | .bitwise => finshWidthCode info.dataType fun width => [(FinshOp.bitwise width).code]
  | .func =>
      match child with
      | .node _ _ parameters => [FinshOp.call.code, UInt8.ofNat parameters.siblings]
      | .null => []
  | .assign =>
      match assignDataType child with
      | some dataType =>
          finshWidthCode dataType fun width =>
            [(FinshOp.st width).code, (FinshOp.ldValueStack width).code]
      | none => []
  | .preinc => info.prestepCode .add child
  | .predec => info.prestepCode .sub child
  | .inc => info.stepCode .add child
  | .dec => info.stepCode .sub child
  | .null => finshCode .dword 0
  | .getValue =>
      if info.idtype &&& finshIdtypeAddress ≠ 0 then []
      else finshWidthCode info.dataType fun width => [(FinshOp.ldValueStack width).code]
  | .getAddr => []
  | .cast | .unknown => []

/-- The error of a node. -/
def FinshNodeInfo.errors (info : FinshNodeInfo) (child : FinshNode) : List FinshError :=
  match info.nodeType with
  | .assign =>
      match assignDataType child with
      | some dataType => if (FinshWidth.ofDataType dataType).isSome then [] else [.unknownType]
      | none => []
  | .cast | .unknown => [.unknownNode]
  | _ => []

namespace FinshNode

/-- `finsh_compile` -/
def code : FinshNode → List UInt8
  | .null => []
  | .node info child sibling => child.code ++ info.code child ++ sibling.code

/-- The errors that `finsh_compile` sets. -/
def errors : FinshNode → List FinshError
  | .null => []
  | .node info child sibling => child.errors ++ info.errors child ++ sibling.errors

/-- The loop of `finsh_compiler_run`: the statements one by one, a value popped between two
of them. -/
def programme : FinshNode → List UInt8
  | .null => []
  | .node info child sibling =>
      (FinshNode.node info child .null).code ++
        (if sibling = .null then [] else [FinshOp.pop.code]) ++ sibling.programme

end FinshNode

/-- `finsh_compiler_run`: the text segment, cleared before, and the errors.  No text stands
for code past the end of the segment. -/
def finshCompilerRun (root : FinshNode) : Option (List UInt8) × List FinshError :=
  let checked := finshTypeCheck root 0
  let code := checked.1.programme
  (if code.length ≤ finshTextMax then some (code ++ List.replicate (finshTextMax - code.length) 0)
    else none,
    checked.2 ++ checked.1.errors)

end LedFirmware
