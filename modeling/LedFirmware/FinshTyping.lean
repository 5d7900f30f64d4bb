import LedFirmware.FinshLine

/-!
# Lines of the finsh shell that cannot go wrong

The widths of a checked tree are computed without its values.  A tree with widths has
values of these widths, unless a division, a shift or a call has no result; and its
code is short unless it counts variables up or down many times.
-/

namespace LedFirmware

namespace FinshNodeInfo

variable (info : FinshNodeInfo)

def variableWidth (type : FinshType) : Option FinshWidth :=
  type.loadWidth.map fun width => if info.idtype &&& finshIdtypeAddress ≠ 0 then .dword else width

def idWidth : Option FinshWidth :=
  if info.idtype &&& finshIdtypeSyscall ≠ 0 then some .dword
  else if info.idtype &&& finshIdtypeSysvar ≠ 0 then info.variableWidth info.id.sysvarType
  else info.variableWidth info.id.varType

/-- The width of a data type, if the operands are as wide. -/
def widthOver (dataType : UInt8) (operands : List FinshWidth) : Option FinshWidth :=
  (FinshWidth.ofDataType dataType).bind fun width =>
    if ∀ operand ∈ operands, operand.Covers width then some width else none

/-- The width of a step, if its operand is a variable. -/
def stepWidth (byAddress : Bool) : FinshNode → Option FinshWidth
  | .node target _ _ =>
      if target.IsVariable byAddress then FinshWidth.ofDataType info.dataType else none
  | .null => none

/-- The width of a node over the widths of its children. -/
def width (child : FinshNode) (operands : List FinshWidth) : Option FinshWidth :=
  match info.nodeType, operands with
  | .id, _ => if child = .null then info.idWidth else none
  | .valueChar, _ => if child = .null then some .byte else none
  | .valueInt, _ | .valueLong, _ | .valueNull, _ | .valueString, _ =>
      if child = .null then some .dword else none
  | .binary _, [left, right] => widthOver info.dataType [left, right]
  | .bitwise, [operand] => widthOver info.dataType [operand]
  | .func, func :: parameters =>
      if func.Covers .dword ∧ (∀ parameter ∈ parameters, parameter.Covers .dword) ∧
          parameters.length ≤ finshParameterMax then some .dword
      else none
  | .assign, [target, source] =>
      if target.Covers .dword then
        (assignDataType child).bind fun dataType => widthOver dataType [source]
      else none
  | .preinc, [_] | .predec, [_] => info.stepWidth true child
  | .inc, [before] | .dec, [before] => (info.stepWidth false child).map fun _ => before
  | .getValue, [pointer] =>
      if info.idtype &&& finshIdtypeAddress ≠ 0 then some pointer
      else if pointer.Covers .dword then FinshWidth.ofDataType info.dataType
      else none
  | .getAddr, [address] => some address
  | _, _ => none

/-- The node may have no result for a reason other than its type. -/
def MayFault : FinshFault → Prop
  | .type => False
  | .arithmetic =>
      info.nodeType = .binary .div ∨ info.nodeType = .binary .mod ∨
        info.nodeType = .binary .shl ∨ info.nodeType = .binary .shr
  | .call => info.nodeType = .func

end FinshNodeInfo

namespace FinshNode

/-- The widths of a node and its siblings. -/
def widths : FinshNode → Option (List FinshWidth)
  | .null => some []
  | .node info child sibling => do
      let operands ← child.widths
      let width ← info.width child operands
      let later ← sibling.widths
      some (width :: later)

/-- Some node of the tree. -/
def Any (property : FinshNodeInfo → Prop) : FinshNode → Prop
  | .null => False
  | .node info child sibling => property info ∨ child.Any property ∨ sibling.Any property

end FinshNode

/-- A result of this width, or an admitted fault. -/
def HasWidth {Result : Type} (widthOf : Result → Prop) (mayFault : FinshFault → Prop) :
    Except FinshFault Result → Prop
  | .ok result => widthOf result
  | .error fault => mayFault fault

variable {syscalls : FinshSyscalls} {info : FinshNodeInfo} {child : FinshNode}
  {values : List FinshValue} {mem : FinshMem} {width : FinshWidth}

/-- A computation in two parts. -/
theorem HasWidth.bind {α β : Type} {first : Except FinshFault α} {next : α → Except FinshFault β}
    {good : α → Prop} {good' : β → Prop} {mayFault : FinshFault → Prop}
    (one : HasWidth good mayFault first)
    (two : ∀ result, good result → HasWidth good' mayFault (next result)) :
    HasWidth good' mayFault (first >>= next) := by
  cases first with
  | error fault => exact one
  | ok result => exact two result one

theorem hasWidth_finshWidth {dataType : UInt8} {mayFault : FinshFault → Prop}
    (known : FinshWidth.ofDataType dataType = some width) :
    HasWidth (· = width) mayFault (finshWidth dataType) := by
  simp [finshWidth, known, HasWidth]

theorem hasWidth_operand {value : FinshValue} {mayFault : FinshFault → Prop}
    (covers : value.width.Covers width) :
    HasWidth (fun _ => True) mayFault (value.operand width) := by
  simp [FinshValue.operand, covers, HasWidth]

theorem hasWidth_operands {mayFault : FinshFault → Prop}
    (covers : ∀ value ∈ values, value.width.Covers width) :
    HasWidth (fun _ => True) mayFault (values.mapM (·.operand width)) := by
  induction values with
  | nil => trivial
  | cons value later ih =>
      rw [List.mapM_cons]
      refine (hasWidth_operand (covers value List.mem_cons_self)).bind fun _ _ => ?_
      exact (ih fun value member => covers value (List.mem_cons_of_mem _ member)).bind
        fun _ _ => trivial

/-- Only divisions and shifts can be undefined. -/
theorem hasWidth_result {op : FinshBinary} {left right : FinshLong}
    (node : info.nodeType = .binary op) :
    HasWidth (fun _ => True) info.MayFault (op.result left right) := by
  rw [FinshBinary.result]
  cases op <;> simp only [FinshBinary.apply] <;> try exact trivial
  all_goals
    split
    next => trivial
    next => simp [HasWidth, FinshNodeInfo.MayFault, node]

theorem widthOver_eq_some {dataType : UInt8} {operands : List FinshWidth}
    (typed : FinshNodeInfo.widthOver dataType operands = some width) :
    FinshWidth.ofDataType dataType = some width ∧ ∀ operand ∈ operands, operand.Covers width := by
  rw [FinshNodeInfo.widthOver, Option.bind_eq_some_iff] at typed
  obtain ⟨found, known, covers⟩ := typed
  rw [Option.ite_none_right_eq_some] at covers
  obtain rfl := Option.some.inj covers.2
  exact ⟨known, covers.1⟩

theorem hasWidth_variable {type : FinshType} {address : FinshLong}
    (typed : info.variableWidth type = some width) {mayFault : FinshFault → Prop} :
    HasWidth (fun value => value.width = width) mayFault
      (info.variableMeaning type address mem) := by
  rw [FinshNodeInfo.variableWidth, Option.map_eq_some_iff] at typed
  obtain ⟨loaded, loads, rfl⟩ := typed
  simp only [FinshNodeInfo.variableMeaning, loads]
  split <;> rfl

theorem hasWidth_id (typed : info.idWidth = some width) {mayFault : FinshFault → Prop} :
    HasWidth (fun value => value.width = width) mayFault (info.idMeaning mem) := by
  rw [FinshNodeInfo.idWidth] at typed
  rw [FinshNodeInfo.idMeaning]
  by_cases syscall : info.idtype &&& finshIdtypeSyscall ≠ 0
  · rw [if_pos syscall] at typed ⊢
    exact Option.some.inj typed
  · rw [if_neg syscall] at typed ⊢
    by_cases sysvar : info.idtype &&& finshIdtypeSysvar ≠ 0
    · rw [if_pos sysvar] at typed ⊢
      exact hasWidth_variable typed
    · rw [if_neg sysvar] at typed ⊢
      exact hasWidth_variable typed

/-- Counting up or down always has a result. -/
theorem hasWidth_step {op : FinshBinary} {byAddress : Bool} (counts : op = .add ∨ op = .sub)
    (typed : info.stepWidth byAddress child = some width) {mayFault : FinshFault → Prop} :
    HasWidth (fun result => result.1.width = width) mayFault (do
      let target ← FinshNodeInfo.stepTarget byAddress child
      info.stepMeaning op target.id.varValue mem) := by
  cases child with
  | null => cases typed
  | node target first sibling =>
      rw [FinshNodeInfo.stepWidth, Option.ite_none_right_eq_some] at typed
      have step : ∀ address, HasWidth (fun result => result.1.width = width) mayFault
          (info.stepMeaning op address mem) := by
        intro address
        refine (hasWidth_finshWidth typed.2).bind ?_
        rintro _ rfl
        rcases counts with rfl | rfl <;> rfl
      simp only [FinshNodeInfo.stepTarget, typed.1, if_true]
      exact step _

theorem hasWidth_poststep {op : FinshBinary} {before : FinshValue}
    (counts : op = .add ∨ op = .sub)
    (typed : (info.stepWidth false child).map (fun _ => before.width) = some width)
    {mayFault : FinshFault → Prop} :
    HasWidth (fun result => result.1.width = width) mayFault
      (info.poststepMeaning op child mem [before]) := by
  obtain ⟨stepped, known, same⟩ := Option.map_eq_some_iff.mp typed
  have step := @hasWidth_step info child mem stepped op false counts known mayFault
  have after : HasWidth (fun result => result.1.width = width) mayFault
      ((do
        let target ← FinshNodeInfo.stepTarget false child
        info.stepMeaning op target.id.varValue mem) >>= fun after => .ok (before, after.2)) :=
    step.bind fun _ _ => same
  simpa only [FinshNodeInfo.poststepMeaning, bind_assoc] using after

theorem hasWidth_leaf {value : FinshValue} {nodeWidth : Option FinshWidth}
    (typed : (if child = .null then nodeWidth else none) = some width)
    (same : nodeWidth = some value.width) {mayFault : FinshFault → Prop} :
    HasWidth (fun result => result.1.width = width) mayFault
      (if child = .null then .ok (value, mem) else .error .type) := by
  rw [Option.ite_none_right_eq_some] at typed
  rw [if_pos typed.1]
  exact Option.some.inj (same.symm.trans typed.2)

/-- A node over values of the right widths has a value of its width, or may fault. -/
theorem hasWidth_node (typed : info.width child (values.map (·.width)) = some width) :
    HasWidth (fun result => result.1.width = width) info.MayFault
      (info.meaning syscalls child values mem) := by
  cases node : info.nodeType <;>
    simp only [FinshNodeInfo.width, node] at typed <;> simp only [FinshNodeInfo.meaning, node]
  case id =>
    rw [Option.ite_none_right_eq_some] at typed
    rw [if_pos typed.1]
    have known := @hasWidth_id info mem width typed.2 info.MayFault
    cases means : info.idMeaning mem <;> rw [means] at known <;> exact known
  case valueChar => exact hasWidth_leaf typed rfl
  case valueInt => exact hasWidth_leaf typed rfl
  case valueLong => exact hasWidth_leaf typed rfl
  case valueString => exact hasWidth_leaf typed rfl
  case valueNull => exact hasWidth_leaf typed rfl
  case binary op =>
    rcases values with _ | ⟨left, _ | ⟨right, _ | _⟩⟩ <;> try cases typed
    obtain ⟨known, covers⟩ := widthOver_eq_some typed
    refine (hasWidth_finshWidth known).bind ?_
    rintro _ rfl
    refine (hasWidth_operand (covers _ (by simp))).bind fun _ _ => ?_
    refine (hasWidth_operand (covers _ (by simp))).bind fun _ _ => ?_
    exact (hasWidth_result node).bind fun _ _ => rfl
  case bitwise =>
    rcases values with _ | ⟨operand, _ | _⟩ <;> try cases typed
    obtain ⟨known, covers⟩ := widthOver_eq_some typed
    refine (hasWidth_finshWidth known).bind ?_
    rintro _ rfl
    exact (hasWidth_operand (covers _ (by simp))).bind fun _ _ => rfl
  case func =>
    rcases values with _ | ⟨func, parameters⟩ <;> try cases typed
    rw [List.map_cons, Option.ite_none_right_eq_some] at typed
    obtain ⟨⟨isLong, areLong, few⟩, same⟩ := typed
    rw [List.length_map] at few
    refine (hasWidth_operand isLong).bind fun place _ => ?_
    refine (hasWidth_operands fun value member =>
      areLong _ (List.mem_map_of_mem member)).bind fun arguments _ => ?_
    rw [if_pos few]
    split
    next => exact Option.some.inj same
    next => exact node
  case assign =>
    rcases values with _ | ⟨target, _ | ⟨source, _ | _⟩⟩ <;> try cases typed
    rw [List.map_cons, List.map_cons, List.map_nil, Option.ite_none_right_eq_some] at typed
    obtain ⟨isLong, typed⟩ := typed
    rw [Option.bind_eq_some_iff] at typed
    obtain ⟨dataType, isTarget, typed⟩ := typed
    obtain ⟨known, covers⟩ := widthOver_eq_some typed
    simp only [FinshNodeInfo.assignMeaning, isTarget]
    refine (hasWidth_finshWidth known).bind ?_
    rintro _ rfl
    refine (hasWidth_operand isLong).bind fun _ _ => ?_
    exact (hasWidth_operand (covers _ (by simp))).bind fun _ _ => rfl
  case preinc =>
    rcases values with _ | ⟨_, _ | _⟩ <;> try cases typed
    exact hasWidth_step (.inl rfl) typed
  case predec =>
    rcases values with _ | ⟨_, _ | _⟩ <;> try cases typed
    exact hasWidth_step (.inr rfl) typed
  case inc =>
    rcases values with _ | ⟨before, _ | _⟩ <;> try cases typed
    exact hasWidth_poststep (.inl rfl) typed
  case dec =>
    rcases values with _ | ⟨before, _ | _⟩ <;> try cases typed
    exact hasWidth_poststep (.inr rfl) typed
  case getValue =>
    rcases values with _ | ⟨pointer, _ | _⟩ <;> try cases typed
    simp only [FinshNodeInfo.getValueMeaning]
    by_cases address : info.idtype &&& finshIdtypeAddress ≠ 0
    · simp only [List.map_cons, List.map_nil] at typed
      rw [if_pos address] at typed ⊢
      exact Option.some.inj typed
    · simp only [List.map_cons, List.map_nil] at typed
      rw [if_neg address, Option.ite_none_right_eq_some] at typed
      rw [if_neg address]
      refine (hasWidth_finshWidth typed.2).bind ?_
      rintro _ rfl
      exact (hasWidth_operand typed.1).bind fun _ _ => rfl
  case getAddr =>
    rcases values with _ | ⟨address, _ | _⟩ <;> try cases typed
    rfl
  all_goals cases typed

/-! ## Trees -/

theorem HasWidth.mono {α : Type} {result : Except FinshFault α} {good : α → Prop}
    {mayFault mayFault' : FinshFault → Prop} (known : HasWidth good mayFault result)
    (more : ∀ fault, mayFault fault → mayFault' fault) : HasWidth good mayFault' result := by
  cases result with
  | error fault => exact more fault known
  | ok result => exact known

/-- A tree with widths has values of these widths, unless one of its nodes faults. -/
theorem hasWidth_tree (tree : FinshNode) {widths : List FinshWidth}
    (typed : tree.widths = some widths) (mem : FinshMem) :
    HasWidth (fun result => result.1.map (·.width) = widths)
      (fun fault => tree.Any fun info => info.MayFault fault) (tree.meaning syscalls mem) := by
  induction tree generalizing widths mem with
  | null => exact Option.some.inj typed
  | node info child sibling ihChild ihSibling =>
      simp only [FinshNode.widths, Option.bind_eq_bind, Option.bind_eq_some_iff,
        Option.some.injEq] at typed
      obtain ⟨operands, below, width, here, later, behind, rfl⟩ := typed
      rw [FinshNode.meaning]
      refine ((ihChild below mem).mono fun _ fault => .inr (.inl fault)).bind ?_
      rintro ⟨values, before⟩ rfl
      refine ((hasWidth_node here).mono fun _ fault => .inl fault).bind ?_
      rintro ⟨value, after⟩ rfl
      refine ((ihSibling behind after).mono fun _ fault => .inr (.inr fault)).bind ?_
      rintro ⟨values, last⟩ rfl
      rfl

/-! ## The length of the code -/

/-- The node counts a variable up or down. -/
def FinshNodeInfo.IsStep (info : FinshNodeInfo) : Prop :=
  info.nodeType = .preinc ∨ info.nodeType = .predec ∨ info.nodeType = .inc ∨ info.nodeType = .dec

instance FinshNodeInfo.instDecidableIsStep (info : FinshNodeInfo) : Decidable info.IsStep :=
  inferInstanceAs (Decidable (_ ∨ _ ∨ _ ∨ _))

namespace FinshNode

/-- The nodes that count a variable up or down. -/
def steps : FinshNode → Nat
  | .null => 0
  | .node info child sibling => (if info.IsStep then 1 else 0) + child.steps + sibling.steps

end FinshNode

theorem length_widthCode {dataType : UInt8} {code : FinshWidth → List UInt8} {bound : Nat}
    (short : ∀ width, (code width).length ≤ bound) :
    (finshWidthCode dataType code).length ≤ bound := by
  rw [finshWidthCode]
  split
  next => exact short _
  next => exact Nat.zero_le _

theorem length_stepCode (op : FinshBinary) (address : FinshLong) (width : FinshWidth) :
    (finshStepCode op address width).length ≤ 12 := by
  cases width <;> simp [finshStepCode, finshCode, FinshWidth.bytes]

theorem length_loadCode (type : FinshType) (address : FinshLong) :
    (info.loadCode type address).length ≤ 5 := by
  rw [FinshNodeInfo.loadCode]
  split <;> simp [finshCode, FinshWidth.bytes]

/-- Five bytes for a node, and thirteen more for a step. -/
theorem length_code_node (info : FinshNodeInfo) (child : FinshNode) :
    (info.code child).length ≤ 5 + 13 * if info.IsStep then 1 else 0 := by
  have prestep : ∀ op, (info.prestepCode op child).length ≤ 18 := by
    intro op
    unfold FinshNodeInfo.prestepCode
    split
    next target first sibling =>
        split
        next =>
            refine length_widthCode fun width => ?_
            have := length_stepCode op target.id.varValue width
            simp only [List.length_append, List.length_singleton]
            omega
        next => exact Nat.zero_le _
    next => exact Nat.zero_le _
  have step : ∀ op, (info.stepCode op child).length ≤ 18 := by
    intro op
    unfold FinshNodeInfo.stepCode
    split
    next target first sibling =>
        split
        next =>
            refine length_widthCode fun width => ?_
            have := length_stepCode op target.id.varValue width
            simp only [List.length_append, List.length_cons, List.length_nil,
              FinshVm.length_finshCode, FinshWidth.bytes]
            omega
        next => exact Nat.zero_le _
    next => exact Nat.zero_le _
  have single : ∀ dataType (op : FinshWidth → FinshOp),
      (finshWidthCode dataType fun width => [(op width).code]).length ≤ 5 :=
    fun dataType op => length_widthCode fun width => by simp
  cases node : info.nodeType <;> simp only [FinshNodeInfo.code, FinshNodeInfo.IsStep, node]
  case id =>
    have loads := fun type address => @length_loadCode info type address
    rw [FinshNodeInfo.idCode]
    split
    · simp [finshCode, FinshWidth.bytes]
    · split <;> exact Nat.le_trans (loads _ _) (by omega)
  case binary op => exact Nat.le_trans (single _ (.binary op)) (by omega)
  case bitwise => exact Nat.le_trans (single _ .bitwise) (by omega)
  case getValue =>
    split
    · exact Nat.zero_le _
    · exact Nat.le_trans (single _ .ldValueStack) (by omega)
  case assign =>
    split
    next => exact Nat.le_trans (length_widthCode fun width => Nat.le_refl 2) (by omega)
    next => exact Nat.zero_le _
  case func => split <;> simp
  case preinc => simpa using prestep .add
  case predec => simpa using prestep .sub
  case inc => simpa using step .add
  case dec => simpa using step .sub
  all_goals simp [finshCode, FinshWidth.bytes]

theorem length_code (tree : FinshNode) :
    tree.code.length ≤ 5 * tree.count + 13 * tree.steps := by
  induction tree with
  | null => exact Nat.le_refl _
  | node info child sibling ihChild ihSibling =>
      have here := length_code_node info child
      simp only [FinshNode.code, List.length_append, FinshNode.count, FinshNode.steps]
      omega

theorem length_programme (tree : FinshNode) :
    tree.programme.length ≤ 5 * tree.count + 13 * tree.steps + (tree.siblings - 1) := by
  induction tree with
  | null => exact Nat.le_refl _
  | node info child sibling ihChild ihSibling =>
      have statement := length_code (.node info child .null)
      simp only [FinshNode.count, FinshNode.steps] at statement
      cases sibling with
      | null =>
          simp only [FinshNode.programme, FinshNode.count, FinshNode.steps, FinshNode.siblings,
            List.length_append, if_true, List.length_nil]
          omega
      | node info' child' sibling' =>
          simp only [FinshNode.siblings] at ihSibling
          rw [FinshNode.programme, if_neg (by simp)]
          simp only [FinshNode.count, FinshNode.steps, FinshNode.siblings, List.length_append,
            List.length_singleton] at ihSibling statement ⊢
          omega

theorem steps_finshTypeCheck (tree : FinshNode) (isAddr : UInt8) :
    (finshTypeCheck tree isAddr).1.steps = tree.steps := by
  induction tree generalizing isAddr with
  | null => rfl
  | node info child sibling ihChild ihSibling =>
      have same : ∀ checked, (info.check isAddr checked).1.IsStep ↔ info.IsStep := fun _ => by
        simp only [FinshNodeInfo.IsStep, check_nodeType]
      simp only [finshTypeCheck, FinshNode.steps, same, ihChild, ihSibling]

/-- A line whose checked tree has widths can fault only in a division, a shift or a call;
else it has a value of its width for every statement.  If at most two of its nodes count
a variable up or down, its code fits in the text segment. -/
theorem finshLine_typed (root : FinshNode) (mem : FinshMem) (widths : List FinshWidth)
    (nodes : root.count ≤ finshNodeMax)
    (typed : (finshTypeCheck root 0).1.widths = some widths) :
    (match (finshTypeCheck root 0).1.meaning syscalls mem with
      | .ok (values, _) => values.map (·.width) = widths
      | .error fault => (finshTypeCheck root 0).1.Any fun info => info.MayFault fault) ∧
      (root.steps ≤ 2 → (finshTypeCheck root 0).1.programme.length ≤ finshTextMax) := by
  constructor
  · have known := @hasWidth_tree syscalls _ widths typed mem
    revert known
    cases (finshTypeCheck root 0).1.meaning syscalls mem <;> exact id
  · intro few
    have short := length_programme (finshTypeCheck root 0).1
    have siblings := FinshNode.siblings_le_count (finshTypeCheck root 0).1
    rw [steps_finshTypeCheck, count_finshTypeCheck] at short
    rw [count_finshTypeCheck] at siblings
    simp only [finshNodeMax, finshTextMax] at nodes ⊢
    omega

/-- `2 / 3;` -/
theorem finshLine_typed_division :
    let leaf (bits : FinshLong) (sibling : FinshNode) : FinshNode :=
      .node ⟨.valueLong, 0, 0, bits, ⟨.unknown, 0, .unknown, 0, 0⟩⟩ .null sibling
    let root : FinshNode :=
      .node ⟨.binary .div, 0, 0, 0, ⟨.unknown, 0, .unknown, 0, 0⟩⟩ (leaf 2 (leaf 3 .null)) .null
    (finshTypeCheck root 0).1.programme.length ≤ finshTextMax := by
  intro leaf root
  exact (@finshLine_typed (fun _ _ _ => none) root (fun _ => 0) [.dword] (by decide)
    (by decide)).2 (by decide)

end LedFirmware
