import LedFirmware.FinshRun

/-!
# From the tree of a line to its result

`finsh_run_line` checks and compiles the tree, and runs the machine if no error was
set.  A line with a meaning is accepted, its run ends, and its result and its memory
are those of the meaning.
-/

namespace LedFirmware

open Relation

/-! ## No errors -/

/-- The identifiers are as `finsh_node_new_id` makes them. -/
def FinshNode.FromParser : FinshNode → Prop
  | .null => True
  | .node info child sibling =>
      (info.nodeType = .id → info.idtype = finshIdtypeVar ∨ info.idtype = finshIdtypeSysvar ∨
        info.idtype = finshIdtypeSyscall) ∧ child.FromParser ∧ sibling.FromParser

variable {syscalls : FinshSyscalls} {tree child : FinshNode} {info : FinshNodeInfo}
  {mem mem' : FinshMem} {values : List FinshValue} {value : FinshValue}

theorem errors_of_meaning_node
    (means : info.meaning syscalls child values mem = .ok (value, mem')) :
    info.errors child = [] := by
  cases node : info.nodeType <;> simp only [FinshNodeInfo.errors, node]
  case assign =>
    simp only [FinshNodeInfo.meaning, node] at means
    rcases values with _ | ⟨target, _ | ⟨source, _ | _⟩⟩ <;> try cases means
    rw [FinshNodeInfo.assignMeaning] at means
    cases known : assignDataType child with
    | none => rfl
    | some dataType =>
        simp only [known, except_bind_eq_ok, finshWidth] at means
        obtain ⟨width, typed, -⟩ := means
        cases found : FinshWidth.ofDataType dataType with
        | none => simp [found] at typed
        | some width => simp [found]
  all_goals
    simp only [FinshNodeInfo.meaning, node] at means
    cases means

/-- The compiler sets no error for a tree with a meaning. -/
theorem errors_of_meaning (means : tree.meaning syscalls mem = .ok (values, mem')) :
    tree.errors = [] := by
  induction tree generalizing mem mem' values with
  | null => rfl
  | node info child sibling ihChild ihSibling =>
      obtain ⟨below, before, value, after, later, first, second, third, rfl⟩ :=
        FinshNode.meaning_node means
      simp [FinshNode.errors, ihChild first, ihSibling third, errors_of_meaning_node second]

/-- The type of a variable that can be loaded is known. -/
theorem typed_eq {type : FinshType} (loads : type.loadWidth ≠ none) :
    ∃ dataType, info.typed type = ({ info with dataType }, []) := by
  cases type <;>
    simp [FinshType.loadWidth, FinshNodeInfo.typed, FinshType.dataType] at loads ⊢

theorem loadWidth_of_variableMeaning {type : FinshType} {address : FinshLong}
    (means : info.variableMeaning type address mem = .ok value) : type.loadWidth ≠ none := by
  intro none
  simp [FinshNodeInfo.variableMeaning, none] at means

theorem idMeaning_typed (type : FinshType) :
    (info.typed type).1.idMeaning mem = info.idMeaning mem := by
  rw [FinshNodeInfo.typed]
  split <;> rfl

/-- The bits of an identifier from the parser, with or without the address bit. -/
theorem idtype_bits {isAddr : UInt8} (isAddr' : isAddr = 0 ∨ isAddr = finshIdtypeAddress) :
    ((finshIdtypeVar ||| isAddr) &&& finshIdtypeVar ≠ 0 ∧
      ¬ (finshIdtypeVar ||| isAddr) &&& finshIdtypeSysvar ≠ 0 ∧
      ¬ (finshIdtypeVar ||| isAddr) &&& finshIdtypeSyscall ≠ 0) ∧
    ¬ (finshIdtypeSysvar ||| isAddr) &&& finshIdtypeVar ≠ 0 ∧
      (finshIdtypeSysvar ||| isAddr) &&& finshIdtypeSysvar ≠ 0 ∧
      ¬ (finshIdtypeSysvar ||| isAddr) &&& finshIdtypeSyscall ≠ 0 := by
  rcases isAddr' with rfl | rfl <;> decide

/-- The type check sets no error for an identifier from the parser that has a meaning. -/
theorem errors_of_check_id {isAddr : UInt8} (isAddr' : isAddr = 0 ∨ isAddr = finshIdtypeAddress)
    (id : info.nodeType = .id)
    (parsed : info.idtype = finshIdtypeVar ∨ info.idtype = finshIdtypeSysvar ∨
      info.idtype = finshIdtypeSyscall)
    (means : (info.check isAddr .null).1.idMeaning mem = .ok value) :
    (info.check isAddr .null).2 = [] := by
  obtain ⟨⟨var, noSysvar, noSyscall⟩, noVar, sysvar, noSyscall'⟩ := idtype_bits isAddr'
  obtain ⟨nodeType, dataType, idtype, bits, ident⟩ := info
  obtain rfl : nodeType = .id := id
  rcases parsed with isVar | isSysvar | isSyscall
  · obtain rfl : idtype = finshIdtypeVar := isVar
    have checked : FinshNodeInfo.check ⟨.id, dataType, finshIdtypeVar, bits, ident⟩ isAddr .null =
        FinshNodeInfo.typed ⟨.id, dataType, finshIdtypeVar ||| isAddr, bits, ident⟩
          ident.varType := by
      simp only [FinshNodeInfo.check, FinshNodeInfo.checkLeaf]
      rw [if_pos (by decide), if_pos var]
    rw [checked, idMeaning_typed, FinshNodeInfo.idMeaning, if_neg noSyscall,
      if_neg noSysvar] at means
    obtain ⟨dataType', known⟩ := typed_eq (loadWidth_of_variableMeaning means)
    rw [checked, known]
  · obtain rfl : idtype = finshIdtypeSysvar := isSysvar
    have checked :
        FinshNodeInfo.check ⟨.id, dataType, finshIdtypeSysvar, bits, ident⟩ isAddr .null =
          FinshNodeInfo.typed ⟨.id, dataType, finshIdtypeSysvar ||| isAddr, bits, ident⟩
            ident.sysvarType := by
      simp only [FinshNodeInfo.check, FinshNodeInfo.checkLeaf]
      rw [if_pos (by decide), if_neg noVar, if_pos sysvar]
    rw [checked, idMeaning_typed, FinshNodeInfo.idMeaning, if_neg noSyscall',
      if_pos sysvar] at means
    obtain ⟨dataType', known⟩ := typed_eq (loadWidth_of_variableMeaning means)
    rw [checked, known]
  · obtain rfl : idtype = finshIdtypeSyscall := isSyscall
    simp only [FinshNodeInfo.check, FinshNodeInfo.checkLeaf]
    rw [if_neg (by decide), if_neg (by simp; decide), if_neg (by simp; decide)]

theorem checkLeaf_errors (other : info.nodeType ≠ .id) : info.checkLeaf.2 = [] := by
  cases node : info.nodeType <;> simp_all [FinshNodeInfo.checkLeaf]

theorem check_nodeType (info : FinshNodeInfo) (isAddr : UInt8) :
    (info.check isAddr child).1.nodeType = info.nodeType := by
  cases child with
  | node first grand sibling =>
      simp only [FinshNodeInfo.check]
      split <;> rfl
  | null =>
      simp only [FinshNodeInfo.check, FinshNodeInfo.checkLeaf, FinshNodeInfo.typed]
      split <;> (repeat' split) <;> rfl

/-- The type check sets no error for a tree from the parser with a meaning. -/
theorem errors_of_check (tree : FinshNode) {isAddr : UInt8}
    (isAddr' : isAddr = 0 ∨ isAddr = finshIdtypeAddress) (parsed : tree.FromParser)
    (means : (finshTypeCheck tree isAddr).1.meaning syscalls mem = .ok (values, mem')) :
    (finshTypeCheck tree isAddr).2 = [] := by
  induction tree generalizing isAddr mem mem' values with
  | null => rfl
  | node info child sibling ihChild ihSibling =>
      obtain ⟨below, before, value, after, later, first, second, third, rfl⟩ :=
        FinshNode.meaning_node means
      have below' : info.childAddr isAddr = 0 ∨ info.childAddr isAddr = finshIdtypeAddress := by
        rw [FinshNodeInfo.childAddr]
        split
        · exact .inr rfl
        · split
          · exact .inl rfl
          · exact isAddr'
      simp only [finshTypeCheck, ihChild below' parsed.2.1 first,
        ihSibling (.inl rfl) parsed.2.2 third, List.nil_append]
      revert second
      generalize (finshTypeCheck child (info.childAddr isAddr)).1 = checked
      intro second
      cases checked with
      | node target grand sibling => rfl
      | null =>
          by_cases id : info.nodeType = .id
          · have kept : (info.check isAddr .null).1.nodeType = .id :=
              (check_nodeType info isAddr).trans id
            simp only [FinshNodeInfo.meaning, kept, if_true] at second
            cases found : (info.check isAddr .null).1.idMeaning before with
            | error fault => simp [found, Except.map] at second
            | ok value => exact errors_of_check_id isAddr' id (parsed.1 id) found
          · simp only [FinshNodeInfo.check]
            split <;> exact checkLeaf_errors id

/-! ## The loop of the machine -/

namespace FinshVm

variable {text : List UInt8} {vm vm' : FinshVm}

/-- An operation leaves the program counter where it is or behind its operand. -/
theorem perform_pc {op : FinshOp} (performed : perform text syscalls vm op = some vm') :
    vm.pc ≤ vm'.pc := by
  cases op <;>
    simp only [perform, push, Option.bind_eq_bind, Option.ite_none_right_eq_some,
      Option.bind_eq_some_iff, Option.some.injEq] at performed
  case noOp => rw [performed]
  case binary => obtain ⟨-, _, -, rfl⟩ := performed; exact Nat.le_refl _
  case bitwise => obtain ⟨-, rfl⟩ := performed; exact Nat.le_refl _
  case ld => obtain ⟨_, -, _, ⟨-, rfl⟩, rfl⟩ := performed; exact Nat.le_add_right _ _
  case ldValue => obtain ⟨_, -, _, ⟨-, rfl⟩, rfl⟩ := performed; exact Nat.le_add_right _ _
  case st => obtain ⟨-, rfl⟩ := performed; exact Nat.le_refl _
  case pop => obtain ⟨-, rfl⟩ := performed; exact Nat.le_refl _
  case call => obtain ⟨_, -, -, _, -, rfl⟩ := performed; exact Nat.le_add_right _ _
  case ldValueStack => obtain ⟨-, rfl⟩ := performed; exact Nat.le_refl _

theorem step_pc (stepped : step text syscalls vm = some vm') :
    vm.pc < text.length ∧ vm.pc < vm'.pc := by
  simp only [step, Option.bind_eq_bind, Option.bind_eq_some_iff] at stepped
  obtain ⟨code, here, op, -, performed⟩ := stepped
  exact ⟨(List.getElem?_eq_some_iff.mp here).1, perform_pc performed⟩

/-- Every round takes a byte of the text, so that as many rounds are enough. -/
theorem loop_of_reaches (whole : text.length = finshTextMax)
    (reaches : Reaches text syscalls vm vm') (ended : finshTextMax ≤ vm'.pc) (fuel : Nat)
    (enough : finshTextMax ≤ vm.pc + fuel) : loop text syscalls fuel vm = some vm' := by
  induction reaches using ReflTransGen.head_induction_on generalizing fuel with
  | refl => cases fuel <;> simp [loop, Nat.not_lt.mpr ended]
  | head stepped rest ih =>
      obtain ⟨inside, further⟩ := step_pc stepped
      rw [whole] at inside
      cases fuel with
      | zero => omega
      | succ fuel =>
          rw [loop, if_pos inside, stepped]
          exact ih fuel (by omega)

/-- The rest of the text segment does nothing. -/
theorem reaches_noOps (count : Nat) (zeros : ∀ index < count, text[vm.pc + index]? = some 0) :
    Reaches text syscalls vm { vm with pc := vm.pc + count } := by
  induction count generalizing vm with
  | zero => exact .refl
  | succ count ih =>
      have first : text[vm.pc]? = some FinshOp.noOp.code := zeros 0 (by omega)
      have one : Reaches text syscalls vm { vm with pc := vm.pc + 1 } := reaches_op first rfl
      have rest := @ih { vm with pc := vm.pc + 1 } fun index inside => by
        have later := zeros (index + 1) (by omega)
        rwa [Nat.add_comm index, ← Nat.add_assoc] at later
      rw [Nat.add_comm count, ← Nat.add_assoc]
      exact one.trans rest

/-- The text has the code that it begins with. -/
theorem holds_prefix (before code after : List UInt8) :
    Holds (before ++ code ++ after) before.length code := by
  induction code generalizing before with
  | nil => trivial
  | cons byte code ih =>
      refine ⟨by simp, ?_⟩
      have later := ih (before ++ [byte])
      simpa using later

end FinshVm

/-! ## The line -/

/-- `FINSH_NODE_MAX` -/
def finshNodeMax : Nat := 16

/-- `finsh_run_line` behind the parser: the machine behind its run, if the compiler has set no
error. -/
def finshRunLine (syscalls : FinshSyscalls) (root : FinshNode) (stack : Nat → FinshLong)
    (mem : FinshMem) : Option FinshVm :=
  match finshCompilerRun root with
  | (some text, []) => FinshVm.finshVmRun text syscalls (Function.update stack 0 0) mem
  | _ => none

/-- `finsh_stack_bottom` -/
def finshStackBottom (vm : FinshVm) : FinshLong := vm.stack 0

theorem count_finshTypeCheck (tree : FinshNode) (isAddr : UInt8) :
    (finshTypeCheck tree isAddr).1.count = tree.count := by
  induction tree generalizing isAddr with
  | null => rfl
  | node info child sibling ihChild ihSibling =>
      simp [finshTypeCheck, FinshNode.count, ihChild, ihSibling]

/-- A line from the parser with a meaning and with code that fits in the text segment is
accepted and runs to the end of the text.  Whatever was left on the stack, its result
has the bits of the value of the last statement, and the memory is that of the meaning. -/
theorem finshRunLine_correct (root : FinshNode) (stack : Nat → FinshLong) (mem mem' : FinshMem)
    (values : List FinshValue) (nonempty : values ≠ []) (parsed : root.FromParser)
    (nodes : root.count ≤ finshNodeMax)
    (fits : (finshTypeCheck root 0).1.programme.length ≤ finshTextMax)
    (means : (finshTypeCheck root 0).1.meaning syscalls mem = .ok (values, mem')) :
    ∃ vm, finshRunLine syscalls root stack mem = some vm ∧ vm.pc = finshTextMax ∧ vm.sp = 1 ∧
      vm.mem = mem' ∧
      (values.getLast nonempty).width.read (finshStackBottom vm) =
        (values.getLast nonempty).bits := by
  let code := (finshTypeCheck root 0).1.programme
  let text := code ++ List.replicate (finshTextMax - code.length) 0
  let start : FinshVm := { stack := Function.update stack 0 0, sp := 0, pc := 0, mem }
  have accepted : finshCompilerRun root = (some text, []) := by
    simp only [finshCompilerRun, errors_of_check root (.inl rfl) parsed means,
      errors_of_meaning means, List.append_nil, if_pos fits, text, code]
  have holds : FinshVm.Holds text start.pc code := by
    simpa using FinshVm.holds_prefix [] code (List.replicate (finshTextMax - code.length) 0)
  have room : 3 * (finshTypeCheck root 0).1.count ≤ finshStackMax := by
    rw [count_finshTypeCheck]
    simp only [finshNodeMax, finshStackMax] at nodes ⊢
    omega
  obtain ⟨behind, reaches, sp, pc, mem'', fits'⟩ :=
    FinshVm.runs_programme (finshTypeCheck root 0).1 holds rfl means nonempty room
  have pc' : behind.pc = code.length := by
    simpa [start] using pc
  have zeros : ∀ index < finshTextMax - code.length, text[behind.pc + index]? = some 0 := by
    intro index inside
    simp [text, pc', inside]
  have idle := @FinshVm.reaches_noOps syscalls _ _ (finshTextMax - code.length) zeros
  have ended : behind.pc + (finshTextMax - code.length) = finshTextMax := by
    rw [pc']
    exact Nat.add_sub_cancel' fits
  have whole : text.length = finshTextMax := by
    simp only [text, List.length_append, List.length_replicate]
    exact Nat.add_sub_cancel' fits
  refine ⟨{ behind with pc := finshTextMax }, ?_, rfl, sp, mem'', fits'⟩
  rw [ended] at idle
  simp only [finshRunLine, accepted]
  exact FinshVm.loop_of_reaches whole (reaches.trans idle) (Nat.le_refl _) _ (Nat.le_add_left _ _)

/-- `2 + 3;` -/
theorem finshRunLine_adds :
    let leaf (bits : FinshLong) (sibling : FinshNode) : FinshNode :=
      .node ⟨.valueLong, 0, 0, bits, ⟨.unknown, 0, .unknown, 0, 0⟩⟩ .null sibling
    let root : FinshNode :=
      .node ⟨.binary .add, 0, 0, 0, ⟨.unknown, 0, .unknown, 0, 0⟩⟩ (leaf 2 (leaf 3 .null)) .null
    ∃ vm, finshRunLine (fun _ _ _ => none) root (fun _ => 77) (fun _ => 0) = some vm ∧
      finshStackBottom vm = 5 := by
  intro leaf root
  have means : (finshTypeCheck root 0).1.meaning (fun _ _ _ => none) (fun _ => 0) =
      .ok ([.of .dword 5], fun _ => 0) := by
    simp [root, leaf, finshTypeCheck, FinshNodeInfo.check, FinshNodeInfo.checkLeaf,
      FinshNodeInfo.childAddr, FinshNode.meaning, FinshNodeInfo.meaning,
      FinshNodeInfo.binaryMeaning, finshWidth]
    rfl
  have parsed : root.FromParser := by
    simp [root, leaf, FinshNode.FromParser]
  obtain ⟨vm, runs, -, -, -, bottom⟩ := finshRunLine_correct root (fun _ => 77) (fun _ => 0)
    (fun _ => 0) [.of .dword 5] (by simp) parsed (by decide) (by decide) means
  exact ⟨vm, runs, bottom⟩

end LedFirmware
