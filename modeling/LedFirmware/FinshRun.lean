import LedFirmware.FinshNodes

/-!
# A line of the finsh shell runs as it means

The code of a tree leaves the values of its nodes on the stack; the code of a line
leaves the value of its last statement in the first slot.  The type check and the
compiler report no error for a line with a meaning, and the machine stops at the end
of the text.
-/

namespace LedFirmware

open Relation

/-! ## Facts about meanings -/

namespace FinshNode

variable {syscalls : FinshSyscalls} {tree child sibling : FinshNode} {info : FinshNodeInfo}
  {mem mem' : FinshMem} {values : List FinshValue}

/-- The parts of a tree with a meaning. -/
theorem meaning_node
    (means : (FinshNode.node info child sibling).meaning syscalls mem = .ok (values, mem')) :
    ∃ below before value after later, child.meaning syscalls mem = .ok (below, before) ∧
      info.meaning syscalls child below before = .ok (value, after) ∧
      sibling.meaning syscalls after = .ok (later, mem') ∧ values = value :: later := by
  simp only [meaning, except_bind_eq_ok, Except.ok.injEq, Prod.mk.injEq] at means
  obtain ⟨⟨below, before⟩, first, ⟨value, after⟩, second, ⟨later, behind⟩, third, rfl, rfl⟩ := means
  exact ⟨below, before, value, after, later, first, second, third, rfl⟩

/-- Every sibling has a value. -/
theorem length_meaning (means : tree.meaning syscalls mem = .ok (values, mem')) :
    values.length = tree.siblings := by
  induction tree generalizing mem values with
  | null =>
      simp only [meaning, Except.ok.injEq, Prod.mk.injEq] at means
      simp [← means.1, siblings]
  | node info child sibling ihChild ihSibling =>
      obtain ⟨_, _, value, _, later, -, -, third, rfl⟩ := meaning_node means
      simp [siblings, ihSibling third]

theorem siblings_le_count (tree : FinshNode) : tree.siblings ≤ tree.count := by
  induction tree with
  | null => exact Nat.le_refl _
  | node info child sibling ihChild ihSibling =>
      simp only [siblings, count]
      omega

/-- A variable taken by its address. -/
theorem meaning_variable {target : FinshNodeInfo} (variable' : target.IsVariable true)
    (means : (FinshNode.node target child sibling).meaning syscalls mem = .ok (values, mem')) :
    ∃ later, values = .of .dword target.id.varValue :: later := by
  obtain ⟨below, before, value, after, later, -, second, -, rfl⟩ := meaning_node means
  refine ⟨later, ?_⟩
  obtain ⟨id, idtype⟩ := variable'
  have syscall : ¬ target.idtype &&& finshIdtypeSyscall ≠ 0 := by
    rw [idtype]
    decide
  have sysvar : ¬ target.idtype &&& finshIdtypeSysvar ≠ 0 := by
    rw [idtype]
    decide
  have address : target.idtype &&& finshIdtypeAddress ≠ 0 := by
    rw [idtype]
    decide
  simp only [FinshNodeInfo.meaning, id, FinshNodeInfo.idMeaning] at second
  rw [if_neg syscall, if_neg sysvar, FinshNodeInfo.variableMeaning] at second
  split at second
  next =>
      split at second
      next => rw [(Prod.mk.inj (Except.ok.inj second)).1]
      next => contradiction
  next => cases second

end FinshNode

namespace FinshVm

variable {text : List UInt8} {syscalls : FinshSyscalls} {vm vm' : FinshVm} {base : Nat}
  {info : FinshNodeInfo} {child tree : FinshNode} {values : List FinshValue} {value : FinshValue}
  {mem mem' : FinshMem}

/-! ## Trees -/

theorem runs_node (below : child.meaning syscalls mem' = .ok (values, vm.mem))
    (holds : Holds text vm.pc (info.code child)) (sp : vm.sp = base + values.length)
    (slots : Slots vm.stack base values) (room : vm.sp + 3 ≤ finshStackMax)
    (means : info.meaning syscalls child values vm.mem = .ok (value, mem)) :
    Runs text syscalls vm base value (info.code child) mem := by
  have address : ∀ target first sibling, child = .node target first sibling →
      target.IsVariable true → vm.stack base = target.id.varValue := by
    rintro target first sibling rfl variable'
    obtain ⟨later, rfl⟩ := FinshNode.meaning_variable variable' below
    exact slots.1
  have children := FinshNode.length_meaning below
  have leaf : child = .null → vm.sp = base := by
    rintro rfl
    rw [sp, children, FinshNode.siblings, Nat.add_zero]
  have space : vm.sp < finshStackMax := by omega
  cases node : info.nodeType with
  | id =>
      simp only [FinshNodeInfo.meaning, node] at means
      simp only [FinshNodeInfo.code, node] at holds ⊢
      split at means
      next null =>
          cases id : info.idMeaning vm.mem with
          | error fault => simp [id, Except.map] at means
          | ok found =>
              simp only [id, Except.map, Except.ok.injEq, Prod.mk.injEq] at means
              obtain ⟨rfl, rfl⟩ := means
              exact runs_id holds (leaf null) space id
      next => cases means
  | valueChar =>
      simp only [FinshNodeInfo.meaning, node] at means
      simp only [FinshNodeInfo.code, node] at holds ⊢
      split at means
      next null =>
          obtain ⟨rfl, rfl⟩ := Prod.mk.inj (Except.ok.inj means)
          exact runs_ld holds (leaf null) space
      next => cases means
  | valueInt | valueLong | valueString | valueNull =>
      simp only [FinshNodeInfo.meaning, node] at means
      simp only [FinshNodeInfo.code, node] at holds ⊢
      split at means
      next null =>
          obtain ⟨rfl, rfl⟩ := Prod.mk.inj (Except.ok.inj means)
          exact runs_ld holds (leaf null) space
      next => cases means
  | binary op =>
      simp only [FinshNodeInfo.meaning, node] at means
      exact runs_binary node holds sp slots means
  | bitwise =>
      simp only [FinshNodeInfo.meaning, node] at means
      exact runs_bitwise node holds sp slots means
  | func =>
      simp only [FinshNodeInfo.meaning, node] at means
      exact runs_func node holds sp slots children means
  | assign =>
      simp only [FinshNodeInfo.meaning, node] at means
      exact runs_assign node holds sp slots means
  | preinc | predec =>
      simp only [FinshNodeInfo.meaning, node] at means
      exact runs_prestep (by simp only [FinshNodeInfo.code, node]) holds sp room means address
  | inc | dec =>
      simp only [FinshNodeInfo.meaning, node] at means
      exact runs_poststep (by simp only [FinshNodeInfo.code, node]) holds sp slots room means
  | getValue =>
      simp only [FinshNodeInfo.meaning, node] at means
      exact runs_getValue node holds sp slots means
  | getAddr =>
      simp only [FinshNodeInfo.meaning, node] at means
      have code : info.code child = [] := by
        simp only [FinshNodeInfo.code, node]
      rcases values with _ | ⟨pointer, _ | _⟩ <;> try cases means
      rw [code]
      exact ⟨vm, .refl, sp, rfl, rfl, fun _ _ => rfl, slots.1⟩
  | cast | unknown | null =>
      simp only [FinshNodeInfo.meaning, node] at means
      cases means

/-- The values of the nodes have been pushed. -/
structure Pushes (vm vm' : FinshVm) (values : List FinshValue) (bytes : Nat) (mem : FinshMem) :
    Prop where
  sp : vm'.sp = vm.sp + values.length
  pc : vm'.pc = vm.pc + bytes
  mem : vm'.mem = mem
  below : ∀ place < vm.sp, vm'.stack place = vm.stack place
  slots : Slots vm'.stack vm.sp values

/-- The code of a tree pushes the values of its nodes: first the values of the child, then
the value of the node in their place, then the values of the sibling above it. -/
theorem runs_tree (tree : FinshNode) {vm : FinshVm} (holds : Holds text vm.pc tree.code)
    (means : tree.meaning syscalls vm.mem = .ok (values, mem))
    (room : vm.sp + 3 * tree.count ≤ finshStackMax) :
    ∃ vm', Reaches text syscalls vm vm' ∧ Pushes vm vm' values tree.code.length mem := by
  induction tree generalizing vm values mem with
  | null =>
      simp only [FinshNode.meaning, Except.ok.injEq, Prod.mk.injEq] at means
      obtain ⟨rfl, rfl⟩ := means
      exact ⟨vm, .refl, rfl, rfl, rfl, fun _ _ => rfl, trivial⟩
  | node info child sibling ihChild ihSibling =>
      obtain ⟨below, before, value, after, later, first, second, third, rfl⟩ :=
        FinshNode.meaning_node means
      rw [FinshNode.code, holds_append, holds_append] at holds
      obtain ⟨⟨childCode, nodeCode⟩, siblingCode⟩ := holds
      rw [FinshNode.count] at room
      obtain ⟨one, toOne, pushed⟩ := ihChild childCode first (by omega)
      have few := FinshNode.length_meaning first
      have := FinshNode.siblings_le_count child
      have sp := pushed.sp
      rw [← pushed.mem] at first second
      rw [← pushed.pc] at nodeCode
      obtain ⟨two, toTwo, answers⟩ := runs_node first nodeCode sp pushed.slots (by omega) second
      have pc := answers.pc
      rw [pushed.pc, Nat.add_assoc, ← List.length_append] at pc
      rw [← pc] at siblingCode
      rw [← answers.mem] at third
      have sp' := answers.sp
      obtain ⟨three, toThree, rest⟩ := ihSibling siblingCode third (by omega)
      refine ⟨three, (toOne.trans toTwo).trans toThree, ?_, ?_, rest.mem, fun place inside => ?_,
        ?_⟩
      · rw [rest.sp, sp', List.length_cons]
        omega
      · rw [rest.pc, pc, FinshNode.code]
        simp only [List.length_append, Nat.add_assoc]
      · rw [rest.below place (by omega), answers.below place inside, pushed.below place inside]
      · refine ⟨?_, ?_⟩
        · rw [rest.below vm.sp (by omega)]
          exact answers.top
        · rw [← sp']
          exact rest.slots

/-! ## Lines -/

/-- The code of a line: each value but the last is popped. -/
theorem runs_programme (tree : FinshNode) {vm : FinshVm}
    (holds : Holds text vm.pc tree.programme) (empty : vm.sp = 0)
    (means : tree.meaning syscalls vm.mem = .ok (values, mem)) (line : values ≠ [])
    (room : 3 * tree.count ≤ finshStackMax) :
    ∃ vm', Reaches text syscalls vm vm' ∧ vm'.sp = 1 ∧
      vm'.pc = vm.pc + tree.programme.length ∧ vm'.mem = mem ∧
      (values.getLast line).Fits (vm'.stack 0) := by
  induction tree generalizing vm values mem with
  | null =>
      simp only [FinshNode.meaning, Except.ok.injEq, Prod.mk.injEq] at means
      exact absurd means.1.symm line
  | node info child sibling ihChild ihSibling =>
      obtain ⟨below, before, value, after, later, first, second, third, rfl⟩ :=
        FinshNode.meaning_node means
      have statement : (FinshNode.node info child .null).meaning syscalls vm.mem =
          .ok ([value], after) := by
        simp [FinshNode.meaning, first, second, bind, Except.bind]
      rw [FinshNode.programme, holds_append, holds_append] at holds
      obtain ⟨⟨statementCode, popCode⟩, laterCode⟩ := holds
      rw [FinshNode.count] at room
      obtain ⟨one, toOne, pushed⟩ := runs_tree (.node info child .null) statementCode statement
        (by simp only [FinshNode.count]; omega)
      have sp := pushed.sp
      rw [empty, List.length_singleton] at sp
      have top := pushed.slots.1
      rw [empty] at top
      by_cases last : sibling = .null
      · subst last
        simp only [FinshNode.meaning, Except.ok.injEq, Prod.mk.injEq] at third
        obtain ⟨rfl, rfl⟩ := third
        refine ⟨one, toOne, sp, ?_, pushed.mem, top⟩
        rw [pushed.pc, FinshNode.programme]
        simp [FinshNode.programme]
      · rw [if_neg last] at popCode laterCode
        have nonempty : later ≠ [] := by
          rintro rfl
          have none := FinshNode.length_meaning third
          cases sibling with
          | null => exact last rfl
          | node => simp [FinshNode.siblings] at none
        rw [← pushed.pc] at popCode
        have popped := reaches_pop syscalls one popCode (by omega)
        let two : FinshVm := { one with sp := one.sp - 1, pc := one.pc + 1 }
        have pc : two.pc =
            vm.pc + ((FinshNode.node info child .null).code ++ [FinshOp.pop.code]).length := by
          simp [two, pushed.pc, Nat.add_assoc]
        rw [← pc] at laterCode
        rw [← pushed.mem] at third
        obtain ⟨three, toThree, sp', pc', mem', fits⟩ := @ihSibling later mem two laterCode
          (by simp [two, sp]) third nonempty (by omega)
        refine ⟨three, (toOne.trans popped).trans toThree, sp', ?_, mem', ?_⟩
        · rw [pc', pc, FinshNode.programme, if_neg last]
          simp only [List.length_append, Nat.add_assoc]
        · rw [List.getLast_cons nonempty]
          exact fits

end FinshVm

end LedFirmware
