import LedFirmware.FinshSteps

/-!
# The code of a node computes its meaning

Before the code of a node, the values of its children lie on top of the stack.  Behind
it they are replaced by the value of the node, in as many low bits as its width has,
and the memory is that of the meaning.
-/

namespace LedFirmware

open Relation

namespace FinshVm

variable {text : List UInt8} {syscalls : FinshSyscalls} {vm vm' : FinshVm} {base : Nat}
  {width : FinshWidth} {op : FinshBinary} {info : FinshNodeInfo} {child : FinshNode}
  {values : List FinshValue} {value : FinshValue} {mem : FinshMem}

/-- The slots from `base` on have these values. -/
def Slots (stack : Nat → FinshLong) : (base : Nat) → List FinshValue → Prop
  | _, [] => True
  | base, value :: later => value.Fits (stack base) ∧ Slots stack (base + 1) later

/-- One value has taken the place of those from `base` on. -/
structure Answers (vm vm' : FinshVm) (base : Nat) (value : FinshValue) (bytes : Nat)
    (mem : FinshMem) : Prop where
  sp : vm'.sp = base + 1
  pc : vm'.pc = vm.pc + bytes
  mem : vm'.mem = mem
  below : ∀ place < base, vm'.stack place = vm.stack place
  top : value.Fits (vm'.stack base)

theorem answers_answer (vm : FinshVm) (bytes : Nat) {count : Nat} {slot : FinshLong}
    (sp : vm.sp = base + count) (fits : value.Fits slot) :
    Answers vm (vm.answer count slot bytes) base value bytes vm.mem where
  sp := by simp [answer, sp]
  pc := rfl
  mem := rfl
  below := fun place before => by
    simp only [answer, sp, Nat.add_sub_cancel]
    exact Function.update_of_ne (Nat.ne_of_lt before) ..
  top := by simpa [answer, sp] using fits

/-- The machine gets from before the code to behind it. -/
def Runs (text : List UInt8) (syscalls : FinshSyscalls) (vm : FinshVm) (base : Nat)
    (value : FinshValue) (code : List UInt8) (mem : FinshMem) : Prop :=
  ∃ vm', Reaches text syscalls vm vm' ∧ Answers vm vm' base value code.length mem

/-! ## Loads -/

theorem runs_ld {bits : FinshLong}
    (holds : Holds text vm.pc ((FinshOp.ld width).code :: finshCode width bits))
    (sp : vm.sp = base) (room : vm.sp < finshStackMax) :
    Runs text syscalls vm base (.of width bits) ((FinshOp.ld width).code :: finshCode width bits)
      vm.mem := by
  obtain ⟨slot, same, reaches⟩ := reaches_ld syscalls vm holds room
  refine ⟨_, reaches, ?_⟩
  rw [List.length_cons, length_finshCode, Nat.add_comm]
  exact answers_answer vm _ sp (FinshValue.fits_of same)

theorem runs_ldValue {address : FinshLong}
    (holds : Holds text vm.pc ((FinshOp.ldValue width).code :: finshCode .dword address))
    (sp : vm.sp = base) (room : vm.sp < finshStackMax) :
    Runs text syscalls vm base (.of width (width.load vm.mem address))
      ((FinshOp.ldValue width).code :: finshCode .dword address) vm.mem := by
  obtain ⟨slot, same, reaches⟩ := reaches_ldValue syscalls vm holds room
  exact ⟨_, reaches, answers_answer vm _ sp (FinshValue.fits_of same)⟩

theorem runs_variable {type : FinshType} {address : FinshLong}
    (holds : Holds text vm.pc (info.loadCode type address)) (sp : vm.sp = base)
    (room : vm.sp < finshStackMax)
    (means : info.variableMeaning type address vm.mem = .ok value) :
    Runs text syscalls vm base value (info.loadCode type address) vm.mem := by
  rw [FinshNodeInfo.variableMeaning] at means
  rw [FinshNodeInfo.loadCode] at holds ⊢
  cases loads : type.loadWidth with
  | none => simp [loads] at means
  | some width =>
      simp only [loads] at means holds ⊢
      by_cases address' : info.idtype &&& finshIdtypeAddress ≠ 0
      · rw [if_pos address'] at means holds ⊢
        rw [← Except.ok.inj means]
        exact runs_ld holds sp room
      · rw [if_neg address'] at means holds ⊢
        rw [← Except.ok.inj means]
        exact runs_ldValue holds sp room

theorem runs_id (holds : Holds text vm.pc info.idCode) (sp : vm.sp = base)
    (room : vm.sp < finshStackMax) (means : info.idMeaning vm.mem = .ok value) :
    Runs text syscalls vm base value info.idCode vm.mem := by
  rw [FinshNodeInfo.idMeaning] at means
  rw [FinshNodeInfo.idCode] at holds ⊢
  by_cases syscall : info.idtype &&& finshIdtypeSyscall ≠ 0
  · rw [if_pos syscall] at means holds ⊢
    rw [← Except.ok.inj means]
    exact runs_ld holds sp room
  · rw [if_neg syscall] at means holds ⊢
    by_cases sysvar : info.idtype &&& finshIdtypeSysvar ≠ 0
    · rw [if_pos sysvar] at means holds ⊢
      exact runs_variable holds sp room means
    · rw [if_neg sysvar] at means holds ⊢
      exact runs_variable holds sp room means

/-! ## Operators -/

/-- A width is the same for the compiler and for the meaning. -/
theorem finshWidth_eq_ok {dataType : UInt8} {width : FinshWidth}
    (means : finshWidth dataType = .ok width) (code : FinshWidth → List UInt8) :
    finshWidthCode dataType code = code width := by
  rw [finshWidth] at means
  rw [finshWidthCode]
  cases typed : FinshWidth.ofDataType dataType with
  | none => simp [typed] at means
  | some width' =>
      simp only [typed, Except.ok.injEq] at means
      simp only [means]

theorem result_eq_ok {left right result : FinshLong} (means : op.result left right = .ok result) :
    op.apply left right = some result := by
  rw [FinshBinary.result] at means
  cases applied : op.apply left right with
  | none => simp [applied] at means
  | some result' =>
      simp only [applied, Except.ok.injEq] at means
      rw [means]

theorem runs_binary (node : info.nodeType = .binary op)
    (holds : Holds text vm.pc (info.code child)) (sp : vm.sp = base + values.length)
    (slots : Slots vm.stack base values)
    (means : info.binaryMeaning op vm.mem values = .ok (value, mem)) :
    Runs text syscalls vm base value (info.code child) mem := by
  match values, means with
  | [left, right], means =>
      simp only [FinshNodeInfo.binaryMeaning, except_bind_eq_ok, Except.ok.injEq,
        Prod.mk.injEq] at means
      obtain ⟨width, typed, first, left', second, right', result, applied, rfl, rfl⟩ := means
      have code : info.code child = [(FinshOp.binary op width).code] := by
        simp only [FinshNodeInfo.code, node]
        exact finshWidth_eq_ok typed _
      have top : vm.slot 1 = vm.stack (base + 1) := by simp [slot, sp]
      have next : vm.slot 2 = vm.stack base := by simp [slot, sp]
      rw [code] at holds ⊢
      have operands : op.apply (width.read (vm.slot 2)) (width.read (vm.slot 1)) = some result := by
        rw [top, next, slots.1.operand left', slots.2.1.operand right']
        exact result_eq_ok applied
      obtain ⟨slot, same, reaches⟩ := reaches_binary syscalls vm holds (by simp [sp]) operands
      exact ⟨_, reaches, answers_answer vm _ sp (FinshValue.fits_of same)⟩

theorem runs_bitwise (node : info.nodeType = .bitwise)
    (holds : Holds text vm.pc (info.code child)) (sp : vm.sp = base + values.length)
    (slots : Slots vm.stack base values)
    (means : info.bitwiseMeaning vm.mem values = .ok (value, mem)) :
    Runs text syscalls vm base value (info.code child) mem := by
  match values, means with
  | [operand], means =>
      simp only [FinshNodeInfo.bitwiseMeaning, except_bind_eq_ok, Except.ok.injEq,
        Prod.mk.injEq] at means
      obtain ⟨width, typed, bits, operand', rfl, rfl⟩ := means
      have code : info.code child = [(FinshOp.bitwise width).code] := by
        simp only [FinshNodeInfo.code, node]
        exact finshWidth_eq_ok typed _
      have top : vm.slot 1 = vm.stack base := by simp [slot, sp]
      rw [code] at holds ⊢
      obtain ⟨slot, same, reaches⟩ := reaches_bitwise syscalls vm holds (by simp [sp])
      rw [top, slots.1.operand operand'] at same
      exact ⟨_, reaches, answers_answer vm _ sp (FinshValue.fits_of same)⟩

theorem runs_getValue (node : info.nodeType = .getValue)
    (holds : Holds text vm.pc (info.code child)) (sp : vm.sp = base + values.length)
    (slots : Slots vm.stack base values)
    (means : info.getValueMeaning vm.mem values = .ok (value, mem)) :
    Runs text syscalls vm base value (info.code child) mem := by
  match values, means with
  | [pointer], means =>
      rw [FinshNodeInfo.getValueMeaning] at means
      by_cases address : info.idtype &&& finshIdtypeAddress ≠ 0
      · rw [if_pos address] at means
        obtain ⟨rfl, rfl⟩ := Prod.mk.inj (Except.ok.inj means)
        have code : info.code child = [] := by
          simp [FinshNodeInfo.code, node, address]
        rw [code]
        exact ⟨vm, .refl, sp, rfl, rfl, fun _ _ => rfl, slots.1⟩
      · rw [if_neg address] at means
        simp only [except_bind_eq_ok, Except.ok.injEq, Prod.mk.injEq] at means
        obtain ⟨width, typed, place, pointer', rfl, rfl⟩ := means
        have code : info.code child = [(FinshOp.ldValueStack width).code] := by
          simp only [FinshNodeInfo.code, node]
          rw [if_neg address]
          exact finshWidth_eq_ok typed _
        have top : vm.slot 1 = place := by
          rw [← slots.1.operand pointer']
          simp [slot, sp, FinshWidth.read]
        rw [code] at holds ⊢
        obtain ⟨slot, same, reaches⟩ := reaches_ldValueStack syscalls vm holds (by simp [sp])
        rw [top] at same
        exact ⟨_, reaches, answers_answer vm _ sp (FinshValue.fits_of same)⟩

/-! ## Assignments -/

/-- A value stored and loaded again. -/
theorem runs_assign (node : info.nodeType = .assign)
    (holds : Holds text vm.pc (info.code child)) (sp : vm.sp = base + values.length)
    (slots : Slots vm.stack base values)
    (means : FinshNodeInfo.assignMeaning child vm.mem values = .ok (value, mem)) :
    Runs text syscalls vm base value (info.code child) mem := by
  match values, means with
  | [target, source], means =>
      rw [FinshNodeInfo.assignMeaning] at means
      cases known : assignDataType child with
      | none => simp [known] at means
      | some dataType =>
          simp only [known, except_bind_eq_ok, Except.ok.injEq, Prod.mk.injEq] at means
          obtain ⟨width, typed, address, target', bits, source', rfl, rfl⟩ := means
          have code : info.code child =
              [(FinshOp.st width).code, (FinshOp.ldValueStack width).code] := by
            simp only [FinshNodeInfo.code, node, known]
            exact finshWidth_eq_ok typed _
          have top : width.read (vm.slot 1) = width.read bits := by
            rw [← slots.2.1.operand source', FinshWidth.read_read (FinshWidth.covers_refl _)]
            simp [slot, sp]
          have next : vm.slot 2 = address := by
            rw [← slots.1.operand target']
            simp [slot, sp, FinshWidth.read]
          rw [code] at holds ⊢
          have holdsStore : Holds text vm.pc [(FinshOp.st width).code] := ⟨holds.1, trivial⟩
          have stored := reaches_st syscalls vm holdsStore (by simp [sp])
          rw [next, FinshWidth.store_congr top] at stored
          let behind : FinshVm := { vm with
            mem := width.store vm.mem address bits, sp := vm.sp - 1, pc := vm.pc + 1 }
          have holdsLoad : Holds text behind.pc [(FinshOp.ldValueStack width).code] :=
            ⟨holds.2.1, trivial⟩
          have sp' : behind.sp = base + 1 := by simp [behind, sp]
          obtain ⟨slot, same, loaded⟩ := reaches_ldValueStack syscalls behind holdsLoad
            (by omega)
          have again : behind.slot 1 = address := by
            rw [← next]
            simp [FinshVm.slot, behind, Nat.sub_sub]
          rw [again, FinshWidth.read_load_store (FinshWidth.covers_refl _)] at same
          have answers := answers_answer behind 1 sp' (FinshValue.fits_of same)
          exact ⟨_, stored.trans loaded, answers.sp, rfl, answers.mem, answers.below, answers.top⟩

/-! ## Steps of a variable -/

theorem read_one (width : FinshWidth) : width.read 1 = 1 := by
  cases width <;> decide

/-- Above the address of a variable: its value is loaded, changed by one and stored. -/
theorem reaches_stepCode (syscalls : FinshSyscalls) (vm : FinshVm) {address next : FinshLong}
    (holds : Holds text vm.pc (finshStepCode op address width)) (operand : 1 ≤ vm.sp)
    (top : vm.slot 1 = address) (room : vm.sp + 2 ≤ finshStackMax)
    (applied : op.apply (width.read (width.load vm.mem address)) 1 = some next) :
    ∃ vm', Reaches text syscalls vm vm' ∧ vm'.sp = vm.sp ∧
      vm'.pc = vm.pc + (finshStepCode op address width).length ∧
      vm'.mem = width.store vm.mem address next ∧
      ∀ place < vm.sp, vm'.stack place = vm.stack place := by
  rw [finshStepCode, holds_append, holds_append] at holds
  obtain ⟨⟨loadCode, oneCode⟩, opCode, stCode, -⟩ := holds
  simp only [List.length_append, List.length_cons, length_finshCode, FinshWidth.bytes,
    Nat.reduceAdd] at oneCode opCode stCode
  obtain ⟨old, oldBits, loaded⟩ := reaches_ldValue syscalls vm loadCode (by omega)
  let first := vm.answer 0 old 5
  obtain ⟨one, oneBits, pushed⟩ := reaches_ld syscalls first oneCode (by
    simp only [first, answer]
    omega)
  let second := first.answer 0 one (1 + width.bytes)
  have behind : second.pc = vm.pc + (5 + (width.bytes + 1)) := by
    simp only [second, first, answer]
    omega
  have holdsOp : Holds text second.pc [(FinshOp.binary op width).code] :=
    ⟨by rw [behind]; exact opCode, trivial⟩
  rw [read_one] at oneBits
  obtain ⟨new, newBits, changed⟩ := reaches_binary syscalls second holdsOp
    (by simp only [second, first, answer]; omega)
    (by simpa [second, first, answer, slot, oldBits, oneBits] using applied)
  let third := second.answer 2 new 1
  have holdsStore : Holds text third.pc [(FinshOp.st width).code] := by
    refine ⟨?_, trivial⟩
    simp only [third, answer, behind]
    exact stCode
  have stored := reaches_st syscalls third holdsStore
    (by simp only [third, second, first, answer]; omega)
  refine ⟨_, ((loaded.trans pushed).trans changed).trans stored, ?_, ?_, ?_, ?_⟩
  · simp only [third, second, first, answer]
    omega
  · simp only [third, answer, behind, finshStepCode, List.length_append, List.length_cons,
      length_finshCode, List.length_nil, FinshWidth.bytes]
    omega
  · have value : third.slot 1 = new := by
      simp [third, second, first, answer, slot]
    have place : third.slot 2 = address := by
      rw [← top]
      have apart : vm.sp - 1 ≠ vm.sp := by omega
      simp [third, second, first, answer, slot, Function.update_of_ne apart]
    simp only [value, place]
    exact FinshWidth.store_congr newBits vm.mem address
  · intro place below
    have apart : place ≠ vm.sp := by omega
    have apart' : place ≠ vm.sp + 1 := by omega
    simp [third, second, first, answer, Function.update_of_ne apart,
      Function.update_of_ne apart']

/-- The operand of a step is a variable. -/
theorem stepTarget_eq_ok {byAddress : Bool} {target : FinshNodeInfo}
    (means : FinshNodeInfo.stepTarget byAddress child = .ok target) :
    target.IsVariable byAddress ∧ ∃ first sibling, child = .node target first sibling := by
  match child, means with
  | .node target' first sibling, means =>
      rw [FinshNodeInfo.stepTarget] at means
      split at means
      next variable' =>
          obtain rfl := Except.ok.inj means
          exact ⟨variable', first, sibling, rfl⟩
      next => cases means

/-- A step has the width of its node. -/
theorem stepMeaning_eq_ok {address : FinshLong} {before : FinshMem}
    (means : info.stepMeaning op address before = .ok (value, mem)) :
    ∃ width next, finshWidth info.dataType = .ok width ∧
      op.apply (width.read (width.load before address)) 1 = some next ∧
      value = .of width next ∧ mem = width.store before address next := by
  simp only [FinshNodeInfo.stepMeaning, except_bind_eq_ok, Except.ok.injEq,
    Prod.mk.injEq] at means
  obtain ⟨width, typed, next, applied, rfl, rfl⟩ := means
  exact ⟨width, next, typed, result_eq_ok applied, rfl, rfl⟩

/-- The `long` at the address of the variable ends in the new value. -/
theorem runs_prestep (node : info.code child = info.prestepCode op child)
    (holds : Holds text vm.pc (info.code child)) (sp : vm.sp = base + values.length)
    (room : vm.sp + 3 ≤ finshStackMax)
    (means : info.prestepMeaning op child vm.mem values = .ok (value, mem))
    (address : ∀ target first sibling, child = .node target first sibling →
      target.IsVariable true → vm.stack base = target.id.varValue) :
    Runs text syscalls vm base value (info.code child) mem := by
  match values, means with
  | [_], means =>
      simp only [FinshNodeInfo.prestepMeaning, except_bind_eq_ok] at means
      obtain ⟨target, isTarget, stepped⟩ := means
      obtain ⟨variable', first, sibling, rfl⟩ := stepTarget_eq_ok isTarget
      obtain ⟨width, next, typed, applied, rfl, rfl⟩ := stepMeaning_eq_ok stepped
      have code : info.code (.node target first sibling) =
          finshStepCode op target.id.varValue width ++ [(FinshOp.ldValueStack .dword).code] := by
        rw [node, FinshNodeInfo.prestepCode, if_pos variable'.1]
        exact finshWidth_eq_ok typed _
      rw [List.length_singleton] at sp
      have top : vm.slot 1 = target.id.varValue := by
        simpa [slot, sp] using address target first sibling rfl variable'
      rw [code, holds_append] at holds
      rw [code]
      obtain ⟨vm', stepped, sp', pc', mem', below⟩ := reaches_stepCode syscalls vm holds.1
        (by omega) top (by omega) applied
      have top' : vm'.slot 1 = target.id.varValue := by
        rw [← top, slot, slot, sp']
        exact below _ (by omega)
      have holdsLoad : Holds text vm'.pc [(FinshOp.ldValueStack .dword).code] := by
        rw [pc']
        exact holds.2
      obtain ⟨slot, same, loaded⟩ := reaches_ldValueStack syscalls vm' holdsLoad (by omega)
      have new : width.read slot = width.read next := by
        have long : slot = FinshWidth.load .dword vm'.mem (vm'.slot 1) := same
        rw [long, top', mem', FinshWidth.read_load_store (FinshWidth.dword_covers _)]
      have answers := answers_answer vm' 1 (sp'.trans sp) (FinshValue.fits_of new)
      refine ⟨_, stepped.trans loaded, answers.sp, ?_, mem', fun place before => ?_, answers.top⟩
      · simp [answer, pc', Nat.add_assoc]
      · exact (answers.below place before).trans (below place (by omega))

/-- The value lies below the address and what is done with it. -/
theorem runs_poststep (node : info.code child = info.stepCode op child)
    (holds : Holds text vm.pc (info.code child)) (sp : vm.sp = base + values.length)
    (slots : Slots vm.stack base values) (room : vm.sp + 3 ≤ finshStackMax)
    (means : info.poststepMeaning op child vm.mem values = .ok (value, mem)) :
    Runs text syscalls vm base value (info.code child) mem := by
  match values, means with
  | [before], means =>
      simp only [FinshNodeInfo.poststepMeaning, except_bind_eq_ok, Except.ok.injEq,
        Prod.mk.injEq] at means
      obtain ⟨target, isTarget, ⟨after, mem'⟩, stepped, rfl, rfl⟩ := means
      obtain ⟨variable', first, sibling, rfl⟩ := stepTarget_eq_ok isTarget
      obtain ⟨width, next, typed, applied, rfl, rfl⟩ := stepMeaning_eq_ok stepped
      have code : info.code (.node target first sibling) =
          (FinshOp.ld .dword).code :: finshCode .dword target.id.varValue ++
            finshStepCode op target.id.varValue width ++ [FinshOp.pop.code] := by
        rw [node, FinshNodeInfo.stepCode, if_pos variable'.1]
        exact finshWidth_eq_ok typed _
      rw [List.length_singleton] at sp
      rw [code, holds_append, holds_append] at holds
      rw [code]
      obtain ⟨⟨loadCode, stepCode⟩, popCode⟩ := holds
      obtain ⟨address, bits, loaded⟩ := reaches_ld syscalls vm loadCode (by omega)
      obtain rfl : address = target.id.varValue := bits
      let pushed := vm.answer 0 target.id.varValue (1 + FinshWidth.dword.bytes)
      have pc' : pushed.pc =
          vm.pc + ((FinshOp.ld .dword).code :: finshCode .dword target.id.varValue).length := by
        simp [pushed, answer, length_finshCode, FinshWidth.bytes]
      have sp' : pushed.sp = vm.sp + 1 := by
        simp [pushed, answer]
      have below : ∀ place < vm.sp, pushed.stack place = vm.stack place := by
        intro place inside
        simp [pushed, answer, Function.update_of_ne (Nat.ne_of_lt inside)]
      rw [← pc'] at stepCode
      obtain ⟨vm', changed, same, behind, mem', kept⟩ := reaches_stepCode syscalls pushed stepCode
        (by omega) (by simp [pushed, answer, slot]) (by omega) applied
      have holdsPop : Holds text vm'.pc [FinshOp.pop.code] := by
        rw [behind, pc', Nat.add_assoc, ← List.length_append]
        exact popCode
      have popped := reaches_pop syscalls vm' holdsPop (by omega)
      refine ⟨_, (loaded.trans changed).trans popped, ?_, ?_, mem', ?_, ?_⟩
      · simp [same, sp', sp]
      · simp only [behind, pc', List.length_append, List.length_singleton, Nat.add_assoc]
      · exact fun place inside => (kept place (by omega)).trans (below place (by omega))
      · have bottom := (kept base (by omega)).trans (below base (by omega))
        simp only [bottom]
        exact slots.1

/-! ## Calls -/

/-- The arguments of a call are the slots above that of the function. -/
theorem slots_operands {parameters : List FinshValue} {stack : Nat → FinshLong}
    {arguments : List FinshLong} (slots : Slots stack base parameters)
    (operands : parameters.mapM (·.operand .dword) = .ok arguments) :
    arguments = (List.range parameters.length).map fun index => stack (base + index) := by
  induction parameters generalizing base arguments with
  | nil => exact (Except.ok.inj operands).symm
  | cons value later ih =>
      simp only [List.mapM_cons, except_bind_eq_ok, Except.ok.injEq, pure, Except.pure]
        at operands
      obtain ⟨first, first', rest, rest', rfl⟩ := operands
      have head : stack base = first := slots.1.operand first'
      rw [List.length_cons, List.range_succ_eq_map, List.map_cons, List.map_map, ih slots.2 rest']
      simp [Function.comp_def, Nat.add_assoc, Nat.add_comm 1, head]

theorem runs_func (node : info.nodeType = .func)
    (holds : Holds text vm.pc (info.code child)) (sp : vm.sp = base + values.length)
    (slots : Slots vm.stack base values) (children : values.length = child.siblings)
    (means : FinshNodeInfo.funcMeaning syscalls vm.mem values = .ok (value, mem)) :
    Runs text syscalls vm base value (info.code child) mem := by
  match values, means with
  | func :: parameters, means =>
      simp only [FinshNodeInfo.funcMeaning, except_bind_eq_ok] at means
      obtain ⟨place, func', arguments, operands, means⟩ := means
      split at means
      next few =>
          cases returns : syscalls place (if arguments = [] then [0] else arguments) vm.mem with
          | none =>
              rw [returns] at means
              cases means
          | some result =>
              rw [returns] at means
              obtain ⟨rfl, rfl⟩ := Prod.mk.inj (Except.ok.inj means)
              have count : (UInt8.ofNat parameters.length).toNat = parameters.length := by
                have := few
                rw [UInt8.toNat_ofNat', finshParameterMax] at *
                omega
              have code : info.code child =
                  [FinshOp.call.code, UInt8.ofNat parameters.length] := by
                match child, children with
                | .node first grand sibling, children =>
                    have same : parameters.length = sibling.siblings := by
                      simpa [FinshNode.siblings] using children
                    simp [FinshNodeInfo.code, node, same]
              rw [List.length_cons] at sp
              have passed := slots_operands slots.2 operands
              have empty : arguments = [] ↔ parameters.length = 0 := by
                rw [passed]
                simp
              have taken : (List.range parameters.length).map
                  (fun index => vm.slot (parameters.length - index)) = arguments := by
                rw [passed]
                apply List.map_congr_left
                intro index inside
                have inside := List.mem_range.mp inside
                rw [slot, sp]
                congr 1
                omega
              have callee : vm.slot (parameters.length + 1) = place := by
                have read : vm.stack base = place := slots.1.operand func'
                simpa [slot, sp] using read
              rw [code] at holds ⊢
              have called : Reaches text syscalls vm
                  { vm.answer (parameters.length + 1) result.1 2 with mem := result.2 } := by
                apply reaches_op holds.1
                have returns' : syscalls place
                    (if parameters.length = 0 then [0] else arguments) vm.mem = some result := by
                  rw [← returns]
                  simp only [empty]
                simp only [perform, holds.2.1, Option.bind_eq_bind, Option.bind_some, count]
                rw [if_pos ⟨few, by omega⟩]
                simp only [slot] at taken callee
                simp only [slot, taken, callee, returns', Option.bind_some, answer]
                have sp' : vm.sp - parameters.length = vm.sp - (parameters.length + 1) + 1 := by
                  omega
                rw [sp']
              have fits : (FinshValue.of .dword result.1).Fits result.1 := rfl
              have answers := answers_answer vm 2 sp fits
              exact ⟨_, called, answers.sp, answers.pc, rfl, answers.below, answers.top⟩
      next => cases means

end FinshVm

end LedFirmware
