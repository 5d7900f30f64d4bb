import LedFirmware.RtFfs
import LedFirmware.RtTimer

/-!
# The scheduler of the kernel

The ready lists of `scheduler.c`, one for each priority, and the bitmap of the priorities
with a ready thread.  `rt_schedule` takes the first thread of the lowest bit's list.  The
node of a thread is in a ready list, in the waiting list of a semaphore or in none.
-/

namespace LedFirmware

/-! ## Threads and lists -/

/-- The states of a thread. -/
inductive ThreadStat
  | init
  | ready
  | suspend
  | close
  deriving DecidableEq, Repr

/-- `struct rt_thread` without its stack, entry and object. -/
structure RtThread where
  stat : ThreadStat
  initPriority : Nat
  currentPriority : Nat
  numberMask : BitVec 32
  initTick : BitVec 32
  remainingTick : BitVec 32
  error : RtErr
  deriving DecidableEq, Repr

/-- `RT_IPC_FLAG_FIFO` and `RT_IPC_FLAG_PRIO`. -/
inductive IpcFlag
  | fifo
  | prio
  deriving DecidableEq, Repr

/-- `struct rt_semaphore`. -/
structure RtSem (τ : Type) where
  value : BitVec 16
  flag : IpcFlag
  suspendThread : List τ
  deriving DecidableEq, Repr

/-- The threads, the lists that their nodes can be in, and the variables of the scheduler. -/
structure RtSched (τ σ : Type) where
  thread : τ → RtThread
  priorityTable : Nat → List τ
  readyPriorityGroup : BitVec 32
  currentThread : Option τ
  currentPriority : Nat
  lockNest : BitVec 16
  sem : σ → RtSem τ

namespace RtSched

variable {τ σ : Type} [DecidableEq τ]

section Functions

variable (k : RtSched τ σ) (x : τ)

def setThread (thread : RtThread) : RtSched τ σ :=
  { k with thread := Function.update k.thread x thread }

def setSem [DecidableEq σ] (s : σ) (sem : RtSem τ) : RtSched τ σ :=
  { k with sem := Function.update k.sem s sem }

/-- `rt_list_remove` of the node of a thread, whatever list it is in. -/
def unlink : RtSched τ σ :=
  { k with
    priorityTable := fun p => (k.priorityTable p).filter (· ≠ x)
    sem := fun s => { k.sem s with suspendThread := (k.sem s).suspendThread.filter (· ≠ x) } }

/-- `rt_list_insert_before` of the node and the head of a ready list. -/
def append (p : Nat) : RtSched τ σ :=
  { k with priorityTable := Function.update k.priorityTable p (k.priorityTable p ++ [x]) }

def rtScheduleInsertThread : RtSched τ σ :=
  let k := k.setThread x { k.thread x with stat := .ready }
  let k := k.append x (k.thread x).currentPriority
  { k with readyPriorityGroup := k.readyPriorityGroup ||| (k.thread x).numberMask }

def rtScheduleRemoveThread : RtSched τ σ :=
  let k := k.unlink x
  if k.priorityTable (k.thread x).currentPriority = [] then
    { k with readyPriorityGroup := k.readyPriorityGroup &&& ~~~ (k.thread x).numberMask }
  else k

/-- With no bit set, or no thread behind the bit, the code would read outside its tables. -/
def rtSchedule : Option (RtSched τ σ) :=
  if k.lockNest = 0 then
    if k.readyPriorityGroup = 0 then none
    else
      let highestReadyPriority := rtFfs k.readyPriorityGroup - 1
      match k.priorityTable highestReadyPriority with
      | [] => none
      | toThread :: _ =>
          if some toThread ≠ k.currentThread then
            some { k with currentPriority := highestReadyPriority, currentThread := some toThread }
          else some k
  else some k

/-- Without a current thread there is nothing to read. -/
def rtThreadYield : Option (RtSched τ σ) :=
  match k.currentThread with
  | none => none
  | some x =>
      let p := (k.thread x).currentPriority
      -- the neighbours in the list differ if the thread is not alone in it
      if (k.thread x).stat = .ready ∧ 1 < (k.priorityTable p).length then
        ((k.unlink x).append x p).rtSchedule
      else some k

def rtEnterCritical : RtSched τ σ := { k with lockNest := k.lockNest + 1 }

def rtExitCritical : Option (RtSched τ σ) :=
  if (k.lockNest - 1).toInt ≤ 0 then { k with lockNest := 0 }.rtSchedule
  else some { k with lockNest := k.lockNest - 1 }

def rtThreadTimeout : Option (RtSched τ σ) :=
  if (k.thread x).stat = .suspend then
    (((k.setThread x { k.thread x with error := .etimeout }).unlink x).rtScheduleInsertThread
      x).rtSchedule
  else none

end Functions

/-! ## The lists and the states agree -/

/-- A thread is in the ready list of its priority just if it is ready, and the bitmap says
which of the lists are not empty. -/
structure Listed (k : RtSched τ σ) : Prop where
  listed : ∀ p x, x ∈ k.priorityTable p ↔
    (k.thread x).stat = .ready ∧ (k.thread x).currentPriority = p
  once : ∀ p, (k.priorityTable p).Nodup
  group : ∀ p, k.readyPriorityGroup.getLsbD p = true ↔ ∃ x, x ∈ k.priorityTable p
  low : ∀ x, (k.thread x).initPriority < 32 ∧ (k.thread x).currentPriority < 32
  mask : ∀ x, (k.thread x).stat ≠ .init →
    (k.thread x).numberMask = 1#32 <<< (k.thread x).currentPriority

/-- A thread that waits for a semaphore is suspended, waits for no other one, and finds
nothing to take. -/
structure Waiting (k : RtSched τ σ) : Prop where
  waiting : ∀ s, ∀ x ∈ (k.sem s).suspendThread, (k.thread x).stat = .suspend
  waitsOnce : ∀ s, (k.sem s).suspendThread.Nodup
  apart : ∀ s t, ∀ x ∈ (k.sem s).suspendThread, x ∈ (k.sem t).suspendThread → s = t
  empty : ∀ s, (k.sem s).value ≠ 0 → (k.sem s).suspendThread = []

/-- The lists and the states of the threads agree. -/
structure Kept (k : RtSched τ σ) : Prop extends Listed k, Waiting k

/-- The current thread is the first one of the highest priority. -/
def Dispatched (k : RtSched τ σ) : Prop :=
  ∃ x, k.currentThread = some x ∧ (k.thread x).stat = .ready ∧
    (k.priorityTable (k.thread x).currentPriority).head? = some x ∧
    ∀ y, (k.thread y).stat = .ready → (k.thread x).currentPriority ≤ (k.thread y).currentPriority

variable {k : RtSched τ σ} {x y : τ} {p q : Nat} {thread : RtThread}

/-! ### Fields -/

@[simp] theorem setThread_thread_self : (k.setThread x thread).thread x = thread :=
  Function.update_self ..

@[simp] theorem setThread_thread_of_ne (apart : y ≠ x) :
    (k.setThread x thread).thread y = k.thread y := Function.update_of_ne apart ..

@[simp] theorem unlink_thread : (k.unlink x).thread = k.thread := rfl

theorem mem_unlink : y ∈ (k.unlink x).priorityTable p ↔ y ∈ k.priorityTable p ∧ y ≠ x := by
  simp [unlink]

omit [DecidableEq τ] in
theorem mem_append : y ∈ (k.append x p).priorityTable q ↔
    y ∈ k.priorityTable q ∨ (y = x ∧ q = p) := by
  by_cases here : q = p
  · subst here
    simp [append]
  · simp [append, here]

theorem rtScheduleRemoveThread_eq : k.rtScheduleRemoveThread x =
    { k.unlink x with readyPriorityGroup := (k.rtScheduleRemoveThread x).readyPriorityGroup } := by
  rw [rtScheduleRemoveThread]
  split <;> rfl

theorem rtScheduleRemoveThread_of_nil
    (last : (k.unlink x).priorityTable (k.thread x).currentPriority = []) :
    k.rtScheduleRemoveThread x = { k.unlink x with
      readyPriorityGroup := k.readyPriorityGroup &&& ~~~ (k.thread x).numberMask } :=
  if_pos last

theorem rtScheduleRemoveThread_of_ne_nil
    (more : (k.unlink x).priorityTable (k.thread x).currentPriority ≠ []) :
    k.rtScheduleRemoveThread x = k.unlink x :=
  if_neg more

@[simp] theorem rtScheduleRemoveThread_thread :
    (k.rtScheduleRemoveThread x).thread = k.thread := by
  rw [rtScheduleRemoveThread_eq, unlink_thread]

theorem rtScheduleInsertThread_eq : k.rtScheduleInsertThread x =
    { (k.setThread x { k.thread x with stat := .ready }).append x (k.thread x).currentPriority with
      readyPriorityGroup := k.readyPriorityGroup ||| (k.thread x).numberMask } := by
  simp [rtScheduleInsertThread, setThread, append]

theorem rtScheduleInsertThread_thread : (k.rtScheduleInsertThread x).thread =
    Function.update k.thread x { k.thread x with stat := .ready } := rfl

theorem mem_rtScheduleInsertThread : y ∈ (k.rtScheduleInsertThread x).priorityTable p ↔
    y ∈ k.priorityTable p ∨ (y = x ∧ p = (k.thread x).currentPriority) := by
  rw [rtScheduleInsertThread_eq]
  exact mem_append

/-! ### Bits -/

theorem getLsbD_bit (low : p < 32) : (1#32 <<< p).getLsbD q = decide (q = p) := by
  rw [BitVec.getLsbD_shiftLeft, BitVec.getLsbD_one, Bool.eq_iff_iff]
  simp only [Bool.and_eq_true, Bool.not_eq_true', decide_eq_true_eq, decide_eq_false_iff_not]
  omega

/-! ### Inserting and removing -/

omit [DecidableEq τ] in
theorem Listed.not_mem (kept : k.Listed) (idle : (k.thread x).stat ≠ .ready) (p : Nat) :
    x ∉ k.priorityTable p := fun member => idle ((kept.listed p x).mp member).1

/-- A thread that was not ready joins the list of its priority. -/
theorem Listed.insert (kept : k.Listed) (idle : (k.thread x).stat ≠ .ready)
    (started : (k.thread x).stat ≠ .init) : (k.rtScheduleInsertThread x).Listed := by
  have absent := kept.not_mem idle
  constructor
  case listed =>
    intro p y
    rw [mem_rtScheduleInsertThread, kept.listed, rtScheduleInsertThread_thread]
    by_cases here : y = x
    · subst here
      simp [idle, eq_comm]
    · simp [here]
  case once =>
    intro p
    by_cases here : p = (k.thread x).currentPriority
    · subst here
      simp only [rtScheduleInsertThread_eq, append, setThread, Function.update_self]
      exact List.nodup_append.mpr ⟨kept.once _, List.nodup_singleton _, fun y member z other => by
        rintro rfl
        exact absent _ (List.mem_singleton.mp other ▸ member)⟩
    · simp only [rtScheduleInsertThread_eq, append, setThread, Function.update_of_ne here]
      exact kept.once p
  case group =>
    intro p
    have bit : (k.rtScheduleInsertThread x).readyPriorityGroup.getLsbD p =
        (k.readyPriorityGroup.getLsbD p || decide (p = (k.thread x).currentPriority)) := by
      rw [rtScheduleInsertThread_eq, BitVec.getLsbD_or, kept.mask x started,
        getLsbD_bit (kept.low x).2]
    rw [bit, Bool.or_eq_true, kept.group, decide_eq_true_eq]
    simp only [mem_rtScheduleInsertThread]
    constructor
    · rintro (⟨y, member⟩ | same)
      · exact ⟨y, .inl member⟩
      · exact ⟨x, .inr ⟨rfl, same⟩⟩
    · rintro ⟨y, member | ⟨-, same⟩⟩
      · exact .inl ⟨y, member⟩
      · exact .inr same
  case low =>
    intro y
    rw [rtScheduleInsertThread_thread]
    by_cases here : y = x
    · rw [here, Function.update_self]
      exact kept.low x
    · rw [Function.update_of_ne here]
      exact kept.low y
  case mask =>
    intro y begun
    rw [rtScheduleInsertThread_thread] at begun ⊢
    by_cases here : y = x
    · rw [here, Function.update_self]
      exact kept.mask x started
    · rw [Function.update_of_ne here] at begun ⊢
      exact kept.mask y begun

theorem mem_rtScheduleRemoveThread : y ∈ (k.rtScheduleRemoveThread x).priorityTable p ↔
    y ∈ k.priorityTable p ∧ y ≠ x := by
  rw [rtScheduleRemoveThread_eq]
  exact mem_unlink

/-- Behind the removal of a thread with the right mask, its bit says whether its list is empty. -/
theorem getLsbD_rtScheduleRemoveThread (low : (k.thread x).currentPriority < 32)
    (mask : (k.thread x).numberMask = 1#32 <<< (k.thread x).currentPriority) :
    (k.rtScheduleRemoveThread x).readyPriorityGroup.getLsbD p = true ↔
      k.readyPriorityGroup.getLsbD p = true ∧ (p = (k.thread x).currentPriority →
        (k.unlink x).priorityTable (k.thread x).currentPriority ≠ []) := by
  rw [rtScheduleRemoveThread, unlink_thread]
  split
  next last =>
    have cleared : (k.unlink x).readyPriorityGroup = k.readyPriorityGroup := rfl
    rw [cleared, BitVec.getLsbD_and, BitVec.getLsbD_not, mask, getLsbD_bit low]
    simp only [last, ne_eq, not_true_eq_false, imp_false, Bool.and_eq_true, decide_eq_true_eq,
      Bool.not_eq_true', decide_eq_false_iff_not]
    refine and_congr_right fun set => and_iff_right ?_
    exact BitVec.lt_of_getLsbD set
  next more => exact (and_iff_left fun _ => more).symm

/-- A thread that goes to sleep or ends leaves the list of its priority. -/
theorem Listed.remove (kept : k.Listed) (started : (k.thread x).stat ≠ .init)
    {stat : ThreadStat} (idle : stat ≠ .ready) :
    ((k.setThread x { k.thread x with stat := stat }).rtScheduleRemoveThread x).Listed := by
  have low := (kept.low x).2
  have mask := kept.mask x started
  generalize known : k.setThread x { k.thread x with stat := stat } = k'
  have own : k'.thread x = { k.thread x with stat := stat } := by
    rw [← known, setThread_thread_self]
  have others {y : τ} (away : y ≠ x) : k'.thread y = k.thread y := by
    rw [← known, setThread_thread_of_ne away]
  have table : k'.priorityTable = k.priorityTable := by rw [← known]; rfl
  have bits : k'.readyPriorityGroup = k.readyPriorityGroup := by rw [← known]; rfl
  constructor
  case listed =>
    intro p y
    rw [mem_rtScheduleRemoveThread, table, kept.listed, rtScheduleRemoveThread_thread]
    by_cases here : y = x
    · subst here
      simp [own, idle]
    · simp [others here, here]
  case once =>
    intro p
    rw [rtScheduleRemoveThread_eq]
    exact (table ▸ kept.once p).filter _
  case group =>
    intro p
    rw [getLsbD_rtScheduleRemoveThread (by rwa [own]) (by rw [own]; exact mask), bits, kept.group,
      own]
    simp only [mem_rtScheduleRemoveThread, table]
    constructor
    · rintro ⟨⟨y, member⟩, more⟩
      by_cases here : p = (k.thread x).currentPriority
      · obtain ⟨z, left⟩ := List.exists_mem_of_ne_nil _ (more here)
        rw [mem_unlink, table, ← here] at left
        exact ⟨z, left⟩
      · refine ⟨y, member, ?_⟩
        rintro rfl
        exact here ((kept.listed p y).mp member).2.symm
    · rintro ⟨y, member, away⟩
      refine ⟨⟨y, member⟩, ?_⟩
      rintro rfl
      exact List.ne_nil_of_mem (mem_unlink.mpr ⟨table ▸ member, away⟩)
  case low =>
    intro y
    rw [rtScheduleRemoveThread_thread]
    by_cases here : y = x
    · rw [here, own]
      exact kept.low x
    · rw [others here]
      exact kept.low y
  case mask =>
    intro y begun
    rw [rtScheduleRemoveThread_thread] at begun ⊢
    by_cases here : y = x
    · rw [here, own]
      exact mask
    · rw [others here] at begun ⊢
      exact kept.mask y begun

/-! ### Waiting lists -/

theorem mem_unlink_sem {s : σ} : y ∈ ((k.unlink x).sem s).suspendThread ↔
    y ∈ (k.sem s).suspendThread ∧ y ≠ x := by
  simp [unlink]

theorem rtScheduleRemoveThread_sem : (k.rtScheduleRemoveThread x).sem = (k.unlink x).sem := by
  rw [rtScheduleRemoveThread_eq]

@[simp] theorem rtScheduleInsertThread_sem : (k.rtScheduleInsertThread x).sem = k.sem := rfl

omit [DecidableEq τ] in
theorem Waiting.not_mem (kept : k.Waiting) (awake : (k.thread x).stat ≠ .suspend) (s : σ) :
    x ∉ (k.sem s).suspendThread := fun member => awake (kept.waiting s x member)

theorem unlink_sem (absent : ∀ s, x ∉ (k.sem s).suspendThread) : (k.unlink x).sem = k.sem := by
  funext s
  exact congrArg (fun list => { k.sem s with suspendThread := list })
    (RtTimers.filter_absent (absent s))

/-- Whatever becomes of a thread that is in no list, the others wait on. -/
theorem Waiting.unlink (kept : k.Waiting) {k' : RtSched τ σ} (sem : k'.sem = (k.unlink x).sem)
    (others : ∀ y, y ≠ x → (k'.thread y).stat = (k.thread y).stat) : k'.Waiting where
  waiting := fun s y member => by
    rw [sem, mem_unlink_sem] at member
    rw [others y member.2]
    exact kept.waiting s y member.1
  waitsOnce := fun s => by
    rw [sem]
    exact (kept.waitsOnce s).filter _
  apart := fun s t y one other => by
    rw [sem, mem_unlink_sem] at one other
    exact kept.apart s t y one.1 other.1
  empty := fun s value => by
    rw [sem] at value ⊢
    change (k.sem s).suspendThread.filter _ = []
    rw [kept.empty s value, List.filter_nil]

theorem Waiting.insert (kept : k.Waiting) (absent : ∀ s, x ∉ (k.sem s).suspendThread) :
    (k.rtScheduleInsertThread x).Waiting where
  waiting := fun s y member => by
    have away : y ≠ x := by
      rintro rfl
      exact absent s member
    rw [rtScheduleInsertThread_thread, Function.update_of_ne away]
    exact kept.waiting s y member
  waitsOnce := kept.waitsOnce
  apart := kept.apart
  empty := kept.empty

/-- A thread goes to sleep or ends. -/
theorem Kept.remove (kept : k.Kept) (started : (k.thread x).stat ≠ .init) {stat : ThreadStat}
    (idle : stat ≠ .ready) :
    ((k.setThread x { k.thread x with stat := stat }).rtScheduleRemoveThread x).Kept where
  toListed := kept.toListed.remove started idle
  toWaiting := kept.toWaiting.unlink (by rw [rtScheduleRemoveThread_sem]; rfl) fun y away => by
    rw [rtScheduleRemoveThread_thread, setThread_thread_of_ne away]

/-- A thread that is not ready leaves the waiting list it may be in. -/
theorem Kept.unlink (kept : k.Kept) (idle : (k.thread x).stat ≠ .ready) : (k.unlink x).Kept where
  toWaiting := kept.toWaiting.unlink rfl fun _ _ => rfl
  toListed := by
    have table : (k.unlink x).priorityTable = k.priorityTable := by
      funext p
      exact RtTimers.filter_absent (kept.not_mem idle p)
    constructor
    · rw [table]
      exact kept.listed
    · rw [table]
      exact kept.once
    · rw [table]
      exact kept.group
    · exact kept.low
    · exact kept.mask

/-- A sleeping thread becomes ready. -/
theorem Kept.wake (kept : k.Kept) (asleep : (k.thread x).stat = .suspend) :
    ((k.unlink x).rtScheduleInsertThread x).Kept := by
  have free := kept.unlink (x := x) (by rw [asleep]; simp)
  constructor
  · exact free.toListed.insert (by rw [unlink_thread, asleep]; simp)
      (by rw [unlink_thread, asleep]; simp)
  · exact free.toWaiting.insert fun s member => (mem_unlink_sem.mp member).2 rfl

/-- What is written into a thread besides its state and its priority. -/
theorem Kept.setThread (kept : k.Kept) (stat : thread.stat = (k.thread x).stat)
    (priority : thread.initPriority = (k.thread x).initPriority ∧
      thread.currentPriority = (k.thread x).currentPriority)
    (mask : thread.numberMask = (k.thread x).numberMask) : (k.setThread x thread).Kept := by
  have same (y : τ) : ((k.setThread x thread).thread y).stat = (k.thread y).stat ∧
      ((k.setThread x thread).thread y).initPriority = (k.thread y).initPriority ∧
      ((k.setThread x thread).thread y).currentPriority = (k.thread y).currentPriority ∧
      ((k.setThread x thread).thread y).numberMask = (k.thread y).numberMask := by
    by_cases here : y = x
    · rw [here, setThread_thread_self]
      exact ⟨stat, priority.1, priority.2, mask⟩
    · simp [here]
  refine ⟨⟨fun p y => ?_, kept.once, kept.group, fun y => ?_, fun y begun => ?_⟩,
    ⟨fun s y member => ?_, kept.waitsOnce, kept.apart, kept.empty⟩⟩
  · rw [(same y).1, (same y).2.2.1]
    exact kept.listed p y
  · rw [(same y).2.1, (same y).2.2.1]
    exact kept.low y
  · rw [(same y).2.2.1, (same y).2.2.2]
    rw [(same y).1] at begun
    exact kept.mask y begun
  · rw [(same y).1]
    exact kept.waiting s y member

omit [DecidableEq τ] in
/-- A semaphore changes its value or its waiting list. -/
theorem Kept.setSem [DecidableEq σ] (kept : k.Kept) {s : σ} {sem : RtSem τ}
    (waiting : ∀ x ∈ sem.suspendThread, (k.thread x).stat = .suspend)
    (once : sem.suspendThread.Nodup)
    (apart : ∀ x ∈ sem.suspendThread, ∀ t, t ≠ s → x ∉ (k.sem t).suspendThread)
    (empty : sem.value ≠ 0 → sem.suspendThread = []) : (k.setSem s sem).Kept := by
  have own : (k.setSem s sem).sem s = sem := Function.update_self ..
  have others {t : σ} (away : t ≠ s) : (k.setSem s sem).sem t = k.sem t :=
    Function.update_of_ne away ..
  refine ⟨⟨kept.listed, kept.once, kept.group, kept.low, kept.mask⟩,
    ⟨fun t x member => ?_, fun t => ?_, fun t u x one other => ?_, fun t value => ?_⟩⟩
  · by_cases here : t = s
    · rw [here, own] at member
      exact waiting x member
    · rw [others here] at member
      exact kept.waiting t x member
  · by_cases here : t = s
    · rwa [here, own]
    · rw [others here]
      exact kept.waitsOnce t
  · by_cases first : t = s <;> by_cases second : u = s
    · rw [first, second]
    · rw [first, own] at one
      rw [others second] at other
      exact absurd other (apart x one u second)
    · rw [others first] at one
      rw [second, own] at other
      exact absurd one (apart x other t first)
    · rw [others first] at one
      rw [others second] at other
      exact kept.apart t u x one other
  · by_cases here : t = s
    · rw [here, own] at value ⊢
      exact empty value
    · rw [others here] at value ⊢
      exact kept.empty t value

/-- A thread that is in no list may change its priority with its mask. -/
theorem Kept.replace (kept : k.Kept) (idle : (k.thread x).stat ≠ .ready)
    (absent : ∀ s, x ∉ (k.sem s).suspendThread) (idle' : thread.stat ≠ .ready)
    (low : thread.initPriority < 32 ∧ thread.currentPriority < 32)
    (mask : thread.numberMask = 1#32 <<< thread.currentPriority) : (k.setThread x thread).Kept := by
  refine ⟨⟨fun p y => ?_, kept.once, kept.group, fun y => ?_, fun y begun => ?_⟩,
    ⟨fun s y member => ?_, kept.waitsOnce, kept.apart, kept.empty⟩⟩
  · by_cases here : y = x
    · subst here
      simp [idle', RtSched.setThread, kept.not_mem idle]
    · rw [setThread_thread_of_ne here]
      exact kept.listed p y
  · by_cases here : y = x
    · rw [here, setThread_thread_self]
      exact low
    · rw [setThread_thread_of_ne here]
      exact kept.low y
  · by_cases here : y = x
    · rw [here, setThread_thread_self]
      exact mask
    · rw [setThread_thread_of_ne here] at begun ⊢
      exact kept.mask y begun
  · have here : y ≠ x := by
      rintro rfl
      exact absent s member
    rw [setThread_thread_of_ne here]
    exact kept.waiting s y member

/-! ### Scheduling -/

omit [DecidableEq τ] in
/-- Nothing depends on which thread runs and whether it may be preempted. -/
theorem Kept.running (kept : k.Kept) (current : Option τ) (p : Nat) (lockNest : BitVec 16) :
    { k with currentThread := current, currentPriority := p, lockNest := lockNest }.Kept :=
  ⟨⟨kept.listed, kept.once, kept.group, kept.low, kept.mask⟩,
    ⟨kept.waiting, kept.waitsOnce, kept.apart, kept.empty⟩⟩

omit [DecidableEq τ] in
/-- The first thread of the lowest bit's list is the first one of the highest priority. -/
theorem Listed.dispatched (kept : k.Listed) {bit : Nat} {later : List τ}
    (lowest : LowestBit k.readyPriorityGroup bit) (first : k.priorityTable bit = x :: later) :
    { k with currentThread := some x, currentPriority := p }.Dispatched := by
  obtain ⟨ready, priority⟩ := (kept.listed bit x).mp (by rw [first]; exact List.mem_cons_self)
  refine ⟨x, rfl, ready, ?_, fun y other => not_lt.mp fun higher => ?_⟩
  · rw [priority]
    simp [first]
  · have set := (kept.group _).mpr ⟨y, (kept.listed _ y).mpr ⟨other, rfl⟩⟩
    rw [priority] at higher
    rw [lowest.2 _ higher] at set
    cases set

/-- With a ready thread, `rt_schedule` goes to the first one of the highest priority, and
changes nothing but the current thread and its priority. -/
theorem Listed.rtSchedule (kept : k.Listed) (ready : ∃ x, (k.thread x).stat = .ready) :
    ∃ current : Option τ, ∃ p : Nat,
      k.rtSchedule = some { k with currentThread := current, currentPriority := p } ∧
      (k.lockNest ≠ 0 → current = k.currentThread) ∧
      (k.lockNest = 0 → { k with currentThread := current, currentPriority := p }.Dispatched) := by
  by_cases locked : k.lockNest = 0
  · obtain ⟨x, ready⟩ := ready
    have set := (kept.group _).mpr ⟨x, (kept.listed _ x).mpr ⟨ready, rfl⟩⟩
    have nonzero : k.readyPriorityGroup ≠ 0 := fun zero => by simp [zero] at set
    obtain ⟨bit, found, lowest⟩ := rtFfs_spec nonzero
    obtain ⟨y, member⟩ := (kept.group bit).mp lowest.1
    obtain ⟨toThread, later, first⟩ :=
      List.exists_cons_of_ne_nil (List.ne_nil_of_mem member)
    have dispatched (p : Nat) := @Listed.dispatched τ σ k toThread p kept bit later lowest first
    rw [RtSched.rtSchedule, if_pos locked, if_neg nonzero]
    simp only [found, Nat.add_sub_cancel, first]
    by_cases change : some toThread ≠ k.currentThread
    · rw [if_pos change]
      exact ⟨_, _, rfl, fun no => absurd locked no, fun _ => dispatched bit⟩
    · rw [if_neg change]
      refine ⟨k.currentThread, k.currentPriority, rfl, fun _ => rfl, fun _ => ?_⟩
      rw [← not_ne_iff.mp change]
      exact dispatched _
  · rw [RtSched.rtSchedule, if_neg locked]
    exact ⟨k.currentThread, k.currentPriority, rfl, fun _ => rfl, fun no => absurd no locked⟩

/-- `rt_thread_yield` puts a ready thread behind those of its priority. -/
theorem Kept.rotate (kept : k.Kept) (ready : (k.thread x).stat = .ready) :
    ((k.unlink x).append x (k.thread x).currentPriority).Kept := by
  have mem (p : Nat) (y : τ) :
      y ∈ ((k.unlink x).append x (k.thread x).currentPriority).priorityTable p ↔
        y ∈ k.priorityTable p := by
    rw [mem_append, mem_unlink]
    by_cases here : y = x
    · subst here
      rw [kept.listed]
      simp [ready, eq_comm]
    · simp [here]
  constructor
  · refine ⟨fun p y => ?_, fun p => ?_, fun p => ?_, kept.low, kept.mask⟩
    · rw [mem]
      exact kept.listed p y
    · by_cases here : p = (k.thread x).currentPriority
      · subst here
        simp only [append, RtSched.unlink, Function.update_self]
        refine List.nodup_append.mpr ⟨(kept.once _).filter _, List.nodup_singleton _, ?_⟩
        intro y member z other same
        rw [List.mem_singleton.mp other] at same
        simpa [same] using List.of_mem_filter member
      · simp only [append, RtSched.unlink, Function.update_of_ne here]
        exact (kept.once p).filter _
    · simp only [mem]
      exact kept.group p
  · exact kept.toWaiting.unlink rfl fun _ _ => rfl

/-! ### A running system -/

/-- The idle thread and the running one are ready, and unless the scheduler is locked the
running one is the first of the highest priority. -/
structure Alive (idle : τ) (k : RtSched τ σ) : Prop extends Kept k where
  idle : (k.thread idle).stat = .ready
  current : ∃ x, k.currentThread = some x ∧ (k.thread x).stat = .ready
  dispatched : k.lockNest = 0 → k.Dispatched

variable {idle : τ}

/-- Where `rt_schedule` is called, the thread that runs may only have gone to sleep if the
scheduler is not locked. -/
theorem Kept.rtSchedule (kept : k.Kept) (ready : (k.thread idle).stat = .ready)
    (locked : k.lockNest ≠ 0 → ∃ x, k.currentThread = some x ∧ (k.thread x).stat = .ready) :
    ∃ current : Option τ, ∃ p : Nat,
      k.rtSchedule = some { k with currentThread := current, currentPriority := p } ∧
      { k with currentThread := current, currentPriority := p }.Alive idle := by
  obtain ⟨current, p, done, stays, dispatched⟩ := kept.toListed.rtSchedule ⟨idle, ready⟩
  refine ⟨current, p, done, ⟨kept.running current p k.lockNest, ready, ?_, dispatched⟩⟩
  by_cases lock : k.lockNest = 0
  · obtain ⟨x, here, now, -⟩ := dispatched lock
    exact ⟨x, here, now⟩
  · rw [stays lock]
    exact locked lock

/-- Writing into a thread besides its state and its priority. -/
theorem Alive.setThread (alive : k.Alive idle) (stat : thread.stat = (k.thread x).stat)
    (priority : thread.initPriority = (k.thread x).initPriority ∧
      thread.currentPriority = (k.thread x).currentPriority)
    (mask : thread.numberMask = (k.thread x).numberMask) : (k.setThread x thread).Alive idle := by
  have same (y : τ) : ((k.setThread x thread).thread y).stat = (k.thread y).stat ∧
      ((k.setThread x thread).thread y).currentPriority = (k.thread y).currentPriority := by
    by_cases here : y = x
    · rw [here, setThread_thread_self]
      exact ⟨stat, priority.2⟩
    · simp [here]
  refine ⟨alive.toKept.setThread stat priority mask, ?_, ?_, fun lock => ?_⟩
  · rw [(same idle).1, alive.idle]
  · obtain ⟨y, current, ready⟩ := alive.current
    exact ⟨y, current, by rw [(same y).1, ready]⟩
  · obtain ⟨y, current, ready, first, highest⟩ := alive.dispatched lock
    refine ⟨y, current, by rw [(same y).1, ready], ?_, fun z other => ?_⟩
    · rw [(same y).2]
      exact first
    · rw [(same z).1] at other
      rw [(same y).2, (same z).2]
      exact highest z other

/-- `rt_thread_yield` changes the order of the threads, but none of them. -/
theorem Alive.rtThreadYield (alive : k.Alive idle) : ∃ k' : RtSched τ σ,
    k.rtThreadYield = some k' ∧ k'.Alive idle ∧ k'.thread = k.thread ∧
      k'.lockNest = k.lockNest ∧ ∀ s, (k'.sem s).value = (k.sem s).value ∧
        (k'.sem s).flag = (k.sem s).flag ∧ (k'.sem s).suspendThread = (k.sem s).suspendThread := by
  obtain ⟨x, current, ready⟩ := alive.current
  rw [RtSched.rtThreadYield, current]
  simp only [ready, true_and]
  split
  next more =>
    have kept := alive.toKept.rotate ready
    obtain ⟨current', p, done, alive'⟩ :=
      kept.rtSchedule alive.idle fun _ => ⟨x, current, ready⟩
    refine ⟨_, done, alive', rfl, rfl, fun s => ⟨rfl, rfl, ?_⟩⟩
    exact RtTimers.filter_absent (alive.toWaiting.not_mem (by rw [ready]; simp) s)
  next alone => exact ⟨k, rfl, alive, rfl, rfl, fun s => ⟨rfl, rfl, rfl⟩⟩

/-- A sleeping thread whose timer runs out is ready again, with `RT_ETIMEOUT`. -/
theorem Alive.rtThreadTimeout (alive : k.Alive idle) (asleep : (k.thread x).stat = .suspend) :
    ∃ k' : RtSched τ σ, k.rtThreadTimeout x = some k' ∧ k'.Alive idle ∧
      k'.thread = Function.update k.thread x
        { k.thread x with stat := .ready, error := .etimeout } ∧
      k'.lockNest = k.lockNest ∧ k'.sem = (k.unlink x).sem := by
  have marked : (k.setThread x { k.thread x with error := .etimeout }).Alive idle :=
    alive.setThread rfl ⟨rfl, rfl⟩ rfl
  have asleep' : ((k.setThread x { k.thread x with error := .etimeout }).thread x).stat =
      .suspend := by rw [setThread_thread_self, asleep]
  have thread : (((k.setThread x { k.thread x with error := .etimeout }).unlink
      x).rtScheduleInsertThread x).thread = Function.update k.thread x
        { k.thread x with stat := .ready, error := .etimeout } := by
    rw [rtScheduleInsertThread_thread, unlink_thread, setThread_thread_self]
    simp [RtSched.setThread]
  have still {y : τ} (ready : (k.thread y).stat = .ready) :
      ((((k.setThread x { k.thread x with error := .etimeout }).unlink
        x).rtScheduleInsertThread x).thread y).stat = .ready := by
    rw [thread]
    by_cases here : y = x
    · rw [here, Function.update_self]
    · rw [Function.update_of_ne here, ready]
  obtain ⟨current, p, done, alive'⟩ := (marked.toKept.wake asleep').rtSchedule
    (still alive.idle) fun _ => by
      obtain ⟨y, current, ready⟩ := alive.current
      exact ⟨y, current, still ready⟩
  rw [RtSched.rtThreadTimeout, if_pos asleep]
  exact ⟨_, done, alive', thread, rfl, rfl⟩

theorem setThread_rtScheduleRemoveThread (stat : ThreadStat) :
    (k.rtScheduleRemoveThread x).setThread x
        { (k.rtScheduleRemoveThread x).thread x with stat := stat } =
      (k.setThread x { k.thread x with stat := stat }).rtScheduleRemoveThread x := by
  have own : (k.setThread x { k.thread x with stat := stat }).thread x =
      { k.thread x with stat := stat } := setThread_thread_self
  by_cases last : (k.unlink x).priorityTable (k.thread x).currentPriority = []
  · have after : ((k.setThread x { k.thread x with stat := stat }).unlink x).priorityTable
        ((k.setThread x { k.thread x with stat := stat }).thread x).currentPriority = [] := by
      rw [own]
      exact last
    rw [rtScheduleRemoveThread_of_nil last, rtScheduleRemoveThread_of_nil after, own]
    rfl
  · have after : ((k.setThread x { k.thread x with stat := stat }).unlink x).priorityTable
        ((k.setThread x { k.thread x with stat := stat }).thread x).currentPriority ≠ [] := by
      rw [own]
      exact last
    rw [rtScheduleRemoveThread_of_ne_nil last, rtScheduleRemoveThread_of_ne_nil after]
    rfl

/-- Closing a thread that does not run. -/
theorem Alive.remove (alive : k.Alive idle) (started : (k.thread x).stat ≠ .init)
    {stat : ThreadStat} (closed : stat ≠ .ready) (other : x ≠ idle)
    (waits : k.currentThread ≠ some x) :
    ((k.setThread x { k.thread x with stat := stat }).rtScheduleRemoveThread x).Alive idle := by
  have thread {y : τ} (away : y ≠ x) :
      ((k.setThread x { k.thread x with stat := stat }).rtScheduleRemoveThread x).thread y =
        k.thread y := by
    rw [rtScheduleRemoveThread_thread, setThread_thread_of_ne away]
  obtain ⟨y, current, ready⟩ := alive.current
  have running : y ≠ x := by
    rintro rfl
    exact waits current
  refine ⟨alive.toKept.remove started closed, by rw [thread (Ne.symm other), alive.idle], ?_, ?_⟩
  · refine ⟨y, ?_, by rw [thread running, ready]⟩
    rw [rtScheduleRemoveThread_eq]
    exact current
  · rw [rtScheduleRemoveThread_eq]
    intro lock
    obtain ⟨z, now, -, first, highest⟩ := alive.dispatched lock
    obtain rfl : y = z := Option.some.inj (current.symm.trans now)
    have same : ((k.setThread x { k.thread x with stat := stat }).unlink x).thread y = k.thread y :=
      setThread_thread_of_ne running
    refine ⟨y, current, by rw [same, ready], ?_, fun z ready => ?_⟩
    · obtain ⟨later, list⟩ := List.head?_eq_some_iff.mp first
      rw [same]
      change (List.filter _ (k.priorityTable (k.thread y).currentPriority)).head? = some y
      rw [list, List.filter_cons_of_pos (by simpa using running), List.head?_cons]
    · by_cases here : z = x
      · subst here
        change ((k.setThread z _).thread z).stat = .ready at ready
        rw [setThread_thread_self] at ready
        exact absurd ready closed
      · change ((k.setThread x _).thread z).stat = .ready at ready
        rw [setThread_thread_of_ne here] at ready
        have away : ((k.setThread x { k.thread x with stat := stat }).unlink x).thread z =
            k.thread z := setThread_thread_of_ne here
        rw [same, away]
        exact highest z ready

end RtSched

end LedFirmware
