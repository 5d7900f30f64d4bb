import LedFirmware.RtScheduler
import LedFirmware.RtTimerTick

/-!
# Threads and semaphores of the kernel

The functions of `thread.c`, the clock tick and the semaphores of `ipc.c` over the scheduler
and the timers of the threads.  Every function runs to its end, up to the point where
another thread goes on.
-/

namespace LedFirmware

/-- The scheduler with its threads, and the timers `thread_timer` of the threads. -/
structure RtKernel (τ σ : Type) where
  sched : RtSched τ σ
  timers : RtTimers τ

/-- What `rt_sem_take` returns at once, or that the thread waits. -/
inductive SemTaken
  | returns (result : RtErr)
  | waits
  deriving DecidableEq, Repr

namespace RtKernel

variable {τ σ : Type} [DecidableEq τ]

section Functions

variable (k : RtKernel τ σ)

def withSched (sched : RtSched τ σ) : RtKernel τ σ := { k with sched := sched }

/-- `rt_schedule`. -/
def rtSchedule : Option (RtKernel τ σ) := k.sched.rtSchedule.map k.withSched

/-! ## `thread.c` -/

def rtThreadSuspend (x : τ) : RtErr × RtKernel τ σ :=
  if (k.sched.thread x).stat ≠ .ready then (.error, k)
  else (.eok, {
    sched := (k.sched.setThread x { k.sched.thread x with
      stat := .suspend }).rtScheduleRemoveThread x
    timers := (k.timers.rtTimerStop x).2 })

def rtThreadResume (x : τ) : RtErr × RtKernel τ σ :=
  if (k.sched.thread x).stat ≠ .suspend then (.error, k)
  else (.eok, {
    sched := (k.sched.unlink x).rtScheduleInsertThread x
    timers := (k.timers.rtTimerStop x).2 })

/-- The thread must be new. -/
def rtThreadStartup (x : τ) : Option (RtKernel τ σ) :=
  if (k.sched.thread x).stat = .init then
    let thread := k.sched.thread x
    let thread := { thread with currentPriority := thread.initPriority }
    let thread := { thread with numberMask := 1#32 <<< thread.currentPriority }
    let k := (k.withSched (k.sched.setThread x { thread with stat := .suspend })).rtThreadResume x
    if k.2.sched.currentThread.isSome then k.2.rtSchedule else some k.2
  else none

/-- Start the timer of a thread with a new time. -/
def startThreadTimer (x : τ) (tick : RtTick) : RtKernel τ σ :=
  { k with timers := (k.timers.rtTimerControl x (.setTime tick)).1.rtTimerStart x }

/-- `rt_thread_sleep` up to the point where the thread goes on. -/
def rtThreadSleep (tick : RtTick) : Option (RtKernel τ σ) :=
  match k.sched.currentThread with
  | none => none
  | some x => ((k.rtThreadSuspend x).2.startThreadTimer x tick).rtSchedule

/-- The end of `rt_thread_sleep`. -/
def rtThreadSleepEnd : Option (RtKernel τ σ) :=
  match k.sched.currentThread with
  | none => none
  | some x =>
      if (k.sched.thread x).error = .etimeout then
        some (k.withSched (k.sched.setThread x { k.sched.thread x with error := .eok }))
      else some k

/-- Close a thread: `rt_thread_delete`, and `rt_thread_exit` before it schedules. -/
def rtThreadDelete (x : τ) : RtKernel τ σ :=
  let sched := k.sched.rtScheduleRemoveThread x
  { sched := sched.setThread x { sched.thread x with stat := .close }
    timers := k.timers.rtTimerDetach x }

def rtThreadExit : Option (RtKernel τ σ) :=
  match k.sched.currentThread with
  | none => none
  | some x => (k.rtThreadDelete x).rtSchedule

/-! ## `clock.c` -/

/-- The time slice of the current thread. -/
def timeSlice : Option (RtSched τ σ) :=
  match k.sched.currentThread with
  | none => none
  | some x =>
      let remaining := (k.sched.thread x).remainingTick - 1
      if remaining = 0 then
        (k.sched.setThread x { k.sched.thread x with
          remainingTick := (k.sched.thread x).initTick }).rtThreadYield
      else some (k.sched.setThread x { k.sched.thread x with remainingTick := remaining })

def rtTickIncrease : Option (RtKernel τ σ) :=
  k.timeSlice.bind fun sched =>
    (k.timers.tickUp.rtTimerCheck (fun x sched => sched.rtThreadTimeout x)
      (k.timers.timerList.length + 1) sched).map fun (timers, sched) => ⟨sched, timers⟩

/-! ## Semaphores -/

/-- Search the place of a thread among those that wait, by its priority. -/
def insertByPriority (priority : τ → Nat) (x : τ) : List τ → List τ
  | [] => [x]
  | sthread :: later =>
      if priority x < priority sthread then x :: sthread :: later
      else sthread :: insertByPriority priority x later

variable [DecidableEq σ]

def rtIpcListSuspend (s : σ) (x : τ) : RtKernel τ σ :=
  let k := (k.rtThreadSuspend x).2
  let sem := k.sched.sem s
  k.withSched (k.sched.setSem s { sem with suspendThread :=
    match sem.flag with
    | .fifo => sem.suspendThread ++ [x]
    | .prio => insertByPriority (fun y => (k.sched.thread y).currentPriority) x sem.suspendThread })

/-- `rt_sem_take` up to the point where a waiting thread goes on. -/
def rtSemTake (s : σ) (time : BitVec 32) : Option (SemTaken × RtKernel τ σ) :=
  let sem := k.sched.sem s
  if 0 < sem.value then
    some (.returns .eok, k.withSched (k.sched.setSem s { sem with value := sem.value - 1 }))
  else if time = 0 then some (.returns .etimeout, k)
  else
    match k.sched.currentThread with
    | none => none
    | some x =>
        let k := k.withSched (k.sched.setThread x { k.sched.thread x with error := .eok })
        let k := k.rtIpcListSuspend s x
        let k := if 0 < time.toInt then k.startThreadTimer x time else k
        k.rtSchedule.map fun k => (.waits, k)

def rtSemRelease (s : σ) : Option (RtKernel τ σ) :=
  match (k.sched.sem s).suspendThread with
  | x :: _ => (k.rtThreadResume x).2.rtSchedule
  | [] => some (k.withSched (k.sched.setSem s { k.sched.sem s with
      value := (k.sched.sem s).value + 1 }))

end Functions

/-! ## What every call keeps -/

/-- Only suspended threads have running timers, and each runs out once. -/
structure Alarms (k : RtKernel τ σ) : Prop where
  timers : k.timers.Running
  sleeping : ∀ x ∈ k.timers.timerList, (k.sched.thread x).stat = .suspend
  oneShot : ∀ x, (k.timers.timer x).periodic = false

/-- The system runs. -/
structure Active (idle : τ) (k : RtKernel τ σ) : Prop where
  sched : k.sched.Alive idle
  alarms : k.Alarms

variable {k : RtKernel τ σ} {x y idle : τ} {tick : RtTick}

omit [DecidableEq τ] in
theorem Alarms.not_mem (alarms : k.Alarms) (awake : (k.sched.thread x).stat ≠ .suspend) :
    x ∉ k.timers.timerList := fun member => awake (alarms.sleeping x member)

/-! ### The timer of a thread -/

theorem rtTimerStop_timer : (k.timers.rtTimerStop x).2.timer =
    if (k.timers.timer x).activated = true then (k.timers.deactivate x).timer
    else k.timers.timer := by
  rw [RtTimers.rtTimerStop]
  split <;> rfl

theorem Alarms.rtTimerStop (alarms : k.Alarms) {sched : RtSched τ σ}
    (others : ∀ y, y ≠ x → (sched.thread y).stat = (k.sched.thread y).stat) :
    Alarms ⟨sched, (k.timers.rtTimerStop x).2⟩ := by
  have stopped : x ∉ (k.timers.rtTimerStop x).2.timerList := by
    rw [RtTimers.absent_iff]
    intro left waits
    rw [RtTimers.waits_rtTimerStop] at waits
    exact waits.2 (alarms.timers.active x (RtTimers.waits_iff.mp waits.1).1) rfl
  refine ⟨alarms.timers.rtTimerStop x, fun y member => ?_, fun y => ?_⟩
  · have away : y ≠ x := by
      rintro rfl
      exact stopped member
    change (sched.thread y).stat = _
    rw [others y away]
    obtain ⟨left, waits⟩ : ∃ left, (k.timers.rtTimerStop x).2.Waits y left :=
      ⟨_, RtTimers.waits_iff.mpr ⟨member, rfl⟩⟩
    exact alarms.sleeping y (RtTimers.waits_iff.mp (RtTimers.waits_rtTimerStop.mp waits).1).1
  · change ((k.timers.rtTimerStop x).2.timer y).periodic = _
    rw [rtTimerStop_timer]
    split
    · by_cases here : y = x
      · rw [here, RtTimers.deactivate_timer_self]
        exact alarms.oneShot x
      · rw [RtTimers.deactivate_timer_of_ne _ _ here]
        exact alarms.oneShot y
    · exact alarms.oneShot y

theorem Alarms.rtTimerDetach (alarms : k.Alarms) {sched : RtSched τ σ}
    (others : ∀ y, y ≠ x → (sched.thread y).stat = (k.sched.thread y).stat) :
    Alarms ⟨sched, k.timers.rtTimerDetach x⟩ := by
  refine ⟨alarms.timers.remove x, fun y member => ?_, alarms.oneShot⟩
  have away := List.of_mem_filter member
  change (sched.thread y).stat = _
  rw [others y (by simpa using away)]
  exact alarms.sleeping y (List.mem_of_mem_filter member)

/-- A thread that sleeps may start its timer. -/
theorem Alarms.startThreadTimer (alarms : k.Alarms) (asleep : (k.sched.thread x).stat = .suspend)
    (near : tick.toNat < RtTimers.horizon) : (k.startThreadTimer x tick).Alarms := by
  have timed : ((k.timers.rtTimerControl x (.setTime tick)).1.timer x).Timed := by
    rw [RtTimers.rtTimerControl, RtTimers.set_timer_self]
    refine ⟨near, fun periodic => ?_⟩
    change (k.timers.timer x).periodic = true at periodic
    rw [alarms.oneShot x] at periodic
    cases periodic
  obtain ⟨running, queue⟩ := alarms.timers.rtTimerControl timed
  refine ⟨running.rtTimerStart x, fun y member => ?_, fun y => ?_⟩
  · rcases RtTimers.mem_rtTimerStart.mp member with here | before
    · rw [here]
      exact asleep
    · exact alarms.sleeping y before
  · change (((k.timers.rtTimerControl x (.setTime tick)).1.rtTimerStart x).timer y).periodic = _
    rw [RtTimers.rtTimerStart_timer, RtTimers.rtTimerControl]
    by_cases here : y = x
    · rw [here, Function.update_self, RtTimers.set_timer_self]
      exact alarms.oneShot x
    · rw [Function.update_of_ne here, RtTimers.set_timer_of_ne _ _ _ here]
      exact alarms.oneShot y

/-! ### What a call touches -/

/-- Nothing is different but which thread runs, and the order of the ready threads. -/
structure Same (k k' : RtKernel τ σ) : Prop where
  thread : k'.sched.thread = k.sched.thread
  timers : k'.timers = k.timers
  lockNest : k'.sched.lockNest = k.sched.lockNest
  sem : k'.sched.sem = k.sched.sem

/-- No thread is touched but one, which may leave a waiting list. -/
structure Touches (x : τ) (k k' : RtKernel τ σ) : Prop where
  thread : ∀ y, y ≠ x → k'.sched.thread y = k.sched.thread y
  waits : ∀ y, y ≠ x → ∀ left, k'.timers.Waits y left ↔ k.timers.Waits y left
  value : ∀ s, (k'.sched.sem s).value = (k.sched.sem s).value
  suspendThread : ∀ s, (k'.sched.sem s).suspendThread = (k.sched.sem s).suspendThread ∨
    (k'.sched.sem s).suspendThread = (k.sched.sem s).suspendThread.filter (· ≠ x)

theorem Touches.refl (x : τ) (k : RtKernel τ σ) : Touches x k k where
  thread := fun _ _ => rfl
  waits := fun _ _ _ => Iff.rfl
  value := fun _ => rfl
  suspendThread := fun _ => .inl rfl

theorem Touches.same {k₁ k₂ : RtKernel τ σ} (touches : Touches x k k₁) (same : Same k₁ k₂) :
    Touches x k k₂ where
  thread := fun y away => by rw [same.thread, touches.thread y away]
  waits := fun y away left => by rw [same.timers, touches.waits y away]
  value := fun s => by rw [same.sem, touches.value]
  suspendThread := fun s => by
    rw [same.sem]
    exact touches.suspendThread s

/-- The scheduler goes on with the first ready thread of the highest priority. -/
theorem rtSchedule_spec (kept : k.sched.Kept) (alarms : k.Alarms)
    (ready : (k.sched.thread idle).stat = .ready)
    (locked : k.sched.lockNest ≠ 0 →
      ∃ x, k.sched.currentThread = some x ∧ (k.sched.thread x).stat = .ready) :
    ∃ k' : RtKernel τ σ, k.rtSchedule = some k' ∧ k'.Active idle ∧ Same k k' := by
  obtain ⟨current, p, done, alive⟩ := kept.rtSchedule ready locked
  refine ⟨k.withSched { k.sched with currentThread := current, currentPriority := p },
    by rw [rtSchedule, done]; rfl, ⟨alive, ?_⟩, ⟨rfl, rfl, rfl, rfl⟩⟩
  exact ⟨alarms.timers, alarms.sleeping, alarms.oneShot⟩

/-! ### Going to sleep and waking up -/

theorem rtThreadSuspend_eq (ready : (k.sched.thread x).stat = .ready) :
    k.rtThreadSuspend x = (.eok, {
      sched := (k.sched.setThread x { k.sched.thread x with
        stat := .suspend }).rtScheduleRemoveThread x
      timers := (k.timers.rtTimerStop x).2 }) := by
  rw [rtThreadSuspend, if_neg (not_not.mpr ready)]

theorem rtThreadResume_eq (asleep : (k.sched.thread x).stat = .suspend) :
    k.rtThreadResume x = (.eok, {
      sched := (k.sched.unlink x).rtScheduleInsertThread x
      timers := (k.timers.rtTimerStop x).2 }) := by
  rw [rtThreadResume, if_neg (not_not.mpr asleep)]

theorem waits_stop_of_ne (away : y ≠ x) {left : Nat} :
    (k.timers.rtTimerStop x).2.Waits y left ↔ k.timers.Waits y left := by
  rw [RtTimers.waits_rtTimerStop]
  exact and_iff_left fun _ => away

/-- A ready thread goes to sleep. -/
theorem rtThreadSuspend_spec (kept : k.sched.Kept) (alarms : k.Alarms)
    (ready : (k.sched.thread x).stat = .ready) :
    (k.rtThreadSuspend x).2.sched.Kept ∧ (k.rtThreadSuspend x).2.Alarms ∧
      (k.rtThreadSuspend x).2.sched.thread =
        Function.update k.sched.thread x { k.sched.thread x with stat := .suspend } ∧
      (k.rtThreadSuspend x).2.sched.sem = k.sched.sem ∧
      Touches x k (k.rtThreadSuspend x).2 := by
  have thread : (k.rtThreadSuspend x).2.sched.thread =
      Function.update k.sched.thread x { k.sched.thread x with stat := .suspend } := by
    rw [rtThreadSuspend_eq ready, RtSched.rtScheduleRemoveThread_thread]
    rfl
  have sem : (k.rtThreadSuspend x).2.sched.sem = k.sched.sem := by
    rw [rtThreadSuspend_eq ready, RtSched.rtScheduleRemoveThread_sem]
    exact RtSched.unlink_sem fun s => kept.toWaiting.not_mem (by rw [ready]; simp) s
  have others : ∀ y, y ≠ x → (k.rtThreadSuspend x).2.sched.thread y = k.sched.thread y := by
    intro y away
    rw [thread, Function.update_of_ne away]
  refine ⟨?_, ?_, thread, sem, others, ?_, fun s => by rw [sem], fun s => .inl (by rw [sem])⟩
  · rw [rtThreadSuspend_eq ready]
    exact kept.remove (by rw [ready]; simp) (by simp)
  · rw [rtThreadSuspend_eq ready] at others ⊢
    exact alarms.rtTimerStop fun y away => by rw [others y away]
  · intro y away left
    rw [rtThreadSuspend_eq ready]
    exact waits_stop_of_ne away

/-- A sleeping thread wakes up. -/
theorem rtThreadResume_spec (kept : k.sched.Kept) (alarms : k.Alarms)
    (asleep : (k.sched.thread x).stat = .suspend) :
    (k.rtThreadResume x).2.sched.Kept ∧ (k.rtThreadResume x).2.Alarms ∧
      (k.rtThreadResume x).2.sched.thread =
        Function.update k.sched.thread x { k.sched.thread x with stat := .ready } ∧
      Touches x k (k.rtThreadResume x).2 := by
  have thread : (k.rtThreadResume x).2.sched.thread =
      Function.update k.sched.thread x { k.sched.thread x with stat := .ready } := by
    rw [rtThreadResume_eq asleep]
    rfl
  have others : ∀ y, y ≠ x → (k.rtThreadResume x).2.sched.thread y = k.sched.thread y := by
    intro y away
    rw [thread, Function.update_of_ne away]
  refine ⟨?_, ?_, thread, others, ?_, fun s => ?_, fun s => .inr ?_⟩
  · rw [rtThreadResume_eq asleep]
    exact kept.wake asleep
  · rw [rtThreadResume_eq asleep] at others ⊢
    exact alarms.rtTimerStop fun y away => by rw [others y away]
  · intro y away left
    rw [rtThreadResume_eq asleep]
    exact waits_stop_of_ne away
  · rw [rtThreadResume_eq asleep]
    rfl
  · rw [rtThreadResume_eq asleep]
    rfl

/-- What a thread is at its start. -/
def started (thread : RtThread) : RtThread :=
  { thread with
    currentPriority := thread.initPriority
    numberMask := 1#32 <<< thread.initPriority
    stat := .suspend }

theorem rtThreadStartup_eq (new : (k.sched.thread x).stat = .init) : k.rtThreadStartup x =
    let k' := ((k.withSched (k.sched.setThread x (started (k.sched.thread x)))).rtThreadResume x).2
    if k.sched.currentThread.isSome then k'.rtSchedule else some k' := by
  rw [rtThreadStartup, if_pos new]
  have asleep : ((k.withSched (k.sched.setThread x (started (k.sched.thread x)))).sched.thread
      x).stat = .suspend := by
    change ((k.sched.setThread x _).thread x).stat = _
    rw [RtSched.setThread_thread_self]
    rfl
  have current : ((k.withSched (k.sched.setThread x (started (k.sched.thread x)))).rtThreadResume
      x).2.sched.currentThread = k.sched.currentThread := by
    rw [rtThreadResume_eq asleep]
    rfl
  simp only [started] at current ⊢
  rw [current]

/-- A new thread becomes ready. -/
theorem startThread_spec (kept : k.sched.Kept) (alarms : k.Alarms)
    (new : (k.sched.thread x).stat = .init) :
    let k' := ((k.withSched (k.sched.setThread x (started (k.sched.thread x)))).rtThreadResume x).2
    k'.sched.Kept ∧ k'.Alarms ∧ (k'.sched.thread x).stat = .ready ∧ Touches x k k' := by
  generalize known : k.withSched (k.sched.setThread x (started (k.sched.thread x))) = k₁
  have own : k₁.sched.thread x = started (k.sched.thread x) := by
    rw [← known]
    exact RtSched.setThread_thread_self
  have others {y : τ} (away : y ≠ x) : k₁.sched.thread y = k.sched.thread y := by
    rw [← known]
    exact RtSched.setThread_thread_of_ne away
  have kept₁ : k₁.sched.Kept := by
    rw [← known]
    exact kept.replace (by rw [new]; simp) (kept.toWaiting.not_mem (by rw [new]; simp))
      (by simp [started]) ⟨(kept.low x).1, (kept.low x).1⟩ rfl
  have timers : k₁.timers = k.timers := by rw [← known]; rfl
  have sem : k₁.sched.sem = k.sched.sem := by rw [← known]; rfl
  have alarms₁ : k₁.Alarms := by
    refine ⟨timers ▸ alarms.timers, fun y member => ?_, timers ▸ alarms.oneShot⟩
    rw [timers] at member
    have away : y ≠ x := by
      rintro rfl
      exact alarms.not_mem (by rw [new]; simp) member
    rw [others away]
    exact alarms.sleeping y member
  obtain ⟨kept', alarms', thread, touches⟩ :=
    rtThreadResume_spec kept₁ alarms₁ (x := x) (by rw [own]; rfl)
  refine ⟨kept', alarms', by rw [thread, Function.update_self], ?_⟩
  refine ⟨fun y away => ?_, fun y away left => ?_, fun s => ?_, fun s => ?_⟩
  · rw [touches.thread y away, others away]
  · rw [touches.waits y away, timers]
  · rw [touches.value, sem]
  · rw [← sem]
    exact touches.suspendThread s

/-! ### Calls in a running system -/

/-- The thread may stop running: it is not the idle one, and another one can go on. -/
def MayStop (idle : τ) (k : RtKernel τ σ) (x : τ) : Prop :=
  x ≠ idle ∧ (k.sched.lockNest = 0 ∨ k.sched.currentThread ≠ some x)

/-- A call that touches one thread and then schedules. -/
theorem Active.reschedule (active : k.Active idle) {k₁ : RtKernel τ σ} (kept : k₁.sched.Kept)
    (alarms : k₁.Alarms) (others : ∀ y, y ≠ x → k₁.sched.thread y = k.sched.thread y)
    (current : k₁.sched.currentThread = k.sched.currentThread)
    (lockNest : k₁.sched.lockNest = k.sched.lockNest)
    (spared : (k₁.sched.thread x).stat = .ready ∨ k.MayStop idle x) :
    ∃ k' : RtKernel τ σ, k₁.rtSchedule = some k' ∧ k'.Active idle ∧ Same k₁ k' := by
  have still {y : τ} (ready : (k.sched.thread y).stat = .ready)
      (stays : y = x → (k₁.sched.thread x).stat = .ready) : (k₁.sched.thread y).stat = .ready := by
    by_cases here : y = x
    · rw [here]
      exact stays here
    · rw [others y here, ready]
  refine rtSchedule_spec kept alarms (still active.sched.idle fun here => ?_) fun lock => ?_
  · exact spared.resolve_right fun may => may.1 here.symm
  · obtain ⟨y, now, ready⟩ := active.sched.current
    refine ⟨y, by rw [current, now], still ready fun here => ?_⟩
    refine spared.resolve_right fun may => ?_
    rcases may.2 with open' | other
    · rw [lockNest] at lock
      exact lock open'
    · exact other (here ▸ now)

theorem rtThreadSuspend_sched :
    (k.rtThreadSuspend x).2.sched.currentThread = k.sched.currentThread ∧
      (k.rtThreadSuspend x).2.sched.lockNest = k.sched.lockNest := by
  rw [rtThreadSuspend]
  split
  · exact ⟨rfl, rfl⟩
  · rw [RtSched.rtScheduleRemoveThread_eq]
    exact ⟨rfl, rfl⟩

theorem rtThreadResume_sched :
    (k.rtThreadResume x).2.sched.currentThread = k.sched.currentThread ∧
      (k.rtThreadResume x).2.sched.lockNest = k.sched.lockNest := by
  rw [rtThreadResume]
  split
  · exact ⟨rfl, rfl⟩
  · exact ⟨rfl, rfl⟩

/-- `rt_thread_startup`. -/
theorem Active.rtThreadStartup (active : k.Active idle) (new : (k.sched.thread x).stat = .init) :
    ∃ k' : RtKernel τ σ, k.rtThreadStartup x = some k' ∧ k'.Active idle ∧ Touches x k k' ∧
      (k'.sched.thread x).stat = .ready := by
  obtain ⟨kept, alarms, ready, touches⟩ := startThread_spec active.sched.toKept active.alarms new
  obtain ⟨y, current, -⟩ := active.sched.current
  obtain ⟨k', done, active', same⟩ :=
    active.reschedule kept alarms touches.thread
      rtThreadResume_sched.1 rtThreadResume_sched.2 (.inl ready)
  refine ⟨k', ?_, active', touches.same same, by rw [same.thread, ready]⟩
  rw [rtThreadStartup_eq new, current]
  exact done

/-- `rt_thread_suspend`, and then `rt_schedule`. -/
theorem Active.rtThreadSuspend (active : k.Active idle) (may : k.MayStop idle x) :
    ∃ k' : RtKernel τ σ, (k.rtThreadSuspend x).2.rtSchedule = some k' ∧ k'.Active idle ∧
      Touches x k k' ∧ (k'.sched.thread x).stat ≠ .ready ∧
      ((k.sched.thread x).stat ≠ .ready → k'.sched.thread x = k.sched.thread x) := by
  by_cases ready : (k.sched.thread x).stat = .ready
  · obtain ⟨kept, alarms, thread, -, touches⟩ :=
      rtThreadSuspend_spec active.sched.toKept active.alarms ready
    obtain ⟨k', done, active', same⟩ := active.reschedule kept alarms touches.thread
      rtThreadSuspend_sched.1 rtThreadSuspend_sched.2 (.inr may)
    refine ⟨k', done, active', touches.same same, ?_, fun no => absurd ready no⟩
    rw [same.thread, thread, Function.update_self]
    simp
  · have none : (k.rtThreadSuspend x).2 = k := by rw [RtKernel.rtThreadSuspend, if_pos ready]
    rw [none]
    obtain ⟨k', done, active', same⟩ := active.reschedule active.sched.toKept active.alarms
      (fun _ _ => rfl) rfl rfl (.inr may)
    exact ⟨k', done, active', (Touches.refl x k).same same, by rwa [same.thread],
      fun _ => by rw [same.thread]⟩

/-- `rt_thread_resume`, and then `rt_schedule`. -/
theorem Active.rtThreadResume (active : k.Active idle) (x : τ) :
    ∃ k' : RtKernel τ σ, (k.rtThreadResume x).2.rtSchedule = some k' ∧ k'.Active idle ∧
      Touches x k k' ∧ Same (k.rtThreadResume x).2 k' := by
  by_cases asleep : (k.sched.thread x).stat = .suspend
  · obtain ⟨kept, alarms, thread, touches⟩ :=
      rtThreadResume_spec active.sched.toKept active.alarms asleep
    obtain ⟨k', done, active', same⟩ := active.reschedule kept alarms touches.thread
      rtThreadResume_sched.1 rtThreadResume_sched.2
      (.inl (by rw [thread, Function.update_self]))
    exact ⟨k', done, active', touches.same same, same⟩
  · have none : (k.rtThreadResume x).2 = k := by rw [RtKernel.rtThreadResume, if_pos asleep]
    rw [none]
    obtain ⟨y, current, ready⟩ := active.sched.current
    obtain ⟨k', done, active', same⟩ := rtSchedule_spec active.sched.toKept active.alarms
      active.sched.idle fun _ => ⟨y, current, ready⟩
    exact ⟨k', done, active', (Touches.refl x k).same same, same⟩

theorem waits_startThreadTimer (alarms : k.Alarms) (near : tick.toNat < RtTimers.horizon)
    {left : Nat} : (k.startThreadTimer x tick).timers.Waits y left ↔
      (y = x ∧ left = tick.toNat) ∨ (k.timers.Waits y left ∧ y ≠ x) := by
  have timed : ((k.timers.rtTimerControl x (.setTime tick)).1.timer x).Timed := by
    rw [RtTimers.rtTimerControl, RtTimers.set_timer_self]
    refine ⟨near, fun periodic => ?_⟩
    change (k.timers.timer x).periodic = true at periodic
    rw [alarms.oneShot x] at periodic
    cases periodic
  obtain ⟨running, queue⟩ := alarms.timers.rtTimerControl timed
  have time : ((k.timers.rtTimerControl x (.setTime tick)).1.timer x).initTick = tick := by
    rw [RtTimers.rtTimerControl, RtTimers.set_timer_self]
  rw [startThreadTimer, running.waits_rtTimerStart (by rw [time]; exact near), time,
    RtTimers.Waits, queue, RtTimers.Waits]

/-- `rt_thread_sleep`. -/
theorem Active.rtThreadSleep (active : k.Active idle) (current : k.sched.currentThread = some x)
    (may : k.MayStop idle x) (near : tick.toNat < RtTimers.horizon) :
    ∃ k' : RtKernel τ σ, k.rtThreadSleep tick = some k' ∧ k'.Active idle ∧ Touches x k k' ∧
      k'.sched.thread = Function.update k.sched.thread x
        { k.sched.thread x with stat := .suspend } ∧
      (∀ left, k'.timers.Waits x left ↔ left = tick.toNat) ∧
      ∀ s, x ∉ (k'.sched.sem s).suspendThread := by
  have ready : (k.sched.thread x).stat = .ready := by
    obtain ⟨y, now, ready⟩ := active.sched.current
    rwa [Option.some.inj (now.symm.trans current)] at ready
  obtain ⟨kept, alarms, thread, sem, touches⟩ :=
    rtThreadSuspend_spec active.sched.toKept active.alarms ready
  have asleep : ((k.rtThreadSuspend x).2.sched.thread x).stat = .suspend := by
    rw [thread, Function.update_self]
  have touches' : Touches x k ((k.rtThreadSuspend x).2.startThreadTimer x tick) := by
    refine ⟨touches.thread, fun y away left => ?_, touches.value, touches.suspendThread⟩
    rw [waits_startThreadTimer alarms near, touches.waits y away]
    simp [away]
  have kept' : ((k.rtThreadSuspend x).2.startThreadTimer x tick).sched.Kept := kept
  obtain ⟨k', done, active', same⟩ := active.reschedule kept'
    (alarms.startThreadTimer asleep near) touches'.thread rtThreadSuspend_sched.1
    rtThreadSuspend_sched.2 (.inr may)
  refine ⟨k', ?_, active', touches'.same same, same.thread.trans thread, fun left => ?_,
    fun s => ?_⟩
  · rw [RtKernel.rtThreadSleep, current]
    exact done
  · rw [same.timers, waits_startThreadTimer alarms near]
    simp
  · rw [same.sem]
    change x ∉ ((k.rtThreadSuspend x).2.sched.sem s).suspendThread
    rw [sem]
    exact active.sched.toWaiting.not_mem (by rw [ready]; simp) s

/-- Writing into a thread besides its state and its priority. -/
theorem Active.setThread (active : k.Active idle) {thread : RtThread}
    (stat : thread.stat = (k.sched.thread x).stat)
    (priority : thread.initPriority = (k.sched.thread x).initPriority ∧
      thread.currentPriority = (k.sched.thread x).currentPriority)
    (mask : thread.numberMask = (k.sched.thread x).numberMask) :
    (k.withSched (k.sched.setThread x thread)).Active idle := by
  refine ⟨active.sched.setThread stat priority mask, active.alarms.timers, fun y member => ?_,
    active.alarms.oneShot⟩
  change ((k.sched.setThread x thread).thread y).stat = .suspend
  by_cases here : y = x
  · rw [here, RtSched.setThread_thread_self, stat]
    exact active.alarms.sleeping x (here ▸ member)
  · rw [RtSched.setThread_thread_of_ne here]
    exact active.alarms.sleeping y member

theorem touches_setThread (thread : RtThread) :
    Touches x k (k.withSched (k.sched.setThread x thread)) where
  thread := fun _ away => RtSched.setThread_thread_of_ne away
  waits := fun _ _ _ => Iff.rfl
  value := fun _ => rfl
  suspendThread := fun _ => .inl rfl

/-- The end of `rt_thread_sleep`. -/
theorem Active.rtThreadSleepEnd (active : k.Active idle)
    (current : k.sched.currentThread = some x) : ∃ k' : RtKernel τ σ,
      k.rtThreadSleepEnd = some k' ∧ k'.Active idle ∧ Touches x k k' ∧
      (k'.sched.thread x).stat = .ready := by
  have ready : (k.sched.thread x).stat = .ready := by
    obtain ⟨y, now, ready⟩ := active.sched.current
    rwa [Option.some.inj (now.symm.trans current)] at ready
  rw [RtKernel.rtThreadSleepEnd, current]
  simp only
  split
  · refine ⟨_, rfl, active.setThread rfl ⟨rfl, rfl⟩ rfl, touches_setThread _, ?_⟩
    change ((k.sched.setThread x _).thread x).stat = .ready
    rw [RtSched.setThread_thread_self, ready]
  · exact ⟨k, rfl, active, Touches.refl x k, ready⟩

theorem rtThreadDelete_eq : k.rtThreadDelete x = {
    sched := (k.sched.setThread x { k.sched.thread x with stat := .close }).rtScheduleRemoveThread x
    timers := k.timers.rtTimerDetach x } := by
  rw [rtThreadDelete, ← RtSched.setThread_rtScheduleRemoveThread]

/-- Closing a thread. -/
theorem rtThreadDelete_spec (alarms : k.Alarms) : (k.rtThreadDelete x).Alarms ∧
    (k.rtThreadDelete x).sched.thread =
      Function.update k.sched.thread x { k.sched.thread x with stat := .close } ∧
    Touches x k (k.rtThreadDelete x) := by
  have thread : (k.rtThreadDelete x).sched.thread =
      Function.update k.sched.thread x { k.sched.thread x with stat := .close } := by
    rw [rtThreadDelete_eq, RtSched.rtScheduleRemoveThread_thread]
    rfl
  have others : ∀ y, y ≠ x → (k.rtThreadDelete x).sched.thread y = k.sched.thread y := by
    intro y away
    rw [thread, Function.update_of_ne away]
  refine ⟨?_, thread, others, fun y away left => ?_, fun s => ?_, fun s => .inr ?_⟩
  · exact alarms.rtTimerDetach fun y away => congrArg RtThread.stat (others y away)
  · change (k.timers.remove x).Waits y left ↔ _
    rw [RtTimers.waits_remove]
    exact and_iff_left away
  · rw [rtThreadDelete_eq, RtSched.rtScheduleRemoveThread_sem]
    rfl
  · rw [rtThreadDelete_eq, RtSched.rtScheduleRemoveThread_sem]
    rfl

/-- `rt_thread_delete` of a thread that does not run. -/
theorem Active.rtThreadDelete (active : k.Active idle) (started : (k.sched.thread x).stat ≠ .init)
    (other : x ≠ idle) (waits : k.sched.currentThread ≠ some x) :
    (k.rtThreadDelete x).Active idle := by
  refine ⟨?_, (rtThreadDelete_spec active.alarms).1⟩
  rw [rtThreadDelete_eq]
  exact active.sched.remove started (by simp) other waits

/-- `rt_thread_exit`. -/
theorem Active.rtThreadExit (active : k.Active idle) (current : k.sched.currentThread = some x)
    (may : k.MayStop idle x) : ∃ k' : RtKernel τ σ, k.rtThreadExit = some k' ∧ k'.Active idle ∧
      Touches x k k' ∧ (k'.sched.thread x).stat = .close := by
  have ready : (k.sched.thread x).stat = .ready := by
    obtain ⟨y, now, ready⟩ := active.sched.current
    rwa [Option.some.inj (now.symm.trans current)] at ready
  obtain ⟨alarms, thread, touches⟩ := rtThreadDelete_spec (x := x) active.alarms
  have kept : (k.rtThreadDelete x).sched.Kept := by
    rw [rtThreadDelete_eq]
    exact active.sched.toKept.remove (by rw [ready]; simp) (by simp)
  have sched : (k.rtThreadDelete x).sched.currentThread = k.sched.currentThread ∧
      (k.rtThreadDelete x).sched.lockNest = k.sched.lockNest := by
    rw [rtThreadDelete_eq, RtSched.rtScheduleRemoveThread_eq]
    exact ⟨rfl, rfl⟩
  obtain ⟨k', done, active', same⟩ :=
    active.reschedule kept alarms touches.thread sched.1 sched.2 (.inr may)
  refine ⟨k', ?_, active', touches.same same, ?_⟩
  · rw [RtKernel.rtThreadExit, current]
    exact done
  · rw [same.thread, thread, Function.update_self]

/-- `rt_thread_yield`. -/
theorem Active.rtThreadYield (active : k.Active idle) (x : τ) : ∃ k' : RtKernel τ σ,
    k.sched.rtThreadYield.map k.withSched = some k' ∧ k'.Active idle ∧ Touches x k k' ∧
      k'.sched.thread = k.sched.thread := by
  obtain ⟨sched, done, alive, thread, -, sems⟩ := active.sched.rtThreadYield
  refine ⟨k.withSched sched, by rw [done]; rfl, ⟨alive, active.alarms.timers, fun y member => ?_,
    active.alarms.oneShot⟩, ⟨fun y _ => ?_, fun _ _ _ => Iff.rfl, fun s => (sems s).1,
    fun s => .inl (sems s).2.2⟩, thread⟩
  · change (sched.thread y).stat = _
    rw [thread]
    exact active.alarms.sleeping y member
  · change sched.thread y = _
    rw [thread]

/-- `rt_enter_critical`. -/
theorem Active.rtEnterCritical (active : k.Active idle) (room : k.sched.lockNest.toNat < 2 ^ 15)
    (x : τ) : (k.withSched k.sched.rtEnterCritical).Active idle ∧
      Touches x k (k.withSched k.sched.rtEnterCritical) := by
  refine ⟨⟨⟨active.sched.toKept.running _ _ _, active.sched.idle, active.sched.current,
    fun lock => ?_⟩, active.alarms.timers, active.alarms.sleeping, active.alarms.oneShot⟩,
    ⟨fun _ _ => rfl, fun _ _ _ => Iff.rfl, fun _ => rfl, fun _ => .inl rfl⟩⟩
  change k.sched.lockNest + 1 = 0 at lock
  bv_omega

/-- `rt_exit_critical`. -/
theorem Active.rtExitCritical (active : k.Active idle) (x : τ) : ∃ k' : RtKernel τ σ,
    k.sched.rtExitCritical.map k.withSched = some k' ∧ k'.Active idle ∧ Touches x k k' ∧
      k'.sched.thread = k.sched.thread := by
  obtain ⟨y, current, ready⟩ := active.sched.current
  have alarms (sched : RtSched τ σ) (thread : sched.thread = k.sched.thread) :
      (k.withSched sched).Alarms := by
    refine ⟨active.alarms.timers, fun z member => ?_, active.alarms.oneShot⟩
    change (sched.thread z).stat = _
    rw [thread]
    exact active.alarms.sleeping z member
  rw [RtSched.rtExitCritical]
  split
  · obtain ⟨current', p, done, alive⟩ :=
      (active.sched.toKept.running k.sched.currentThread k.sched.currentPriority 0).rtSchedule
        active.sched.idle fun _ => ⟨y, current, ready⟩
    exact ⟨k.withSched { k.sched with
        lockNest := 0, currentThread := current', currentPriority := p },
      by rw [done]; rfl, ⟨alive, alarms _ rfl⟩,
      ⟨fun _ _ => rfl, fun _ _ _ => Iff.rfl, fun _ => rfl, fun _ => .inl rfl⟩, rfl⟩
  next locked =>
    refine ⟨k.withSched { k.sched with lockNest := k.sched.lockNest - 1 }, rfl,
      ⟨⟨active.sched.toKept.running _ _ _, active.sched.idle, active.sched.current,
        fun lock => ?_⟩, alarms _ rfl⟩,
      ⟨fun _ _ => rfl, fun _ _ _ => Iff.rfl, fun _ => rfl, fun _ => .inl rfl⟩, rfl⟩
    change k.sched.lockNest - 1 = 0 at lock
    rw [lock] at locked
    exact absurd (by decide) locked

end RtKernel

end LedFirmware
