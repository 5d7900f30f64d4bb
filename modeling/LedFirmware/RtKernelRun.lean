import LedFirmware.RtSemaphore

/-!
# Runs of the kernel

The clock tick and the calls of the threads come in any order.  Every call of a running
system comes to an end and leaves it running: the thread that runs is the first ready one of
the highest priority.
-/

namespace LedFirmware

/-- The clock tick, and the calls of threads and interrupts. -/
inductive KernelEvent (τ σ : Type)
  | tick
  | startup (x : τ)
  | suspend (x : τ)
  | resume (x : τ)
  | delete (x : τ)
  | yield
  | sleep (tick : RtTick)
  | sleepEnd
  | exit
  | semTake (s : σ) (time : BitVec 32)
  | semRelease (s : σ)
  | enterCritical
  | exitCritical
  deriving DecidableEq, Repr

/-- The call is made on this thread. -/
def KernelEvent.On {τ σ : Type} (x : τ) : KernelEvent τ σ → Prop
  | .startup y | .suspend y | .resume y | .delete y => y = x
  | _ => False

namespace RtKernel

variable {τ σ : Type} [DecidableEq τ] [DecidableEq σ]

/-- A step; `rt_thread_suspend` and `rt_thread_resume` are followed by `rt_schedule`. -/
def step (k : RtKernel τ σ) : KernelEvent τ σ → Option (RtKernel τ σ)
  | .tick => k.rtTickIncrease
  | .startup x => k.rtThreadStartup x
  | .suspend x => (k.rtThreadSuspend x).2.rtSchedule
  | .resume x => (k.rtThreadResume x).2.rtSchedule
  | .delete x => some (k.rtThreadDelete x)
  | .yield => k.sched.rtThreadYield.map k.withSched
  | .sleep tick => k.rtThreadSleep tick
  | .sleepEnd => k.rtThreadSleepEnd
  | .exit => k.rtThreadExit
  | .semTake s time => (k.rtSemTake s time).map Prod.snd
  | .semRelease s => k.rtSemRelease s
  | .enterCritical => some (k.withSched k.sched.rtEnterCritical)
  | .exitCritical => k.sched.rtExitCritical.map k.withSched

/-- The thread that runs may stop running. -/
def MayBlock (idle : τ) (k : RtKernel τ σ) : Prop :=
  ∀ x, k.sched.currentThread = some x → k.MayStop idle x

/-- New threads start, the idle thread never sleeps, no thread sleeps while it has locked the
scheduler, threads end themselves or are closed once, and times are in range. -/
def Allowed (idle : τ) (k : RtKernel τ σ) : KernelEvent τ σ → Prop
  | .startup x => (k.sched.thread x).stat = .init
  | .suspend x => k.MayStop idle x
  | .delete x => (k.sched.thread x).stat ≠ .init ∧ (k.sched.thread x).stat ≠ .close ∧ x ≠ idle ∧
      k.sched.currentThread ≠ some x
  | .sleep tick => tick.toNat < RtTimers.horizon ∧ k.MayBlock idle
  | .exit => k.MayBlock idle
  | .semTake s time => (0 < time.toInt → time.toNat < RtTimers.horizon) ∧
      ((k.sched.sem s).value = 0 → time ≠ 0 → k.MayBlock idle)
  | .enterCritical => k.sched.lockNest.toNat + 1 < 2 ^ 15
  | _ => True

/-! ## What a call does -/

/-- What a call can do to a running system. -/
inductive Effect (k : RtKernel τ σ) (event : KernelEvent τ σ) (k' : RtKernel τ σ) : Prop
  | call (x : τ) (touches : Touches x k k') (own : k.sched.currentThread = some x ∨ event.On x)
      (asleep : event ≠ .resume x → (k.sched.thread x).stat = .suspend →
        (k'.sched.thread x).stat ≠ .ready)
      (stays : ∀ s, x ∈ (k'.sched.sem s).suspendThread → k'.sched.thread x = k.sched.thread x)
      (noTake : ∀ s time, event ≠ .semTake s time) (noRelease : ∀ s, event ≠ .semRelease s)
  | taken (s : σ) (time : BitVec 32) (which : event = .semTake s time)
      (returns : ∃ k', k.rtSemTake s time = some (.returns .eok, k'))
      (alone : (k.sched.sem s).suspendThread = []) (value : (k.sched.sem s).value ≠ 0)
      (after : k' = k.setSem s { k.sched.sem s with value := (k.sched.sem s).value - 1 })
  | refused (s : σ) (time : BitVec 32) (which : event = .semTake s time)
      (returns : ∃ k', k.rtSemTake s time = some (.returns .etimeout, k')) (after : k' = k)
  | blocked (s : σ) (time : BitVec 32) (x : τ) (which : event = .semTake s time)
      (returns : ∃ k', k.rtSemTake s time = some (.waits, k'))
      (current : k.sched.currentThread = some x)
      (thread : k'.sched.thread = Function.update k.sched.thread x
        { k.sched.thread x with stat := .suspend, error := .eok })
      (waits : ∀ y, y ≠ x → ∀ left, k'.timers.Waits y left ↔ k.timers.Waits y left)
      (value : (k.sched.sem s).value = 0 ∧ (k'.sched.sem s).value = 0)
      (list : (k'.sched.sem s).suspendThread.Perm (x :: (k.sched.sem s).suspendThread))
      (others : ∀ t, t ≠ s → k'.sched.sem t = k.sched.sem t)
  | woken (s : σ) (x : τ) (later : List τ) (which : event = .semRelease s)
      (first : (k.sched.sem s).suspendThread = x :: later) (touches : Touches x k k')
      (list : (k'.sched.sem s).suspendThread = later)
      (thread : k'.sched.thread = Function.update k.sched.thread x
        { k.sched.thread x with stat := .ready })
  | counted (s : σ) (which : event = .semRelease s)
      (alone : (k.sched.sem s).suspendThread = [])
      (after : k' = k.setSem s { k.sched.sem s with value := (k.sched.sem s).value + 1 })

variable {k : RtKernel τ σ} {idle x y : τ} {event : KernelEvent τ σ} {s : σ}

/-- Every allowed call comes to an end, and the system runs on. -/
theorem Active.call (active : k.Active idle) (allowed : k.Allowed idle event)
    (call : event ≠ .tick) :
    ∃ k' : RtKernel τ σ, k.step event = some k' ∧ k'.Active idle ∧ Effect k event k' := by
  obtain ⟨x, current, ready⟩ := active.sched.current
  have awake : (k.sched.thread x).stat ≠ .suspend := by rw [ready]; simp
  cases event with
  | tick => exact absurd rfl call
  | startup y =>
      obtain ⟨k', done, active', touches, ready'⟩ := active.rtThreadStartup allowed
      have new : (k.sched.thread y).stat = .init := allowed
      exact ⟨k', done, active', .call y touches (.inr rfl) (fun _ no => by simp [new] at no)
        (fun s member => absurd member (active'.sched.toWaiting.not_mem (by rw [ready']; simp) s))
        (by simp) (by simp)⟩
  | suspend y =>
      obtain ⟨k', done, active', touches, stat, same⟩ := active.rtThreadSuspend allowed
      refine ⟨k', done, active', .call y touches (.inr rfl) (fun _ _ => stat) (fun s member => ?_)
        (by simp) (by simp)⟩
      refine same fun ready' => ?_
      have absent := active.sched.toWaiting.not_mem (x := y) (by rw [ready']; simp) s
      rcases touches.suspendThread s with list | list
      · exact absent (list ▸ member)
      · rw [list] at member
        exact absent (List.mem_of_mem_filter member)
  | resume y =>
      obtain ⟨k', done, active', touches, same⟩ := active.rtThreadResume y
      refine ⟨k', done, active', .call y touches (.inr rfl) (fun no => absurd rfl no)
        (fun s member => ?_) (by simp) (by simp)⟩
      by_cases asleep : (k.sched.thread y).stat = .suspend
      · refine absurd member (active'.sched.toWaiting.not_mem ?_ s)
        rw [same.thread, (rtThreadResume_spec active.sched.toKept active.alarms asleep).2.2.1,
          Function.update_self]
        simp
      · rw [same.thread, RtKernel.rtThreadResume, if_pos asleep]
  | delete y =>
      obtain ⟨new, closed, other, waits⟩ := allowed
      have active' := active.rtThreadDelete new other waits
      obtain ⟨-, thread, touches⟩ := rtThreadDelete_spec (x := y) active.alarms
      have gone : ((k.rtThreadDelete y).sched.thread y).stat = .close := by
        rw [thread, Function.update_self]
      refine ⟨_, rfl, active', .call y touches (.inr rfl) (fun _ _ => by rw [gone]; simp)
        (fun s member => ?_) (by simp) (by simp)⟩
      exact absurd member (active'.sched.toWaiting.not_mem (by rw [gone]; simp) s)
  | yield =>
      obtain ⟨k', done, active', touches, thread⟩ := active.rtThreadYield x
      exact ⟨k', done, active', .call x touches (.inl current) (fun _ no => absurd no awake)
        (fun _ _ => by rw [thread]) (by simp) (by simp)⟩
  | sleep tick =>
      obtain ⟨k', done, active', touches, thread, -, free⟩ :=
        active.rtThreadSleep current (allowed.2 x current) allowed.1
      exact ⟨k', done, active', .call x touches (.inl current) (fun _ no => absurd no awake)
        (fun s member => absurd member (free s)) (by simp) (by simp)⟩
  | sleepEnd =>
      obtain ⟨k', done, active', touches, ready'⟩ := active.rtThreadSleepEnd current
      exact ⟨k', done, active', .call x touches (.inl current) (fun _ no => absurd no awake)
        (fun s member => absurd member (active'.sched.toWaiting.not_mem (by rw [ready']; simp) s))
        (by simp) (by simp)⟩
  | exit =>
      obtain ⟨k', done, active', touches, gone⟩ := active.rtThreadExit current (allowed x current)
      exact ⟨k', done, active', .call x touches (.inl current) (fun _ no => absurd no awake)
        (fun s member => absurd member (active'.sched.toWaiting.not_mem (by rw [gone]; simp) s))
        (by simp) (by simp)⟩
  | semTake s time =>
      by_cases value : (k.sched.sem s).value = 0
      · by_cases wait : time = 0
        · have returns : k.rtSemTake s time = some (.returns .etimeout, k) := by
            rw [RtKernel.rtSemTake, value, wait]
            rfl
          exact ⟨k, by rw [step, returns]; rfl, active, .refused s time rfl ⟨k, returns⟩ rfl⟩
        · obtain ⟨k', done, active', thread, waits, value', list, others⟩ :=
            active.rtSemTake value wait current (allowed.2 value wait x current) allowed.1
          exact ⟨k', by rw [step, done]; rfl, active', .blocked s time x rfl ⟨k', done⟩ current
            thread waits ⟨value, value'⟩ list others⟩
      · have alone := active.sched.empty s value
        have returns : k.rtSemTake s time = some (.returns .eok,
            k.setSem s { k.sched.sem s with value := (k.sched.sem s).value - 1 }) := by
          have positive : 0 < (k.sched.sem s).value := by bv_omega
          exact if_pos positive
        exact ⟨_, by rw [step, returns]; rfl, active.setSem alone _,
          .taken s time rfl ⟨_, returns⟩ alone value rfl⟩
  | semRelease s =>
      obtain ⟨k', done, active', ⟨y, later, first, touches, list, thread⟩ | ⟨alone, after⟩⟩ :=
        active.rtSemRelease s
      · exact ⟨k', done, active', .woken s y later rfl first touches list thread⟩
      · exact ⟨k', done, active', .counted s rfl alone after⟩
  | enterCritical =>
      obtain ⟨active', touches⟩ :=
        active.rtEnterCritical (Nat.lt_of_succ_lt allowed) x
      exact ⟨_, rfl, active', .call x touches (.inl current) (fun _ no => absurd no awake)
        (fun _ _ => rfl) (by simp) (by simp)⟩
  | exitCritical =>
      obtain ⟨k', done, active', touches, thread⟩ := active.rtExitCritical x
      exact ⟨k', done, active', .call x touches (.inl current) (fun _ no => absurd no awake)
        (fun _ _ => by rw [thread]) (by simp) (by simp)⟩

/-- Every allowed step comes to an end, and the system runs on. -/
theorem Active.step (active : k.Active idle) (allowed : k.Allowed idle event) :
    ∃ k' : RtKernel τ σ, k.step event = some k' ∧ k'.Active idle := by
  by_cases tick : event = .tick
  · subst tick
    obtain ⟨k', done, active', -⟩ := active.rtTickIncrease
    exact ⟨k', done, active'⟩
  · obtain ⟨k', done, active', -⟩ := active.call allowed tick
    exact ⟨k', done, active'⟩

/-! ## Runs -/

def run (k : RtKernel τ σ) (events : List (KernelEvent τ σ)) : Option (RtKernel τ σ) :=
  events.foldlM step k

/-- Something holds of each event where it happens. -/
def Along (p : RtKernel τ σ → KernelEvent τ σ → Prop) (k : RtKernel τ σ) :
    List (KernelEvent τ σ) → Prop
  | [] => True
  | event :: events => p k event ∧ ∀ k' ∈ k.step event, Along p k' events

theorem Active.run {events : List (KernelEvent τ σ)} (active : k.Active idle)
    (allowed : k.Along (Allowed idle) events) :
    ∃ k' : RtKernel τ σ, k.run events = some k' ∧ k'.Active idle := by
  induction events generalizing k with
  | nil => exact ⟨k, rfl, active⟩
  | cons event events ih =>
      obtain ⟨k₁, done, active₁⟩ := active.step allowed.1
      obtain ⟨k', rest, active'⟩ := ih active₁ (allowed.2 k₁ (by rw [done]; rfl))
      refine ⟨k', ?_, active'⟩
      rw [RtKernel.run, List.foldlM_cons, done]
      exact rest

/-! ## From the start -/

/-- `rt_system_scheduler_init`, with the threads and the semaphores as they are initialized. -/
def rtSystemSchedulerInit (thread : τ → RtThread) (sem : σ → RtSem τ) (tick : RtTick)
    (timer : τ → RtTimer) : RtKernel τ σ where
  sched := {
    thread := thread
    priorityTable := fun _ => []
    readyPriorityGroup := 0
    currentThread := none
    currentPriority := 31
    lockNest := 0
    sem := sem }
  timers := { tick := tick, timerList := [], timer := timer }

/-- `rt_system_scheduler_start`. -/
def rtSystemSchedulerStart (k : RtKernel τ σ) : Option (RtKernel τ σ) :=
  if k.sched.readyPriorityGroup = 0 then none
  else
    match k.sched.priorityTable (rtFfs k.sched.readyPriorityGroup - 1) with
    | [] => none
    | toThread :: _ => some (k.withSched { k.sched with currentThread := some toThread })

/-- Start the threads and then the scheduler. -/
def boot (k : RtKernel τ σ) (threads : List τ) : Option (RtKernel τ σ) :=
  (threads.foldlM rtThreadStartup k).bind rtSystemSchedulerStart

/-- How threads, timers and semaphores are before the start. -/
structure Fresh (thread : τ → RtThread) (sem : σ → RtSem τ) (timer : τ → RtTimer) : Prop where
  stat : ∀ x, (thread x).stat = .init
  priority : ∀ x, (thread x).initPriority < 32 ∧ (thread x).currentPriority < 32
  timer : ∀ x, (timer x).periodic = false ∧ (timer x).initTick.toNat < RtTimers.horizon
  sem : ∀ s, (sem s).suspendThread = []

/-- Before the scheduler starts: nothing runs, and the threads to come are new. -/
structure Starting (pending : List τ) (k : RtKernel τ σ) : Prop where
  kept : k.sched.Kept
  alarms : k.Alarms
  nothing : k.sched.currentThread = none
  unlocked : k.sched.lockNest = 0
  new : ∀ x ∈ pending, (k.sched.thread x).stat = .init

variable {thread : τ → RtThread} {sem : σ → RtSem τ} {timer : τ → RtTimer} {now : RtTick}
  {threads : List τ}

omit [DecidableEq τ] [DecidableEq σ] in
theorem Fresh.starting (fresh : Fresh thread sem timer) (threads : List τ) :
    (rtSystemSchedulerInit thread sem now timer).Starting threads where
  kept := by
    refine ⟨⟨fun p x => ?_, fun p => List.nodup_nil, fun p => ?_, fresh.priority,
        fun x begun => ?_⟩,
      ⟨fun s x member => ?_, fun s => ?_, fun s t x member => ?_, fun s _ => fresh.sem s⟩⟩
    · simp [rtSystemSchedulerInit, fresh.stat]
    · simp [rtSystemSchedulerInit]
    · exact absurd (fresh.stat x) begun
    · change x ∈ (sem s).suspendThread at member
      simp [fresh.sem] at member
    · change (sem s).suspendThread.Nodup
      simp [fresh.sem]
    · change x ∈ (sem s).suspendThread at member
      simp [fresh.sem] at member
  alarms := by
    refine ⟨⟨⟨DelayQueue.Ordered.nil, by simp [rtSystemSchedulerInit],
      by simp [rtSystemSchedulerInit]⟩, fun x => ⟨(fresh.timer x).2, fun periodic => ?_⟩⟩,
      by simp [rtSystemSchedulerInit], fun x => (fresh.timer x).1⟩
    change (timer x).periodic = true at periodic
    rw [(fresh.timer x).1] at periodic
    cases periodic
  nothing := rfl
  unlocked := rfl
  new := fun x _ => fresh.stat x

omit [DecidableEq σ] in
/-- One thread after the other becomes ready. -/
theorem Starting.startup {pending : List τ} (starting : k.Starting (x :: pending))
    (once : x ∉ pending) : ∃ k' : RtKernel τ σ, k.rtThreadStartup x = some k' ∧
      k'.Starting pending ∧ (k'.sched.thread x).stat = .ready ∧
      ∀ y, (k.sched.thread y).stat = .ready → (k'.sched.thread y).stat = .ready := by
  have new := starting.new x List.mem_cons_self
  obtain ⟨kept, alarms, ready, touches⟩ := startThread_spec starting.kept starting.alarms new
  refine ⟨_, ?_, ⟨kept, alarms, ?_, ?_, fun y member => ?_⟩, ready, fun y before => ?_⟩
  · rw [rtThreadStartup_eq new, starting.nothing]
    rfl
  · exact rtThreadResume_sched.1.trans starting.nothing
  · exact rtThreadResume_sched.2.trans starting.unlocked
  · have away : y ≠ x := by
      rintro rfl
      exact once member
    rw [touches.thread y away]
    exact starting.new y (List.mem_cons_of_mem _ member)
  · have away : y ≠ x := by
      rintro rfl
      rw [new] at before
      cases before
    rw [touches.thread y away, before]

omit [DecidableEq σ] in
theorem Starting.startups (starting : k.Starting threads) (once : threads.Nodup) :
    ∃ k' : RtKernel τ σ, threads.foldlM rtThreadStartup k = some k' ∧ k'.Starting [] ∧
      (∀ x ∈ threads, (k'.sched.thread x).stat = .ready) ∧
      ∀ y, (k.sched.thread y).stat = .ready → (k'.sched.thread y).stat = .ready := by
  induction threads generalizing k with
  | nil => exact ⟨k, rfl, starting, by simp, fun _ ready => ready⟩
  | cons x threads ih =>
      rw [List.nodup_cons] at once
      obtain ⟨k₁, done, starting₁, ready, stay₁⟩ := starting.startup once.1
      obtain ⟨k', rest, starting', all, stay⟩ := ih starting₁ once.2
      refine ⟨k', ?_, starting', fun y member => ?_, fun y before => stay y (stay₁ y before)⟩
      · rw [List.foldlM_cons, done]
        exact rest
      · rcases List.mem_cons.mp member with here | later
        · rw [here]
          exact stay x ready
        · exact all y later

omit [DecidableEq τ] [DecidableEq σ] in
/-- The scheduler starts with the first thread of the highest priority. -/
theorem Starting.start (starting : k.Starting []) (ready : (k.sched.thread idle).stat = .ready) :
    ∃ k' : RtKernel τ σ, k.rtSystemSchedulerStart = some k' ∧ k'.Active idle := by
  have listed := starting.kept.toListed
  have set := (listed.group _).mpr ⟨idle, (listed.listed _ idle).mpr ⟨ready, rfl⟩⟩
  have nonzero : k.sched.readyPriorityGroup ≠ 0 := fun zero => by simp [zero] at set
  obtain ⟨bit, found, lowest⟩ := rtFfs_spec nonzero
  obtain ⟨y, member⟩ := (listed.group bit).mp lowest.1
  obtain ⟨toThread, later, first⟩ := List.exists_cons_of_ne_nil (List.ne_nil_of_mem member)
  have dispatched := @RtSched.Listed.dispatched τ σ k.sched toThread k.sched.currentPriority
    listed bit later lowest first
  refine ⟨k.withSched { k.sched with currentThread := some toThread }, ?_,
    ⟨⟨starting.kept.running _ _ _, ready, ?_, fun _ => dispatched⟩,
      ⟨starting.alarms.timers, starting.alarms.sleeping, starting.alarms.oneShot⟩⟩⟩
  · rw [rtSystemSchedulerStart, if_neg nonzero, found, Nat.add_sub_cancel, first]
  · obtain ⟨x, current, running, -⟩ := dispatched
    exact ⟨x, current, running⟩

omit [DecidableEq σ] in
/-- The kernel starts. -/
theorem Fresh.boot (fresh : Fresh thread sem timer) (once : threads.Nodup)
    (started : idle ∈ threads) : ∃ k : RtKernel τ σ,
      boot (rtSystemSchedulerInit thread sem now timer) threads = some k ∧ k.Active idle := by
  obtain ⟨k₁, done, starting, ready, -⟩ := (@Fresh.starting τ σ thread sem timer now fresh
    threads).startups once
  obtain ⟨k, start, active⟩ := starting.start (ready idle started)
  refine ⟨k, ?_, active⟩
  rw [RtKernel.boot, done]
  exact start

/-- **The kernel runs.**  From the start, and through any run of clock ticks and allowed
calls, every step comes to an end.  The ready lists, the waiting lists, the bitmap and the
states of the threads agree, only sleeping threads have running timers, and unless the
scheduler is locked the first ready thread of the highest priority runs. -/
theorem kernel_runs (thread : τ → RtThread) (sem : σ → RtSem τ) (timer : τ → RtTimer)
    (now : RtTick) (fresh : Fresh thread sem timer) (threads : List τ) (once : threads.Nodup)
    (idle : τ) (started : idle ∈ threads) :
    ∃ k : RtKernel τ σ, boot (rtSystemSchedulerInit thread sem now timer) threads = some k ∧
      ∀ events, k.Along (Allowed idle) events →
        ∃ k' : RtKernel τ σ, k.run events = some k' ∧ k'.Active idle := by
  obtain ⟨k, done, active⟩ := @Fresh.boot τ σ _ idle thread sem timer now threads fresh once started
  exact ⟨k, done, fun events allowed => active.run allowed⟩

/-- The idle thread and the one that shows the light. -/
def sampleThread (x : Bool) : RtThread where
  stat := .init
  initPriority := if x then 14 else 31
  currentPriority := if x then 14 else 31
  numberMask := 0
  initTick := 5
  remainingTick := 5
  error := .eok

def sampleSem (_ : Unit) : RtSem Bool := ⟨1, .fifo, []⟩

def sampleTimer (_ : Bool) : RtTimer := ⟨0, 0, false, false⟩

theorem sample_fresh : Fresh sampleThread sampleSem sampleTimer where
  stat := by decide
  priority := by decide
  timer := by decide
  sem := fun _ => rfl

/-- The sample at its start, with the light's thread running. -/
theorem sample_boot : ∃ k : RtKernel Bool Unit,
    boot (rtSystemSchedulerInit sampleThread sampleSem 0 sampleTimer) [false, true] = some k ∧
      k.Active false ∧ k.sched.currentThread = some true ∧ k.MayBlock false := by
  obtain ⟨k, done, active⟩ := @Fresh.boot Bool Unit _ false _ _ _ 0 [false, true] sample_fresh
    (by decide) (by decide)
  have known : (boot (rtSystemSchedulerInit sampleThread sampleSem 0 sampleTimer)
      [false, true]).map (fun k => (k.sched.currentThread, k.sched.lockNest)) =
        some (some true, 0) := by decide
  rw [done, Option.map_some, Option.some.injEq, Prod.mk.injEq] at known
  refine ⟨k, done, active, known.1, fun x current => ⟨?_, .inl known.2⟩⟩
  rw [known.1, Option.some.injEq] at current
  simp [← current]

theorem kernel_runs_sample : ∃ k k' : RtKernel Bool Unit,
    boot (rtSystemSchedulerInit sampleThread sampleSem 0 sampleTimer) [false, true] = some k ∧
      k.run [.sleep 2, .tick, .semTake () 0, .tick, .sleepEnd] = some k' ∧ k'.Active false := by
  obtain ⟨k, done, runs⟩ := kernel_runs sampleThread sampleSem sampleTimer 0 sample_fresh
    [false, true] (by decide) false (by decide)
  obtain ⟨k₀, done₀, -, -, may⟩ := sample_boot
  obtain rfl : k = k₀ := Option.some.inj (done.symm.trans done₀)
  obtain ⟨k', run, active⟩ := runs [.sleep 2, .tick, .semTake () 0, .tick, .sleepEnd]
    ⟨⟨by decide, may⟩, fun _ _ => ⟨trivial, fun _ _ => ⟨⟨by decide, fun _ no => absurd rfl no⟩,
      fun _ _ => ⟨trivial, fun _ _ => ⟨trivial, fun _ _ => trivial⟩⟩⟩⟩⟩
  exact ⟨k, k', done, run, active⟩

end RtKernel

end LedFirmware
