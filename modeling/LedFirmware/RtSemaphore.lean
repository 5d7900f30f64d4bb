import LedFirmware.RtKernel

/-!
# Semaphores and the clock tick

What `rt_sem_take`, `rt_sem_release` and `rt_tick_increase` do to a running system.  A
thread that takes a semaphore without value goes to sleep in its waiting list; a release
wakes the first one that waits, and a tick the threads whose time is over.
-/

namespace LedFirmware

namespace RtKernel

variable {τ σ : Type} [DecidableEq τ] [DecidableEq σ] {k : RtKernel τ σ} {x y idle : τ} {s t : σ}
  {time : BitVec 32}

/-! ## Fields -/

/-- A semaphore changes. -/
def setSem (k : RtKernel τ σ) (s : σ) (sem : RtSem τ) : RtKernel τ σ :=
  k.withSched (k.sched.setSem s sem)

omit [DecidableEq τ] in
@[simp] theorem setSem_self {sem : RtSem τ} : (k.setSem s sem).sched.sem s = sem :=
  Function.update_self ..

omit [DecidableEq τ] in
@[simp] theorem setSem_of_ne {sem : RtSem τ} (away : t ≠ s) :
    (k.setSem s sem).sched.sem t = k.sched.sem t := Function.update_of_ne away ..

omit [DecidableEq τ] [DecidableEq σ] in
theorem insertByPriority_perm {priority : τ → Nat} {list : List τ} :
    (insertByPriority priority x list).Perm (x :: list) := by
  induction list with
  | nil => rfl
  | cons y later ih =>
      rw [insertByPriority]
      split
      · rfl
      · exact (ih.cons y).trans (List.Perm.swap x y later)

/-! ## Taking -/

omit [DecidableEq τ] in
/-- A semaphore changes its value, with nobody waiting. -/
theorem Active.setSem (active : k.Active idle) (alone : (k.sched.sem s).suspendThread = [])
    (value : BitVec 16) :
    (k.setSem s { k.sched.sem s with value := value }).Active idle := by
  refine ⟨⟨active.sched.toKept.setSem ?_ ?_ ?_ fun _ => alone, active.sched.idle,
    active.sched.current, active.sched.dispatched⟩,
    ⟨active.alarms.timers, active.alarms.sleeping, active.alarms.oneShot⟩⟩
  · simp [alone]
  · simp [alone]
  · simp [alone]

/-- A thread goes to sleep in the waiting list of a semaphore without value. -/
theorem rtIpcListSuspend_spec (kept : k.sched.Kept) (alarms : k.Alarms)
    (ready : (k.sched.thread x).stat = .ready) (empty : (k.sched.sem s).value = 0) :
    (k.rtIpcListSuspend s x).sched.Kept ∧ (k.rtIpcListSuspend s x).Alarms ∧
      (k.rtIpcListSuspend s x).sched.thread =
        Function.update k.sched.thread x { k.sched.thread x with stat := .suspend } ∧
      (∀ y, y ≠ x → ∀ left,
        (k.rtIpcListSuspend s x).timers.Waits y left ↔ k.timers.Waits y left) ∧
      ((k.rtIpcListSuspend s x).sched.sem s).value = 0 ∧
      ((k.rtIpcListSuspend s x).sched.sem s).suspendThread.Perm
        (x :: (k.sched.sem s).suspendThread) ∧
      ∀ t, t ≠ s → (k.rtIpcListSuspend s x).sched.sem t = k.sched.sem t := by
  obtain ⟨kept', alarms', thread, sem, touches⟩ := rtThreadSuspend_spec kept alarms ready
  have absent := kept.toWaiting.not_mem (x := x) (by rw [ready]; simp)
  obtain ⟨list, perm, done⟩ : ∃ list : List τ, list.Perm (x :: (k.sched.sem s).suspendThread) ∧
      k.rtIpcListSuspend s x = (k.rtThreadSuspend x).2.setSem s
        { k.sched.sem s with suspendThread := list } := by
    rw [rtIpcListSuspend, sem]
    refine ⟨_, ?_, rfl⟩
    split
    · exact List.perm_append_singleton ..
    · exact insertByPriority_perm
  have asleep : ∀ y ∈ list, ((k.rtThreadSuspend x).2.sched.thread y).stat = .suspend := by
    intro y member
    rw [thread]
    rcases List.mem_cons.mp (perm.mem_iff.mp member) with here | before
    · rw [here, Function.update_self]
    · by_cases here : y = x
      · rw [here, Function.update_self]
      · rw [Function.update_of_ne here]
        exact kept.waiting s y before
  have apart : ∀ y ∈ list, ∀ t, t ≠ s →
      y ∉ ((k.rtThreadSuspend x).2.sched.sem t).suspendThread := by
    intro y member t away other
    rw [sem] at other
    rcases List.mem_cons.mp (perm.mem_iff.mp member) with here | before
    · exact absent t (here ▸ other)
    · exact away (kept.apart t s y other before)
  rw [done]
  refine ⟨kept'.setSem asleep ?_ apart fun value => absurd empty value, ?_, thread, touches.waits,
    ?_, ?_, fun t away => ?_⟩
  · exact perm.nodup_iff.mpr (List.nodup_cons.mpr ⟨absent s, kept.waitsOnce s⟩)
  · exact ⟨alarms'.timers, alarms'.sleeping, alarms'.oneShot⟩
  · rw [setSem_self]
    exact empty
  · rw [setSem_self]
    exact perm
  · rw [setSem_of_ne away, sem]

/-- The thread that takes a semaphore without value goes to sleep in its waiting list. -/
theorem Active.rtSemTake (active : k.Active idle) (empty : (k.sched.sem s).value = 0)
    (wait : time ≠ 0) (current : k.sched.currentThread = some x) (may : k.MayStop idle x)
    (near : 0 < time.toInt → time.toNat < RtTimers.horizon) :
    ∃ k' : RtKernel τ σ, k.rtSemTake s time = some (.waits, k') ∧ k'.Active idle ∧
      k'.sched.thread = Function.update k.sched.thread x
        { k.sched.thread x with stat := .suspend, error := .eok } ∧
      (∀ y, y ≠ x → ∀ left, k'.timers.Waits y left ↔ k.timers.Waits y left) ∧
      (k'.sched.sem s).value = 0 ∧
      (k'.sched.sem s).suspendThread.Perm (x :: (k.sched.sem s).suspendThread) ∧
      ∀ t, t ≠ s → k'.sched.sem t = k.sched.sem t := by
  have ready : (k.sched.thread x).stat = .ready := by
    obtain ⟨y, now, ready⟩ := active.sched.current
    rwa [Option.some.inj (now.symm.trans current)] at ready
  generalize known : k.withSched (k.sched.setThread x { k.sched.thread x with error := .eok }) = k₀
  have active₀ : k₀.Active idle := by
    rw [← known]
    exact active.setThread rfl ⟨rfl, rfl⟩ rfl
  have own : k₀.sched.thread = Function.update k.sched.thread x
      { k.sched.thread x with error := .eok } := by rw [← known]; rfl
  obtain ⟨kept, alarms, thread, waits, value, perm, others⟩ := rtIpcListSuspend_spec (s := s)
    active₀.sched.toKept active₀.alarms (x := x) (by rw [own, Function.update_self, ready])
    (by rw [← known]; exact empty)
  have thread' : (k₀.rtIpcListSuspend s x).sched.thread = Function.update k.sched.thread x
      { k.sched.thread x with stat := .suspend, error := .eok } := by
    rw [thread, own, Function.update_self, Function.update_idem]
  have sched : (k₀.rtIpcListSuspend s x).sched.currentThread = k.sched.currentThread ∧
      (k₀.rtIpcListSuspend s x).sched.lockNest = k.sched.lockNest := by
    rw [← known]
    exact rtThreadSuspend_sched
  -- with a time, the timer is started too
  obtain ⟨k₁, timed, same, alarms₁, waits₁⟩ : ∃ k₁ : RtKernel τ σ,
      (if 0 < time.toInt then (k₀.rtIpcListSuspend s x).startThreadTimer x time
        else k₀.rtIpcListSuspend s x) = k₁ ∧ k₁.sched = (k₀.rtIpcListSuspend s x).sched ∧
      k₁.Alarms ∧ ∀ y, y ≠ x → ∀ left, k₁.timers.Waits y left ↔ k.timers.Waits y left := by
    have timers : k₀.timers = k.timers := by rw [← known]; rfl
    split
    next positive =>
      have asleep : ((k₀.rtIpcListSuspend s x).sched.thread x).stat = .suspend := by
        rw [thread', Function.update_self]
      refine ⟨_, rfl, rfl, alarms.startThreadTimer asleep (near positive), fun y away left => ?_⟩
      rw [waits_startThreadTimer alarms (near positive), waits y away, timers]
      simp [away]
    next => exact ⟨_, rfl, rfl, alarms, fun y away left => by rw [waits y away, timers]⟩
  have thread₁ : k₁.sched.thread = Function.update k.sched.thread x
      { k.sched.thread x with stat := .suspend, error := .eok } := by rw [same, thread']
  obtain ⟨k', done, active', scheduled⟩ := active.reschedule (x := x) (by rw [same]; exact kept)
    alarms₁ (fun y away => by rw [thread₁, Function.update_of_ne away])
    (by rw [same]; exact sched.1) (by rw [same]; exact sched.2) (.inr may)
  have old : k₀.sched.sem = k.sched.sem := by rw [← known]; rfl
  refine ⟨k', ?_, active', scheduled.thread.trans thread₁, fun y away left => ?_, ?_, ?_,
    fun t away => ?_⟩
  · rw [RtKernel.rtSemTake, empty, current]
    simp only [if_neg wait, known, timed, done, Option.map_some]
    exact if_neg (by decide)
  · rw [scheduled.timers, waits₁ y away]
  · rw [scheduled.sem, same, value]
  · rw [scheduled.sem, same, ← old]
    exact perm
  · rw [scheduled.sem, same, others t away, old]

/-! ## Releasing -/

/-- A release wakes the first thread that waits, or counts. -/
theorem Active.rtSemRelease (active : k.Active idle) (s : σ) :
    ∃ k' : RtKernel τ σ, k.rtSemRelease s = some k' ∧ k'.Active idle ∧
      ((∃ x later, (k.sched.sem s).suspendThread = x :: later ∧ Touches x k k' ∧
          (k'.sched.sem s).suspendThread = later ∧ k'.sched.thread = Function.update k.sched.thread
            x { k.sched.thread x with stat := .ready }) ∨
        ((k.sched.sem s).suspendThread = [] ∧ k' = k.setSem s
          { k.sched.sem s with value := (k.sched.sem s).value + 1 })) := by
  rw [RtKernel.rtSemRelease]
  cases waiting : (k.sched.sem s).suspendThread with
  | nil => exact ⟨_, rfl, active.setSem waiting _, .inr ⟨rfl, rfl⟩⟩
  | cons x later =>
      have member : x ∈ (k.sched.sem s).suspendThread := by simp [waiting]
      have asleep := active.sched.waiting s x member
      obtain ⟨k', done, active', touches, same⟩ := active.rtThreadResume x
      refine ⟨k', done, active', .inl ⟨x, later, rfl, touches, ?_, ?_⟩⟩
      · rw [same.sem, rtThreadResume_eq asleep]
        change (k.sched.sem s).suspendThread.filter (· ≠ x) = later
        have once := active.sched.waitsOnce s
        rw [waiting, List.nodup_cons] at once
        rw [waiting, List.filter_cons_of_neg (by simp), RtTimers.filter_absent once.1]
      · rw [same.thread, rtThreadResume_eq asleep]
        rfl

/-! ## The clock tick -/

omit [DecidableEq σ] in
/-- The time slice of the running thread may end, but no thread stops being ready. -/
theorem Active.timeSlice (active : k.Active idle) : ∃ sched : RtSched τ σ,
    k.timeSlice = some sched ∧ sched.Alive idle ∧
      (∀ y, (sched.thread y).stat = (k.sched.thread y).stat ∧
        (sched.thread y).error = (k.sched.thread y).error) ∧
      ∀ s, (sched.sem s).value = (k.sched.sem s).value ∧
        (sched.sem s).suspendThread = (k.sched.sem s).suspendThread := by
  obtain ⟨x, current, -⟩ := active.sched.current
  have same {thread : RtThread} (stat : thread.stat = (k.sched.thread x).stat)
      (error : thread.error = (k.sched.thread x).error) (y : τ) :
      ((k.sched.setThread x thread).thread y).stat = (k.sched.thread y).stat ∧
        ((k.sched.setThread x thread).thread y).error = (k.sched.thread y).error := by
    by_cases here : y = x
    · rw [here, RtSched.setThread_thread_self]
      exact ⟨stat, error⟩
    · rw [RtSched.setThread_thread_of_ne here]
      exact ⟨rfl, rfl⟩
  rw [RtKernel.timeSlice, current]
  simp only
  split
  · have alive : (k.sched.setThread x { k.sched.thread x with
        remainingTick := (k.sched.thread x).initTick }).Alive idle :=
      active.sched.setThread rfl ⟨rfl, rfl⟩ rfl
    obtain ⟨sched, done, alive', thread, -, sems⟩ := alive.rtThreadYield
    refine ⟨sched, done, alive', ?_, fun s => ⟨(sems s).1, (sems s).2.2⟩⟩
    rw [thread]
    exact same rfl rfl
  · exact ⟨_, rfl, active.sched.setThread rfl ⟨rfl, rfl⟩ rfl, same rfl rfl, fun _ => ⟨rfl, rfl⟩⟩

omit [DecidableEq σ] in
/-- The timers that run out wake their threads one after the other. -/
theorem timeouts_spec {sched : RtSched τ σ} {out : List τ} (alive : sched.Alive idle)
    (once : out.Nodup) (asleep : ∀ x ∈ out, (sched.thread x).stat = .suspend) :
    ∃ sched' : RtSched τ σ,
      out.foldlM (fun sched x => sched.rtThreadTimeout x) sched = some sched' ∧
      sched'.Alive idle ∧
      (∀ x ∈ out, (sched'.thread x).stat = .ready ∧ (sched'.thread x).error = .etimeout) ∧
      (∀ y, y ∉ out → sched'.thread y = sched.thread y) ∧
      ∀ s, (sched'.sem s).value = (sched.sem s).value ∧
        (sched'.sem s).suspendThread = (sched.sem s).suspendThread.filter (· ∉ out) := by
  induction out generalizing sched with
  | nil => exact ⟨sched, rfl, alive, by simp, fun _ _ => rfl, by simp⟩
  | cons x later ih =>
      rw [List.nodup_cons] at once
      obtain ⟨sched₁, done, alive₁, thread, -, sem⟩ :=
        alive.rtThreadTimeout (asleep x List.mem_cons_self)
      have away {y : τ} (member : y ∈ later) : y ≠ x := by
        rintro rfl
        exact once.1 member
      obtain ⟨sched', rest, alive', out', others, sems⟩ := ih alive₁ once.2 fun y member => by
        rw [thread, Function.update_of_ne (away member)]
        exact asleep y (List.mem_cons_of_mem _ member)
      refine ⟨sched', ?_, alive', fun y member => ?_, fun y absent => ?_, fun s => ?_⟩
      · rw [List.foldlM_cons, done]
        exact rest
      · rcases List.mem_cons.mp member with here | member
        · rw [here, others x once.1, thread, Function.update_self]
          exact ⟨rfl, rfl⟩
        · exact out' y member
      · rw [List.mem_cons, not_or] at absent
        rw [others y absent.2, thread, Function.update_of_ne absent.1]
      · refine ⟨(sems s).1.trans (by rw [sem]; rfl), (sems s).2.trans ?_⟩
        rw [sem]
        change ((sched.sem s).suspendThread.filter _).filter _ = _
        rw [List.filter_filter]
        refine List.filter_congr fun y _ => ?_
        rw [Bool.and_comm]
        simp

omit [DecidableEq σ] in
/-- A tick wakes the threads whose timers run out, and to all others one tick less is left. -/
theorem Active.rtTickIncrease (active : k.Active idle) : ∃ k' : RtKernel τ σ,
    k.rtTickIncrease = some k' ∧ k'.Active idle ∧
      (∀ x ∈ k.timers.due, (k'.sched.thread x).stat = .ready ∧
        (k'.sched.thread x).error = .etimeout) ∧
      (∀ y, y ∉ k.timers.due → (k'.sched.thread y).stat = (k.sched.thread y).stat ∧
        (k'.sched.thread y).error = (k.sched.thread y).error) ∧
      (∀ y left, k'.timers.Waits y left ↔ 0 < left ∧ k.timers.Waits y (left + 1)) ∧
      ∀ s, (k'.sched.sem s).value = (k.sched.sem s).value ∧
        (k'.sched.sem s).suspendThread =
          (k.sched.sem s).suspendThread.filter (· ∉ k.timers.due) := by
  obtain ⟨sched, slice, alive, same, sems⟩ := active.timeSlice
  obtain ⟨after, running, -, check, options, waits⟩ :=
    @RtTimers.Running.rtTimerCheck_tickUp τ (RtSched τ σ) _ k.timers active.alarms.timers
      (fun x sched => sched.rtThreadTimeout x) (k.timers.timerList.length + 1)
      (Nat.lt_succ_of_le (List.takeWhile_prefix _).length_le)
  have listed {x : τ} (member : x ∈ k.timers.due) : x ∈ k.timers.timerList :=
    (List.takeWhile_prefix _).subset member
  obtain ⟨sched', done, alive', woken, others, sems'⟩ := timeouts_spec alive
    (List.nodup_append.mp active.alarms.timers.nodup).1 fun x member => by
      rw [(same x).1]
      exact active.alarms.sleeping x (listed member)
  have waits' (y : τ) (left : Nat) :
      after.Waits y left ↔ 0 < left ∧ k.timers.Waits y (left + 1) := by
    rw [waits, active.alarms.oneShot]
    simp
  have stays {y : τ} (absent : y ∉ k.timers.due) :
      (sched'.thread y).stat = (k.sched.thread y).stat ∧
        (sched'.thread y).error = (k.sched.thread y).error := by
    rw [others y absent]
    exact same y
  refine ⟨⟨sched', after⟩, ?_, ⟨alive', running, fun x member => ?_, fun x => ?_⟩, woken,
    fun y => stays, waits', fun s => ⟨?_, ?_⟩⟩
  · rw [RtKernel.rtTickIncrease, slice, Option.bind_some, check, done]
    rfl
  · obtain ⟨more, before⟩ := (waits' x _).mp (RtTimers.waits_iff.mpr ⟨member, rfl⟩)
    have absent : x ∉ k.timers.due := by
      intro due
      obtain ⟨left, soon, waits⟩ := active.alarms.timers.mem_due.mp due
      have := active.alarms.timers.ordered.unique before waits
      omega
    change (sched'.thread x).stat = .suspend
    rw [(stays absent).1]
    exact active.alarms.sleeping x (RtTimers.waits_iff.mp before).1
  · exact (options x).1.trans (active.alarms.oneShot x)
  · exact (sems' s).1.trans (sems s).1
  · rw [← (sems s).2]
    exact (sems' s).2

end RtKernel

end LedFirmware
