import LedFirmware.RtKernelRun
import Mathlib.Data.Nat.ModEq

/-!
# Waiting for time and for semaphores

A thread that sleeps is ready again with the tick that ends its time, whatever the other
threads do.  A semaphore lets just as many threads through as it counts and is released for.
-/

namespace LedFirmware

namespace RtKernel

variable {τ σ : Type} [DecidableEq τ] [DecidableEq σ] {k : RtKernel τ σ} {idle x y : τ}
  {event : KernelEvent τ σ} {s : σ} {left : Nat}

/-! ## Sleeping -/

/-- The thread sleeps for so many ticks, and for nothing else. -/
structure Asleep (x : τ) (left : Nat) (k : RtKernel τ σ) : Prop where
  stat : (k.sched.thread x).stat = .suspend
  waits : ∀ other, k.timers.Waits x other ↔ other = left
  free : ∀ s, x ∉ (k.sched.sem s).suspendThread

/-- A call that is not made on a sleeping thread leaves it asleep. -/
theorem Asleep.call (asleep : Asleep x left k) (active : k.Active idle) {k' : RtKernel τ σ}
    (effect : Effect k event k') (away : ¬ event.On x) : Asleep x left k' := by
  have other {y : τ} (current : k.sched.currentThread = some y) : x ≠ y := by
    rintro rfl
    obtain ⟨z, now, ready⟩ := active.sched.current
    rw [Option.some.inj (now.symm.trans current), asleep.stat] at ready
    cases ready
  have touched {y : τ} (touches : Touches y k k') (apart : x ≠ y) : Asleep x left k' := by
    refine ⟨by rw [touches.thread x apart, asleep.stat],
      fun other => by rw [touches.waits x apart, asleep.waits], fun s member => ?_⟩
    rcases touches.suspendThread s with list | list
    · exact asleep.free s (list ▸ member)
    · rw [list] at member
      exact asleep.free s (List.mem_of_mem_filter member)
  have counts {s : σ} {value : BitVec 16} :
      Asleep x left (k.setSem s { k.sched.sem s with value := value }) := by
    refine ⟨asleep.stat, asleep.waits, fun t member => ?_⟩
    by_cases here : t = s
    · rw [here, setSem_self] at member
      exact asleep.free s member
    · rw [setSem_of_ne here] at member
      exact asleep.free t member
  rcases effect with ⟨y, touches, own | on⟩ | ⟨s, time, which, -, -, -, rfl⟩ |
    ⟨s, time, which, -, rfl⟩ | ⟨s, time, y, which, -, current, thread, waits, -, list, others⟩ |
    ⟨s, y, later, which, first, touches⟩ | ⟨s, which, -, rfl⟩
  · exact touched touches (other own)
  · refine touched touches ?_
    rintro rfl
    exact away on
  · exact counts
  · exact asleep
  · have apart := other current
    refine ⟨by rw [thread, Function.update_of_ne apart, asleep.stat],
      fun other => by rw [waits x apart, asleep.waits], fun t member => ?_⟩
    by_cases here : t = s
    · rw [here, list.mem_iff, List.mem_cons] at member
      exact member.elim apart (asleep.free s)
    · rw [others t here] at member
      exact asleep.free t member
  · refine touched touches ?_
    rintro rfl
    exact asleep.free s (by rw [first]; exact List.mem_cons_self)
  · exact counts

/-- A tick takes one from the time, or ends it. -/
theorem Asleep.tick (asleep : Asleep x left k) (active : k.Active idle) :
    ∃ k' : RtKernel τ σ, k.step .tick = some k' ∧ k'.Active idle ∧
      (1 < left → Asleep x (left - 1) k') ∧
      (left ≤ 1 → (k'.sched.thread x).stat = .ready ∧ (k'.sched.thread x).error = .etimeout) := by
  obtain ⟨k', done, active', woken, others, waits, sems⟩ := active.rtTickIncrease
  have due : x ∈ k.timers.due ↔ left ≤ 1 := by
    rw [active.alarms.timers.mem_due]
    simp [asleep.waits]
  refine ⟨k', done, active', fun more => ?_, fun last => woken x (due.mpr last)⟩
  refine ⟨?_, fun other => ?_, fun s member => ?_⟩
  · rw [(others x (fun no => by have := due.mp no; omega)).1, asleep.stat]
  · rw [waits, asleep.waits]
    omega
  · rw [(sems s).2] at member
    exact asleep.free s (List.mem_of_mem_filter member)

/-- A run in which nobody wakes or closes a sleeping thread. -/
theorem Asleep.run {events : List (KernelEvent τ σ)} (asleep : Asleep x left k)
    (active : k.Active idle) (allowed : k.Along (Allowed idle) events)
    (away : ∀ event ∈ events, ¬ event.On x) (short : events.count .tick < max left 1) :
    ∃ k' : RtKernel τ σ, k.run events = some k' ∧ k'.Active idle ∧
      Asleep x (left - events.count .tick) k' := by
  induction events generalizing k left with
  | nil => exact ⟨k, rfl, active, asleep⟩
  | cons event events ih =>
      have awayRest : ∀ event ∈ events, ¬ event.On x :=
        fun event member => away event (List.mem_cons_of_mem _ member)
      by_cases tick : event = .tick
      · subst tick
        rw [List.count_cons_self] at short ⊢
        obtain ⟨k₁, done, active₁, asleep₁, -⟩ := asleep.tick active
        obtain ⟨k', rest, active', asleep'⟩ := ih (asleep₁ (by omega)) active₁
          (allowed.2 k₁ (by rw [done]; rfl)) awayRest (by omega)
        refine ⟨k', ?_, active', ?_⟩
        · rw [RtKernel.run, List.foldlM_cons, done]
          exact rest
        · rwa [Nat.sub_sub, Nat.add_comm 1] at asleep'
      · rw [List.count_cons_of_ne tick] at short ⊢
        obtain ⟨k₁, done, active₁, effect⟩ := active.call allowed.1 tick
        obtain ⟨k', rest, active', asleep'⟩ :=
          ih (asleep.call active effect (away event List.mem_cons_self)) active₁
            (allowed.2 k₁ (by rw [done]; rfl)) awayRest short
        refine ⟨k', ?_, active', asleep'⟩
        rw [RtKernel.run, List.foldlM_cons, done]
        exact rest

/-- **A thread sleeps as long as it asked to.**  Through every run of the others in which
nobody wakes or closes it, it stays asleep until the last of its ticks, and that one makes
it ready; a sleep of no ticks takes one. -/
theorem sleep_exact (k : RtKernel τ σ) (idle x : τ) (active : k.Active idle)
    (current : k.sched.currentThread = some x) (tick : RtTick)
    (allowed : k.Allowed idle (.sleep tick)) :
    ∃ k₁ : RtKernel τ σ, k.step (.sleep tick) = some k₁ ∧ ∀ events,
      k₁.Along (Allowed idle) events → (∀ event ∈ events, ¬ event.On x) →
      events.count .tick < max tick.toNat 1 →
      ∃ k' : RtKernel τ σ, k₁.run events = some k' ∧ (k'.sched.thread x).stat = .suspend ∧
        (events.count .tick + 1 = max tick.toNat 1 → ∃ k'' : RtKernel τ σ,
          k'.step .tick = some k'' ∧ (k''.sched.thread x).stat = .ready ∧
            (k''.sched.thread x).error = .etimeout) := by
  obtain ⟨k₁, done, active₁, -, thread, waits, free⟩ :=
    active.rtThreadSleep current (allowed.2 x current) allowed.1
  have asleep : Asleep x tick.toNat k₁ := by
    refine ⟨?_, waits, free⟩
    rw [thread, Function.update_self]
  refine ⟨k₁, done, fun events along away short => ?_⟩
  obtain ⟨k', run, active', asleep'⟩ := asleep.run active₁ along away short
  refine ⟨k', run, asleep'.stat, fun last => ?_⟩
  obtain ⟨k'', ticked, -, -, woken⟩ := asleep'.tick active'
  exact ⟨k'', ticked, woken (by omega)⟩

theorem sleep_exact_sample : ∃ k k₁ k' k'' : RtKernel Bool Unit,
    boot (rtSystemSchedulerInit sampleThread sampleSem 0 sampleTimer) [false, true] = some k ∧
      k.step (.sleep 2) = some k₁ ∧ k₁.run [.tick] = some k' ∧
      (k'.sched.thread true).stat = .suspend ∧ k'.step .tick = some k'' ∧
      (k''.sched.thread true).stat = .ready ∧ (k''.sched.thread true).error = .etimeout := by
  obtain ⟨k, done, active, current, may⟩ := sample_boot
  obtain ⟨k₁, sleeps, exact'⟩ := sleep_exact k false true active current 2 ⟨by decide, may⟩
  obtain ⟨k', run, asleep, wakes⟩ := exact' [.tick] ⟨trivial, fun _ _ => trivial⟩
    (by simp [KernelEvent.On]) (by decide)
  obtain ⟨k'', ticked, ready, error⟩ := wakes (by decide)
  exact ⟨k, k₁, k', k'', done, sleeps, run, asleep, ticked, ready, error⟩

/-! ## Permits -/

/-- How many threads a step lets through a semaphore: the one that takes it at once, and those
that wait for it and are ready behind the step with nothing to report. -/
def acquired (s : σ) (k : RtKernel τ σ) (event : KernelEvent τ σ) (k' : RtKernel τ σ) : Nat :=
  (match event with
    | .semTake t time =>
        if t = s ∧ (k.rtSemTake t time).map Prod.fst = some (.returns .eok) then 1 else 0
    | _ => 0) +
  (k.sched.sem s).suspendThread.countP fun x =>
    (k'.sched.thread x).stat = .ready ∧ (k'.sched.thread x).error = .eok

/-- The same for a run. -/
def acquiredIn (s : σ) (k : RtKernel τ σ) : List (KernelEvent τ σ) → Nat
  | [] => 0
  | event :: events =>
      match k.step event with
      | some k' => acquired s k event k' + acquiredIn s k' events
      | none => 0

/-- Those that wait for a semaphore have nothing to report yet. -/
def Calm (s : σ) (k : RtKernel τ σ) : Prop :=
  ∀ x ∈ (k.sched.sem s).suspendThread, (k.sched.thread x).error = .eok

/-- Nobody is woken by `rt_thread_resume` while it waits for the semaphore. -/
def Unforced (s : σ) (k : RtKernel τ σ) (event : KernelEvent τ σ) : Prop :=
  ∀ x, event = .resume x → x ∉ (k.sched.sem s).suspendThread

/-- The value of a semaphore pays for the threads that pass; it counts modulo its width. -/
def Pays (s : σ) (k k' : RtKernel τ σ) (passed released : Nat) : Prop :=
  (k'.sched.sem s).value.toNat + passed ≤ (k.sched.sem s).value.toNat + released ∧
    (k'.sched.sem s).value.toNat + passed ≡ (k.sched.sem s).value.toNat + released [MOD 2 ^ 16]

omit [DecidableEq τ] [DecidableEq σ] in
theorem Pays.trans {k₁ k₂ : RtKernel τ σ} {passed released passed' released' : Nat}
    (first : Pays s k k₁ passed released) (second : Pays s k₁ k₂ passed' released') :
    Pays s k k₂ (passed + passed') (released + released') := by
  obtain ⟨low, congruent⟩ := first
  obtain ⟨low', congruent'⟩ := second
  refine ⟨by omega, ?_⟩
  have left := congruent'.add_right passed
  have right := congruent.add_right released'
  calc (k₂.sched.sem s).value.toNat + (passed + passed')
      = (k₂.sched.sem s).value.toNat + passed' + passed := by omega
    _ ≡ (k₁.sched.sem s).value.toNat + released' + passed [MOD 2 ^ 16] := left
    _ = (k₁.sched.sem s).value.toNat + passed + released' := by omega
    _ ≡ (k.sched.sem s).value.toNat + released + released' [MOD 2 ^ 16] := right
    _ = (k.sched.sem s).value.toNat + (released + released') := by omega

omit [DecidableEq τ] [DecidableEq σ] in
/-- Nobody passes while all that wait sleep on or time out. -/
theorem countP_woken_eq_zero {k' : RtKernel τ σ}
    (none : ∀ x ∈ (k.sched.sem s).suspendThread, (k'.sched.thread x).stat ≠ .ready ∨
      (k'.sched.thread x).error ≠ .eok) :
    (k.sched.sem s).suspendThread.countP (fun x =>
      (k'.sched.thread x).stat = .ready ∧ (k'.sched.thread x).error = .eok) = 0 := by
  refine List.countP_eq_zero.mpr fun x member => ?_
  rw [decide_eq_true_eq, not_and_or]
  exact none x member

/-- A tick lets nobody pass. -/
theorem Active.tick_pays (active : k.Active idle) (calm : Calm s k) :
    ∃ k' : RtKernel τ σ, k.step .tick = some k' ∧ k'.Active idle ∧ Calm s k' ∧
      Pays s k k' (acquired s k .tick k') 0 := by
  obtain ⟨k', done, active', woken, others, -, sems⟩ := active.rtTickIncrease
  have passed : acquired s k .tick k' = 0 := by
    refine (Nat.zero_add _).trans (countP_woken_eq_zero fun x member => ?_)
    by_cases due : x ∈ k.timers.due
    · rw [(woken x due).2]
      exact .inr (by simp)
    · rw [(others x due).1, active.sched.waiting s x member]
      exact .inl (by simp)
  refine ⟨k', done, active', fun x member => ?_, ?_⟩
  · rw [(sems s).2, List.mem_filter, decide_eq_true_eq] at member
    rw [(others x member.2).2]
    exact calm x member.1
  · rw [passed, Pays, (sems s).1]
    exact ⟨le_refl _, rfl⟩

/-- How many releases a step is. -/
def released (s : σ) (event : KernelEvent τ σ) : Nat := if event = .semRelease s then 1 else 0

theorem acquired_eq {k' : RtKernel τ σ} (noTake : ∀ t time, event ≠ .semTake t time) :
    acquired s k event k' = (k.sched.sem s).suspendThread.countP (fun x =>
      (k'.sched.thread x).stat = .ready ∧ (k'.sched.thread x).error = .eok) := by
  cases event with
  | semTake t time => exact absurd rfl (noTake t time)
  | _ => exact Nat.zero_add _

omit [DecidableEq τ] [DecidableEq σ] in
theorem Pays.nothing {k' : RtKernel τ σ}
    (value : (k'.sched.sem s).value = (k.sched.sem s).value) : Pays s k k' 0 0 := by
  rw [Pays, value]
  exact ⟨le_refl _, rfl⟩

omit [DecidableEq σ] in
/-- A thread that waits and is not touched waits on. -/
theorem Active.still (active : k.Active idle) {k' : RtKernel τ σ} (touches : Touches x k k')
    (member : y ∈ (k.sched.sem s).suspendThread) (away : y ≠ x) :
    (k'.sched.thread y).stat ≠ .ready := by
  rw [touches.thread y away, active.sched.waiting s y member]
  simp

/-- A release lets the first thread that waits pass, or counts. -/
theorem woken_pays {k' : RtKernel τ σ} {t : σ} {later : List τ} (active : k.Active idle)
    (calm : Calm s k) (first : (k.sched.sem t).suspendThread = x :: later)
    (touches : Touches x k k') (thread : k'.sched.thread = Function.update k.sched.thread x
      { k.sched.thread x with stat := .ready }) :
    Calm s k' ∧ Pays s k k' (acquired s k (.semRelease t) k')
      (released s (.semRelease t : KernelEvent τ σ)) := by
  have head : x ∈ (k.sched.sem t).suspendThread := by rw [first]; exact List.mem_cons_self
  have error (y : τ) : (k'.sched.thread y).error = (k.sched.thread y).error := by
    rw [thread]
    by_cases here : y = x
    · rw [here, Function.update_self]
    · rw [Function.update_of_ne here]
  have old {y : τ} (member : y ∈ (k'.sched.sem s).suspendThread) :
      y ∈ (k.sched.sem s).suspendThread := by
    rcases touches.suspendThread s with same | same
    · exact same ▸ member
    · rw [same] at member
      exact List.mem_of_mem_filter member
  refine ⟨fun y member => by rw [error, calm y (old member)], ?_⟩
  rw [acquired_eq (by simp)]
  by_cases here : t = s
  · subst here
    have once := active.sched.waitsOnce t
    rw [first, List.nodup_cons] at once
    have passed : (k.sched.sem t).suspendThread.countP (fun x =>
        (k'.sched.thread x).stat = .ready ∧ (k'.sched.thread x).error = .eok) = 1 := by
      have ready : (k'.sched.thread x).stat = .ready := by rw [thread, Function.update_self]
      have rest : later.countP (fun x =>
          (k'.sched.thread x).stat = .ready ∧ (k'.sched.thread x).error = .eok) = 0 := by
        refine List.countP_eq_zero.mpr fun y member => ?_
        have apart : y ≠ x := by
          rintro rfl
          exact once.1 member
        have waits : y ∈ (k.sched.sem t).suspendThread := by
          rw [first]
          exact List.mem_cons_of_mem _ member
        simp [active.still touches waits apart]
      rw [first, List.countP_cons_of_pos, rest]
      simp [ready, error, calm x head]
    rw [passed, released, if_pos rfl, Pays, touches.value]
    exact ⟨le_refl _, rfl⟩
  · rw [countP_woken_eq_zero fun y member => .inl (active.still touches member ?_), released,
      if_neg (by simpa using here)]
    · exact Pays.nothing (touches.value s)
    · rintro rfl
      exact here (active.sched.apart t s y head member)

omit [DecidableEq τ] in
/-- A semaphore that changes its value leaves those that wait for others alone. -/
theorem calm_setSem {t : σ} {value : BitVec 16} (calm : Calm s k) :
    Calm s (k.setSem t { k.sched.sem t with value := value }) := by
  intro y member
  by_cases here : s = t
  · rw [here, setSem_self] at member
    exact calm y (here ▸ member)
  · rw [setSem_of_ne here] at member
    exact calm y member

/-- A call lets a thread pass for one of the value or for its own release. -/
theorem Effect.pays {k' : RtKernel τ σ} (effect : Effect k event k') (active : k.Active idle)
    (calm : Calm s k) (unforced : Unforced s k event) :
    Calm s k' ∧ Pays s k k' (acquired s k event k') (released s event) := by
  have none : (k.sched.sem s).suspendThread.countP (fun x =>
      (k.sched.thread x).stat = .ready ∧ (k.sched.thread x).error = .eok) = 0 :=
    countP_woken_eq_zero fun x member => .inl (by rw [active.sched.waiting s x member]; simp)
  rcases effect with ⟨x, touches, own, asleep, stays, noTake, noRelease⟩ |
    ⟨t, time, rfl, ⟨k₁, returns⟩, alone, value, rfl⟩ | ⟨t, time, rfl, ⟨k₁, returns⟩, rfl⟩ |
    ⟨t, time, x, rfl, ⟨k₁, returns⟩, current, thread, -, value, list, others⟩ |
    ⟨t, x, later, rfl, first, touches, list, thread⟩ | ⟨t, rfl, alone, rfl⟩
  case call =>
    have passed : acquired s k event k' = 0 := by
      rw [acquired_eq noTake]
      refine countP_woken_eq_zero fun y member => .inl ?_
      by_cases here : y = x
      · subst here
        exact asleep (fun event => unforced y event member) (active.sched.waiting s y member)
      · exact active.still touches member here
    rw [passed, released, if_neg (noRelease s)]
    refine ⟨fun y member => ?_, Pays.nothing (touches.value s)⟩
    have old : y ∈ (k.sched.sem s).suspendThread := by
      rcases touches.suspendThread s with same | same
      · exact same ▸ member
      · rw [same] at member
        exact List.mem_of_mem_filter member
    by_cases here : y = x
    · subst here
      rw [stays s member, calm y old]
    · rw [touches.thread y here, calm y old]
  case taken =>
    refine ⟨calm_setSem calm, ?_⟩
    rw [released, if_neg (by simp), acquired, returns]
    by_cases here : t = s
    · subst here
      simp only [alone, List.countP_nil, Option.map_some, and_self, if_true, Pays, setSem_self]
      have counts : ((k.sched.sem t).value - 1).toNat + 1 = (k.sched.sem t).value.toNat := by
        bv_omega
      rw [Nat.add_zero, counts]
      exact ⟨le_refl _, rfl⟩
    · simp only [here, false_and, if_false, Nat.zero_add]
      change Pays s k _ ((k.sched.sem s).suspendThread.countP (fun x =>
        (k.sched.thread x).stat = .ready ∧ (k.sched.thread x).error = .eok)) 0
      rw [none]
      exact Pays.nothing (by rw [setSem_of_ne (Ne.symm here)])
  case refused =>
    refine ⟨calm, ?_⟩
    rw [released, if_neg (by simp), acquired, returns, none]
    simpa using Pays.nothing rfl
  case blocked =>
    have awake : ∀ y ∈ (k.sched.sem s).suspendThread, y ≠ x := by
      rintro y member rfl
      obtain ⟨z, now, ready⟩ := active.sched.current
      rw [Option.some.inj (now.symm.trans current), active.sched.waiting s y member] at ready
      cases ready
    have passed : (k.sched.sem s).suspendThread.countP (fun x =>
        (k'.sched.thread x).stat = .ready ∧ (k'.sched.thread x).error = .eok) = 0 := by
      refine countP_woken_eq_zero fun y member => .inl ?_
      rw [thread, Function.update_of_ne (awake y member), active.sched.waiting s y member]
      simp
    have same : (k'.sched.sem s).value = (k.sched.sem s).value := by
      by_cases here : s = t
      · rw [here, value.1, value.2]
      · rw [others s here]
    refine ⟨fun y member => ?_, ?_⟩
    · rw [thread]
      by_cases here : y = x
      · rw [here, Function.update_self]
      · rw [Function.update_of_ne here]
        refine calm y ?_
        by_cases this' : s = t
        · subst this'
          exact (List.mem_cons.mp (list.mem_iff.mp member)).resolve_left here
        · exact others s this' ▸ member
    · rw [released, if_neg (by simp), acquired, returns, passed]
      simpa using Pays.nothing same
  case woken => exact woken_pays active calm first touches thread
  case counted =>
    refine ⟨calm_setSem calm, ?_⟩
    rw [acquired_eq (by simp)]
    by_cases here : t = s
    · subst here
      simp only [alone, List.countP_nil, released, if_true, Pays, setSem_self, Nat.add_zero]
      rw [BitVec.toNat_add]
      exact ⟨Nat.mod_le _ _, Nat.mod_modEq _ _⟩
    · rw [released, if_neg (by simpa using here)]
      change Pays s k _ ((k.sched.sem s).suspendThread.countP (fun x =>
        (k.sched.thread x).stat = .ready ∧ (k.sched.thread x).error = .eok)) 0
      rw [none]
      exact Pays.nothing (by rw [setSem_of_ne (Ne.symm here)])

/-- **A semaphore lets no more threads through than it may.**  In every run in which nobody
else wakes a thread that waits for it, the threads that passed and the value are paid for by
the first value and the releases; releases are lost only where the value wraps, and nobody
waits while there is something to take. -/
theorem semaphore_counts (k : RtKernel τ σ) (idle : τ) (active : k.Active idle) (s : σ)
    (calm : Calm s k) (events : List (KernelEvent τ σ))
    (along : k.Along (fun k event => k.Allowed idle event ∧ k.Unforced s event) events) :
    ∃ k' : RtKernel τ σ, k.run events = some k' ∧
      (k'.sched.sem s).value.toNat + acquiredIn s k events ≤
        (k.sched.sem s).value.toNat + events.count (.semRelease s) ∧
      (k'.sched.sem s).value.toNat + acquiredIn s k events ≡
        (k.sched.sem s).value.toNat + events.count (.semRelease s) [MOD 2 ^ 16] ∧
      ((k'.sched.sem s).value ≠ 0 → (k'.sched.sem s).suspendThread = []) := by
  suffices pays : ∃ k' : RtKernel τ σ, k.run events = some k' ∧ k'.Active idle ∧
      Pays s k k' (acquiredIn s k events) (events.count (.semRelease s)) by
    obtain ⟨k', run, active', low, congruent⟩ := pays
    exact ⟨k', run, low, congruent, active'.sched.empty s⟩
  induction events generalizing k with
  | nil => exact ⟨k, rfl, active, Pays.nothing rfl⟩
  | cons event events ih =>
      obtain ⟨k₁, done, active₁, calm₁, pays₁⟩ : ∃ k₁ : RtKernel τ σ, k.step event = some k₁ ∧
          k₁.Active idle ∧ Calm s k₁ ∧
          Pays s k k₁ (acquired s k event k₁) (released s event) := by
        by_cases tick : event = .tick
        · subst tick
          exact active.tick_pays calm
        · obtain ⟨k₁, done, active₁, effect⟩ := active.call along.1.1 tick
          exact ⟨k₁, done, active₁, effect.pays active calm along.1.2⟩
      obtain ⟨k', rest, active', pays'⟩ := ih k₁ active₁ calm₁ (along.2 k₁ (by rw [done]; rfl))
      refine ⟨k', ?_, active', ?_⟩
      · rw [RtKernel.run, List.foldlM_cons, done]
        exact rest
      · have count : (event :: events).count (.semRelease s) =
            released s event + events.count (.semRelease s) := by
          rw [List.count_cons, released, Nat.add_comm]
          simp
        rw [acquiredIn, done, count]
        exact pays₁.trans pays'

/-- The thread takes the only unit, waits for another one and is let through by the release. -/
def waitingEvents : List (KernelEvent Bool Unit) :=
  [.semTake () 0, .semTake () 0xFFFFFFFF, .semRelease (), .tick]

/-- Behind the first call the same thread runs, and may wait. -/
theorem taken_mayBlock {k k₁ : RtKernel Bool Unit} (done : boot
      (rtSystemSchedulerInit sampleThread sampleSem 0 sampleTimer) [false, true] = some k)
    (taken : k.step (.semTake () 0) = some k₁) : k₁.MayBlock false := by
  have known : (boot (rtSystemSchedulerInit sampleThread sampleSem 0 sampleTimer)
      [false, true] >>= fun k => k.step (.semTake () 0)).map
        (fun k => (k.sched.currentThread, k.sched.lockNest)) = some (some true, 0) := by
    decide +kernel
  rw [done, Option.bind_eq_bind, Option.bind_some, taken, Option.map_some, Option.some.injEq,
    Prod.mk.injEq] at known
  intro x current
  rw [known.1, Option.some.injEq] at current
  exact ⟨by simp [← current], .inl known.2⟩

theorem semaphore_counts_sample : ∃ k k' : RtKernel Bool Unit,
    boot (rtSystemSchedulerInit sampleThread sampleSem 0 sampleTimer) [false, true] = some k ∧
      k.run waitingEvents = some k' ∧ acquiredIn () k waitingEvents = 2 ∧
      (k'.sched.sem ()).value.toNat + acquiredIn () k waitingEvents ≤
        (k.sched.sem ()).value.toNat + 1 := by
  obtain ⟨k, done, active, -, -⟩ := sample_boot
  have known : (boot (rtSystemSchedulerInit sampleThread sampleSem 0 sampleTimer)
      [false, true]).map (fun k =>
        ((k.sched.sem ()).suspendThread, acquiredIn () k waitingEvents)) = some ([], 2) := by
    decide +kernel
  rw [done, Option.map_some, Option.some.injEq, Prod.mk.injEq] at known
  have calm : Calm () k := by simp [Calm, known.1]
  have along : k.Along (fun k event => k.Allowed false event ∧ k.Unforced () event)
      waitingEvents :=
    ⟨⟨⟨by decide, fun _ no => absurd rfl no⟩, by simp [Unforced]⟩, fun k₁ taken =>
      ⟨⟨⟨by decide, fun _ _ => taken_mayBlock done taken⟩, by simp [Unforced]⟩, fun _ _ =>
        ⟨⟨trivial, by simp [Unforced]⟩, fun _ _ => ⟨⟨trivial, by simp [Unforced]⟩,
          fun _ _ => trivial⟩⟩⟩⟩
  obtain ⟨k', run, low, -⟩ := semaphore_counts k false active () calm waitingEvents along
  exact ⟨k, k', done, run, known.2, low⟩

end RtKernel

end LedFirmware
