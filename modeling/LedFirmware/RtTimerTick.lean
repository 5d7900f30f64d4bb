import LedFirmware.RtTimer

/-!
# The timers over time

`rt_tick_increase` counts a tick and calls `rt_timer_check`.  Between the ticks timers are
started, stopped, detached and controlled.  Whatever is done to the others, and however
often the counter wraps, a timer that is started and then left alone runs out on time.
-/

namespace LedFirmware

/-- The times that `rt_timer_start` asserts, and that a periodic timer needs. -/
structure RtTimer.Timed (timer : RtTimer) : Prop where
  near : timer.initTick.toNat < RtTimers.horizon
  positive : timer.periodic = true → 0 < timer.initTick.toNat

namespace RtTimers

variable {κ σ : Type} [DecidableEq κ] {timers : RtTimers κ} {key other : κ} {left : Nat}

/-- `++ rt_tick`. -/
def tickUp (timers : RtTimers κ) : RtTimers κ := { timers with tick := timers.tick + 1 }

omit [DecidableEq κ] in
@[simp] theorem tickUp_timer : timers.tickUp.timer = timers.timer := rfl

/-- The list is sound and all times are good. -/
structure Running (timers : RtTimers κ) : Prop extends Sound timers where
  timed : ∀ key, (timers.timer key).Timed

/-- So many ticks are left until the timer is taken. -/
def Waits (timers : RtTimers κ) (key : κ) (left : Nat) : Prop :=
  DelayQueue.Waits timers.queue key left

omit [DecidableEq κ] in
theorem waits_iff : timers.Waits key left ↔ key ∈ timers.timerList ∧ left = timers.left key :=
  mem_queue

/-! ## What each operation does to the waits -/

theorem waits_remove : (timers.remove key).Waits other left ↔
    timers.Waits other left ∧ other ≠ key := by
  rw [Waits, remove_queue, DelayQueue.waits_cancel, Waits]

theorem waits_set {timer : RtTimer} (absent : key ∉ timers.timerList) :
    (timers.set key timer).Waits other left ↔ timers.Waits other left := by
  rw [Waits, queue_set absent, Waits]

theorem not_mem_remove : key ∉ (timers.remove key).timerList := by
  simp [remove_timerList]

theorem Sound.waits_rtTimerStart (sound : timers.Sound)
    (near : (timers.timer key).initTick.toNat < horizon) :
    (timers.rtTimerStart key).Waits other left ↔
      (other = key ∧ left = (timers.timer key).initTick.toNat) ∨
        (timers.Waits other left ∧ other ≠ key) := by
  rw [Waits, sound.queue_rtTimerStart near, DelayQueue.waits_add, DelayQueue.waits_cancel, Waits]

theorem waits_rtTimerStop : (timers.rtTimerStop key).2.Waits other left ↔
    timers.Waits other left ∧ ((timers.timer key).activated = true → other ≠ key) := by
  rw [rtTimerStop]
  split
  next active => rw [deactivate, waits_set not_mem_remove, waits_remove]; simp [active]
  next idle => simp [idle]

/-- Behind its callback a periodic timer waits for its period, and no other wait changes. -/
theorem Sound.waits_finish (sound : timers.Sound) (absent : key ∉ timers.timerList)
    (timed : (timers.timer key).Timed) : (timers.finish key).Waits other left ↔
      timers.Waits other left ∨ (other = key ∧ (timers.timer key).periodic = true ∧
        (timers.timer key).activated = true ∧ left = (timers.timer key).initTick.toNat) := by
  have away : timers.Waits other left → other ≠ key := by
    rintro waits rfl
    exact absent (waits_iff.mp waits).1
  rw [RtTimers.finish]
  split
  next again =>
    have stopped : (timers.deactivate key).Sound := sound.set absent _
    rw [stopped.waits_rtTimerStart, deactivate_timer_self, deactivate, waits_set absent]
    · constructor
      · rintro (⟨same, period⟩ | ⟨waits, -⟩)
        · exact .inr ⟨same, again.1, again.2, period⟩
        · exact .inl waits
      · rintro (waits | ⟨same, -, -, period⟩)
        · exact .inr ⟨waits, away waits⟩
        · exact .inl ⟨same, period⟩
    · rw [deactivate_timer_self]
      exact timed.near
  next once =>
    rw [deactivate, waits_set absent]
    constructor
    · exact .inl
    · rintro (waits | ⟨-, periodic, active, -⟩)
      · exact waits
      · exact absurd ⟨periodic, active⟩ once

/-! ## Times stay good -/

theorem Running.set (running : timers.Running) (absent : key ∉ timers.timerList) {timer : RtTimer}
    (timed : timer.Timed) : (timers.set key timer).Running where
  toSound := running.toSound.set absent timer
  timed := fun other => by
    by_cases here : other = key
    · rw [here, set_timer_self]
      exact timed
    · rw [set_timer_of_ne _ _ _ here]
      exact running.timed other

theorem Running.remove (running : timers.Running) (key : κ) : (timers.remove key).Running where
  toSound := running.toSound.remove key
  timed := running.timed

theorem Running.deactivate (running : timers.Running) (absent : key ∉ timers.timerList) :
    (timers.deactivate key).Running :=
  running.set absent ⟨(running.timed key).near, (running.timed key).positive⟩

theorem Running.rtTimerStart (running : timers.Running) (key : κ) :
    (timers.rtTimerStart key).Running where
  toSound := running.toSound.rtTimerStart key (running.timed key).near
  timed := fun other => by
    by_cases here : other = key
    · rw [here, rtTimerStart_timer_self]
      exact ⟨(running.timed key).near, (running.timed key).positive⟩
    · rw [rtTimerStart_timer_of_ne _ _ here]
      exact running.timed other

theorem Running.rtTimerStop (running : timers.Running) (key : κ) :
    (timers.rtTimerStop key).2.Running := by
  rw [RtTimers.rtTimerStop]
  split
  · exact (running.remove key).deactivate not_mem_remove
  · exact running

theorem Running.finish (running : timers.Running) (absent : key ∉ timers.timerList) :
    (timers.finish key).Running := by
  rw [RtTimers.finish]
  split
  · exact (running.deactivate absent).rtTimerStart key
  · exact running.deactivate absent

theorem finish_options :
    ((timers.finish key).timer other).periodic = (timers.timer other).periodic ∧
    ((timers.finish key).timer other).initTick = (timers.timer other).initTick := by
  by_cases here : other = key
  · rw [here, RtTimers.finish]
    split <;> simp [rtTimerStart_timer]
  · rw [finish_timer_of_ne here]
    exact ⟨rfl, rfl⟩

/-! ## A tick -/

/-- The timers that the next tick takes. -/
def due (timers : RtTimers κ) : List κ := timers.timerList.takeWhile fun key => timers.left key ≤ 1

/-- The timers that wait on. -/
def later (timers : RtTimers κ) : List κ :=
  timers.timerList.dropWhile fun key => timers.left key ≤ 1

omit [DecidableEq κ] in
theorem due_append_later : timers.due ++ timers.later = timers.timerList :=
  List.takeWhile_append_dropWhile

omit [DecidableEq κ] in
theorem due_eq : timers.due = DelayQueue.due timers.queue := by
  rw [due, DelayQueue.due, queue, List.takeWhile_map, List.map_map]
  exact (List.map_id _).symm

omit [DecidableEq κ] in
theorem Sound.nodup (sound : timers.Sound) : (timers.due ++ timers.later).Nodup := by
  have once := sound.ordered.once
  rw [queue, List.map_map] at once
  rw [due_append_later]
  exact (List.map_id timers.timerList) ▸ once

omit [DecidableEq κ] in
theorem Sound.mem_due (sound : timers.Sound) :
    key ∈ timers.due ↔ ∃ left ≤ 1, timers.Waits key left := by
  rw [due_eq]
  exact DelayQueue.mem_due sound.ordered

omit [DecidableEq κ] in
theorem Sound.left_of_due (sound : timers.Sound) (member : key ∈ timers.due) :
    timers.left key ≤ 1 := by
  obtain ⟨left, soon, waits⟩ := sound.mem_due.mp member
  rwa [← (waits_iff.mp waits).2]

omit [DecidableEq κ] in
theorem Sound.left_of_later (sound : timers.Sound) (member : key ∈ timers.later) :
    1 < timers.left key := by
  have entry : (key, timers.left key) ∈ timers.queue.dropWhile fun entry => entry.2 ≤ 1 := by
    rw [queue, List.dropWhile_map]
    exact List.mem_map_of_mem member
  rw [DelayQueue.dropWhile_due sound.ordered.sorted] at entry
  simpa using List.of_mem_filter entry

omit [DecidableEq κ] in
theorem Sound.left_tickUp (sound : timers.Sound) (member : key ∈ timers.later) :
    timers.tickUp.left key = timers.left key - 1 :=
  left_tick (sound.left_of_later member)

omit [DecidableEq κ] in
theorem Sound.queue_tickUp (sound : timers.Sound) :
    (timers.tickUp.withList timers.later).queue = DelayQueue.advance timers.queue := by
  rw [DelayQueue.advance, queue, queue, List.dropWhile_map, List.map_map]
  exact List.map_congr_left fun key member => congrArg _ (sound.left_tickUp member)

omit [DecidableEq κ] in
theorem Running.tickUp (running : timers.Running) :
    (timers.tickUp.withList timers.later).Running where
  ordered := by
    rw [running.queue_tickUp]
    exact running.ordered.advance
  near := fun key member => by
    have near := running.near key ((List.dropWhile_sublist _).subset member)
    have left : (timers.tickUp.withList timers.later).left key = timers.left key - 1 :=
      running.left_tickUp member
    omega
  active := fun key member => running.active key ((List.dropWhile_sublist _).subset member)
  timed := running.timed

omit [DecidableEq κ] in
theorem Running.waits_tickUp (running : timers.Running) :
    (timers.tickUp.withList timers.later).Waits key left ↔
      0 < left ∧ timers.Waits key (left + 1) := by
  rw [Waits, running.queue_tickUp, DelayQueue.waits_advance running.ordered, Waits]

section Callbacks

variable {out : List κ}

omit [DecidableEq κ] in
theorem absent_iff : key ∉ timers.timerList ↔ ∀ left, ¬ timers.Waits key left := by
  simp [waits_iff]

theorem foldl_finish_tick : (out.foldl RtTimers.finish timers).tick = timers.tick := by
  induction out generalizing timers with
  | nil => rfl
  | cons first others ih => rw [List.foldl_cons, ih, finish_tick]

theorem foldl_finish_options :
    ((out.foldl RtTimers.finish timers).timer key).periodic = (timers.timer key).periodic ∧
      ((out.foldl RtTimers.finish timers).timer key).initTick = (timers.timer key).initTick := by
  induction out generalizing timers with
  | nil => exact ⟨rfl, rfl⟩
  | cons first others ih =>
      obtain ⟨periodic, initTick⟩ := @ih (timers.finish first)
      rw [List.foldl_cons, periodic, initTick]
      exact finish_options

/-- Behind their callbacks the timers that were taken are back in order, the periodic ones
with their periods. -/
theorem Running.foldl_finish (running : timers.Running) (once : out.Nodup)
    (absent : ∀ key ∈ out, key ∉ timers.timerList)
    (active : ∀ key ∈ out, (timers.timer key).activated = true) :
    (out.foldl RtTimers.finish timers).Running ∧ ∀ key left,
      (out.foldl RtTimers.finish timers).Waits key left ↔ timers.Waits key left ∨
        (key ∈ out ∧ (timers.timer key).periodic = true ∧
          left = (timers.timer key).initTick.toNat) := by
  induction out generalizing timers with
  | nil => exact ⟨running, by simp⟩
  | cons first others ih =>
      rw [List.nodup_cons] at once
      have gone := absent first List.mem_cons_self
      have on := active first List.mem_cons_self
      have apart {key : κ} (member : key ∈ others) : key ≠ first :=
        fun same => once.1 (same ▸ member)
      have waitsFinish (key : κ) (left : Nat) :=
        @Sound.waits_finish κ _ timers first key left running.toSound gone (running.timed first)
      obtain ⟨after, waits⟩ := ih (running.finish gone) once.2
        (fun key member => by
          refine absent_iff.mpr fun left waits => ?_
          rcases (waitsFinish key left).mp waits with old | ⟨same, -⟩
          · exact absent key (List.mem_cons_of_mem _ member) (waits_iff.mp old).1
          · exact apart member same)
        (fun key member => by
          rw [finish_timer_of_ne (apart member)]
          exact active key (List.mem_cons_of_mem _ member))
      refine ⟨after, fun key left => ?_⟩
      rw [List.foldl_cons, waits, waitsFinish, @finish_options κ _ timers first key |>.1,
        @finish_options κ _ timers first key |>.2, List.mem_cons]
      by_cases here : key = first
      · subst here
        simp [on, once.1]
      · simp [here]

/-- A tick: the callbacks of the due timers run in their order, the periodic ones among them
wait for their periods again, and to all others one tick less is left. -/
theorem Running.rtTimerCheck_tickUp (running : timers.Running) {timeoutFunc : κ → σ → Option σ}
    {fuel : Nat} (enough : timers.due.length < fuel) :
    ∃ after : RtTimers κ, after.Running ∧ after.tick = timers.tick + 1 ∧
      (∀ rest, rtTimerCheck timeoutFunc fuel timers.tickUp rest =
        (timers.due.foldlM (fun rest t => timeoutFunc t rest) rest).map (after, ·)) ∧
      (∀ key, (after.timer key).periodic = (timers.timer key).periodic ∧
        (after.timer key).initTick = (timers.timer key).initTick) ∧
      ∀ key left, after.Waits key left ↔
        (0 < left ∧ timers.Waits key (left + 1)) ∨ (key ∈ timers.due ∧
          (timers.timer key).periodic = true ∧ left = (timers.timer key).initTick.toNat) := by
  have once := running.nodup
  have listed {key : κ} (member : key ∈ timers.due) : key ∈ timers.timerList :=
    (List.takeWhile_prefix _).subset member
  obtain ⟨after, waits⟩ := running.tickUp.foldl_finish (List.nodup_append.mp once).1
    (fun key member later => (List.nodup_append.mp once).2.2 key member key later rfl)
    (fun key member => running.active key (listed member))
  refine ⟨_, after, foldl_finish_tick, fun rest => ?_, fun key => foldl_finish_options,
    fun key left => ?_⟩
  · refine rtTimerCheck_eq (@due_append_later κ timers).symm once (fun key member => ?_)
      (fun key member => ?_) (fun key member => ?_) enough
    · have soon : ((timers.timer key).timeoutTick - timers.tick).toNat ≤ 1 :=
        running.left_of_due member
      rw [JustOut, tickUp_timer, RtTimers.tickUp]
      bv_omega
    · have long : 1 < ((timers.timer key).timeoutTick - timers.tick).toNat :=
        running.left_of_later member
      rw [tickUp_timer, RtTimers.tickUp,
        timedOut_iff (running.near key ((List.dropWhile_sublist _).subset member))]
      exact not_le.mpr long
    · exact fun periodic => ⟨(running.timed key).positive periodic, (running.timed key).near⟩
  · rw [waits, running.waits_tickUp]
    rfl

end Callbacks

/-! ## Runs -/

end RtTimers

/-- What happens to the timers. -/
inductive TimerEvent (κ : Type)
  | start (key : κ)
  | stop (key : κ)
  | detach (key : κ)
  | control (key : κ) (cmd : RtTimerCtrl)
  | tick
  deriving DecidableEq, Repr

/-- The event is about this timer. -/
def TimerEvent.About {κ : Type} (key : κ) : TimerEvent κ → Prop
  | .start other | .stop other | .detach other | .control other _ => other = key
  | .tick => False

namespace RtTimers

variable {κ : Type} [DecidableEq κ]

/-- The event leaves the times good. -/
def Allowed (timers : RtTimers κ) : TimerEvent κ → Prop
  | .control key cmd => ((timers.rtTimerControl key cmd).1.timer key).Timed
  | _ => True

/-- One event; a timer that runs out is written into the log. -/
def happen (timers : RtTimers κ) (log : List κ) : TimerEvent κ → Option (RtTimers κ × List κ)
  | .start key => some (timers.rtTimerStart key, log)
  | .stop key => some ((timers.rtTimerStop key).2, log)
  | .detach key => some (timers.rtTimerDetach key, log)
  | .control key cmd => some ((timers.rtTimerControl key cmd).1, log)
  | .tick =>
      rtTimerCheck (fun key log => some (log ++ [key])) (timers.timerList.length + 1)
        timers.tickUp log

/-- Allowed events, one after the other. -/
inductive Steps : RtTimers κ × List κ → List (TimerEvent κ) → RtTimers κ × List κ → Prop
  | nil (state : RtTimers κ × List κ) : Steps state [] state
  | cons {timers : RtTimers κ} {log : List κ} {event : TimerEvent κ} {events : List (TimerEvent κ)}
      {next last : RtTimers κ × List κ} (allowed : timers.Allowed event)
      (happens : timers.happen log event = some next) (rest : Steps next events last) :
      Steps (timers, log) (event :: events) last

variable {timers : RtTimers κ} {key : κ} {left : Nat} {log : List κ}

omit [DecidableEq κ] in
theorem foldlM_log (out : List κ) :
    out.foldlM (fun log key => some (log ++ [key])) log = some (log ++ out) := by
  induction out generalizing log with
  | nil => simp
  | cons first others ih =>
      rw [List.foldlM_cons, Option.bind_eq_bind, Option.bind_some, ih, List.append_assoc]
      rfl

/-- A control of a timer does not touch the list. -/
theorem rtTimerControl_eq (cmd : RtTimerCtrl) : ∃ timer : RtTimer,
    (timers.rtTimerControl key cmd).1 = timers.set key timer ∧
      timer.timeoutTick = (timers.timer key).timeoutTick ∧
      timer.activated = (timers.timer key).activated := by
  cases cmd with
  | getTime => exact ⟨timers.timer key, by simp [rtTimerControl, set], rfl, rfl⟩
  | setTime | setOneshot | setPeriodic => exact ⟨_, rfl, rfl, rfl⟩

theorem Running.rtTimerControl (running : timers.Running) {cmd : RtTimerCtrl}
    (timed : ((timers.rtTimerControl key cmd).1.timer key).Timed) :
    (timers.rtTimerControl key cmd).1.Running ∧
      (timers.rtTimerControl key cmd).1.queue = timers.queue := by
  obtain ⟨timer, same, timeout, active⟩ := @rtTimerControl_eq κ _ timers key cmd
  rw [same, set_timer_self] at timed
  rw [same]
  have leftSet (other : κ) : (timers.set key timer).left other = timers.left other := by
    by_cases here : other = key
    · rw [left, here, set_timer_self, timeout, set_tick, left]
    · rw [left, set_timer_of_ne _ _ _ here, set_tick, left]
  have queueSet : (timers.set key timer).queue = timers.queue :=
    List.map_congr_left fun other _ => congrArg _ (leftSet other)
  refine ⟨⟨⟨?_, fun other member => ?_, fun other member => ?_⟩, fun other => ?_⟩, queueSet⟩
  · rw [queueSet]
    exact running.ordered
  · rw [leftSet]
    exact running.near other member
  · by_cases here : other = key
    · rw [here, set_timer_self, active]
      exact running.active key (here ▸ member)
    · rw [set_timer_of_ne _ _ _ here]
      exact running.active other member
  · by_cases here : other = key
    · rw [here, set_timer_self]
      exact timed
    · rw [set_timer_of_ne _ _ _ here]
      exact running.timed other

/-- What an event leaves of a timer that it is not about: between the ticks all of it. -/
theorem Running.happen (running : timers.Running) {event : TimerEvent κ}
    (allowed : timers.Allowed event) (apart : event ≠ .tick) :
    ∃ next : RtTimers κ, (∀ log, timers.happen log event = some (next, log)) ∧ next.Running ∧
      ∀ key, ¬ event.About key → next.timer key = timers.timer key ∧
        ∀ left, next.Waits key left ↔ timers.Waits key left := by
  cases event with
  | start other =>
      refine ⟨_, fun _ => rfl, running.rtTimerStart other, fun key away => ?_⟩
      have here : key ≠ other := Ne.symm away
      refine ⟨rtTimerStart_timer_of_ne _ _ here, fun left => ?_⟩
      rw [running.waits_rtTimerStart (running.timed other).near]
      simp [here]
  | stop other =>
      refine ⟨_, fun _ => rfl, running.rtTimerStop other, fun key away => ?_⟩
      have here : key ≠ other := Ne.symm away
      refine ⟨?_, fun left => ?_⟩
      · rw [RtTimers.rtTimerStop]
        split
        · exact deactivate_timer_of_ne _ _ here
        · rfl
      · rw [waits_rtTimerStop]
        simp [here]
  | detach other =>
      refine ⟨_, fun _ => rfl, running.remove other, fun key away => ⟨rfl, fun left => ?_⟩⟩
      rw [rtTimerDetach, waits_remove]
      exact and_iff_left (Ne.symm away)
  | control other cmd =>
      obtain ⟨after, queue⟩ := running.rtTimerControl allowed
      refine ⟨_, fun _ => rfl, after, fun key away => ⟨?_, fun left => ?_⟩⟩
      · obtain ⟨timer, same, -⟩ := @rtTimerControl_eq κ _ timers other cmd
        rw [same, set_timer_of_ne _ _ _ (Ne.symm away)]
      · rw [Waits, queue, Waits]
  | tick => exact absurd rfl apart

end RtTimers

namespace RtTimer

variable (timer : RtTimer) (ticks : Nat)

/-- How often a timer runs out within so many ticks from its start. -/
def calls : Nat :=
  if timer.periodic then ticks / timer.initTick.toNat
  else if ticks < max timer.initTick.toNat 1 then 0 else 1

/-- How long it waits then, if it still does. -/
def remaining : Option Nat :=
  if timer.periodic then some (timer.initTick.toNat - ticks % timer.initTick.toNat)
  else if ticks < max timer.initTick.toNat 1 then some (timer.initTick.toNat - ticks) else none

/-- The next tick takes the timer. -/
def RunsOut : Prop := ∃ left ≤ 1, timer.remaining ticks = some left

variable {timer ticks}

theorem calls_zero : timer.calls 0 = 0 := by
  simp [calls]

theorem remaining_zero : timer.remaining 0 = some timer.initTick.toNat := by
  simp [remaining]

/-- The quotient steps up where the remainder starts anew. -/
theorem div_mod_succ {period : Nat} (positive : 0 < period) :
    if ticks % period + 1 = period then
      (ticks + 1) / period = ticks / period + 1 ∧ (ticks + 1) % period = 0
    else (ticks + 1) / period = ticks / period ∧ (ticks + 1) % period = ticks % period + 1 := by
  have whole := Nat.mod_add_div ticks period
  have small := Nat.mod_lt ticks positive
  split
  next last =>
    rw [Nat.div_mod_unique positive, Nat.mul_add]
    omega
  next =>
    rw [Nat.div_mod_unique positive]
    omega

theorem runsOut_iff (timed : timer.Timed) : timer.RunsOut ticks ↔
    if timer.periodic then ticks % timer.initTick.toNat + 1 = timer.initTick.toNat
    else ticks + 1 = max timer.initTick.toNat 1 := by
  unfold RunsOut remaining
  split
  next periodic =>
    have small := Nat.mod_lt ticks (timed.positive periodic)
    simp only [Option.some.injEq, exists_eq_right']
    omega
  next =>
    split
    · simp only [Option.some.injEq, exists_eq_right']
      omega
    · simp only [reduceCtorEq, and_false, exists_false, false_iff]
      omega

theorem calls_succ (timed : timer.Timed) [Decidable (timer.RunsOut ticks)] :
    timer.calls (ticks + 1) = timer.calls ticks + if timer.RunsOut ticks then 1 else 0 := by
  simp only [runsOut_iff timed, calls]
  cases periodic : timer.periodic with
  | true =>
      have succ := @div_mod_succ ticks _ (timed.positive periodic)
      split at succ
      next last => simp [succ, last]
      next on => simp [succ, on]
  | false =>
      simp only [Bool.false_eq_true, if_false]
      split <;> split <;> split <;> omega

theorem remaining_succ (timed : timer.Timed) {left : Nat} :
    timer.remaining (ticks + 1) = some left ↔
      (0 < left ∧ timer.remaining ticks = some (left + 1)) ∨
        (timer.RunsOut ticks ∧ timer.periodic = true ∧ left = timer.initTick.toNat) := by
  rw [runsOut_iff timed]
  unfold remaining
  cases periodic : timer.periodic with
  | true =>
      have positive := timed.positive periodic
      have succ := @div_mod_succ ticks _ positive
      have small := Nat.mod_lt ticks positive
      simp only [if_true, Option.some.injEq, true_and]
      split at succ <;> omega
  | false =>
      simp only [Bool.false_eq_true, if_false, false_and, and_false, or_false]
      split <;> split <;>
        simp only [Option.some.injEq, reduceCtorEq, and_false, iff_false, false_iff] <;> omega

end RtTimer

namespace RtTimers

variable {κ : Type} [DecidableEq κ] {key : κ}

/-- The timer was started so many ticks ago and left alone since. -/
structure OnTime (timer : RtTimer) (key : κ) (ticks : Nat) (timers : RtTimers κ) : Prop
    extends Running timers where
  periodic : (timers.timer key).periodic = timer.periodic
  initTick : (timers.timer key).initTick = timer.initTick
  waits : ∀ left, timers.Waits key left ↔ timer.remaining ticks = some left

variable {timer : RtTimer} {ticks : Nat} {timers : RtTimers κ} {log : List κ}

/-- An event between the ticks that is not about the timer. -/
theorem OnTime.happen (onTime : OnTime timer key ticks timers) {event : TimerEvent κ}
    (allowed : timers.Allowed event) (away : ¬ event.About key) (apart : event ≠ .tick)
    (log : List κ) : ∃ next : RtTimers κ, timers.happen log event = some (next, log) ∧
      OnTime timer key ticks next := by
  obtain ⟨next, happens, running, kept⟩ := onTime.toRunning.happen allowed apart
  obtain ⟨same, waits⟩ := kept key away
  refine ⟨next, happens log, running, ?_, ?_, fun left => ?_⟩
  · rw [same, onTime.periodic]
  · rw [same, onTime.initTick]
  · rw [waits, onTime.waits]

/-- A tick: the timer runs out just when it is due. -/
theorem OnTime.tick (onTime : OnTime timer key ticks timers) (timed : timer.Timed)
    (log : List κ) : ∃ next : RtTimers κ, ∃ out : List κ,
      timers.happen log .tick = some (next, log ++ out) ∧ OnTime timer key (ticks + 1) next ∧
      out.count key + timer.calls ticks = timer.calls (ticks + 1) := by
  classical
  obtain ⟨next, running, -, check, options, waits⟩ :=
    @Running.rtTimerCheck_tickUp κ (List κ) _ timers onTime.toRunning
      (fun key log => some (log ++ [key])) (timers.timerList.length + 1)
      (Nat.lt_succ_of_le (List.takeWhile_prefix _).length_le)
  have taken : key ∈ timers.due ↔ timer.RunsOut ticks := by
    simp only [onTime.mem_due, onTime.waits, RtTimer.RunsOut]
  refine ⟨next, timers.due, ?_, ⟨running, ?_, ?_, fun left => ?_⟩, ?_⟩
  · rw [RtTimers.happen, check, foldlM_log]
    rfl
  · rw [(options key).1, onTime.periodic]
  · rw [(options key).2, onTime.initTick]
  · rw [waits, onTime.waits, taken, onTime.periodic, onTime.initTick, RtTimer.remaining_succ timed]
  · have once := (List.nodup_append.mp onTime.nodup).1
    rw [once.count, RtTimer.calls_succ timed, Nat.add_comm]
    simp only [taken]

/-- A run that leaves the timer alone. -/
theorem OnTime.steps {state last : RtTimers κ × List κ} {events : List (TimerEvent κ)}
    (steps : Steps state events last) (away : ∀ event ∈ events, ¬ event.About key)
    (onTime : OnTime timer key ticks state.1) (timed : timer.Timed) :
    OnTime timer key (ticks + events.count .tick) last.1 ∧
      last.2.count key + timer.calls ticks =
        state.2.count key + timer.calls (ticks + events.count .tick) := by
  induction steps generalizing ticks with
  | nil state => exact ⟨onTime, rfl⟩
  | @cons timers log event events next last allowed happens rest ih =>
      have awayRest : ∀ event ∈ events, ¬ event.About key :=
        fun event member => away event (List.mem_cons_of_mem _ member)
      by_cases apart : event = .tick
      · subst apart
        obtain ⟨after, out, happened, later, counted⟩ := onTime.tick timed log
        rw [happened, Option.some.injEq] at happens
        subst happens
        obtain ⟨end', total⟩ := ih awayRest later
        rw [List.count_cons_self, ← Nat.add_assoc, Nat.add_right_comm]
        refine ⟨end', ?_⟩
        change _ = List.count key log + _
        rw [List.count_append] at total
        omega
      · obtain ⟨after, happened, later⟩ :=
          onTime.happen allowed (away event List.mem_cons_self) apart log
        rw [happened, Option.some.injEq] at happens
        subst happens
        rw [List.count_cons_of_ne apart]
        exact ih awayRest later

/-- **A timer runs out on time.**  After it is started, and while it is left alone, it runs
out once after its time, and a periodic one once in every period, whatever happens to the
other timers and however often the tick counter wraps. -/
theorem timer_runs_out_on_time (timers : RtTimers κ) (running : timers.Running) (key : κ)
    (log : List κ) (events : List (TimerEvent κ)) (away : ∀ event ∈ events, ¬ event.About key)
    (after : RtTimers κ × List κ) (steps : Steps (timers.rtTimerStart key, log) events after) :
    after.1.Running ∧
      after.2.count key = log.count key + (timers.timer key).calls (events.count .tick) ∧
      ∀ left, after.1.Waits key left ↔
        (timers.timer key).remaining (events.count .tick) = some left := by
  have timed := running.timed key
  have onTime : OnTime (timers.timer key) key 0 (timers.rtTimerStart key) := by
    refine ⟨running.rtTimerStart key, ?_, ?_, fun left => ?_⟩
    · rw [rtTimerStart_timer_self]
    · rw [rtTimerStart_timer_self]
    · rw [running.waits_rtTimerStart timed.near, RtTimer.remaining_zero, Option.some.injEq]
      simp [eq_comm]
  obtain ⟨later, counted⟩ := onTime.steps steps away timed
  rw [Nat.zero_add] at later counted
  rw [RtTimer.calls_zero] at counted
  exact ⟨later.toRunning, counted, later.waits⟩

/-- Two ticks before the counter wraps, a timer of four ticks and a periodic one. -/
def sampleTimers : RtTimers Bool where
  tick := 0xFFFFFFFE
  timerList := [true]
  timer := fun key =>
    if key then ⟨5, 2, true, false⟩ else ⟨2, 0, false, true⟩

theorem sampleTimers_running : sampleTimers.Running where
  ordered := ⟨List.pairwise_singleton .., List.nodup_singleton _⟩
  near := by decide
  active := by decide
  timed := fun key => by cases key <;> exact ⟨by decide, by decide⟩

theorem timer_runs_out_on_time_sample : ∃ after : RtTimers Bool × List Bool,
    Steps (sampleTimers.rtTimerStart false, []) [.tick, .stop true, .tick, .tick, .tick] after ∧
      after.2.count false = 2 ∧ ∀ left, after.1.Waits false left ↔ some 2 = some left := by
  have happens : ∃ after, Steps (sampleTimers.rtTimerStart false, [])
      [.tick, .stop true, .tick, .tick, .tick] after :=
    ⟨_, .cons trivial rfl <| .cons trivial rfl <| .cons trivial rfl <| .cons trivial rfl <|
      .cons trivial rfl <| .nil _⟩
  obtain ⟨after, steps⟩ := happens
  obtain ⟨-, counted, waits⟩ := timer_runs_out_on_time sampleTimers sampleTimers_running false []
    [.tick, .stop true, .tick, .tick, .tick] (by simp [TimerEvent.About]) after steps
  exact ⟨after, steps, counted, waits⟩

end RtTimers

end LedFirmware
