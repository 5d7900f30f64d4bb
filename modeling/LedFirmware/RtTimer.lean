import LedFirmware.DelayQueue
import Mathlib.Data.BitVec
import Mathlib.Logic.Function.Basic

/-!
# The timers of the kernel

The hard timers of `timer.c` in one sorted list.  The tick counter and the timeouts have
32 bits and wrap; a timer counts as timed out if its timeout lies less than half the range
behind the counter.  In terms of the ticks that are left to each timer the list is a delay
queue, and one call of `rt_timer_check` takes exactly the due timers from it.
-/

namespace LedFirmware

/-- `rt_tick_t`. -/
abbrev RtTick := BitVec 32

/-- `RT_TICK_MAX`. -/
def rtTickMax : RtTick := 0xFFFFFFFF

/-- `rt_err_t`, as far as the kernel uses it. -/
inductive RtErr
  | eok
  | error
  | etimeout
  deriving DecidableEq, Repr

/-- `struct rt_timer`; its callback is known from its key. -/
structure RtTimer where
  initTick : RtTick
  timeoutTick : RtTick
  activated : Bool
  periodic : Bool
  deriving DecidableEq, Repr

/-- The commands of `rt_timer_control`. -/
inductive RtTimerCtrl
  | getTime
  | setTime (time : RtTick)
  | setOneshot
  | setPeriodic
  deriving DecidableEq, Repr

/-- `rt_tick`, `rt_timer_list` and the timer objects. -/
structure RtTimers (κ : Type) where
  tick : RtTick
  timerList : List κ
  timer : κ → RtTimer

namespace RtTimers

variable {κ σ : Type} [DecidableEq κ]

section Functions

variable (timers : RtTimers κ) (key : κ)

/-- `_rt_timer_remove`. -/
def remove : RtTimers κ := { timers with timerList := timers.timerList.filter (· ≠ key) }

def set (timer : RtTimer) : RtTimers κ :=
  { timers with timer := Function.update timers.timer key timer }

/-- Clear `RT_TIMER_FLAG_ACTIVATED`. -/
def deactivate : RtTimers κ := timers.set key { timers.timer key with activated := false }

/-- Search the place of a timer from the front and insert it there. -/
def insertTimer (timeoutTick : κ → RtTick) (key : κ) : List κ → List κ
  | [] => [key]
  | t :: later =>
      if timeoutTick t - timeoutTick key = 0 then t :: insertTimer timeoutTick key later
      else if timeoutTick t - timeoutTick key < rtTickMax / 2 then key :: t :: later
      else t :: insertTimer timeoutTick key later

def rtTimerStart : RtTimers κ :=
  let timers := (timers.remove key).deactivate key
  let timers := timers.set key { timers.timer key with
    timeoutTick := timers.tick + (timers.timer key).initTick }
  let timers := { timers with
    timerList := insertTimer (fun t => (timers.timer t).timeoutTick) key timers.timerList }
  timers.set key { timers.timer key with activated := true }

def rtTimerStop : RtErr × RtTimers κ :=
  if (timers.timer key).activated then (.eok, (timers.remove key).deactivate key)
  else (.error, timers)

def rtTimerDetach : RtTimers κ := timers.remove key

/-- The new state, and what the command reads. -/
def rtTimerControl : RtTimerCtrl → RtTimers κ × Option RtTick
  | .getTime => (timers, some (timers.timer key).initTick)
  | .setTime time => (timers.set key { timers.timer key with initTick := time }, none)
  | .setOneshot => (timers.set key { timers.timer key with periodic := false }, none)
  | .setPeriodic => (timers.set key { timers.timer key with periodic := true }, none)

/-- Behind the callback of a timer: start it again or mark it as stopped. -/
def finish : RtTimers κ :=
  if (timers.timer key).periodic ∧ (timers.timer key).activated then
    (timers.deactivate key).rtTimerStart key
  else timers.deactivate key

end Functions

/-- The loop of `rt_timer_check`, with an iteration budget.  The callbacks act on what is
not a timer; a callback that cannot go on ends the loop. -/
def rtTimerCheck (timeoutFunc : κ → σ → Option σ) : (fuel : Nat) → RtTimers κ → σ →
    Option (RtTimers κ × σ)
  | 0, _, _ => none
  | fuel + 1, timers, rest =>
      match timers.timerList with
      | [] => some (timers, rest)
      | t :: _ =>
          if timers.tick - (timers.timer t).timeoutTick < rtTickMax / 2 then
            (timeoutFunc t rest).bind
              (rtTimerCheck timeoutFunc fuel ((timers.remove t).finish t))
          else some (timers, rest)

/-! ## Fields -/

section Fields

variable (timers : RtTimers κ) (key : κ) (timer : RtTimer)

@[simp] theorem remove_tick : (timers.remove key).tick = timers.tick := rfl
@[simp] theorem remove_timer : (timers.remove key).timer = timers.timer := rfl
@[simp] theorem set_tick : (timers.set key timer).tick = timers.tick := rfl
@[simp] theorem set_timerList : (timers.set key timer).timerList = timers.timerList := rfl
@[simp] theorem deactivate_tick : (timers.deactivate key).tick = timers.tick := rfl
@[simp] theorem deactivate_timerList : (timers.deactivate key).timerList = timers.timerList := rfl
@[simp] theorem rtTimerStart_tick : (timers.rtTimerStart key).tick = timers.tick := rfl

theorem remove_timerList :
    (timers.remove key).timerList = timers.timerList.filter (· ≠ key) := rfl

@[simp] theorem set_timer_self : (timers.set key timer).timer key = timer :=
  Function.update_self ..

@[simp] theorem set_timer_of_ne {other : κ} (apart : other ≠ key) :
    (timers.set key timer).timer other = timers.timer other := Function.update_of_ne apart ..

@[simp] theorem deactivate_timer_self : (timers.deactivate key).timer key =
    { timers.timer key with activated := false } := set_timer_self ..

@[simp] theorem deactivate_timer_of_ne {other : κ} (apart : other ≠ key) :
    (timers.deactivate key).timer other = timers.timer other := set_timer_of_ne _ _ _ apart

/-- The timer that is started times out after its time. -/
theorem rtTimerStart_timer : (timers.rtTimerStart key).timer =
    Function.update timers.timer key { timers.timer key with
      timeoutTick := timers.tick + (timers.timer key).initTick, activated := true } := by
  simp [rtTimerStart, set, deactivate, remove]

theorem rtTimerStart_timer_self : (timers.rtTimerStart key).timer key =
    { timers.timer key with
      timeoutTick := timers.tick + (timers.timer key).initTick, activated := true } := by
  rw [rtTimerStart_timer, Function.update_self]

theorem rtTimerStart_timer_of_ne {other : κ} (apart : other ≠ key) :
    (timers.rtTimerStart key).timer other = timers.timer other := by
  rw [rtTimerStart_timer, Function.update_of_ne apart]

theorem rtTimerStart_timerList : (timers.rtTimerStart key).timerList =
    insertTimer (fun t => ((timers.rtTimerStart key).timer t).timeoutTick) key
      (timers.timerList.filter (· ≠ key)) := by
  change insertTimer _ key (timers.timerList.filter (· ≠ key)) = _
  congr 1
  funext t
  by_cases here : t = key
  · subst here
    simp [rtTimerStart]
  · simp [rtTimerStart, here]

end Fields

/-! ## The list as a delay queue -/

/-- Waits are shorter than `RT_TICK_MAX / 2`. -/
def horizon : Nat := 2 ^ 31 - 1

/-- The ticks that are left to a timer. -/
def left (timers : RtTimers κ) (key : κ) : Nat :=
  ((timers.timer key).timeoutTick - timers.tick).toNat

def queue (timers : RtTimers κ) : List (κ × Nat) :=
  timers.timerList.map fun key => (key, timers.left key)

/-- The list is in order, its timers time out within half the range and are activated. -/
structure Sound (timers : RtTimers κ) : Prop where
  ordered : DelayQueue.Ordered timers.queue
  near : ∀ key ∈ timers.timerList, timers.left key < horizon
  active : ∀ key ∈ timers.timerList, (timers.timer key).activated = true

/-- Within half the range, the comparisons of timeouts compare the ticks that are left. -/
theorem timeout_compare {first second now : RtTick} (firstNear : (first - now).toNat < horizon)
    (secondNear : (second - now).toNat < horizon) :
    (first - second = 0 ↔ (first - now).toNat = (second - now).toNat) ∧
      (first - second < rtTickMax / 2 ↔ (second - now).toNat ≤ (first - now).toNat) := by
  have half : rtTickMax / 2 = 0x7FFFFFFF#32 := by decide
  rw [half]
  simp only [horizon] at firstNear secondNear
  constructor <;> bv_omega

/-- Behind the next tick a timer is timed out if it had at most one tick left. -/
theorem timedOut_iff {timeout now : RtTick} (near : (timeout - now).toNat < horizon) :
    now + 1 - timeout < rtTickMax / 2 ↔ (timeout - now).toNat ≤ 1 := by
  have half : rtTickMax / 2 = 0x7FFFFFFF#32 := by decide
  rw [half]
  simp only [horizon] at near
  bv_omega

theorem left_tick {timeout now : RtTick} (longer : 1 < (timeout - now).toNat) :
    (timeout - (now + 1)).toNat = (timeout - now).toNat - 1 := by
  bv_omega

variable {timers : RtTimers κ} {key : κ}

omit [DecidableEq κ] in
theorem map_insertTimer {list : List κ} (near : ∀ t ∈ list, timers.left t < horizon)
    (keyNear : timers.left key < horizon) :
    (insertTimer (fun t => (timers.timer t).timeoutTick) key list).map
        (fun t => (t, timers.left t)) =
      DelayQueue.add key (timers.left key) (list.map fun t => (t, timers.left t)) := by
  induction list with
  | nil => rfl
  | cons t later ih =>
      obtain ⟨equal, behind⟩ : (_ ↔ timers.left t = timers.left key) ∧
          (_ ↔ timers.left key ≤ timers.left t) :=
        timeout_compare (near t List.mem_cons_self) keyNear
      have rest := ih fun other member => near other (List.mem_cons_of_mem _ member)
      rw [insertTimer, List.map_cons, DelayQueue.add]
      simp only [equal, behind]
      by_cases same : timers.left t = timers.left key
      · rw [if_pos same, if_neg (by omega), List.map_cons, rest]
      · rw [if_neg same]
        by_cases before : timers.left key ≤ timers.left t
        · rw [if_pos before, if_pos (by omega), List.map_cons, List.map_cons]
        · rw [if_neg before, if_neg (by omega), List.map_cons, rest]

theorem remove_queue : (timers.remove key).queue = DelayQueue.cancel key timers.queue := by
  rw [DelayQueue.cancel, queue, queue, remove_timerList, List.filter_map]
  rfl

/-- A queue whose timers are the same except for one that is not in it. -/
theorem queue_set {timer : RtTimer} (absent : key ∉ timers.timerList) :
    (timers.set key timer).queue = timers.queue := by
  refine List.map_congr_left fun t member => ?_
  have apart : t ≠ key := fun same => absent (same ▸ member)
  simp [left, apart]

theorem left_rtTimerStart_self :
    (timers.rtTimerStart key).left key = (timers.timer key).initTick.toNat := by
  rw [left, rtTimerStart_timer_self, rtTimerStart_tick]
  bv_omega

theorem left_rtTimerStart_of_ne {other : κ} (apart : other ≠ key) :
    (timers.rtTimerStart key).left other = timers.left other := by
  rw [left, rtTimerStart_timer_of_ne _ _ apart, rtTimerStart_tick, left]

/-- Starting a timer puts it into the queue, behind those that wait at most as long. -/
theorem Sound.queue_rtTimerStart (sound : timers.Sound)
    (near : (timers.timer key).initTick.toNat < horizon) :
    (timers.rtTimerStart key).queue = DelayQueue.add key (timers.timer key).initTick.toNat
      (DelayQueue.cancel key timers.queue) := by
  have others {t : κ} (member : t ∈ timers.timerList.filter (· ≠ key)) :
      t ∈ timers.timerList ∧ t ≠ key := by
    simpa using member
  rw [queue, rtTimerStart_timerList, map_insertTimer, left_rtTimerStart_self, ← remove_queue, queue]
  · congr 1
    refine List.map_congr_left fun t member => ?_
    rw [left_rtTimerStart_of_ne (others member).2]
    rfl
  · intro t member
    rw [left_rtTimerStart_of_ne (others member).2]
    exact sound.near t (others member).1
  · rwa [left_rtTimerStart_self]

omit [DecidableEq κ] in
theorem mem_queue {entry : κ × Nat} :
    entry ∈ timers.queue ↔ entry.1 ∈ timers.timerList ∧ entry.2 = timers.left entry.1 := by
  obtain ⟨other, left⟩ := entry
  simp only [queue, List.mem_map, Prod.mk.injEq]
  constructor
  · rintro ⟨t, member, rfl, rfl⟩
    exact ⟨member, rfl⟩
  · rintro ⟨member, rfl⟩
    exact ⟨other, member, rfl, rfl⟩

omit [DecidableEq κ] in
theorem insertTimer_perm {timeoutTick : κ → RtTick} {list : List κ} :
    (insertTimer timeoutTick key list).Perm (key :: list) := by
  induction list with
  | nil => rfl
  | cons t later ih =>
      have behind := (ih.cons t).trans (List.Perm.swap key t later)
      rw [insertTimer]
      split
      · exact behind
      · split
        · rfl
        · exact behind

theorem mem_rtTimerStart {other : κ} :
    other ∈ (timers.rtTimerStart key).timerList ↔ other = key ∨ other ∈ timers.timerList := by
  rw [rtTimerStart_timerList, insertTimer_perm.mem_iff]
  by_cases here : other = key <;> simp [here]

namespace Sound

theorem remove (sound : timers.Sound) (key : κ) : (timers.remove key).Sound where
  ordered := by
    rw [remove_queue]
    exact sound.ordered.cancel key
  near := fun t member => sound.near t (List.mem_of_mem_filter member)
  active := fun t member => sound.active t (List.mem_of_mem_filter member)

theorem set (sound : timers.Sound) (absent : key ∉ timers.timerList) (timer : RtTimer) :
    (timers.set key timer).Sound where
  ordered := by
    rw [queue_set absent]
    exact sound.ordered
  near := fun t member => by
    have apart : t ≠ key := fun same => absent (same ▸ member)
    rw [left, set_timer_of_ne _ _ _ apart]
    exact sound.near t member
  active := fun t member => by
    have apart : t ≠ key := fun same => absent (same ▸ member)
    rw [set_timer_of_ne _ _ _ apart]
    exact sound.active t member

theorem rtTimerStart (sound : timers.Sound) (key : κ)
    (near : (timers.timer key).initTick.toNat < horizon) : (timers.rtTimerStart key).Sound where
  ordered := by
    rw [sound.queue_rtTimerStart near]
    refine (sound.ordered.cancel key).add ?_ _
    simp [DelayQueue.cancel]
  near := fun t member => by
    by_cases here : t = key
    · subst here
      rwa [left_rtTimerStart_self]
    · rw [left_rtTimerStart_of_ne here]
      exact sound.near t ((mem_rtTimerStart.mp member).resolve_left here)
  active := fun t member => by
    by_cases here : t = key
    · subst here
      rw [rtTimerStart_timer_self]
    · rw [rtTimerStart_timer_of_ne _ _ here]
      exact sound.active t ((mem_rtTimerStart.mp member).resolve_left here)

theorem rtTimerStop (sound : timers.Sound) (key : κ) : (timers.rtTimerStop key).2.Sound := by
  rw [RtTimers.rtTimerStop]
  split
  · exact (sound.remove key).set (by simp [remove_timerList]) _
  · exact sound

/-- Behind its callback, a timer that is not in the list is started again or not. -/
theorem finish (sound : timers.Sound) (absent : key ∉ timers.timerList)
    (period : (timers.timer key).periodic → (timers.timer key).initTick.toNat < horizon) :
    (timers.finish key).Sound := by
  rw [RtTimers.finish]
  split
  next again =>
    refine (sound.set absent _).rtTimerStart key ?_
    simpa using period again.1
  next => exact sound.set absent _

end Sound

/-! ## One call of `rt_timer_check` -/

/-- The timer has timed out with this tick or the one before. -/
def JustOut (timers : RtTimers κ) (key : κ) : Prop :=
  (timers.tick - (timers.timer key).timeoutTick).toNat ≤ 1

theorem finish_tick : (timers.finish key).tick = timers.tick := by
  rw [finish]
  split <;> rfl

theorem finish_timer_of_ne {other : κ} (apart : other ≠ key) :
    (timers.finish key).timer other = timers.timer other := by
  rw [finish]
  split
  · rw [rtTimerStart_timer_of_ne _ _ apart, deactivate_timer_of_ne _ _ apart]
  · rw [deactivate_timer_of_ne _ _ apart]

omit [DecidableEq κ] in
/-- The place of a timer is not among those for which the search goes on. -/
theorem insertTimer_append {timeoutTick : κ → RtTick} {front list : List κ}
    (on : ∀ t ∈ front, timeoutTick t - timeoutTick key = 0 ∨
      ¬ timeoutTick t - timeoutTick key < rtTickMax / 2) :
    insertTimer timeoutTick key (front ++ list) = front ++ insertTimer timeoutTick key list := by
  induction front with
  | nil => rfl
  | cons t later ih =>
      have rest := ih fun other member => on other (List.mem_cons_of_mem _ member)
      rw [List.cons_append, insertTimer, rest]
      rcases on t List.mem_cons_self with same | behind
      · rw [if_pos same, List.cons_append]
      · rw [if_neg behind, ite_self, List.cons_append]

/-- A period is positive and shorter than half the range. -/
def Periods (timers : RtTimers κ) (key : κ) : Prop :=
  (timers.timer key).periodic = true →
    0 < (timers.timer key).initTick.toNat ∧ (timers.timer key).initTick.toNat < horizon

/-- A timer that starts anew comes behind all that have just timed out. -/
theorem justOut_before {now timeout period : RtTick} (out : (now - timeout).toNat ≤ 1)
    (positive : 0 < period.toNat) (near : period.toNat < horizon) :
    ¬ timeout - (now + period) < rtTickMax / 2 := by
  have half : rtTickMax / 2 = 0x7FFFFFFF#32 := by decide
  rw [half]
  simp only [horizon] at near
  bv_omega

theorem not_timedOut_anew {now period : RtTick} (positive : 0 < period.toNat)
    (near : period.toNat < horizon) : ¬ now - (now + period) < rtTickMax / 2 := by
  have half : rtTickMax / 2 = 0x7FFFFFFF#32 := by decide
  rw [half]
  simp only [horizon] at near
  bv_omega

/-- The same timers with another list. -/
def withList (timers : RtTimers κ) (list : List κ) : RtTimers κ := { timers with timerList := list }

omit [DecidableEq κ] in
theorem withList_eq {list : List κ} (same : timers.timerList = list) :
    timers.withList list = timers := by
  rw [← same]
  rfl

theorem rtTimerStart_withList {list : List κ} : (timers.withList list).rtTimerStart key =
    (timers.rtTimerStart key).withList
      (insertTimer (fun t => ((timers.rtTimerStart key).timer t).timeoutTick) key
        (list.filter (· ≠ key))) :=
  (withList_eq (rtTimerStart_timerList (timers.withList list) key)).symm

theorem filter_absent {list : List κ} (absent : key ∉ list) : list.filter (· ≠ key) = list := by
  refine List.filter_eq_self.mpr fun t member => ?_
  simpa using fun same : t = key => absent (same ▸ member)

/-- Starting a timer leaves those before its place alone. -/
theorem rtTimerStart_append {front list : List κ} (absent : key ∉ front ++ list)
    (on : ∀ t ∈ front, ¬ (timers.timer t).timeoutTick -
      (timers.tick + (timers.timer key).initTick) < rtTickMax / 2) :
    (timers.withList (front ++ list)).rtTimerStart key =
      ((timers.withList list).rtTimerStart key).withList
        (front ++ ((timers.withList list).rtTimerStart key).timerList) := by
  rw [rtTimerStart_withList, rtTimerStart_withList, filter_absent absent,
    filter_absent fun member => absent (List.mem_append_right _ member), insertTimer_append]
  · rfl
  · intro t member
    have apart : t ≠ key := fun same => absent (same ▸ List.mem_append_left _ member)
    rw [rtTimerStart_timer_of_ne _ _ apart, rtTimerStart_timer_self]
    exact .inr (on t member)

/-- What comes of a timer behind its callback leaves those before its place alone. -/
theorem finish_append {front list : List κ} (absent : key ∉ front ++ list)
    (out : ∀ t ∈ front, timers.JustOut t) (period : timers.Periods key) :
    (timers.withList (front ++ list)).finish key = ((timers.withList list).finish key).withList
      (front ++ ((timers.withList list).finish key).timerList) := by
  by_cases again : (timers.timer key).periodic ∧ (timers.timer key).activated
  · obtain ⟨positive, near⟩ := period again.1
    have both (part : List κ) : (timers.withList part).finish key =
        ((timers.deactivate key).withList part).rtTimerStart key := by
      rw [finish]
      exact if_pos again
    rw [both, both]
    refine rtTimerStart_append absent fun t member => ?_
    have apart : t ≠ key := fun same => absent (same ▸ List.mem_append_left _ member)
    rw [deactivate_timer_of_ne _ _ apart, deactivate_timer_self]
    exact justOut_before (out t member) positive near
  · have both (part : List κ) : (timers.withList part).finish key =
        (timers.deactivate key).withList part := by
      rw [finish]
      exact if_neg again
    rw [both, both]
    rfl

/-- Behind its callback a timer is in the list only if it has started anew. -/
theorem finish_timerList (absent : key ∉ timers.timerList) :
    (timers.finish key).timerList = timers.timerList ∨
      ((timers.timer key).periodic = true ∧
        (timers.finish key).timerList.Perm (key :: timers.timerList) ∧
        ((timers.finish key).timer key).timeoutTick =
          timers.tick + (timers.timer key).initTick) := by
  by_cases again : (timers.timer key).periodic ∧ (timers.timer key).activated
  · rw [finish, if_pos again, rtTimerStart_timer_self, rtTimerStart_timerList]
    rw [deactivate_timerList, filter_absent absent]
    exact .inr ⟨again.1, insertTimer_perm, by simp⟩
  · rw [finish, if_neg again]
    exact .inl rfl

/-- One call of `rt_timer_check` at a tick with just these timers out: their callbacks run
in the order of the list, and nothing else changes but for the periodic ones among them. -/
theorem rtTimerCheck_eq {timeoutFunc : κ → σ → Option σ} {out list : List κ} {fuel : Nat} {rest : σ}
    (split : timers.timerList = out ++ list) (once : (out ++ list).Nodup)
    (justOut : ∀ t ∈ out, timers.JustOut t)
    (waiting : ∀ t ∈ list, ¬ timers.tick - (timers.timer t).timeoutTick < rtTickMax / 2)
    (periods : ∀ t ∈ out, timers.Periods t) (enough : out.length < fuel) :
    rtTimerCheck timeoutFunc fuel timers rest =
      (out.foldlM (fun rest t => timeoutFunc t rest) rest).map fun rest =>
        (out.foldl finish (timers.withList list), rest) := by
  induction out generalizing timers list fuel rest with
  | nil =>
      obtain ⟨more, rfl⟩ := Nat.exists_eq_add_one_of_ne_zero (Nat.ne_of_gt enough)
      rw [List.nil_append] at split
      rw [rtTimerCheck, List.foldl_nil, withList_eq split, split]
      cases list with
      | nil => rfl
      | cons t later => exact if_neg (waiting t List.mem_cons_self)
  | cons t later ih =>
      obtain ⟨more, rfl⟩ :=
        Nat.exists_eq_add_one_of_ne_zero (Nat.ne_of_gt (Nat.zero_lt_of_lt enough))
      rw [List.cons_append, List.nodup_cons] at once
      obtain ⟨absent, onceLater⟩ := once
      have apart {other : κ} (member : other ∈ later ++ list) : other ≠ t :=
        fun here => absent (here ▸ member)
      have outLater : ∀ other ∈ later, timers.JustOut other :=
        fun other member => justOut other (List.mem_cons_of_mem _ member)
      have now : timers.tick - (timers.timer t).timeoutTick < rtTickMax / 2 := by
        have just := justOut t List.mem_cons_self
        have half : rtTickMax / 2 = 0x7FFFFFFF#32 := by decide
        rw [JustOut] at just
        rw [half]
        bv_omega
      have removed : timers.remove t = timers.withList (later ++ list) := by
        rw [remove, split, List.cons_append, List.filter_cons_of_neg (by simp),
          filter_absent absent]
        rfl
      have absentList : t ∉ list := fun member => absent (List.mem_append_right _ member)
      have period := periods t List.mem_cons_self
      have behind := @finish_timerList κ _ (timers.withList list) t absentList
      rw [rtTimerCheck, split, List.cons_append]
      simp only [if_pos now]
      rw [removed, finish_append absent outLater period, List.foldl_cons, List.foldlM_cons]
      have tick : ((timers.withList list).finish t).tick = timers.tick := finish_tick
      have timer {other : κ} (away : other ≠ t) :
          ((timers.withList list).finish t).timer other = timers.timer other :=
        finish_timer_of_ne away
      generalize (timers.withList list).finish t = finished at behind tick timer ⊢
      have goOn (rest : σ) := @ih (finished.withList (later ++ finished.timerList))
        finished.timerList more rest rfl
      change (timeoutFunc t rest).bind _ = ((timeoutFunc t rest).bind _).map _
      rw [Option.map_bind]
      refine congrArg _ (funext fun rest => goOn rest ?_ ?_ ?_ ?_ ?_)
      · rcases behind with same | ⟨-, perm, -⟩
        · rw [same]
          exact onceLater
        · rw [((perm.append_left later).trans List.perm_middle).nodup_iff, List.nodup_cons]
          exact ⟨absent, onceLater⟩
      · intro other member
        have old := outLater other member
        rw [JustOut, ← timer (apart (List.mem_append_left _ member)), ← tick] at old
        exact old
      · intro other member
        change ¬ finished.tick - (finished.timer other).timeoutTick < rtTickMax / 2
        rw [tick]
        have still (waits : other ∈ list) :
            ¬ timers.tick - (finished.timer other).timeoutTick < rtTickMax / 2 := by
          rw [timer (apart (List.mem_append_right _ waits))]
          exact waiting other waits
        rcases behind with same | ⟨periodic, perm, anew⟩
        · rw [same] at member
          exact still member
        · rcases List.mem_cons.mp (perm.mem_iff.mp member) with rfl | waits
          · obtain ⟨positive, near⟩ := period periodic
            rw [anew]
            exact not_timedOut_anew positive near
          · exact still waits
      · intro other member
        have old := periods other (List.mem_cons_of_mem _ member)
        rw [Periods, ← timer (apart (List.mem_append_left _ member))] at old
        exact old
      · rw [List.length_cons] at enough
        omega

end RtTimers

end LedFirmware
