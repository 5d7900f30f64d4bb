import LedFirmware.NorFlashFaults
import LedFirmware.NorFlashLog

/-!
# Which operations a run issues

Between two states of a run a part of the log was written.  It may address a region only, or it
may hold a given operation.  `MayIssue` says that some run, on which nothing happens that is not
allowed, issues an operation; a program all of whose runs address a region only issues none
outside it.
-/

namespace NorFlash

open CrashProgram

/-- The operations logged between two states address the region only. -/
def LogWithin (geometry : Geometry) (region : Set Nat) (before after : State) : Prop :=
  ∃ newer, after.log = newer ++ before.log ∧
    ∀ record ∈ newer, record.footprint geometry ⊆ region

/-- The operation was logged between two states. -/
def Issued (record : Record) (before after : State) : Prop :=
  ∃ newer, after.log = newer ++ before.log ∧ record ∈ newer

variable {geometry : Geometry} {region : Set Nat} {record : Record}
  {first second third last : State}

namespace LogWithin

theorem refl (state : State) : LogWithin geometry region state state :=
  ⟨[], rfl, fun _ member => absurd member List.not_mem_nil⟩

theorem trans (early : LogWithin geometry region first second)
    (late : LogWithin geometry region second third) : LogWithin geometry region first third := by
  obtain ⟨newer, appended, inside⟩ := early
  obtain ⟨newest, appendedLater, insideLater⟩ := late
  refine ⟨newest ++ newer, ?_, fun record member => ?_⟩
  · rw [appendedLater, appended, List.append_assoc]
  · rcases List.mem_append.mp member with recent | older
    · exact insideLater record recent
    · exact inside record older

/-- A part of a log that addresses the region only does, too. -/
theorem part (whole : LogWithin geometry region first last)
    (early : LogWithin geometry Set.univ first second)
    (between : LogWithin geometry Set.univ second third)
    (late : LogWithin geometry Set.univ third last) :
    LogWithin geometry region second third := by
  obtain ⟨all, appended, inside⟩ := whole
  obtain ⟨oldest, appendedEarly, -⟩ := early
  obtain ⟨newer, appendedBetween, -⟩ := between
  obtain ⟨newest, appendedLate, -⟩ := late
  refine ⟨newer, appendedBetween, fun record member => inside record ?_⟩
  rw [appendedLate, appendedBetween, appendedEarly, ← List.append_assoc, ← List.append_assoc]
    at appended
  rw [← List.append_cancel_right appended]
  exact List.mem_append_left _ (List.mem_append_right newest member)

/-- A program that touches a region only logs operations on that region. -/
theorem of_touches {program : FlashProg geometry α}
    (touches : Touches geometry region program) (schedule : FlashSchedule) (start : State) :
    LogWithin geometry region start (Prog.run program schedule start).state :=
  (Prog.run_state (wp_of_touches touches start) (anyFault_within schedule)).logged

/-- A run only adds to the log. -/
theorem run (program : FlashProg geometry α) (schedule : FlashSchedule) (start : State) :
    LogWithin geometry Set.univ start (Prog.run program schedule start).state :=
  of_touches (touches_univ program) schedule start

/-- What the parts of a run address, the run does. -/
theorem run_bind {program : FlashProg geometry α} {next : α → FlashProg geometry β}
    {schedule : FlashSchedule} {start : State}
    (early : LogWithin geometry region start (Prog.run program schedule start).state)
    (late : ∀ value after rest, Prog.run program schedule start = .done value after rest →
      LogWithin geometry region after (Prog.run (next value) rest after).state) :
    LogWithin geometry region start (Prog.run (program >>= next) schedule start).state := by
  rw [Prog.run_bind]
  cases ended : Prog.run program schedule start with
  | done value after rest =>
      rw [ended] at early
      exact early.trans (late value after rest ended)
  | lost after | spin after =>
      rw [ended] at early
      exact early

/-- What follows a run only adds to its log. -/
theorem run_grows (program : FlashProg geometry α) (next : α → FlashProg geometry β)
    (schedule : FlashSchedule) (start : State) :
    LogWithin geometry Set.univ (Prog.run program schedule start).state
      (Prog.run (program >>= next) schedule start).state := by
  rw [Prog.run_bind]
  cases Prog.run program schedule start with
  | done value after rest => exact run (next value) rest after
  | lost after | spin after => exact refl after

theorem footprint (within : LogWithin geometry region first second)
    (issued : Issued record first second) : record.footprint geometry ⊆ region := by
  obtain ⟨newer, appended, inside⟩ := within
  obtain ⟨same, appendedToo, member⟩ := issued
  apply inside
  rw [List.append_cancel_right (appended.symm.trans appendedToo)]
  exact member

end LogWithin

theorem Issued.trans_right (issued : Issued record first second)
    (grown : LogWithin geometry region second third) : Issued record first third := by
  obtain ⟨newer, appended, member⟩ := issued
  obtain ⟨newest, appendedLater, -⟩ := grown
  refine ⟨newest ++ newer, ?_, List.mem_append_right newest member⟩
  rw [appendedLater, appended, List.append_assoc]

theorem Issued.trans_left (grown : LogWithin geometry region first second)
    (issued : Issued record second third) : Issued record first third := by
  obtain ⟨newer, appended, -⟩ := grown
  obtain ⟨newest, appendedLater, member⟩ := issued
  refine ⟨newest ++ newer, ?_, List.mem_append_left newer member⟩
  rw [appendedLater, appended, List.append_assoc]

/-! ## What some run does -/

/-- On some allowed schedule the program ends with this value, memory and lock. -/
structure MayEnd (allowed : Fault → Prop) (program : FlashProg geometry α) (mem : Mem)
    (locked : Bool) (value : α) (finalMem : Mem) (finalLocked : Bool) : Prop where
  run : ∀ log, ∃ newLog, ∃ schedule rest : FlashSchedule,
    Schedule.Within (D := flash geometry) allowed schedule ∧
      Prog.run program schedule (⟨mem, locked, log⟩ : State) =
        .done value (⟨finalMem, finalLocked, newLog⟩ : State) rest

/-- On some allowed schedule the program issues the operation. -/
structure MayIssue (allowed : Fault → Prop) (program : FlashProg geometry α) (record : Record)
    (mem : Mem) (locked : Bool) : Prop where
  run : ∀ log, ∃ schedule : FlashSchedule,
    Schedule.Within (D := flash geometry) allowed schedule ∧
      Issued record (⟨mem, locked, log⟩ : State)
        (Prog.run program schedule (⟨mem, locked, log⟩ : State)).state

variable {allowed : Fault → Prop} {mem middle final : Mem} {locked opened closed : Bool}

theorem run_ask (op : Op) (fault : Fault) (state : State) :
    Prog.run (Prog.ask (D := flash geometry) op) (scheduled fun _ => fault) state =
      .done (apply geometry op fault state).1 (apply geometry op fault state).2
        (scheduled fun _ => fault) := rfl

namespace MayEnd

theorem done (value : α) :
    MayEnd allowed (.done value : FlashProg geometry α) mem locked value mem locked :=
  ⟨fun log => ⟨log, fun _ => none, _, fun _ _ scheduled => (by cases scheduled), rfl⟩⟩

theorem bind {program : FlashProg geometry α} {next : α → FlashProg geometry β} {value : α}
    {result : β} (early : MayEnd allowed program mem locked value middle opened)
    (rest : MayEnd allowed (next value) middle opened result final closed) :
    MayEnd allowed (program >>= next) mem locked result final closed := by
  refine ⟨fun log => ?_⟩
  obtain ⟨newLog, schedule, unused, within, ended⟩ := early.run log
  obtain ⟨lastLog, tail, left, withinTail, endedTail⟩ := rest.run newLog
  obtain ⟨joined, withinJoined, same⟩ :=
    @Prog.run_bind_splice _ _ _ _ _ next _ _ _ _ _ _ ended within withinTail
  exact ⟨lastLog, joined, left, withinJoined, same.trans endedTail⟩

/-- A call ends as its reply says. -/
theorem ask (op : Op) {fault : Fault} (permitted : allowed fault) {value : op.Reply}
    (applies : ∀ log, ∃ newLog, apply geometry op fault ⟨mem, locked, log⟩ =
      (value, ⟨final, closed, newLog⟩)) :
    MayEnd allowed (Prog.ask (D := flash geometry) op) mem locked value final closed := by
  refine ⟨fun log => ?_⟩
  obtain ⟨newLog, applied⟩ := applies log
  refine ⟨newLog, scheduled fun _ => fault, scheduled fun _ => fault,
    scheduled_within fun _ => permitted, ?_⟩
  rw [run_ask, applied]

theorem setLock (works : ∃ fault, allowed fault) (wanted : Bool) :
    MayEnd allowed (setLock geometry wanted) mem locked () mem wanted := by
  obtain ⟨fault, permitted⟩ := works
  exact ask (.setLock wanted) permitted fun log => ⟨log, rfl⟩

theorem erase (works : ∃ fault, allowed fault ∧ ¬ fault.Fails) {addr : Nat}
    (contains : geometry.Contains addr) : MayEnd allowed (erase geometry addr) mem false true
      (fillPage geometry addr (fun _ => erasedByte) mem) false := by
  obtain ⟨fault, permitted, sound⟩ := works
  refine ask (.erase addr) permitted fun log => ⟨.erased addr :: log, ?_⟩
  have accepted : ¬ (false = true ∨ ¬ geometry.Contains addr) := by simp [contains]
  simp only [apply, applyErase, if_neg accepted]
  cases fault with
  | none | zeroOver => rfl
  | fail left => exact absurd trivial sound

/-- Programming the first two bytes of a source stores them if they are taken. -/
theorem program_source {addr : Nat} {source : Nat → UInt8} (even : addr % 2 = 0)
    (takes : Takes geometry allowed mem addr (source 0) (source 1)) :
    MayEnd allowed (program geometry addr (source 0) (source 1)) mem false true
      (overlay addr 2 source mem) false := by
  obtain ⟨⟨lower, upper⟩, fault, permitted, accepts⟩ := takes
  refine ask (.program addr (source 0) (source 1)) permitted fun log =>
    ⟨.programmed addr :: log, ?_⟩
  have accepted : ¬ (false = true ∨ ¬ geometry.Contains addr ∨
      ¬ geometry.Contains (addr + 1) ∨ addr % 2 ≠ 0) := by
    have first : geometry.Contains addr := ⟨lower, by omega⟩
    have second : geometry.Contains (addr + 1) := ⟨by omega, by omega⟩
    simp [first, second, even]
  simp only [apply, applyProgram, if_neg accepted]
  cases fault with
  | none | zeroOver =>
      dsimp only [Fault.Accepts] at accepts
      simp only [if_pos accepts, putHalf_eq_overlay]
      rfl
  | fail left => exact accepts.elim

end MayEnd

namespace MayIssue

theorem bind_left {program : FlashProg geometry α} {next : α → FlashProg geometry β}
    (issues : MayIssue allowed program record mem locked) :
    MayIssue allowed (program >>= next) record mem locked := by
  refine ⟨fun log => ?_⟩
  obtain ⟨schedule, within, issued⟩ := issues.run log
  refine ⟨schedule, within, ?_⟩
  rw [Prog.run_bind]
  cases ended : Prog.run program schedule (⟨mem, locked, log⟩ : State) with
  | done value after rest =>
      rw [ended] at issued
      exact issued.trans_right (LogWithin.run (next value) rest after)
  | lost after | spin after =>
      rw [ended] at issued
      exact issued

/-- What the second program issues is issued behind the first one. -/
theorem bind_right {program : FlashProg geometry α} {next : α → FlashProg geometry β} {value : α}
    (early : MayEnd allowed program mem locked value middle opened)
    (rest : MayIssue allowed (next value) record middle opened) :
    MayIssue allowed (program >>= next) record mem locked := by
  refine ⟨fun log => ?_⟩
  obtain ⟨newLog, schedule, unused, within, ended⟩ := early.run log
  obtain ⟨tail, withinTail, issued⟩ := rest.run newLog
  obtain ⟨joined, withinJoined, same⟩ :=
    @Prog.run_bind_splice _ _ _ _ _ next _ _ _ _ _ _ ended within withinTail
  have grown := LogWithin.run program schedule (⟨mem, locked, log⟩ : State)
  rw [ended] at grown
  refine ⟨joined, withinJoined, ?_⟩
  rw [same]
  exact issued.trans_left grown

/-- A program all of whose allowed runs stay within a region issues nothing outside it. -/
theorem footprint_subset {program : FlashProg geometry α} {state : State}
    (issues : MayIssue allowed program record state.mem state.locked)
    (inside : ∀ schedule : FlashSchedule,
      Schedule.Within (D := flash geometry) allowed schedule →
        LogWithin geometry region state (Prog.run program schedule state).state) :
    record.footprint geometry ⊆ region := by
  obtain ⟨schedule, within, issued⟩ := issues.run state.log
  exact (inside schedule within).footprint issued

theorem ask (op : Op) (works : ∃ fault, allowed fault)
    (logs : ∀ fault state, (apply geometry op fault state).2.log = record :: state.log) :
    MayIssue allowed (Prog.ask (D := flash geometry) op) record mem locked := by
  refine ⟨fun log => ?_⟩
  obtain ⟨fault, permitted⟩ := works
  exact ⟨scheduled fun _ => fault, scheduled_within fun _ => permitted, [record], logs fault _,
    List.mem_cons_self⟩

theorem program (works : ∃ fault, allowed fault) (addr : Nat) (low high : UInt8) :
    MayIssue allowed (program geometry addr low high) (.programmed addr) mem locked := by
  refine ask (.program addr low high) works fun fault state => ?_
  simp only [apply, applyProgram]
  split
  · rfl
  · cases fault with
    | none | zeroOver => dsimp only; split <;> rfl
    | fail left => rfl

theorem erase (works : ∃ fault, allowed fault) (addr : Nat) :
    MayIssue allowed (erase geometry addr) (.erased addr) mem locked := by
  refine ask (.erase addr) works fun fault state => ?_
  simp only [apply, applyErase]
  split
  · rfl
  · cases fault <;> rfl

end MayIssue

/-! ## Ranges -/

theorem mayEnd_programHalves {count addr number : Nat} (even : addr % 2 = 0)
    (gets : GetsTo geometry allowed mem addr (LittleEndian.byte number) count) :
    MayEnd allowed (programHalves geometry count addr number) mem false true
      (overlay addr (2 * count) (LittleEndian.byte number) mem) false := by
  induction count generalizing addr number mem with
  | zero => simpa [programHalves] using MayEnd.done true
  | succ count ih =>
      have head := @MayEnd.program_source geometry allowed mem addr (LittleEndian.byte number) even
        (gets 0 (Nat.succ_pos _))
      have later := @GetsTo.behind _ _ _ (overlay addr 2 (LittleEndian.byte number) mem) _ _ _
        gets 1 fun cell behind => overlay_outside _ _ (by omega)
      rw [← LittleEndian.byte_half] at later
      have rest := ih (by omega) later
      rw [LittleEndian.byte_half, overlay_append,
        show 2 + 2 * count = 2 * (count + 1) by omega] at rest
      exact head.bind rest

/-- Programming a number read from a source stores the source. -/
theorem mayEnd_programHalves_value {count addr : Nat} {source : Nat → UInt8}
    (even : addr % 2 = 0) (gets : GetsTo geometry allowed mem addr source count) :
    MayEnd allowed (programHalves geometry count addr (LittleEndian.value (2 * count) source)) mem
      false true (overlay addr (2 * count) source mem) false := by
  have same (index : Nat) (inside : index < 2 * count) :
      LittleEndian.byte (LittleEndian.value (2 * count) source) index = source index :=
    LittleEndian.byte_value source inside
  rw [← overlay_congr mem same]
  exact mayEnd_programHalves even (gets.congr fun index inside => (same index inside).symm)

theorem mayEnd_programUnits {halves count addr : Nat} {source : Nat → UInt8}
    (even : addr % 2 = 0) (gets : GetsTo geometry allowed mem addr source (halves * count)) :
    MayEnd allowed (programUnits geometry halves count addr source) mem false count
      (overlay addr (2 * halves * count) source mem) false := by
  induction count generalizing addr source mem with
  | zero => simpa [programUnits] using MayEnd.done 0
  | succ count ih =>
      have total : 2 * halves * (count + 1) = 2 * halves + 2 * halves * count := by ring
      have split : halves * (count + 1) = halves + halves * count := by ring
      have head := @mayEnd_programHalves_value geometry allowed mem halves addr source even
        fun earlier before => gets earlier (by omega)
      have later := @GetsTo.behind _ _ _ (overlay addr (2 * halves) source mem) _ _ _ gets halves
        fun cell behind => overlay_outside _ _ (by omega)
      rw [split, Nat.add_sub_cancel_left] at later
      have rest := ih (by omega) later
      rw [overlay_append, ← total] at rest
      exact head.bind (rest.bind (.done (count + 1)))

theorem mayIssue_programHalves {count addr number half : Nat} (works : ∃ fault, allowed fault)
    (even : addr % 2 = 0) (inside : half < count)
    (gets : GetsTo geometry allowed mem addr (LittleEndian.byte number) half) :
    MayIssue allowed (programHalves geometry count addr number) (.programmed (addr + 2 * half)) mem
      false := by
  induction half generalizing count addr number mem with
  | zero =>
      obtain ⟨more, rfl⟩ : ∃ more, count = more + 1 := ⟨count - 1, by omega⟩
      exact (MayIssue.program works _ _ _).bind_left
  | succ half ih =>
      obtain ⟨more, rfl⟩ : ∃ more, count = more + 1 := ⟨count - 1, by omega⟩
      have head := @MayEnd.program_source geometry allowed mem addr (LittleEndian.byte number) even
        (gets 0 (Nat.succ_pos _))
      have later := @GetsTo.behind _ _ _ (overlay addr 2 (LittleEndian.byte number) mem) _ _ _
        gets 1 fun cell behind => overlay_outside _ _ (by omega)
      rw [← LittleEndian.byte_half] at later
      rw [show addr + 2 * (half + 1) = addr + 2 + 2 * half by omega]
      exact .bind_right head (ih (by omega) (by omega) later)

theorem mayIssue_programUnits {halves count addr half : Nat} {source : Nat → UInt8}
    (works : ∃ fault, allowed fault) (even : addr % 2 = 0) (inside : half < halves * count)
    (gets : GetsTo geometry allowed mem addr source half) :
    MayIssue allowed (programUnits geometry halves count addr source)
      (.programmed (addr + 2 * half)) mem false := by
  induction count generalizing addr half source mem with
  | zero => omega
  | succ count ih =>
      have total : halves * (count + 1) = halves + halves * count := by ring
      rcases Nat.lt_or_ge half halves with early | late
      · refine (mayIssue_programHalves works even early
          (gets.congr fun index before => ?_)).bind_left
        exact (LittleEndian.byte_value source (by omega)).symm
      · have head := @mayEnd_programHalves_value geometry allowed mem halves addr source even
          fun earlier before => gets earlier (by omega)
        have later := @GetsTo.behind _ _ _ (overlay addr (2 * halves) source mem) _ _ _ gets halves
          fun cell behind => overlay_outside _ _ (by omega)
        have rest := ih (by omega) (by omega) later
        rw [show addr + 2 * halves + 2 * (half - halves) = addr + 2 * half by omega] at rest
        exact .bind_right head rest.bind_left

/-- Pages are erased in turn. -/
theorem mayIssue_erasePages {count addr index : Nat}
    (works : ∃ fault, allowed fault ∧ ¬ fault.Fails) (base : geometry.base ≤ addr)
    (top : addr + geometry.page * index < geometry.base + geometry.size)
    (inside : index < count) :
    MayIssue allowed (erasePages geometry count addr) (.erased (addr + geometry.page * index)) mem
      false := by
  induction index generalizing count addr mem with
  | zero =>
      obtain ⟨more, rfl⟩ : ∃ more, count = more + 1 := ⟨count - 1, by omega⟩
      exact (MayIssue.erase (works.imp fun _ both => both.1) _).bind_left
  | succ index ih =>
      obtain ⟨more, rfl⟩ : ∃ more, count = more + 1 := ⟨count - 1, by omega⟩
      have total : addr + geometry.page * (index + 1) =
          addr + geometry.page + geometry.page * index := by ring
      rw [total] at top ⊢
      exact .bind_right (.erase works ⟨base, by omega⟩) (ih (by omega) top (by omega))

end NorFlash
