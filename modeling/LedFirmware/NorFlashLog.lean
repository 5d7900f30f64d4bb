import LedFirmware.NorFlashProgramming

/-!
# Runs without failures

What holds at the end of every run on which nothing fails, and where programming stands when
the power is lost on the way.
-/

namespace NorFlash

open CrashProgram

/-- The schedule on which nothing fails. -/
def faultless : FlashSchedule := fun _ => some .none

theorem faultless_within {geometry : Geometry} :
    Schedule.Within (D := flash geometry) Reliable faultless := by
  rintro index fault ⟨⟩
  rfl

theorem faultless_powered {geometry : Geometry} :
    Schedule.Powered (D := flash geometry) faultless := by
  intro index lost
  cases lost

/-- Every run without failures ends with the postcondition. -/
def Ensures {geometry : Geometry} (program : FlashProg geometry α) (state : State)
    (post : α → Mem → Prop) : Prop :=
  ∀ schedule : FlashSchedule, Schedule.Within (D := flash geometry) Reliable schedule →
    Schedule.Powered (D := flash geometry) schedule → ∃ value, ∃ after : State, ∃ rest,
    Prog.run program schedule state = .done value after rest ∧ post value after.mem

/-- A program whose result is known ensures what holds of that result. -/
theorem Ends.ensures_iff {geometry : Geometry} {program : FlashProg geometry α}
    {mem final : Mem} {locked closed : Bool} {value : α} {post : α → Mem → Prop}
    (ends : Ends program mem locked value final closed) (log : List Record) :
    Ensures program ⟨mem, locked, log⟩ post ↔ post value final := by
  constructor
  · intro ensures
    obtain ⟨newLog, used, run⟩ := ends.run log faultless_within faultless_powered
    obtain ⟨found, after, rest, same, holds⟩ :=
      ensures faultless faultless_within faultless_powered
    cases run.symm.trans same
    exact holds
  · intro holds schedule within powered
    obtain ⟨newLog, used, run⟩ := ends.run log within powered
    exact ⟨value, _, _, run, holds⟩

/-- Programs that run alike end alike. -/
theorem Ends.agree {geometry : Geometry} {first second : FlashProg geometry α}
    (same : ∀ (schedule : FlashSchedule) (state : State),
      Prog.run first schedule state = Prog.run second schedule state)
    {mem final final' : Mem} {locked closed closed' : Bool} {value value' : α}
    (ends : Ends first mem locked value final closed)
    (ends' : Ends second mem locked value' final' closed') : value = value' ∧ final = final' := by
  obtain ⟨log, used, run⟩ := ends.run [] faultless_within faultless_powered
  obtain ⟨log', used', run'⟩ := ends'.run [] faultless_within faultless_powered
  rw [same, run'] at run
  cases run
  exact ⟨rfl, rfl⟩

/-- The result without failures differs from the start in the region only. -/
theorem Ends.kept {geometry : Geometry} {region : Set Nat} {program : FlashProg geometry α}
    {mem final : Mem} {locked closed : Bool} {value : α}
    (ends : Ends program mem locked value final closed)
    (touches : Touches geometry region program) : Set.EqOn final mem regionᶜ := by
  have meets := (@Completes.of_ends geometry True region mem final locked closed α value program
    ends touches).wp []
  obtain ⟨found, after, used, ended, ⟨-, rfl, -⟩, confined⟩ :=
    Prog.run_completes meets faultless_within faultless_powered fun _ spins => spins.1 trivial
  exact confined.kept

/-- A program that cannot spin ensures what holds of every result. -/
theorem ensures_of_halts {geometry : Geometry} {program : FlashProg geometry α} {state : State}
    {post : α → Mem → Prop} (halts : program.Halts) (holds : ∀ value mem, post value mem) :
    Ensures program state post := by
  intro schedule within powered
  obtain ⟨value, after, used, run⟩ := Prog.run_halts halts powered state
  exact ⟨value, after, _, run, holds value after.mem⟩

variable {geometry : Geometry}

theorem touches_univ (program : FlashProg geometry α) : Touches geometry Set.univ program :=
  ⟨Prog.calls_mono (Prog.calls_true program) fun _ _ => Set.subset_univ _⟩

/-! ## Where programming may be cut -/

/-- The number of half-words that program operations have addressed. -/
def programCount (log : List Record) : Nat :=
  log.countP fun
    | .programmed _ => true
    | .erased _ | .stamped _ _ _ => false

/-- The first `count` half-words of a number are programmed. -/
structure Stage (before : State) (addr number count : Nat) (after : State) : Prop where
  mem : after.mem = overlay addr (2 * count) (LittleEndian.byte number) before.mem
  locked : after.locked = before.locked
  programs : programCount after.log = programCount before.log + count

theorem Stage.start (state : State) (addr number : Nat) : Stage state addr number 0 state :=
  ⟨by rw [Nat.mul_zero, overlay_zero], rfl, rfl⟩

/-- Over erased cells, a power loss leaves the half-words before it programmed. -/
theorem wp_programHalves_stages {count addr number : Nat} {state : State}
    {post : FlashPost geometry Bool} (covers : geometry.Covers addr (2 * count))
    (even : addr % 2 = 0) (erased : ∀ index < 2 * count, state.mem (addr + index) = erasedByte)
    (unlocked : state.locked = false)
    (lost : ∀ stage < count, ∀ after, Stage state addr number stage after → post.lost after)
    (done : ∀ after, Stage state addr number count after → post.done true after) :
    (programHalves geometry count addr number).wp Reliable post state := by
  induction count generalizing addr number state with
  | zero => exact (Prog.wp_done _ _ _).mpr (done state (.start state addr number))
  | succ count ih =>
      obtain ⟨lower, upper⟩ := covers
      rw [programHalves, Prog.wp_bind]
      refine wp_program unlocked ⟨lower, by omega⟩ ⟨by omega, by omega⟩ even
        (erased 0 (by omega)) (erased 1 (by omega))
        (lost 0 (Nat.succ_pos _) state (.start state addr number)) ?_
      dsimp only
      rw [if_pos rfl, putHalf_eq_overlay]
      have later {stage : Nat} {after : State} (reached : Stage
          ⟨overlay addr 2 (LittleEndian.byte number) state.mem, false,
            .programmed addr :: state.log⟩ (addr + 2) (number / 65536) stage after) :
          Stage state addr number (stage + 1) after := by
        obtain ⟨mem, locked, programs⟩ := reached
        refine ⟨?_, locked.trans unlocked.symm, ?_⟩
        · rw [mem, LittleEndian.byte_half, overlay_append]
          congr 1
          omega
        · rw [programs, programCount, List.countP_cons_of_pos rfl, programCount]
          omega
      refine ih ⟨by omega, by omega⟩ (by omega) ?_ rfl
        (fun stage before after reached => lost _ (by omega) after (later reached))
        fun after reached => done after (later reached)
      intro index inside
      change overlay addr 2 (LittleEndian.byte number) state.mem (addr + 2 + index) = erasedByte
      rw [overlay_outside _ _ (by omega), Nat.add_assoc]
      exact erased _ (by omega)

end NorFlash
