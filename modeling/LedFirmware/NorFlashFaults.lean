import LedFirmware.NorFlashProgramming

/-!
# Runs under given failures

When power is never lost, a run is decided by the fault that each call suffers.
Programming a range succeeds just when every operation on it is accepted; the first
one that is not ends it.
-/

namespace NorFlash

open CrashProgram

/-- The faults of the calls in turn, with power for all of them. -/
def scheduled (faults : Nat → Fault) : FlashSchedule := fun index => some (faults index)

theorem scheduled_powered {geometry : Geometry} (faults : Nat → Fault) :
    Schedule.Powered (D := flash geometry) (scheduled faults) := fun _ => nofun

theorem scheduled_within {geometry : Geometry} {allowed : Fault → Prop} {faults : Nat → Fault}
    (permitted : ∀ index, allowed (faults index)) :
    Schedule.Within (D := flash geometry) allowed (scheduled faults) := by
  rintro index fault ⟨⟩
  exact permitted index

/-- The flash accepts the half-word. -/
def Fault.Accepts (mem : Mem) (addr : Nat) (low high : UInt8) : Fault → Prop
  | .none => mem addr = erasedByte ∧ mem (addr + 1) = erasedByte
  | .zeroOver => Storable mem addr low high
  | .fail _ => False

theorem Fault.accepts_congr {mem other : Mem} {addr : Nat} (lowSame : other addr = mem addr)
    (highSame : other (addr + 1) = mem (addr + 1)) (low high : UInt8) (fault : Fault) :
    fault.Accepts other addr low high ↔ fault.Accepts mem addr low high := by
  cases fault with
  | none | zeroOver => simp only [Accepts, Storable, lowSame, highSame]
  | fail left => rfl

def Fault.Fails : Fault → Prop
  | .none | .zeroOver => False
  | .fail _ => True

/-- Erased cells accept everything that does not fail. -/
theorem Fault.accepts_erased {mem : Mem} {addr : Nat} (low : mem addr = erasedByte)
    (high : mem (addr + 1) = erasedByte) (first second : UInt8) (fault : Fault) :
    fault.Accepts mem addr first second ↔ ¬ fault.Fails := by
  cases fault with
  | none | zeroOver => simp [Accepts, Storable, Fails, low, high]
  | fail left => simp [Accepts, Fails]

/-- The half-word lies in the flash, and an allowed call takes it. -/
structure Takes (geometry : Geometry) (allowed : Fault → Prop) (mem : Mem) (addr : Nat)
    (low high : UInt8) : Prop where
  covers : geometry.Covers addr 2
  accepted : ∃ fault, allowed fault ∧ fault.Accepts mem addr low high

theorem takes_congr {geometry : Geometry} {allowed : Fault → Prop} {mem other : Mem} {addr : Nat}
    {low high : UInt8} (lowSame : other addr = mem addr)
    (highSame : other (addr + 1) = mem (addr + 1)) :
    Takes geometry allowed other addr low high ↔ Takes geometry allowed mem addr low high := by
  constructor
  · rintro ⟨covers, fault, permitted, accepts⟩
    exact ⟨covers, fault, permitted, (Fault.accepts_congr lowSame highSame _ _ _).mp accepts⟩
  · rintro ⟨covers, fault, permitted, accepts⟩
    exact ⟨covers, fault, permitted, (Fault.accepts_congr lowSame highSame _ _ _).mpr accepts⟩

/-- What no flash stores is not taken. -/
theorem not_takes {geometry : Geometry} {allowed : Fault → Prop} {mem : Mem} {addr : Nat}
    {low high : UInt8} (blocked : ¬ Storable mem addr low high) :
    ¬ Takes geometry allowed mem addr low high := by
  rintro ⟨-, fault, -, accepts⟩
  cases fault with
  | none => exact blocked (Or.inl accepts)
  | zeroOver => exact blocked accepts
  | fail left => exact accepts

/-- Programming a source from an address on, up to the first half-word that is refused, may get
to this one. -/
def GetsTo (geometry : Geometry) (allowed : Fault → Prop) (mem : Mem) (addr : Nat)
    (source : Nat → UInt8) (half : Nat) : Prop :=
  ∀ earlier < half, Takes geometry allowed mem (addr + 2 * earlier) (source (2 * earlier))
    (source (2 * earlier + 1))

/-- Behind a first part the same half-words remain to be taken. -/
theorem GetsTo.behind {geometry : Geometry} {allowed : Fault → Prop} {mem other : Mem}
    {addr half : Nat} {source : Nat → UInt8} (gets : GetsTo geometry allowed mem addr source half)
    (first : Nat) (kept : ∀ cell, addr + 2 * first ≤ cell → other cell = mem cell) :
    GetsTo geometry allowed other (addr + 2 * first) (fun index => source (2 * first + index))
      (half - first) := by
  intro earlier before
  rw [takes_congr (kept _ (by omega)) (kept _ (by omega))]
  have later := gets (first + earlier) (by omega)
  rw [Nat.mul_add, ← Nat.add_assoc, Nat.add_assoc (2 * first)] at later
  exact later

/-- Only the bytes up to the half-word matter. -/
theorem GetsTo.congr {geometry : Geometry} {allowed : Fault → Prop} {mem : Mem} {addr half : Nat}
    {source other : Nat → UInt8} (gets : GetsTo geometry allowed mem addr source half)
    (same : ∀ index < 2 * half, source index = other index) :
    GetsTo geometry allowed mem addr other half := by
  intro earlier before
  rw [← same _ (by omega), ← same _ (by omega)]
  exact gets earlier before

/-- Programming that does not get to a half-word stops at one before it. -/
theorem exists_blocked {geometry : Geometry} {allowed : Fault → Prop} {mem : Mem}
    {addr half : Nat} {source : Nat → UInt8}
    (stuck : ¬ GetsTo geometry allowed mem addr source half) :
    ∃ stop < half, GetsTo geometry allowed mem addr source stop ∧
      ¬ Takes geometry allowed mem (addr + 2 * stop) (source (2 * stop))
        (source (2 * stop + 1)) := by
  induction half with
  | zero => exact absurd (fun earlier before => absurd before (Nat.not_lt_zero _)) stuck
  | succ half ih =>
      by_cases gets : GetsTo geometry allowed mem addr source half
      · refine ⟨half, Nat.lt_succ_self _, gets, fun takes => stuck fun earlier before => ?_⟩
        rcases Nat.lt_succ_iff_lt_or_eq.mp before with sooner | rfl
        · exact gets earlier sooner
        · exact takes
      · obtain ⟨stop, before, both⟩ := ih gets
        exact ⟨stop, Nat.lt_succ_of_lt before, both⟩

variable {geometry : Geometry} {faults : Nat → Fault} {state : State}

theorem run_program_bind (addr : Nat) (low high : UInt8) (next : Bool → FlashProg geometry α) :
    Prog.run (program geometry addr low high >>= next) (scheduled faults) state =
      Prog.run (next (applyProgram geometry addr low high (faults 0) state).1)
        (scheduled fun index => faults (index + 1))
        (applyProgram geometry addr low high (faults 0) state).2 := rfl

theorem run_erase_bind (addr : Nat) (next : Bool → FlashProg geometry α) :
    Prog.run (erase geometry addr >>= next) (scheduled faults) state =
      Prog.run (next (applyErase geometry addr (faults 0) state).1)
        (scheduled fun index => faults (index + 1))
        (applyErase geometry addr (faults 0) state).2 := rfl

theorem run_setLock_bind (locked : Bool) (next : Unit → FlashProg geometry α) :
    Prog.run (setLock geometry locked >>= next) (scheduled faults) state =
      Prog.run (next ()) (scheduled fun index => faults (index + 1)) { state with locked } := rfl

theorem run_read_bind (next : Mem → FlashProg geometry α) (schedule : FlashSchedule) :
    Prog.run (read geometry >>= next) schedule state =
      match schedule 0 with
      | none => .lost state
      | some _ => Prog.run (next state.mem) (fun index => schedule (index + 1)) state := by
  have called := Prog.run_call (D := flash geometry) .read next schedule state
  refine Eq.trans ?_ (called.trans ?_)
  · rfl
  · cases schedule 0 <;> rfl

/-- How a run that programs a range from a source ends: done if all went well, at the first
half-word that is not accepted otherwise.  The lock stays open. -/
structure RangeEnds (geometry : Geometry) (faults : Nat → Fault) (before : State)
    (calls addr : Nat) (source : Nat → UInt8) (complete : Prop) (after : State)
    (rest : FlashSchedule) : Prop where
  unlocked : after.locked = false
  complete_iff : complete ↔ ∀ index < calls, (faults index).Accepts before.mem (addr + 2 * index)
    (source (2 * index)) (source (2 * index + 1))
  tail : complete → rest = scheduled fun index => faults (index + calls)
  kept : complete → ∀ cell, cell < addr ∨ addr + 2 * calls ≤ cell →
    after.mem cell = before.mem cell

namespace RangeEnds

variable {before middle after : State} {first second addr : Nat} {source : Nat → UInt8}
  {complete later : Prop} {rest final : FlashSchedule}

/-- A range that is done goes on with the range behind it. -/
theorem append (ends : RangeEnds geometry faults before first addr source complete middle rest)
    (done : complete)
    (next : RangeEnds geometry (fun index => faults (index + first)) middle second
      (addr + 2 * first) (fun index => source (2 * first + index)) later after final) :
    RangeEnds geometry faults before (first + second) addr source later after final := by
  have early := ends.complete_iff.mp done
  -- The cells of the later range are as they were.
  have behind (index : Nat) (low high : UInt8) :
      (faults (index + first)).Accepts middle.mem (addr + 2 * first + 2 * index) low high ↔
        (faults (index + first)).Accepts before.mem (addr + 2 * (index + first)) low high := by
    rw [show addr + 2 * first + 2 * index = addr + 2 * (index + first) by omega]
    exact Fault.accepts_congr (ends.kept done _ (by omega)) (ends.kept done _ (by omega)) _ _ _
  refine ⟨next.unlocked, next.complete_iff.trans ⟨?_, ?_⟩, fun all => ?_,
    fun all cell outside => ?_⟩
  · intro late index inside
    by_cases below : index < first
    · exact early index below
    · have accepted := (behind _ _ _).mp (late (index - first) (by omega))
      rw [Nat.sub_add_cancel (Nat.le_of_not_lt below),
        show 2 * first + 2 * (index - first) = 2 * index by omega,
        show 2 * first + (2 * (index - first) + 1) = 2 * index + 1 by omega] at accepted
      exact accepted
  · intro all index inside
    rw [behind, show 2 * first + 2 * index = 2 * (index + first) by omega,
      show 2 * first + (2 * index + 1) = 2 * (index + first) + 1 by omega]
    exact all (index + first) (by omega)
  · rw [next.tail all]
    funext index
    simp only [scheduled, Nat.add_assoc, Nat.add_comm second first]
  · rw [next.kept all cell (by omega), ends.kept done cell (by omega)]

/-- A range that is not done ends the longer one. -/
theorem stop (ends : RangeEnds geometry faults before first addr source complete middle rest)
    (failed : ¬ complete) (laterFailed : ¬ later) :
    RangeEnds geometry faults before (first + second) addr source later middle rest := by
  refine ⟨ends.unlocked, iff_of_false laterFailed fun fine => failed (ends.complete_iff.mpr ?_),
    fun all => absurd all laterFailed, fun all => absurd all laterFailed⟩
  exact fun index inside => fine index (by omega)

theorem congr (ends : RangeEnds geometry faults before first addr source complete after rest)
    (same : later ↔ complete) :
    RangeEnds geometry faults before first addr source later after rest :=
  ⟨ends.unlocked, same.trans ends.complete_iff, fun all => ends.tail (same.mp all),
    fun all => ends.kept (same.mp all)⟩

/-- Only the bytes of the range matter. -/
theorem congr_source {other : Nat → UInt8}
    (ends : RangeEnds geometry faults before first addr source complete after rest)
    (same : ∀ index < 2 * first, source index = other index) :
    RangeEnds geometry faults before first addr other complete after rest := by
  refine ⟨ends.unlocked, ends.complete_iff.trans (forall₂_congr fun index inside => ?_), ends.tail,
    ends.kept⟩
  rw [same _ (by omega), same _ (by omega)]

end RangeEnds

/-- One operation on an open flash does what the flash accepts. -/
theorem applyProgram_ends {addr : Nat} {source : Nat → UInt8} (unlocked : state.locked = false)
    (covers : geometry.Covers addr 2) (even : addr % 2 = 0) :
    RangeEnds geometry faults state 1 addr source
      ((applyProgram geometry addr (source 0) (source 1) (faults 0) state).1 = true)
      (applyProgram geometry addr (source 0) (source 1) (faults 0) state).2
      (scheduled fun index => faults (index + 1)) := by
  obtain ⟨lower, upper⟩ := covers
  have first : geometry.Contains addr := ⟨by omega, by omega⟩
  have second : geometry.Contains (addr + 1) := ⟨by omega, by omega⟩
  have allowed : ¬ (state.locked = true ∨ ¬ geometry.Contains addr ∨
      ¬ geometry.Contains (addr + 1) ∨ addr % 2 ≠ 0) := by
    simp [unlocked, first, second, even]
  have around {low high : UInt8} {cell : Nat} (outside : cell < addr ∨ addr + 2 * 1 ≤ cell) :
      putHalf addr low high state.mem cell = state.mem cell := by
    have low : cell ≠ addr := by omega
    have high : cell ≠ addr + 1 := by omega
    simp only [putHalf, if_neg low, if_neg high]
  -- The one call of the range is the first one.
  have only : (∀ index < 1, (faults index).Accepts state.mem (addr + 2 * index)
      (source (2 * index)) (source (2 * index + 1))) ↔
      (faults 0).Accepts state.mem addr (source 0) (source 1) := by
    simp
  unfold applyProgram
  rw [if_neg allowed]
  cases failure : faults 0 with
  | fail left =>
      refine ⟨unlocked, iff_of_false Bool.false_ne_true fun fine => ?_,
        fun done => absurd done Bool.false_ne_true, fun done => absurd done Bool.false_ne_true⟩
      rw [only, failure] at fine
      exact fine
  | none | zeroOver =>
      dsimp only
      split
      · rename_i accepts
        refine ⟨unlocked, iff_of_true rfl (only.mpr ?_), fun _ => rfl,
          fun _ cell outside => around outside⟩
        rw [failure]
        exact accepts
      · rename_i refuses
        refine ⟨unlocked, iff_of_false Bool.false_ne_true fun fine => refuses ?_,
          fun done => absurd done Bool.false_ne_true, fun done => absurd done Bool.false_ne_true⟩
        rw [only, failure] at fine
        exact fine

theorem run_programHalves (count addr number : Nat) (unlocked : state.locked = false)
    (covers : geometry.Covers addr (2 * count)) (even : addr % 2 = 0) :
    ∃ accepted after rest, Prog.run (programHalves geometry count addr number)
        (scheduled faults) state = .done accepted after rest ∧
      RangeEnds geometry faults state count addr (LittleEndian.byte number) (accepted = true) after
        rest := by
  induction count generalizing addr number state faults with
  | zero =>
      refine ⟨true, state, _, rfl, unlocked, ?_, fun _ => rfl, fun _ _ _ => rfl⟩
      exact iff_of_true rfl (by omega)
  | succ count ih =>
      obtain ⟨lower, upper⟩ := covers
      have one := @applyProgram_ends geometry faults state addr (LittleEndian.byte number) unlocked
        ⟨lower, by omega⟩ even
      rw [programHalves, run_program_bind, Nat.add_comm count 1]
      split
      · rename_i accepted
        obtain ⟨more, after, rest, ended, ends⟩ := @ih (fun index => faults (index + 1)) _
          (addr + 2) (number / 65536) one.unlocked ⟨by omega, by omega⟩ (by omega)
        rw [LittleEndian.byte_half] at ends
        exact ⟨more, after, rest, ended, one.append accepted ends⟩
      · rename_i refused
        exact ⟨false, _, _, rfl, one.stop refused Bool.false_ne_true⟩

theorem run_programUnits {halves : Nat} (count addr : Nat) (source : Nat → UInt8)
    (unlocked : state.locked = false) (covers : geometry.Covers addr (2 * halves * count))
    (even : addr % 2 = 0) :
    ∃ written after rest, Prog.run (programUnits geometry halves count addr source)
        (scheduled faults) state = .done written after rest ∧
      RangeEnds geometry faults state (halves * count) addr source (written = count) after
        rest := by
  induction count generalizing addr source state faults with
  | zero =>
      refine ⟨0, state, _, rfl, unlocked, ?_, fun _ => rfl, fun _ _ _ => rfl⟩
      exact iff_of_true rfl (by omega)
  | succ count ih =>
      obtain ⟨lower, upper⟩ := covers
      rw [Nat.mul_succ] at upper
      obtain ⟨accepted, middle, left, ran, halfWords⟩ := @run_programHalves geometry faults state
        halves addr (LittleEndian.value (2 * halves) source) unlocked ⟨lower, by omega⟩ even
      have unit := halfWords.congr_source fun index inside => LittleEndian.byte_value source inside
      rw [programUnits, Prog.run_bind, ran, Nat.add_comm count 1, Nat.mul_add, Nat.mul_one]
      dsimp only
      split
      · rename_i accepted
        obtain ⟨more, after, rest, ended, ends⟩ := @ih (fun index => faults (index + halves)) middle
          (addr + 2 * halves) (fun index => source (2 * halves + index)) unit.unlocked
          ⟨by omega, by omega⟩ (by omega)
        refine ⟨more + 1, after, rest, ?_, (unit.append accepted ends).congr ?_⟩
        · rw [unit.tail accepted, Prog.run_bind, ended]
          rfl
        · omega
      · rename_i refused
        exact ⟨0, middle, left, rfl, unit.stop refused (by omega)⟩

end NorFlash
