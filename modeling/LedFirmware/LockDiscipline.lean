import LedFirmware.AppFlag
import LedFirmware.NorFlashFaults
import LedFirmware.NorFlashOutcomes
import LedFirmware.WriteOutcome

/-!
# The lock of the flash

Every routine that opens the flash closes it again before it returns, whatever fails,
except that `Flash_Storage_Header` returns at its first failed program operation with
the flash open.
-/

namespace LedFirmware

open CrashProgram NorFlash

/-- The functions of `flash_if.c` that change the flash, and those of `iap_if.c` that
write the flag. -/
inductive FlashRoutine
  | erasePage (addr binSize : Nat)
  | write (addr : Nat) (buf : Nat → UInt8) (len : Nat)
  | storageHeader (pData : Nat → UInt8)
  | flag (routine : App.FlagRoutine)

/-- A routine of one firmware, its result aside. -/
def FlashRoutine.program (chip : Chip) : CanFirmware → FlashRoutine → FlashProg chip.geometry Unit
  | .app, .erasePage addr binSize => App.flashErasePage chip addr binSize >>= fun _ => .done ()
  | .app, .write addr buf len => App.flashWrite chip addr buf len >>= fun _ => .done ()
  | .app, .storageHeader pData => App.flashStorageHeader chip pData >>= fun _ => .done ()
  | .app, .flag routine => routine.program chip
  | .iap, .erasePage addr binSize => flashErasePage chip addr binSize >>= fun _ => .done ()
  | .iap, .write addr buf len => flashWrite chip addr buf len >>= fun _ => .done ()
  | .iap, .storageHeader pData => flashStorageHeader chip pData >>= fun _ => .done ()
  | .iap, .flag .runAppMode => runAppMode chip
  | .iap, .flag .updateAppMode => updateAppMode chip
  | .iap, .flag .forceUpdateAppMode => forceUpdateAppMode chip

/-- No program operation of the header fails.  The application programs seven words over
what the page holds; the bootloader has erased the page before its three double words, and
returns before them if the erase has failed. -/
def FlashRoutine.NoneFails (chip : Chip) (faults : Nat → Fault) (mem : Mem) :
    CanFirmware → FlashRoutine → Prop
  | .app, .storageHeader pData => ∀ index < 14, (faults (index + 1)).Accepts mem
      (chip.addrAppInfo + 2 * index) (pData (2 * index)) (pData (2 * index + 1))
  | .iap, .storageHeader _ => ¬ (faults 1).Fails → ∀ index < 12, ¬ (faults (index + 4)).Fails
  | _, _ => True

variable {chip : Chip} {faults : Nat → Fault} {state : State}

/-! ## Routines that close the flash -/

/-- The program returns with the flash locked. -/
structure Closes {geometry : Geometry} (program : FlashProg geometry α) : Prop where
  halts : program.Halts
  wp : ∀ state : State,
    program.wp AnyFault (onDone fun _ (after : State) => after.locked = true) state

/-- The program returns with the flash locked if it was locked before. -/
structure Relocks {geometry : Geometry} (program : FlashProg geometry α) : Prop where
  halts : program.Halts
  wp : ∀ state : State, state.locked = true →
    program.wp AnyFault (onDone fun _ (after : State) => after.locked = true) state

section Rules

variable {geometry : Geometry} {α β : Type} {program : FlashProg geometry α}

theorem Closes.relocks (closes : Closes program) : Relocks program :=
  ⟨closes.halts, fun state _ => closes.wp state⟩

theorem Closes.setLock : Closes (setLock geometry true) :=
  ⟨halts_setLock true, fun _ => wp_setLock trivial rfl⟩

/-- Whatever comes before. -/
theorem Closes.after {next : α → FlashProg geometry β} (halts : program.Halts)
    (closes : ∀ value, Closes (next value)) : Closes (program >>= next) :=
  ⟨Prog.halts_bind halts fun value => (closes value).halts, fun _ =>
    Prog.wp_bind_last (fun _ => trivial) (fun _ => trivial) fun value after =>
      (closes value).wp after⟩

theorem Closes.returning (closes : Closes program) (result : α → β) :
    Closes (program >>= fun value => .done (result value)) :=
  ⟨Prog.halts_bind closes.halts fun _ => Prog.halts_done _, fun state =>
    wp_onDone_bind (closes.wp state) fun _ _ locked => (Prog.wp_done _ _ _).mpr locked⟩

theorem Closes.ite {condition : Prop} [Decidable condition] {yes no : FlashProg geometry α}
    (whenYes : Closes yes) (whenNo : Closes no) : Closes (if condition then yes else no) := by
  split
  · exact whenYes
  · exact whenNo

theorem Relocks.done (value : α) : Relocks (.done value : FlashProg geometry α) :=
  ⟨Prog.halts_done value, fun _ locked => (Prog.wp_done _ _ _).mpr locked⟩

theorem Relocks.returning (relocks : Relocks program) (result : α → β) :
    Relocks (program >>= fun value => .done (result value)) :=
  ⟨Prog.halts_bind relocks.halts fun _ => Prog.halts_done _, fun state locked =>
    wp_onDone_bind (relocks.wp state locked) fun _ _ locked => (Prog.wp_done _ _ _).mpr locked⟩

theorem Relocks.ite {condition : Prop} [Decidable condition] {yes no : FlashProg geometry α}
    (whenYes : Relocks yes) (whenNo : Relocks no) : Relocks (if condition then yes else no) := by
  split
  · exact whenYes
  · exact whenNo

/-- Under any failures the run returns, with the flash locked. -/
theorem Relocks.run (relocks : Relocks program) (faults : Nat → Fault) (state : State)
    (locked : state.locked = true) : ∃ value after rest,
    Prog.run program (scheduled faults) state = .done value after rest ∧ after.locked = true := by
  obtain ⟨value, after, used, ended, closed⟩ := Prog.run_completes
    (Prog.wp_halts relocks.halts (relocks.wp state locked)) (anyFault_within _)
    (scheduled_powered faults) fun _ impossible => impossible
  exact ⟨value, after, _, ended, closed⟩

end Rules

/-- An erase, of whatever pages, between opening and closing the flash. -/
theorem relocks_flashErasePage (addr binSize : Nat) :
    Relocks (flashErasePage chip addr binSize) := by
  refine .ite (.done false) (Closes.relocks ?_)
  refine .after (halts_setLock false) fun _ => .after (halts_erasePages _ _) fun erased => ?_
  exact Closes.setLock.returning fun _ => erased

theorem App.relocks_flashErasePage (addr binSize : Nat) :
    Relocks (App.flashErasePage chip addr binSize) := by
  refine .ite (.done false) (Closes.relocks ?_)
  refine .after (halts_setLock false) fun _ => .after (App.halts_eraseEach _ _) fun erased => ?_
  exact Closes.setLock.returning fun _ => true

theorem relocks_flashWriteBy {geometry : Geometry} {halves addr len : Nat} {buf : Nat → UInt8} :
    Relocks (flashWriteBy geometry halves addr buf len) := by
  refine .ite (.done 0) (Closes.relocks ?_)
  refine .after (halts_setLock false) fun _ => .after (halts_programUnits _ _ _ _) fun written => ?_
  refine .ite (Closes.setLock.returning _) (.ite ?_ (Closes.setLock.returning _))
  exact .after (halts_programHalves _ _ _) fun _ => Closes.setLock.returning _

theorem closes_runAppMode : Closes (runAppMode chip) :=
  .after (halts_setLock false) fun _ => .after (halts_erasePages _ _) fun _ => .setLock

theorem closes_programIapFlag (flag : Nat) : Closes (programIapFlag chip flag) :=
  .after (halts_setLock false) fun _ => .after (halts_programHalves _ _ _) fun _ => .setLock

theorem App.closes_programIapFlag (flag : Nat) : Closes (App.programIapFlag chip flag) :=
  .after (halts_setLock false) fun _ => .after (halts_programHalves _ _ _) fun _ =>
    .after (halts_programHalves _ _ _) fun _ => .setLock

section Flag

-- Comparing the flag word by evaluation would unfold its bytes.
attribute [local irreducible] iapFlag

theorem halts_leave (condition : Prop) [Decidable condition] :
    (if condition then runAppMode chip else .done ()).Halts :=
  Prog.halts_ite halts_runAppMode (Prog.halts_done ())

theorem closes_flag (firmware : CanFirmware) (routine : App.FlagRoutine) :
    Closes (FlashRoutine.program chip firmware (.flag routine)) := by
  have read : (readIAPMode chip).Halts := halts_readIAPMode
  cases firmware with
  | app =>
      cases routine with
      | runAppMode => exact closes_runAppMode
      | updateAppMode =>
          exact .after read fun _ => .after (halts_leave _) fun _ => App.closes_programIapFlag _
      | forceUpdateAppMode =>
          exact .after read fun _ => .after read fun _ => .after (halts_leave _) fun _ =>
            App.closes_programIapFlag _
  | iap =>
      cases routine with
      | runAppMode => exact closes_runAppMode
      | updateAppMode =>
          exact .after read fun _ => .after (halts_leave _) fun _ => closes_programIapFlag _
      | forceUpdateAppMode =>
          exact .after read fun _ => .after read fun _ => .after (halts_leave _) fun _ =>
            closes_programIapFlag _

end Flag

/-! ## The header -/

theorem covers_info {length : Nat} (fits : length ≤ flashPageSize) :
    chip.geometry.Covers chip.addrAppInfo length :=
  covers_pageFromEnd chip (by omega) (by omega)

theorem info_even : chip.addrAppInfo % 2 = 0 :=
  App.addr_even (pageFromEnd_aligned chip 4)

/-- The flash is closed after a range that has been programmed, and left open else. -/
theorem run_programUnits_close {geometry : Geometry} {halves count addr : Nat}
    (source : Nat → UInt8) (unlocked : state.locked = false)
    (covers : geometry.Covers addr (2 * halves * count)) (even : addr % 2 = 0) :
    ∃ stored after rest, Prog.run (programUnits geometry halves count addr source >>=
        fun written => if written = count then setLock geometry true >>= fun _ => .done true
          else .done false) (scheduled faults) state = .done stored after rest ∧
      (after.locked = true ↔ ∀ index < halves * count, (faults index).Accepts state.mem
        (addr + 2 * index) (source (2 * index)) (source (2 * index + 1))) := by
  obtain ⟨written, after, rest, ran, ends⟩ :=
    @run_programUnits geometry faults state halves count addr source unlocked covers even
  rw [Prog.run_bind, ran]
  dsimp only
  split
  · rename_i all
    rw [ends.tail all, run_setLock_bind]
    exact ⟨_, _, _, rfl, iff_of_true rfl (ends.complete_iff.mp all)⟩
  · rename_i failed
    refine ⟨false, after, rest, rfl, ?_⟩
    rw [ends.unlocked]
    exact iff_of_false nofun fun fine => failed (ends.complete_iff.mpr fine)

theorem App.run_flashStorageHeader (pData : Nat → UInt8) : ∃ stored after rest,
    Prog.run (App.flashStorageHeader chip pData) (scheduled faults) state =
        .done stored after rest ∧
      (after.locked = true ↔ ∀ index < 14, (faults (index + 1)).Accepts state.mem
        (chip.addrAppInfo + 2 * index) (pData (2 * index)) (pData (2 * index + 1))) := by
  have fits : 2 * 2 * 7 ≤ flashPageSize := by decide
  rw [App.flashStorageHeader, run_setLock_bind]
  exact run_programUnits_close pData rfl (covers_info fits) info_even

/-- An erase of one page, under given failures, leaves the flash locked; the page is erased
if it does not fail. -/
theorem run_erasePage_one {addr binSize : Nat} (positive : 0 < binSize)
    (fits : binSize ≤ flashPageSize) (contains : chip.geometry.Contains addr) :
    ∃ erased after, Prog.run (flashErasePage chip addr binSize) (scheduled faults) state =
        .done erased after (scheduled fun index => faults (index + 3)) ∧ after.locked = true ∧
      (erased = true ↔ ¬ (faults 1).Fails) ∧
      (erased = true → ∀ cell, cell / flashPageSize = addr / flashPageSize →
        after.mem cell = erasedByte) := by
  have size : flashPageSize = 2048 := rfl
  have accepted : ¬ (binSize > otaBinMaxSize ∨ binSize = 0) := by
    rw [otaBinMaxSize]
    omega
  have onePage : (binSize + flashPageSize - 1) / flashPageSize = 1 := by
    rw [size] at fits ⊢
    omega
  have opened : ¬ (false = true ∨ ¬ chip.geometry.Contains addr) := by simp [contains]
  rw [flashErasePage, if_neg accepted, run_setLock_bind, onePage, erasePages, Prog.bind_bind,
    run_erase_bind]
  unfold applyErase
  rw [if_neg opened]
  cases failure : faults 1 with
  | none | zeroOver =>
      refine ⟨true, _, rfl, rfl, iff_of_true rfl not_false, fun _ cell inside => ?_⟩
      exact if_pos inside
  | fail left =>
      refine ⟨false, _, rfl, rfl, iff_of_false Bool.false_ne_true (not_not.mpr trivial),
        fun done => absurd done Bool.false_ne_true⟩

/-- The bootloader closes the flash after a range on an erased page, unless an operation
on the range fails. -/
theorem run_erasePage_close {halves count addr : Nat} (source : Nat → UInt8)
    (aligned : addr % flashPageSize = 0) (covers : chip.geometry.Covers addr flashPageSize)
    (fits : 2 * halves * count ≤ flashPageSize) :
    ∃ stored after rest, Prog.run (flashErasePage chip addr flashPageSize >>= fun erased =>
        if erased then
          setLock _ false >>= fun _ =>
          programUnits _ halves count addr source >>= fun written =>
          if written = count then setLock _ true >>= fun _ => .done true else .done false
        else .done false) (scheduled faults) state = .done stored after rest ∧
      (after.locked = true ↔
        (¬ (faults 1).Fails → ∀ index < halves * count, ¬ (faults (index + 4)).Fails)) := by
  have size : flashPageSize = 2048 := rfl
  obtain ⟨lower, upper⟩ := covers
  obtain ⟨erased, middle, ran, locked, succeeds, page⟩ :=
    @run_erasePage_one chip faults state addr flashPageSize (by decide) le_rfl ⟨lower, by omega⟩
  rw [Prog.run_bind, ran]
  dsimp only
  cases erased with
  | false =>
      have failed : ¬ ¬ (faults 1).Fails := fun fine => Bool.false_ne_true (succeeds.mpr fine)
      exact ⟨false, middle, _, rfl, iff_of_true locked fun fine => absurd fine failed⟩
  | true =>
      rw [if_pos rfl, run_setLock_bind]
      obtain ⟨stored, after, rest, ended, locks⟩ := @run_programUnits_close
        (fun index => faults (index + 1 + 3)) { middle with locked := false } chip.geometry halves
        count addr source rfl ⟨lower, by omega⟩ (App.addr_even aligned)
      have blank (offset : Nat) (inside : offset < 2 * (halves * count)) :
          middle.mem (addr + offset) = erasedByte := by
        apply page rfl
        rw [Nat.mul_assoc, size] at fits
        rw [size] at aligned ⊢
        omega
      refine ⟨stored, after, rest, ended, locks.trans ?_⟩
      rw [forall_prop_of_true (succeeds.mp rfl)]
      refine forall₂_congr fun index inside => ?_
      exact Fault.accepts_erased (blank _ (by omega)) (blank (2 * index + 1) (by omega)) _ _ _

theorem run_flashStorageHeader (pData : Nat → UInt8) : ∃ stored after rest,
    Prog.run (flashStorageHeader chip pData) (scheduled faults) state =
        .done stored after rest ∧
      (after.locked = true ↔
        (¬ (faults 1).Fails → ∀ index < 12, ¬ (faults (index + 4)).Fails)) := by
  have fits : 2 * 4 * 3 ≤ flashPageSize := by decide
  rw [flashStorageHeader]
  exact run_erasePage_close pData (pageFromEnd_aligned chip 4) (covers_info le_rfl) fits

/-! ## All routines -/

theorem run_returning {geometry : Geometry} {program : FlashProg geometry α} {value : α}
    {schedule rest : FlashSchedule} {after : State}
    (ran : Prog.run program schedule state = .done value after rest) :
    Prog.run (program >>= fun _ => .done ()) schedule state = .done () after rest := by
  rw [Prog.run_bind, ran]
  rfl

/-- A routine that relocks returns with its result dropped. -/
theorem run_dropped {geometry : Geometry} {program : FlashProg geometry α}
    (relocks : Relocks program) (locked : state.locked = true) : ∃ after rest,
    Prog.run (program >>= fun _ => .done ()) (scheduled faults) state = .done () after rest ∧
      (after.locked = true ↔ True) := by
  obtain ⟨_, after, rest, ended, closed⟩ := (relocks.returning fun _ => ()).run faults state locked
  exact ⟨after, rest, ended, iff_of_true closed trivial⟩

/-- Whatever fails, a routine entered with the flash locked returns, and has locked it
again unless an operation on the header has failed. -/
theorem locked_on_return (chip : Chip) (firmware : CanFirmware) (routine : FlashRoutine)
    (faults : Nat → Fault) (state : State) (locked : state.locked = true) : ∃ after rest,
    Prog.run (routine.program chip firmware) (scheduled faults) state = .done () after rest ∧
      (after.locked = true ↔ routine.NoneFails chip faults state.mem firmware) := by
  cases routine with
  | erasePage addr binSize =>
      cases firmware with
      | app => exact run_dropped (App.relocks_flashErasePage addr binSize) locked
      | iap => exact run_dropped (relocks_flashErasePage addr binSize) locked
  | write addr buf len =>
      cases firmware with
      | app => exact run_dropped relocks_flashWriteBy locked
      | iap => exact run_dropped relocks_flashWriteBy locked
  | storageHeader pData =>
      cases firmware with
      | app =>
          obtain ⟨_, after, rest, ran, locks⟩ :=
            @App.run_flashStorageHeader chip faults state pData
          exact ⟨after, rest, run_returning ran, locks⟩
      | iap =>
          obtain ⟨_, after, rest, ran, locks⟩ :=
            @run_flashStorageHeader chip faults state pData
          exact ⟨after, rest, run_returning ran, locks⟩
  | flag routine =>
      obtain ⟨value, after, rest, ended, closed⟩ :=
        (@closes_flag chip firmware routine).relocks.run faults state locked
      exact ⟨after, rest, ended, by cases firmware <;> exact iff_of_true closed trivial⟩

theorem locked_on_return_erase : ∃ after rest,
    Prog.run (FlashRoutine.program sampleChip .iap (.erasePage 0x08010000 2048))
        (scheduled fun _ => .fail fun _ => 0) ⟨fun _ => erasedByte, true, []⟩ =
      .done () after rest ∧ after.locked = true := by
  obtain ⟨after, rest, ended, locks⟩ := locked_on_return sampleChip .iap
    (.erasePage 0x08010000 2048) (fun _ => .fail fun _ => 0) ⟨fun _ => erasedByte, true, []⟩ rfl
  exact ⟨after, rest, ended, locks.mpr trivial⟩

/-- A header that is not all zeros is refused by a page in use, and the flash stays open. -/
theorem App.run_storageHeader_used {pData : Nat → UInt8} (nonzero : pData 0 ≠ 0) :
    ∃ after rest, Prog.run (FlashRoutine.program chip .app (.storageHeader pData))
      (scheduled faults) ⟨fun _ => 0, true, []⟩ = .done () after rest ∧ after.locked = false := by
  obtain ⟨stored, after, rest, ran, locks⟩ :=
    @App.run_flashStorageHeader chip faults ⟨fun _ => 0, true, []⟩ pData
  refine ⟨after, rest, run_returning ran, ?_⟩
  cases open' : after.locked with
  | false => rfl
  | true =>
      have accepted := locks.mp open' 0 (by decide)
      have used : (0 : UInt8) ≠ erasedByte := by decide
      cases failure : faults 1 with
      | none =>
          rw [failure] at accepted
          exact absurd accepted.1 used
      | zeroOver =>
          rw [failure] at accepted
          exact accepted.elim (fun erased => absurd erased.1 used)
            fun zeros => absurd zeros.1 nonzero
      | fail left =>
          rw [failure] at accepted
          exact accepted.elim

/-- So it is without any failure of the flash, also where cells in use take zeros. -/
theorem header_leaves_open : ∃ after rest,
    Prog.run (FlashRoutine.program sampleChip .app (.storageHeader fun _ => 0x5A))
        (scheduled fun _ => .zeroOver) ⟨fun _ => 0, true, []⟩ = .done () after rest ∧
      after.locked = false :=
  @App.run_storageHeader_used sampleChip (fun _ => .zeroOver) (fun _ => 0x5A) (by decide)

end LedFirmware
