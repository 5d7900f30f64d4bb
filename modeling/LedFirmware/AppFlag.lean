import LedFirmware.AppFlash
import LedFirmware.IapCrashSafety
import LedFirmware.NorFlashRefusals

/-!
# The update flag as the application writes it

The application programs the flag as two words that overlap in one half-word.  This
stores the request for an update, whose second half-word is erased; for the forced
update the second word meets a half-word that is programmed already.
-/

namespace LedFirmware.App

open CrashProgram NorFlash

section Routines

variable (chip : Chip)

/-- The condition reads the flag twice and always holds. -/
def forceUpdateAppMode : FlashProg chip.geometry Unit :=
  readIAPMode chip >>= fun flag => readIAPMode chip >>= fun again =>
  (if flag ≠ otaRunApp ∨ again ≠ otaUpdateApp then runAppMode chip else .done ()) >>= fun _ =>
  programIapFlag chip otaForceUpdateApp

end Routines

/-- The functions of `iap_if.c` that write the flag. -/
inductive FlagRoutine
  | runAppMode
  | updateAppMode
  | forceUpdateAppMode
  deriving DecidableEq, Repr

def FlagRoutine.program (chip : Chip) : FlagRoutine → FlashProg chip.geometry Unit
  | .runAppMode => LedFirmware.runAppMode chip
  | .updateAppMode => App.updateAppMode chip
  | .forceUpdateAppMode => App.forceUpdateAppMode chip

/-- The value that a routine assigns to `IAP_FLAG`. -/
def FlagRoutine.flag : FlagRoutine → Nat
  | .runAppMode => otaRunApp
  | .updateAppMode => otaUpdateApp
  | .forceUpdateAppMode => otaForceUpdateApp

variable {chip : Chip} {mem : Mem} {locked : Bool}

/-! ## The flag as eight bytes -/

/-- An overlay behind an address, as the bytes from that address on see it. -/
theorem bytesAt_overlay (base offset length : Nat) (source : Nat → UInt8) (mem : Mem) :
    bytesAt (overlay (base + offset) length source mem) base =
      overlay offset length source (bytesAt mem base) := by
  funext index
  by_cases inside : offset ≤ index ∧ index < offset + length
  · rw [bytesAt, overlay_inside _ _ (by omega) (by omega), overlay_inside _ _ inside.1 inside.2]
    congr 1
    omega
  · rw [bytesAt, overlay_outside _ _ (by omega), overlay_outside _ _ (by omega), bytesAt]

/-- The flag after words have been programmed at its start and behind its first half-word. -/
theorem iapFlag_words (erased : iapFlag chip mem = otaRunApp) (first second : Nat)
    (low high : Nat → UInt8) :
    iapFlag chip (overlay (chip.addrIapFlag + 2) second high
        (overlay chip.addrIapFlag first low mem)) =
      LittleEndian.value 8 (overlay 2 second high (overlay 0 first low fun _ => erasedByte)) := by
  have start := bytesAt_overlay chip.addrIapFlag 0 first low mem
  rw [Nat.add_zero] at start
  rw [iapFlag, bytesAt_overlay, start]
  apply LittleEndian.value_congr
  intro index inside
  have cell : bytesAt mem chip.addrIapFlag index = erasedByte :=
    iapFlag_eq_run.mp erased index inside
  unfold overlay
  rw [cell]

theorem erasedHalves_bytesAt (base count offset : Nat) (mem : Mem) :
    erasedHalves (bytesAt mem base) count offset = erasedHalves mem count (base + offset) := by
  induction count generalizing offset with
  | zero => rfl
  | succ count ih =>
      rw [erasedHalves, erasedHalves, ih]
      rfl

/-- What programming the two words of a flag makes of erased cells. -/
def flagOfWords (flag : Nat) : Nat :=
  let first := overlay 0 4 (LittleEndian.byte (flag % 2 ^ 32)) fun _ => erasedByte
  LittleEndian.value 8 (overlay 2 (2 * erasedHalves first 2 2)
    (LittleEndian.byte (flag / 2 ^ 16 % 2 ^ 32)) first)

/-! ## Without failures -/

theorem flag_even : chip.addrIapFlag % 2 = 0 := addr_even (pageFromEnd_aligned chip 1)

/-- The second word stops at the first half-word that the first one has programmed. -/
theorem ends_programIapFlag (flag : Nat) (erased : iapFlag chip mem = otaRunApp) : ∃ after,
    Ends (programIapFlag chip flag) mem locked () after true ∧
      iapFlag chip after = flagOfWords flag := by
  have even := @flag_even chip
  have page : flashPageSize = 2048 := rfl
  obtain ⟨lower, upper⟩ := @covers_flag chip flashPageSize le_rfl
  have cells := iapFlag_eq_run.mp erased
  have first := @ends_programHalves chip.geometry 2 chip.addrIapFlag (flag % 2 ^ 32) mem
    ⟨lower, by omega⟩ even fun index inside => cells index (by omega)
  have second := @ends_programHalves_upTo chip.geometry
    (overlay chip.addrIapFlag 4 (LittleEndian.byte (flag % 2 ^ 32)) mem) 2
    (chip.addrIapFlag + 2) (flag / 2 ^ 16 % 2 ^ 32) ⟨by omega, by omega⟩ (by omega)
  refine ⟨_, (Ends.setLock false).bind (first.bind (second.bind (.setLock true))), ?_⟩
  have halves : erasedHalves (overlay chip.addrIapFlag 4 (LittleEndian.byte (flag % 2 ^ 32)) mem)
      2 (chip.addrIapFlag + 2) =
        erasedHalves (overlay 0 4 (LittleEndian.byte (flag % 2 ^ 32)) fun _ => erasedByte) 2 2 := by
    have start := bytesAt_overlay chip.addrIapFlag 0 4 (LittleEndian.byte (flag % 2 ^ 32)) mem
    rw [Nat.add_zero] at start
    rw [← erasedHalves_bytesAt, start]
    apply erasedHalves_congr
    intro index inside
    have cell : bytesAt mem chip.addrIapFlag (2 + index) = erasedByte := cells _ (by omega)
    unfold overlay
    rw [cell]
  rw [halves]
  exact iapFlag_words erased 4 _ _ _

/-- The flag that a routine leaves. -/
def FlagRoutine.stored : FlagRoutine → Nat
  | .runAppMode => otaRunApp
  | .updateAppMode => otaUpdateApp
  | .forceUpdateAppMode => 0xFFFFFFFF12345678

theorem FlagRoutine.ends_program (routine : FlagRoutine) : ∃ after,
    Ends (routine.program chip) mem locked () after true ∧
      iapFlag chip after = routine.stored := by
  have erase := @ends_runAppMode chip mem locked
  cases routine with
  | runAppMode => exact ⟨_, erase, iapFlag_erased⟩
  | updateAppMode =>
      have words : flagOfWords otaUpdateApp = otaUpdateApp := by decide +kernel
      by_cases running : iapFlag chip mem = otaRunApp
      · obtain ⟨after, ends, flag⟩ := @ends_programIapFlag chip mem locked otaUpdateApp running
        refine ⟨after, (returns_readIAPMode.ends locked).bind ?_, flag.trans words⟩
        rw [if_neg (not_not.mpr running)]
        exact (Ends.done ()).bind ends
      · obtain ⟨after, ends, flag⟩ := @ends_programIapFlag chip _ true otaUpdateApp
          (@iapFlag_erased chip mem)
        refine ⟨after, (returns_readIAPMode.ends locked).bind ?_, flag.trans words⟩
        rw [if_pos running]
        exact erase.bind ends
  | forceUpdateAppMode =>
      have words : flagOfWords otaForceUpdateApp = 0xFFFFFFFF12345678 := by decide +kernel
      obtain ⟨after, ends, flag⟩ := @ends_programIapFlag chip _ true otaForceUpdateApp
        (@iapFlag_erased chip mem)
      refine ⟨after, (returns_readIAPMode.ends locked).bind
        ((returns_readIAPMode.ends locked).bind ?_), flag.trans words⟩
      rw [if_pos forceUpdateAppMode_erases]
      exact erase.bind ends

/-- From any contents, the flag reads back as the routine wanted it, except for the forced
update. -/
theorem flag_round_trip_iff (chip : Chip) (routine : FlagRoutine) (state : State) :
    Ensures (routine.program chip >>= fun _ => readIAPMode chip) state
        (fun flag _ => flag = routine.flag) ↔
      routine ≠ .forceUpdateAppMode := by
  obtain ⟨after, ends, stored⟩ := @FlagRoutine.ends_program chip state.mem state.locked routine
  have whole : Ends (routine.program chip >>= fun _ => readIAPMode chip) state.mem state.locked
      (iapFlag chip after) after true := ends.bind (returns_readIAPMode.ends true)
  have kept : routine.stored = routine.flag ↔ routine ≠ .forceUpdateAppMode := by
    cases routine <;> decide
  rw [whole.ensures_iff state.log, stored]
  exact kept

/-- A forced update from an erased flag. -/
theorem flag_not_round_trip : ¬ ∀ (chip : Chip) (routine : FlagRoutine) (state : State),
    Ensures (routine.program chip >>= fun _ => readIAPMode chip) state
      fun flag _ => flag = routine.flag := by
  intro always
  obtain ⟨after, ends, stored⟩ :=
    @FlagRoutine.ends_program sampleChip (fun _ => erasedByte) true .forceUpdateAppMode
  have whole : Ends (FlagRoutine.forceUpdateAppMode.program sampleChip >>= fun _ =>
      readIAPMode sampleChip) (fun _ => erasedByte) true (iapFlag sampleChip after) after true :=
    ends.bind (returns_readIAPMode.ends true)
  have same := (whole.ensures_iff []).mp
    (always sampleChip .forceUpdateAppMode ⟨fun _ => erasedByte, true, []⟩)
  rw [stored] at same
  exact absurd same (by decide)

/-! ## Power losses -/

/-- The flag when some of the four half-words of a request are programmed. -/
def requestStage : (steps : Nat) → Nat
  | 0 => otaRunApp
  | 1 | 2 | 3 => 0xFFFFFFFFFFFF5678
  | _ => otaUpdateApp

/-- Since `start` only half-words of a request have been programmed, over erased cells. -/
def Requested (chip : Chip) (start after : State) : Prop :=
  ∃ steps ≤ 4, programCount after.log = programCount start.log + steps ∧
    iapFlag chip after.mem = requestStage steps

theorem flagOfWords_stages : ∀ first ≤ 2, ∀ second ≤ 2, second = 0 ∨ first = 2 →
    LittleEndian.value 8 (overlay 2 (2 * second)
        (LittleEndian.byte (otaUpdateApp / 2 ^ 16 % 2 ^ 32))
        (overlay 0 (2 * first) (LittleEndian.byte (otaUpdateApp % 2 ^ 32)) fun _ => erasedByte)) =
      requestStage (first + second) := by
  decide +kernel

/-- The request is programmed half-word by half-word. -/
theorem wp_programIapFlag_request {start state : State}
    (counted : programCount state.log = programCount start.log)
    (erased : iapFlag chip state.mem = otaRunApp) :
    (programIapFlag chip otaUpdateApp).wp Reliable
      ⟨fun _ _ => True, Requested chip start, fun _ => True⟩ state := by
  have even := @flag_even chip
  have page : flashPageSize = 2048 := rfl
  obtain ⟨lower, upper⟩ := @covers_flag chip flashPageSize le_rfl
  have cells := iapFlag_eq_run.mp erased
  have begun : Requested chip start state := ⟨0, by omega, counted, erased⟩
  rw [programIapFlag, Prog.wp_bind]
  refine wp_setLock begun ((Prog.wp_bind _ _ _ _).mpr ?_)
  refine wp_programHalves_stages ⟨lower, by omega⟩ even (fun index inside => cells index (by omega))
    rfl ?_ ?_
  · intro stage early after reached
    have flag := iapFlag_words erased (2 * stage) 0 (LittleEndian.byte (otaUpdateApp % 2 ^ 32))
      (LittleEndian.byte (otaUpdateApp / 2 ^ 16 % 2 ^ 32))
    rw [overlay_zero] at flag
    refine ⟨stage, by omega, reached.programs.trans (by rw [counted]), ?_⟩
    rw [reached.mem, flag]
    exact flagOfWords_stages stage (by omega) 0 (by omega) (Or.inl rfl)
  · intro middle first
    have partly {stage : Nat} {after : State} (few : stage ≤ 2) (reached : Stage middle
        (chip.addrIapFlag + 2) (otaUpdateApp / 2 ^ 16 % 2 ^ 32) stage after) :
        Requested chip start after := by
      refine ⟨2 + stage, by omega, ?_, ?_⟩
      · have programs : programCount after.log = programCount state.log + 2 + stage :=
          reached.programs.trans (congrArg (· + stage) first.programs)
        rw [programs, counted, Nat.add_assoc]
      · rw [reached.mem, first.mem, iapFlag_words erased]
        exact flagOfWords_stages 2 le_rfl stage few (Or.inr rfl)
    refine (Prog.wp_bind _ _ _ _).mpr
      (wp_programHalves_stages ⟨by omega, by omega⟩ (by omega) ?_ first.locked
      (fun stage early after reached => partly (by omega) reached)
      fun after reached => wp_setLock (partly le_rfl reached) trivial)
    intro index inside
    rw [first.mem]
    rcases Nat.lt_or_ge index 2 with overlap | beyond
    · have high : ∀ index < 2,
          LittleEndian.byte (otaUpdateApp % 2 ^ 32) (2 + index) = erasedByte := by decide
      rw [overlay_inside _ _ (by omega) (by omega), ← high index overlap]
      exact congrArg (LittleEndian.byte (otaUpdateApp % 2 ^ 32)) (by omega)
    · rw [overlay_outside _ _ (by omega), Nat.add_assoc]
      exact cells _ (by omega)

-- Comparing the flag word by evaluation would unfold its bytes.
attribute [local irreducible] iapFlag in
theorem wp_updateAppMode_cut (state : State) :
    (updateAppMode chip).wp Reliable
      ⟨fun _ _ => True, fun after => after.log = state.log ∨ Requested chip state after,
        fun _ => True⟩ state := by
  refine returns_readIAPMode.wp_bind (Or.inl rfl) ?_
  have request {middle : State} (counted : programCount middle.log = programCount state.log)
      (erased : iapFlag chip middle.mem = otaRunApp) :
      (programIapFlag chip otaUpdateApp).wp Reliable
        ⟨fun _ _ => True, fun after => after.log = state.log ∨ Requested chip state after,
          fun _ => True⟩ middle :=
    Prog.wp_mono (wp_programIapFlag_request counted erased) (fun _ _ _ => trivial)
      (fun _ requested => Or.inr requested) fun _ _ => trivial
  by_cases running : iapFlag chip state.mem = otaRunApp
  · rw [if_neg (not_not.mpr running)]
    exact request rfl running
  · obtain ⟨lower, upper⟩ := @covers_flag chip flashPageSize le_rfl
    have page : flashPageSize = 2048 := rfl
    rw [if_pos running, Prog.wp_bind, runAppMode, Prog.wp_bind]
    refine wp_setLock (Or.inl rfl) ((Prog.wp_bind _ _ _ _).mpr ?_)
    rw [erasePages, Prog.wp_bind]
    refine wp_erase rfl ⟨lower, by omega⟩ (Or.inl rfl) ?_
    have erased : iapFlag chip (fillPage chip.geometry chip.addrIapFlag (fun _ => erasedByte)
        state.mem) = otaRunApp := by
      have aligned : chip.addrIapFlag % chip.geometry.page = 0 := pageFromEnd_aligned chip 1
      rw [fillPage_eq_overlay (page_positive chip) aligned]
      exact iapFlag_erased
    have counted : programCount (.erased chip.addrIapFlag :: state.log) =
        programCount state.log := List.countP_cons_of_neg (by simp)
    dsimp only
    rw [if_pos rfl]
    refine (Prog.wp_done _ _ _).mpr (wp_setLock (Or.inr ⟨0, by omega, counted, erased⟩) ?_)
    exact request counted erased

attribute [local irreducible] iapFlag in
/-- A flag that is neither of the two makes the bootloader stay in its own loop. -/
theorem returns_bootEntry_iap (uncompress : Uncompress) (fuel : Nat)
    (notRunning : iapFlag chip mem ≠ otaRunApp) (notUpdating : iapFlag chip mem ≠ otaUpdateApp) :
    Returns (bootEntry chip uncompress fuel) mem .otaoe := by
  have decided : verdict chip mem = .iap := by
    rw [verdict, if_neg notRunning, if_neg notUpdating]
  refine returns_bootChecks.bind ?_
  rw [decided]
  exact .done BootEntry.otaoe

attribute [local irreducible] iapFlag in
/-- A power loss inside the request, at any point behind its first flash operation and
from any contents: before the first half-word the flag makes the next boot run the
application, behind the fourth one it makes it check the update, and in between it sends
it into IAP mode. -/
theorem update_request_cut (chip : Chip) (uncompress : Uncompress) (fuel : Nat)
    (state after : State) (schedule : FlashSchedule)
    (within : Schedule.Within (D := flash chip.geometry) Reliable schedule)
    (lost : Prog.run (updateAppMode chip) schedule state = .lost after)
    (begun : after.log ≠ state.log) :
    let steps := programCount after.log - programCount state.log
    (steps = 0 ∧ iapFlag chip after.mem = otaRunApp ∧
        Returns (bootChecks chip) after.mem .runApp) ∨
      ((0 < steps ∧ steps < 4) ∧ iapFlag chip after.mem = 0xFFFFFFFFFFFF5678 ∧
        Returns (bootEntry chip uncompress fuel) after.mem .otaoe) ∨
      (steps = 4 ∧ iapFlag chip after.mem = otaUpdateApp ∧
        Returns (bootChecks chip) after.mem
          (if GateAccepts chip after.mem (headerAt chip after.mem) then
            .update (headerAt chip after.mem)
          else .reject)) := by
  have meets := Prog.run_meets (wp_updateAppMode_cut state) within
  rw [lost] at meets
  obtain ⟨steps, few, counted, flag⟩ := meets.resolve_left begun
  have checks := @returns_bootChecks chip after.mem
  have difference : programCount after.log - programCount state.log = steps := by omega
  dsimp only
  rw [difference]
  have stages : steps = 0 ∨ (0 < steps ∧ steps < 4) ∨ steps = 4 := by omega
  rcases stages with rfl | ⟨some, notAll⟩ | rfl
  · have running : iapFlag chip after.mem = otaRunApp := flag
    rw [verdict, if_pos running] at checks
    exact Or.inl ⟨rfl, running, checks⟩
  · have between : requestStage steps = 0xFFFFFFFFFFFF5678 := by
      have three : steps = 1 ∨ steps = 2 ∨ steps = 3 := by omega
      rcases three with rfl | rfl | rfl <;> rfl
    have flag := flag.trans between
    refine Or.inr (Or.inl ⟨⟨some, notAll⟩, flag, returns_bootEntry_iap uncompress fuel ?_ ?_⟩)
    · rw [flag]
      decide
    · rw [flag]
      decide
  · have updating : iapFlag chip after.mem = otaUpdateApp := flag
    have notRunning : iapFlag chip after.mem ≠ otaRunApp := by
      rw [updating]
      decide
    rw [verdict, if_neg notRunning, if_pos updating] at checks
    exact Or.inr (Or.inr ⟨rfl, updating, checks⟩)

/-- The request on an erased flash, with a power loss behind its first half-word. -/
def requestCut : Outcome (flash sampleChip.geometry) Unit :=
  Prog.run (updateAppMode sampleChip) (poweredFor 3) ⟨fun _ => erasedByte, true, []⟩

theorem requestCut_lost : requestCut = .lost requestCut.state := by
  have lost : (requestCut.rec (fun _ _ _ => false) (fun _ => true) fun _ => false : Bool) =
      true := by
    decide +kernel
  cases ended : requestCut with
  | lost after => rfl
  | done value after rest =>
      rw [ended] at lost
      cases lost
  | spin after =>
      rw [ended] at lost
      cases lost

theorem update_request_cut_erased :
    let after := requestCut.state
    let steps := programCount after.log - programCount []
    (steps = 0 ∧ iapFlag sampleChip after.mem = otaRunApp ∧
        Returns (bootChecks sampleChip) after.mem .runApp) ∨
      ((0 < steps ∧ steps < 4) ∧ iapFlag sampleChip after.mem = 0xFFFFFFFFFFFF5678 ∧
        Returns (bootEntry sampleChip zeroUncompress 1) after.mem .otaoe) ∨
      (steps = 4 ∧ iapFlag sampleChip after.mem = otaUpdateApp ∧
        Returns (bootChecks sampleChip) after.mem
          (if GateAccepts sampleChip after.mem (headerAt sampleChip after.mem) then
            .update (headerAt sampleChip after.mem)
          else .reject)) :=
  update_request_cut sampleChip zeroUncompress 1 ⟨fun _ => erasedByte, true, []⟩
    requestCut.state (poweredFor 3) (poweredFor_within 3) requestCut_lost (by decide +kernel)

/-- The cut leaves a flag that is neither of the two. -/
theorem update_request_not_atomic : ¬ ∀ (chip : Chip) (state after : State)
    (schedule : FlashSchedule), Schedule.Within (D := flash chip.geometry) Reliable schedule →
    Prog.run (updateAppMode chip) schedule state = .lost after → after.log ≠ state.log →
    iapFlag chip after.mem = otaRunApp ∨ iapFlag chip after.mem = otaUpdateApp := by
  intro atomic
  have flag := atomic sampleChip ⟨fun _ => erasedByte, true, []⟩ requestCut.state (poweredFor 3)
    (poweredFor_within 3) requestCut_lost (by decide +kernel)
  revert flag
  decide +kernel

end LedFirmware.App
