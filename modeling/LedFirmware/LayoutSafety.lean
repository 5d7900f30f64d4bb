import LedFirmware.IapRetries
import LedFirmware.UnpackBounds

/-!
# What an update may overwrite

The run area has a fixed start and a fixed size; the copy area, the header page and the flag
page are counted from the end of the flash.  On a small flash the two halves meet.
-/

namespace LedFirmware

open CrashProgram NorFlash Relation

section Layout

variable (chip : Chip) (uncompress : Uncompress) (header : IapUpdataParam)
  (allowed : Fault → Prop) (state : State)

/-- The copy area, the header page and the flag page. -/
def protectedCells : Set Nat :=
  copyArea chip ∪ pageAt chip.addrAppInfo ∪ pageAt chip.addrIapFlag

/-- The attempts of an update that starts in the state neither erase nor program a protected
cell. -/
def LayoutKept : Prop :=
  ∀ fuel attempt start, Begins chip allowed (fun attempt => attempt)
    (attempts chip uncompress fuel header) state attempt start →
  ∀ schedule : FlashSchedule, Schedule.Within (D := flash chip.geometry) allowed schedule →
    LogWithin chip.geometry (protectedCells chip)ᶜ start (Prog.run attempt schedule start).state

end Layout

variable {chip : Chip} {uncompress : Uncompress} {header : IapUpdataParam}
  {allowed : Fault → Prop} {state : State}

theorem copy_protected {cell : Nat} (inside : cell ∈ copyArea chip) :
    cell ∈ protectedCells chip := Or.inl (Or.inl inside)

/-! ## The attempts -/

theorem Begins.mem {ι : Type} {attempt : ι → FlashProg chip.geometry Bool} {tries : List ι}
    {state start : State} {tried : ι}
    (begins : Begins chip allowed attempt tries state tried start) : tried ∈ tries := by
  induction begins with
  | first => exact List.mem_cons_self
  | later within ended begins ih => exact List.mem_cons_of_mem _ ih

/-- Attempts are made in turn, however they are listed. -/
theorem begins_map {ι : Type} {attempt : ι → FlashProg chip.geometry Bool} {tries : List ι}
    {state start : State} {program : FlashProg chip.geometry Bool} :
    Begins chip allowed (fun attempt => attempt) (tries.map attempt) state program start ↔
      ∃ tried, program = attempt tried ∧ Begins chip allowed attempt tries state tried start := by
  constructor
  · intro begins
    induction tries generalizing state with
    | nil => cases begins
    | cons first others ih =>
        cases begins with
        | first => exact ⟨first, rfl, .first⟩
        | later within ended begins =>
            obtain ⟨tried, same, tail⟩ := ih begins
            exact ⟨tried, same, .later within ended tail⟩
  · rintro ⟨tried, rfl, begins⟩
    induction begins with
    | first => exact .first
    | later within ended begins ih => exact .later within ended ih

theorem attempts_sources (fuel : Nat) (compressed : header.compressFlag = 1) :
    attempts chip uncompress fuel header =
      (attemptSources chip).map (compressedAttempt chip uncompress fuel header) := by
  rw [attempts, if_pos compressed]
  rfl

/-- An attempt that ends does not depend on the budget of its loop. -/
theorem run_compressedAttempt_more {fuel pSrcData : Nat} {schedule rest : FlashSchedule}
    {start after : State} {verified : Bool}
    (ended : Prog.run (compressedAttempt chip uncompress fuel header pSrcData) schedule start =
      .done verified after rest) (more : Nat) :
    Prog.run (compressedAttempt chip uncompress (fuel + more) header pSrcData) schedule start =
      .done verified after rest := by
  have counted := @decompressLoop_eq chip uncompress header fuel ⟨pSrcData, 0, 0⟩
  have longer := @decompressLoop_eq chip uncompress header (fuel + more) ⟨pSrcData, 0, 0⟩
  rw [compressedAttempt, Prog.run_bind] at ended ⊢
  cases erase : Prog.run (flashErasePage chip flashAppRunAddr header.comPackOriginalSize) schedule
      start with
  | done erased opened tail =>
      rw [erase] at ended
      dsimp only at ended ⊢
      rw [counted, Prog.bind_bind, Prog.run_bind] at ended
      rw [longer, Prog.bind_bind, Prog.run_bind]
      cases loop : Prog.run (Prog.loop (UnpackMore header) (unpackStep chip uncompress header)
          fuel ⟨pSrcData, 0, 0⟩) tail opened with
      | done final unpacked left =>
          rw [loop] at ended
          rw [Prog.run_loop_more loop more]
          exact ended
      | lost unpacked | spin unpacked =>
          rw [loop] at ended
          cases ended
  | lost opened | spin opened =>
      rw [erase] at ended
      cases ended

theorem Begins.more {fuel pSrcData : Nat} {tries : List Nat} {start : State}
    (begins : Begins chip allowed (compressedAttempt chip uncompress fuel header) tries state
      pSrcData start) (more : Nat) :
    Begins chip allowed (compressedAttempt chip uncompress (fuel + more) header) tries state
      pSrcData start := by
  induction begins with
  | first => exact .first
  | later within ended begins ih => exact .later within (run_compressedAttempt_more ended more) ih

/-! ## Compressed images -/

/-- The iterations that lead to another one only add to the log. -/
theorem reaches_grows {first second : UnpackVars × State}
    (reached : ReflTransGen (Prog.LoopStep allowed (UnpackMore header)
      (unpackStep chip uncompress header)) first second) :
    LogWithin chip.geometry Set.univ first.2 second.2 := by
  induction reached with
  | refl => exact LogWithin.refl _
  | @tail middle last _ step ih =>
      obtain ⟨-, schedule, rest, -, run⟩ := step
      have grown := LogWithin.run (unpackStep chip uncompress header middle.1) schedule middle.2
      rw [run] at grown
      exact ih.trans grown

/-- A run of the attempts makes every iteration that begins: with enough budget, and on a fitting
schedule, it comes by the iteration. -/
theorem Iterates.reached {before : State} {vars : UnpackVars}
    (iterates : Iterates chip uncompress header allowed state vars before)
    {later : FlashSchedule} (within : Schedule.Within (D := flash chip.geometry) allowed later) :
    ∃ pSrcData start fuel, ∃ joined : FlashSchedule,
      Begins chip allowed (compressedAttempt chip uncompress fuel header) (attemptSources chip)
        state pSrcData start ∧
      Schedule.Within (D := flash chip.geometry) allowed joined ∧
      LogWithin chip.geometry Set.univ start before ∧
      LogWithin chip.geometry Set.univ
        (Prog.run (unpackStep chip uncompress header vars) later before).state
        (Prog.run (compressedAttempt chip uncompress fuel header pSrcData) joined start).state := by
  obtain ⟨pSrcData, start, schedule, accepted, opened, rest, ⟨fuel, starts⟩, withinErase, erased,
    reached, goesOn⟩ := iterates
  obtain ⟨more, tail, withinTail, loops⟩ := Prog.reaches_run_loop reached (fuel + 1) within
  have counted := @decompressLoop_eq chip uncompress header (fuel + 1 + more) ⟨pSrcData, 0, 0⟩
  obtain ⟨joined, withinJoined, spliced⟩ := @Prog.run_bind_splice _ _ _ _ _ (fun _ =>
    decompressLoop chip uncompress header (fuel + 1 + more) pSrcData 0 0 >>= fun uncomSizeCnt =>
    flashRead chip flashAppRunAddr >>= fun pSrcData =>
    if header.comPackOriginalCRC32 = (crc32 pSrcData uncomSizeCnt).toNat ∧
        header.comPackOriginalSize = uncomSizeCnt then
      stamp _ flashAppRunAddr header.comPackOriginalSize header.comPackOriginalCRC32 >>= fun _ =>
      .done true
    else .done false) _ _ _ _ _ _ erased withinErase withinTail
  refine ⟨pSrcData, start, fuel + 1 + more, joined, ?_, withinJoined, ?_, ?_⟩
  · rw [Nat.add_assoc]
    exact starts.more _
  · have grown := LogWithin.run (flashErasePage chip flashAppRunAddr header.comPackOriginalSize)
      schedule start
    rw [erased] at grown
    exact grown.trans (reaches_grows reached)
  · rw [compressedAttempt, spliced, counted, Prog.bind_bind, Prog.run_bind, loops,
      ← Prog.run_bind, Prog.loop_continues goesOn, Prog.bind_bind]
    exact LogWithin.run_grows _ _ _ _

/-- An erase of more pages than lie below the copy area reaches into it. -/
theorem mayIssue_erase_copy (works : ∃ fault, allowed fault ∧ ¬ fault.Fails) {length : Nat}
    (fits : length ≤ otaBinMaxSize) (reaches : ¬ BelowCopy chip length) (mem : Mem)
    (locked : Bool) : ∃ page ∈ copyArea chip,
      MayIssue allowed (flashErasePage chip flashAppRunAddr length) (.erased page) mem locked := by
  obtain ⟨base, top⟩ := covers_run chip (roundUp_le_max fits)
  have largest := roundUp_le_max fits
  have aligned : chip.addrAppCopy % flashPageSize = 0 := pageFromEnd_aligned chip 57
  have ordered := run_le_copy chip
  rw [BelowCopy, Nat.not_le] at reaches
  have positive : 0 < length := by
    rcases Nat.eq_zero_or_pos length with rfl | some
    · simp only [roundUp, flashPageSize] at reaches
      omega
    · exact some
  -- The last page to erase begins at or behind the start of the copy area.
  refine ⟨flashAppRunAddr + flashPageSize * ((length + flashPageSize - 1) / flashPageSize - 1),
    ?_, ?_⟩
  · simp only [copyArea, Set.mem_Ico, roundUp, flashAppRunAddr, flashPageSize, otaBinMaxSize]
      at aligned reaches largest ordered ⊢
    omega
  · rw [flashErasePage, if_neg (by omega)]
    refine MayIssue.bind_right (.setLock (works.imp fun _ both => both.1) false) ?_
    apply MayIssue.bind_left
    apply mayIssue_erasePages works base
    · simp only [roundUp, flashAppRunAddr, flashPageSize, Chip.geometry] at top ⊢
      omega
    · simp only [flashPageSize]
      omega

/-- If the first attempt begins with an erase, its pages lie below the copy area. -/
theorem LayoutKept.below (kept : LayoutKept chip uncompress header allowed state)
    (works : ∃ fault, allowed fault ∧ ¬ fault.Fails) {length fuel : Nat}
    (fits : length ≤ otaBinMaxSize) {next : Bool → FlashProg chip.geometry Bool}
    {later : List (FlashProg chip.geometry Bool)}
    (first : attempts chip uncompress fuel header =
      (flashErasePage chip flashAppRunAddr length >>= next) :: later) : BelowCopy chip length := by
  by_contra reaches
  obtain ⟨page, inside, issues⟩ := mayIssue_erase_copy works fits reaches state.mem state.locked
  have stays := kept fuel (flashErasePage chip flashAppRunAddr length >>= next) state
    (by rw [first]; exact .first)
  have outside := issues.bind_left.footprint_subset stays
  exact outside (rfl : page / _ = page / _) (copy_protected inside)

/-- The output of every iteration stays off the protected cells. -/
theorem LayoutKept.pieces (kept : LayoutKept chip uncompress header allowed state)
    (works : ∃ fault, allowed fault) (compressed : header.compressFlag = 1) {vars : UnpackVars}
    {before : State} (iterates : Iterates chip uncompress header allowed state vars before) :
    OutputCells chip uncompress header allowed vars before ⊆ (protectedCells chip)ᶜ := by
  refine (unpackStep_within_iff works vars before).mp fun later within => ?_
  obtain ⟨pSrcData, start, fuel, joined, begins, withinJoined, early, late⟩ :=
    iterates.reached within
  have whole := kept fuel _ start
    (by
      rw [attempts_sources fuel compressed]
      exact begins_map.mpr ⟨pSrcData, rfl, begins⟩) joined withinJoined
  exact whole.part early (LogWithin.run _ _ _) late

end LedFirmware
