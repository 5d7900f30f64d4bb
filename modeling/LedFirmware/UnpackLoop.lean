import LedFirmware.BudgetedLoop
import LedFirmware.IapCompressedUpdate

/-!
# When the decompress-and-program loop ends

The loop counts the staged bytes that `uncompress` has consumed and looks at nothing else:
the status code and the size of a pack are not checked.  It ends if every call consumes
something; a call that consumes nothing is repeated forever.
-/

namespace LedFirmware

open CrashProgram NorFlash

/-- The variables of the loop. -/
structure UnpackVars where
  pSrcData : Nat
  comSizeCnt : Nat
  uncomSizeCnt : Nat

/-- The lengths that `uncompress` may return: it consumes no more than it is given and
produces no more than fits. -/
structure LengthContract (uncompress : Uncompress) : Prop where
  consumed : ∀ source sourceLen destLen,
    (uncompress source sourceLen destLen).sourceLen ≤ sourceLen
  produced : ∀ source sourceLen destLen,
    (uncompress source sourceLen destLen).destLen ≤ destLen

section Loop

variable (chip : Chip) (uncompress : Uncompress) (header : IapUpdataParam)

/-- The condition of the loop. -/
abbrev UnpackMore (vars : UnpackVars) : Prop := vars.comSizeCnt < header.updatesTotalSize

/-- The size of a pack, doubled, is both the input and the output length of a call. -/
def packRoom : Nat := header.perComPackOriginalSize * 2

/-- What a call leaves, given the flash. -/
def unpackPiece (vars : UnpackVars) (mem : Mem) : Uncompressed :=
  uncompress (bytesAt mem vars.pSrcData) (packRoom header) (packRoom header)

/-- The variables behind an iteration. -/
def UnpackVars.next (vars : UnpackVars) (piece : Uncompressed) : UnpackVars where
  pSrcData := (vars.pSrcData + piece.sourceLen) % 2 ^ 32
  comSizeCnt := (vars.comSizeCnt + piece.sourceLen) % 2 ^ 32
  uncomSizeCnt := (vars.uncomSizeCnt + piece.destLen) % 2 ^ 32

/-- The body of the loop. -/
def unpackStep (vars : UnpackVars) : FlashProg chip.geometry UnpackVars :=
  read _ >>= fun mem =>
  flashWrite chip ((flashAppRunAddr + vars.uncomSizeCnt) % 2 ^ 32)
    (unpackPiece uncompress header vars mem).dest
    (unpackPiece uncompress header vars mem).destLen >>= fun _ =>
  .done (vars.next (unpackPiece uncompress header vars mem))

end Loop

variable {chip : Chip} {uncompress : Uncompress} {header : IapUpdataParam}

/-- The loop of `main` is a budgeted loop. -/
theorem decompressLoop_eq (fuel : Nat) (vars : UnpackVars) :
    decompressLoop chip uncompress header fuel vars.pSrcData vars.comSizeCnt vars.uncomSizeCnt =
      Prog.loop (UnpackMore header) (unpackStep chip uncompress header) fuel vars >>=
        fun final => .done final.uncomSizeCnt := by
  induction fuel generalizing vars with
  | zero => rfl
  | succ fuel ih =>
      by_cases more : UnpackMore header vars
      · rw [decompressLoop, if_pos more, Prog.loop_continues more, unpackStep, flashRead]
        simp only [Prog.bind_bind, Prog.done_bind]
        congr 1
        funext mem
        congr 1
        funext written
        exact ih (vars.next (unpackPiece uncompress header vars mem))
      · rw [decompressLoop, if_neg more, Prog.loop_ended more]
        rfl

/-! ## Termination -/

/-- What holds of the variables behind every piece holds behind an iteration. -/
theorem yields_unpackStep {vars : UnpackVars} {good : UnpackVars → Prop}
    (each : ∀ mem, good (vars.next (unpackPiece uncompress header vars mem))) :
    (unpackStep chip uncompress header vars).Yields good := by
  apply Prog.yields_after
  intro mem
  apply Prog.yields_after
  intro written
  exact each mem

theorem halts_unpackStep (vars : UnpackVars) : (unpackStep chip uncompress header vars).Halts := by
  apply Prog.halts_bind halts_read
  intro mem
  apply Prog.halts_bind halts_flashWriteBy
  intro written
  exact Prog.halts_done _

-- Unfolding the forced entry would compare flag words by evaluation.
attribute [local irreducible] forceUpdateAppMode in
/-- If every attempt ends, so does the update. -/
theorem halts_updateAttempts {tries : List (FlashProg chip.geometry Bool)}
    (halts : ∀ attempt ∈ tries, attempt.Halts) : (updateAttempts chip tries).Halts := by
  induction tries with
  | nil =>
      refine Prog.halts_bind (halts_setLock true) fun _ => ?_
      exact Prog.halts_bind halts_forceUpdateAppMode fun _ => Prog.halts_done _
  | cons attempt later ih =>
      have leave : (setLock chip.geometry true >>= fun _ => runAppMode chip >>= fun _ =>
          .done BootEntry.reset).Halts :=
        Prog.halts_bind (halts_setLock true) fun _ =>
          Prog.halts_bind halts_runAppMode fun _ => Prog.halts_done _
      refine Prog.halts_bind (halts attempt List.mem_cons_self) fun verified => ?_
      apply Prog.halts_ite leave
      exact ih fun other member => halts other (List.mem_cons_of_mem _ member)

/-- When every call consumes something, the bytes still to be consumed bound the iterations. -/
theorem halts_compressedAttempt (lengths : LengthContract uncompress)
    (fits : header.updatesTotalSize ≤ otaBinMaxSize)
    (field : header.perComPackOriginalSize < 2 ^ 16)
    (progress : header.updatesTotalSize = 0 ∨ ∀ source, 0 <
      (uncompress source (packRoom header) (packRoom header)).sourceLen)
    {fuel : Nat} (budget : header.updatesTotalSize < fuel) (pSrcData : Nat) :
    (compressedAttempt chip uncompress fuel header pSrcData).Halts := by
  have decreases (vars : UnpackVars) (more : UnpackMore header vars) :
      (unpackStep chip uncompress header vars).Yields fun next =>
        header.updatesTotalSize - next.comSizeCnt <
          header.updatesTotalSize - vars.comSizeCnt := by
    apply yields_unpackStep
    intro mem
    have counted : vars.comSizeCnt < header.updatesTotalSize := more
    have consumed := lengths.consumed (bytesAt mem vars.pSrcData) (packRoom header)
      (packRoom header)
    have positive := progress.resolve_left (by omega) (bytesAt mem vars.pSrcData)
    have noWrap : (vars.comSizeCnt + (unpackPiece uncompress header vars mem).sourceLen) %
          2 ^ 32 = vars.comSizeCnt + (unpackPiece uncompress header vars mem).sourceLen := by
      apply Nat.mod_eq_of_lt
      simp only [unpackPiece, packRoom, otaBinMaxSize, flashPageSize] at consumed fits ⊢
      omega
    simp only [UnpackVars.next, noWrap]
    simp only [unpackPiece]
    omega
  have loop := @decompressLoop_eq chip uncompress header fuel ⟨pSrcData, 0, 0⟩
  rw [compressedAttempt, loop]
  apply Prog.halts_bind (halts_flashErasePage _ _)
  intro erased
  apply Prog.halts_bind
  · apply Prog.halts_bind
    · exact Prog.halts_loop (fun vars _ => halts_unpackStep vars) decreases budget
    · exact fun final => Prog.halts_done _
  · intro uncomSizeCnt
    apply Prog.halts_bind (Prog.halts_bind halts_read fun _ => Prog.halts_done _)
    intro run
    apply Prog.halts_ite
    · exact Prog.halts_bind (halts_stamp _ _ _) fun _ => Prog.halts_done _
    · exact Prog.halts_done _

/-! ## The loop that never ends -/

/-- A call that consumes nothing moves neither the source pointer nor the counter of consumed
bytes. -/
theorem UnpackVars.next_stalled {vars : UnpackVars} {piece : Uncompressed}
    (nothing : piece.sourceLen = 0) (pointer : vars.pSrcData < 2 ^ 32)
    (counter : vars.comSizeCnt < 2 ^ 32) :
    (vars.next piece).pSrcData = vars.pSrcData ∧
      (vars.next piece).comSizeCnt = vars.comSizeCnt := by
  simp only [UnpackVars.next, nothing, Nat.add_zero]
  exact ⟨Nat.mod_eq_of_lt pointer, Nat.mod_eq_of_lt counter⟩

/-- The states in which a staged update stands still: whatever fails, a run from one of them ends
in one of them, and the first call of `uncompress` consumes nothing. -/
structure Stalls (chip : Chip) (uncompress : Uncompress) (header : IapUpdataParam)
    (allowed : Fault → Prop) (still : State → Prop) : Prop where
  compressed : header.compressFlag = 1
  staged : 0 < header.updatesTotalSize
  stays : ∀ {α : Type} (program : FlashProg chip.geometry α) {state : State}, still state →
    program.wp allowed ⟨fun _ => still, fun _ => True, still⟩ state
  consumesNothing : ∀ state : State, still state →
    (uncompress (bytesAt state.mem chip.addrAppCopy) (packRoom header)
      (packRoom header)).sourceLen = 0

section Stalled

variable {allowed : Fault → Prop} {still : State → Prop}

/-- As long as the flash shows bytes of which a call consumes none, the first attempt repeats
that call. -/
theorem wp_compressedAttempt_stalled (stalls : Stalls chip uncompress header allowed still)
    (fuel : Nat) {state : State} (start : still state) :
    (compressedAttempt chip uncompress fuel header chip.addrAppCopy).wp allowed
      ⟨fun _ _ => False, fun _ => True, fun _ => True⟩ state := by
  have addressed : chip.addrAppCopy < 2 ^ 32 := by
    have bound := copy_lt chip
    omega
  -- The source pointer and the counter of consumed bytes stand still.
  have loop := @Prog.wp_loop_never_done (flash chip.geometry) UnpackVars allowed
    (UnpackMore header) _ (unpackStep chip uncompress header)
    (fun vars state => (vars.pSrcData = chip.addrAppCopy ∧ vars.comSizeCnt = 0) ∧ still state)
    (fun vars _ here => by
      rw [UnpackMore, here.1.2]
      exact stalls.staged)
    (fun vars state here => by
      obtain ⟨⟨source, count⟩, shown⟩ := here
      have nothing : (unpackPiece uncompress header vars state.mem).sourceLen = 0 := by
        rw [unpackPiece, source]
        exact stalls.consumesNothing state shown
      obtain ⟨pointer, counter⟩ := UnpackVars.next_stalled nothing
        (lt_of_eq_of_lt source addressed) (lt_of_eq_of_lt count (by decide))
      rw [unpackStep, Prog.wp_bind]
      refine wp_read trivial ((Prog.wp_bind _ _ _ _).mpr ?_)
      refine Prog.wp_mono (stalls.stays _ shown) (fun written after shows => ?_)
        (fun _ _ => trivial) fun _ _ => trivial
      exact (Prog.wp_done _ _ _).mpr ⟨⟨pointer.trans source, counter.trans count⟩, shows⟩)
    fuel
  have counted := @decompressLoop_eq chip uncompress header fuel ⟨chip.addrAppCopy, 0, 0⟩
  rw [compressedAttempt, counted, Prog.wp_bind]
  refine Prog.wp_mono (stalls.stays _ start) (fun erased after shown => ?_) (fun _ _ => trivial)
    fun _ _ => trivial
  dsimp only
  rw [Prog.bind_bind, Prog.wp_bind]
  exact Prog.wp_mono (loop ⟨⟨rfl, rfl⟩, shown⟩) (fun _ _ impossible => impossible.elim)
    (fun _ _ => trivial) fun _ _ => trivial

theorem wp_updateAttempts_stalled (stalls : Stalls chip uncompress header allowed still)
    (fuel : Nat) {state : State} (start : still state) :
    (updateAttempts chip (attempts chip uncompress fuel header)).wp allowed
      ⟨fun _ _ => False, fun _ => True, fun _ => True⟩ state := by
  rw [attempts_compressed fuel stalls.compressed, updateAttempts, Prog.wp_bind]
  exact Prog.wp_mono (wp_compressedAttempt_stalled stalls fuel start)
    (fun _ _ impossible => impossible.elim) (fun _ _ => trivial) fun _ _ => trivial

/-- On a flash whose operations all fail without a trace the loop goes on forever. -/
theorem updateAttempts_never_done {mem : Mem}
    (nothing : (uncompress (bytesAt mem chip.addrAppCopy) (packRoom header)
      (packRoom header)).sourceLen = 0)
    (compressed : header.compressFlag = 1) (staged : 0 < header.updatesTotalSize) (fuel : Nat)
    {entry : BootEntry} {after : State} {rest : FlashSchedule} :
    Prog.run (updateAttempts chip (attempts chip uncompress fuel header))
      (fun _ => some (Fault.fail mem)) (⟨mem, true, []⟩ : State) ≠ .done entry after rest := by
  intro ended
  have stalls : Stalls chip uncompress header (fun fault => fault = .fail mem)
      fun state => state.mem = mem := by
    refine ⟨compressed, staged, fun program state same => ?_, fun state same => ?_⟩
    · exact Prog.wp_mono (wp_frozen program same) (fun _ _ kept => kept) (fun _ _ => trivial)
        fun _ kept => kept
    · rw [same]
      exact nothing
  have start : (⟨mem, true, []⟩ : State).mem = mem := rfl
  have stuck := wp_updateAttempts_stalled stalls fuel start
  have within : Schedule.Within (D := flash chip.geometry) (fun fault => fault = .fail mem)
      fun _ => some (Fault.fail mem) :=
    fun _ fault scheduled => (Option.some.inj scheduled).symm
  have meets := Prog.run_meets stuck within
  rw [ended] at meets
  exact meets

/-- A decompressor that never consumes anything keeps the bootloader in the loop. -/
theorem main_never_done {state : State} (verdictIs : verdict chip state.mem = .update header)
    (nothing : ∀ source, (uncompress source (packRoom header) (packRoom header)).sourceLen = 0)
    (compressed : header.compressFlag = 1) (staged : 0 < header.updatesTotalSize) (fuel : Nat)
    {schedule rest : FlashSchedule} {finish : BootEnd} {after : State} :
    Prog.run (main chip uncompress fuel) schedule state ≠ .done finish after rest := by
  intro ended
  have stalls : Stalls chip uncompress header AnyFault fun _ => True :=
    ⟨compressed, staged, fun program state _ => Prog.wp_true program state, fun _ _ => nothing _⟩
  have boot : (main chip uncompress fuel).wp AnyFault
      ⟨fun _ _ => False, fun _ => True, fun _ => True⟩ state := by
    refine (Prog.wp_bind _ _ _ _).mpr (wp_bootEntry trivial ?_)
    rw [verdictIs]
    refine (Prog.wp_bind _ _ _ _).mpr (wp_setLock trivial ?_)
    exact Prog.wp_mono (wp_updateAttempts_stalled stalls fuel trivial)
      (fun _ _ impossible => impossible.elim) (fun _ _ => trivial) fun _ _ => trivial
  have meets := Prog.run_meets boot (anyFault_within schedule)
  rw [ended] at meets
  exact meets

end Stalled

/-- A header of a compressed update with these sizes. -/
def packedHeader (total per : Nat) (crc : UInt32) : IapUpdataParam where
  compressFlag := 1
  updatesTotalSize := total
  updatesSubSize := 0
  updatesCRC32 := crc.toNat
  comPackOriginalSize := 0
  comPackNo := 0
  perComPackOriginalSize := per
  comPackOriginalCRC32 := 0

/-- A compressed update ends on every flash exactly when nothing is staged or every call of
`uncompress` consumes something. -/
theorem unpack_terminates_iff (chip : Chip) {uncompress : Uncompress}
    (lengths : LengthContract uncompress) {total per : Nat} (fits : total ≤ otaBinMaxSize)
    (field : per < 2 ^ 16) :
    (∀ header : IapUpdataParam, header.compressFlag = 1 → header.updatesTotalSize = total →
      header.perComPackOriginalSize = per → ∀ (state : State) (schedule : FlashSchedule),
      GateAccepts chip state.mem header →
      Schedule.Powered (D := flash chip.geometry) schedule →
      ∃ fuel entry after rest, Prog.run
        (updateAttempts chip (attempts chip uncompress fuel header)) schedule state =
          .done entry after rest) ↔
      total = 0 ∨ ∀ source, 0 < (uncompress source (per * 2) (per * 2)).sourceLen := by
  constructor
  · intro terminates
    by_contra stalls
    rw [not_or, not_forall] at stalls
    obtain ⟨staged, source, nothing⟩ := stalls
    -- Stage the bytes of which nothing is consumed.
    obtain ⟨mem, shown⟩ : ∃ mem, bytesAt mem chip.addrAppCopy = source := by
      refine ⟨fun cell => source (cell - chip.addrAppCopy), ?_⟩
      funext index
      rw [bytesAt, Nat.add_sub_cancel_left]
    have accepted : GateAccepts chip mem (packedHeader total per (crc32 source total)) := by
      refine ⟨fits, ?_⟩
      rw [shown]
      rfl
    obtain ⟨fuel, entry, after, rest, ended⟩ := terminates
      (packedHeader total per (crc32 source total)) rfl rfl rfl ⟨mem, true, []⟩
      (fun _ => some (Fault.fail mem)) accepted fun _ lost => by cases lost
    refine updateAttempts_never_done ?_ rfl (Nat.pos_of_ne_zero staged) fuel ended
    rw [shown]
    exact Nat.eq_zero_of_not_pos nothing
  · rintro progress header compressed rfl rfl state schedule accepted powered
    have halts : (updateAttempts chip
        (attempts chip uncompress (header.updatesTotalSize + 1) header)).Halts := by
      apply halts_updateAttempts
      intro attempt member
      rw [attempts_compressed _ compressed] at member
      rcases List.mem_cons.mp member with rfl | later
      · exact halts_compressedAttempt lengths fits field progress (Nat.lt_succ_self _) _
      · obtain ⟨-, rfl⟩ := List.mem_replicate.mp later
        exact halts_compressedAttempt lengths fits field progress (Nat.lt_succ_self _) _
    obtain ⟨entry, after, used, ended⟩ := Prog.run_halts halts powered state
    exact ⟨_, entry, after, _, ended⟩

theorem zeroUncompress_lengths : LengthContract zeroUncompress := by
  constructor
  · intro source sourceLen destLen
    unfold zeroUncompress
    split
    · next known => exact known.1
    · exact Nat.min_le_right _ _
  · intro source sourceLen destLen
    unfold zeroUncompress
    split
    · next known => exact known.2.1
    · exact Nat.zero_le _

theorem unpack_terminates_sample : ∃ fuel entry after rest, Prog.run
    (updateAttempts sampleChip
      (attempts sampleChip zeroUncompress fuel (headerAt sampleChip zeroSample)))
    faultless (⟨zeroSample, true, []⟩ : State) = .done entry after rest := by
  have consumes (source : Nat → UInt8) : 0 < (zeroUncompress source (8 * 2) (8 * 2)).sourceLen := by
    unfold zeroUncompress
    split <;> decide
  exact (unpack_terminates_iff sampleChip zeroUncompress_lengths
    (show 11 ≤ otaBinMaxSize by decide) (show 8 < 2 ^ 16 by decide)).mpr (Or.inr consumes) _
    (by decide +kernel) (by decide +kernel) (by decide +kernel) _ _ (by decide +kernel)
    faultless_powered

/-- The sample with a pack size of zero in its header. -/
def zeroPackFlash : Mem :=
  stagedFlash sampleChip otaUpdateApp
    [1, 0, 11, 0, 0, 0, 16, 0, 0x3B, 0xFC, 0xF6, 0xB0, 8, 0, 0, 0, 1, 0, 0, 0, 0x69, 0xDF, 0x22,
      0x65] zeroStream

/-- The bootloader accepts that header and never leaves the loop. -/
theorem unpack_never_ends :
    GateAccepts sampleChip zeroPackFlash (headerAt sampleChip zeroPackFlash) ∧
      ¬ ∃ fuel finish after rest, Prog.run (main sampleChip zeroUncompress fuel) faultless
        (powerUp ⟨zeroPackFlash, true, []⟩) = .done finish after rest := by
  have accepted : GateAccepts sampleChip zeroPackFlash (headerAt sampleChip zeroPackFlash) := by
    decide +kernel
  refine ⟨accepted, ?_⟩
  rintro ⟨fuel, finish, after, rest, ended⟩
  have room : packRoom (headerAt sampleChip zeroPackFlash) = 0 := by decide +kernel
  have update : verdict sampleChip zeroPackFlash =
      .update (headerAt sampleChip zeroPackFlash) := verdict_update (by decide +kernel) accepted
  refine @main_never_done sampleChip zeroUncompress (headerAt sampleChip zeroPackFlash)
    (powerUp ⟨zeroPackFlash, true, []⟩) update (fun source => ?_) (by decide +kernel)
    (by decide +kernel) fuel _ _ _ _ ended
  rw [room]
  exact Nat.le_zero.mp (zeroUncompress_lengths.consumed source 0 0)

end LedFirmware
