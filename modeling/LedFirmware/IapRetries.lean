import LedFirmware.IapCompressedUpdate

/-!
# Attempts after a failed attempt

An uncompressed attempt re-reads the copy area, so it recovers from whatever a
failed attempt left.  A compressed attempt after a failed one starts with its
source pointer in the run area it has just erased, so it cannot recover.
-/

namespace LedFirmware

open CrashProgram NorFlash

section Definitions

variable (chip : Chip)

/-- Make the given attempts, all of which fail to verify. -/
def failing : List (FlashProg chip.geometry Bool) → FlashProg chip.geometry Unit
  | [] => .done ()
  | attempt :: later =>
      attempt >>= fun verified => if verified then .spin else failing later

/-- `enter` up to and including `count` failed attempts of an update; a boot of
another kind does not get there. -/
def enterFailing (uncompress : Uncompress) (fuel count : Nat) :
    Verdict → FlashProg chip.geometry Unit
  | .update header =>
      setLock _ false >>= fun _ =>
      failing chip ((attempts chip uncompress fuel header).take count)
  | .runApp | .reject | .iap => .spin

/-- The part of a boot up to and including `count` failed attempts. -/
def firstFailed (uncompress : Uncompress) (fuel count : Nat) : FlashProg chip.geometry Unit :=
  bootChecks chip >>= enterFailing chip uncompress fuel count

/-- The image that a checked update is meant to install. -/
inductive Staged (ZlibStream : (stream output : List UInt8) → Prop) (mem : Mem) :
    (image : Nat → UInt8) → (length : Nat) → Prop
  | plain (updating : iapFlag chip mem = otaUpdateApp)
      (accepted : GateAccepts chip mem (headerAt chip mem))
      (plain : (headerAt chip mem).compressFlag ≠ 1) :
      Staged ZlibStream mem (bytesAt mem chip.addrAppCopy) (headerAt chip mem).updatesTotalSize
  | compressed {original staged : List UInt8}
      (pending : CompressedStaged chip ZlibStream mem original staged) :
      Staged ZlibStream mem (bufferOf original) original.length

/-- For every previous content of the run area: if failures make the first
`count` attempts of a boot fail and nothing fails afterwards, that boot installs
the image and resets with the run flag. -/
def Recovers (uncompress : Uncompress) (mem : Mem) (image : Nat → UInt8)
    (length count : Nat) : Prop :=
  ∃ steps, ∀ fuel ≥ steps, ∀ (state failed : State) (schedule rest : FlashSchedule),
    Set.EqOn state.mem mem runAreaᶜ →
    Prog.run (firstFailed chip uncompress fuel count) schedule (powerUp state) =
      .done () failed rest →
    Schedule.Within (D := flash chip.geometry) Reliable rest →
    Schedule.Powered (D := flash chip.geometry) rest →
    ∃ (after : State) (unused : FlashSchedule),
      Prog.run (main chip uncompress fuel) schedule (powerUp state) =
        .done .reset after unused ∧
      (∀ index < length, after.mem (flashAppRunAddr + index) = image index) ∧
      iapFlag chip after.mem = otaRunApp

end Definitions

variable {chip : Chip} {uncompress : Uncompress} {header : IapUpdataParam}

/-! ## The boot goes on after failed attempts -/

/-- A run over failed attempts goes on with what comes behind them. -/
theorem run_failing {β : Type} {verified : FlashProg chip.geometry β}
    {proceed : List (FlashProg chip.geometry Bool) → FlashProg chip.geometry β}
    (unfold : ∀ attempt later, proceed (attempt :: later) =
      attempt >>= fun accepted => if accepted then verified else proceed later)
    {attempts later : List (FlashProg chip.geometry Bool)}
    {schedule rest : FlashSchedule} {state after : State}
    (failed : Prog.run (failing chip attempts) schedule state = .done () after rest) :
    Prog.run (proceed (attempts ++ later)) schedule state =
      Prog.run (proceed later) rest after := by
  induction attempts generalizing schedule state with
  | nil =>
      cases failed
      rfl
  | cons attempt others ih =>
      rw [failing, Prog.run_bind] at failed
      rw [List.cons_append, unfold, Prog.run_bind]
      cases ended : Prog.run attempt schedule state with
      | done verified middle unused =>
          rw [ended] at failed
          cases verified with
          | true => cases failed
          | false => exact ih failed
      | lost middle => rw [ended] at failed; cases failed
      | spin middle => rw [ended] at failed; cases failed

/-- The checks return the verdict and leave the state as it is. -/
theorem run_bootChecks {schedule rest : FlashSchedule} {state after : State} {found : Verdict}
    (ended : Prog.run (bootChecks chip) schedule state = .done found after rest) :
    found = verdict chip state.mem ∧ after = state := by
  have checks : (bootChecks chip).wp AnyFault
      ⟨fun found (after : State) => found = verdict chip state.mem ∧ after = state,
        fun _ => True, fun _ => True⟩ state :=
    returns_bootChecks.wp _ _ _ rfl trivial ⟨rfl, rfl⟩
  have meets := Prog.run_meets checks (anyFault_within schedule)
  rw [ended] at meets
  exact meets

/-- After failed attempts a boot goes on with what comes behind them. -/
theorem run_checks_failing {β : Type} {verified : FlashProg chip.geometry β}
    {proceed : List (FlashProg chip.geometry Bool) → FlashProg chip.geometry β}
    {next : Verdict → FlashProg chip.geometry β} {fuel count : Nat}
    {later : List (FlashProg chip.geometry Bool)} {schedule rest : FlashSchedule}
    {state after : State}
    (unfold : ∀ attempt later, proceed (attempt :: later) =
      attempt >>= fun accepted => if accepted then verified else proceed later)
    (entered : next (.update header) = setLock chip.geometry false >>= fun _ =>
      proceed ((attempts chip uncompress fuel header).take count ++ later))
    (verdictIs : verdict chip state.mem = .update header)
    (failed : Prog.run (firstFailed chip uncompress fuel count) schedule state =
      .done () after rest) :
    Prog.run (bootChecks chip >>= next) schedule state = Prog.run (proceed later) rest after := by
  rw [firstFailed, Prog.run_bind] at failed
  rw [Prog.run_bind]
  cases ended : Prog.run (bootChecks chip) schedule state with
  | done found middle unused =>
      -- The verdict stays a variable: substituting it would evaluate the checks.
      obtain ⟨checked, rfl⟩ := run_bootChecks ended
      rw [ended] at failed
      simp only [checked, verdictIs, enterFailing] at failed ⊢
      rw [Prog.run_bind] at failed
      rw [entered, Prog.run_bind]
      cases locking : Prog.run (setLock chip.geometry false) unused middle with
      | done value unlocked tail =>
          simp only [locking] at failed ⊢
          exact run_failing unfold failed
      | lost middle => simp only [locking] at failed; cases failed
      | spin middle => simp only [locking] at failed; cases failed
  | lost middle => rw [ended] at failed; cases failed
  | spin middle => rw [ended] at failed; cases failed

/-- After failed attempts the boot continues with the remaining ones. -/
theorem run_firstFailed {fuel count : Nat} {schedule rest : FlashSchedule} {state after : State}
    (failed : Prog.run (firstFailed chip uncompress fuel count) schedule state =
      .done () after rest) (verdictIs : verdict chip state.mem = .update header) :
    Prog.run (bootEntry chip uncompress fuel) schedule state =
      Prog.run (updateAttempts chip ((attempts chip uncompress fuel header).drop count))
        rest after := by
  refine @run_checks_failing chip uncompress header _ _ (updateAttempts chip) _ fuel count _ _ _ _ _
    (fun _ _ => rfl) ?_ verdictIs failed
  rw [List.take_append_drop, enter]

theorem run_main_reset {fuel : Nat} {schedule rest : FlashSchedule} {state after : State}
    (ended : Prog.run (bootEntry chip uncompress fuel) schedule state =
      .done .reset after rest) :
    Prog.run (main chip uncompress fuel) schedule state = .done .reset after rest := by
  rw [main, Prog.run_bind, ended]
  rfl

theorem run_main_otaoe {fuel : Nat} {schedule rest unused : FlashSchedule}
    {state after final : State}
    (ended : Prog.run (bootEntry chip uncompress fuel) schedule state =
      .done .otaoe after rest) :
    Prog.run (main chip uncompress fuel) schedule state ≠ .done .reset final unused := by
  intro resets
  rw [main, Prog.run_bind, ended] at resets
  simp only [Prog.run_bind] at resets
  cases loaded : Prog.run (iapParamLoad chip) rest after with
  | done param later tail => rw [loaded] at resets; cases resets
  | lost later => rw [loaded] at resets; cases resets
  | spin later => rw [loaded] at resets; cases resets

/-! ## Uncompressed attempts recover -/

theorem attempts_plain (fuel : Nat) (plain : header.compressFlag ≠ 1) :
    attempts chip uncompress fuel header = List.replicate 3 (plainAttempt chip header) := by
  rw [attempts, if_neg plain]

theorem touches_failing {region : Set Nat} {attempts : List (FlashProg chip.geometry Bool)}
    (each : ∀ attempt ∈ attempts, Touches chip.geometry region attempt) :
    Touches chip.geometry region (failing chip attempts) := by
  induction attempts with
  | nil => exact .done ()
  | cons attempt later ih =>
      exact .bind (each attempt List.mem_cons_self) fun _ => .ite (fun _ => .spin) fun _ =>
        ih fun other member => each other (List.mem_cons_of_mem _ member)

/-- Without failures a verified attempt leads to the reset. -/
theorem wp_attempt_reset {attempt : FlashProg chip.geometry Bool}
    {later : List (FlashProg chip.geometry Bool)} {mem final : Mem} {locked closed : Bool}
    (ends : Ends attempt mem locked true final closed) (log : List Record) :
    (updateAttempts chip (attempt :: later)).wp Reliable
      ⟨fun entry (after : State) => entry = .reset ∧ after.mem = flagErased chip final,
        fun _ => True, fun _ => False⟩ (⟨mem, locked, log⟩ : State) := by
  refine (Prog.wp_bind _ _ _ _).mpr (Prog.wp_mono (ends.wp log) ?_ (fun _ holds => holds)
    fun _ impossible => impossible.elim)
  rintro verified after ⟨rfl, reached, -⟩
  exact wp_finish (fun _ => trivial) (fun _ => trivial) ⟨rfl, by rw [reached]⟩

/-- Outside the run area the flash is as staged. -/
theorem above_copy {first second : Mem}
    (disjoint : flashAppRunAddr + otaBinMaxSize ≤ chip.addrAppCopy)
    (outside : Set.EqOn first second runAreaᶜ) (cell : Nat) (high : chip.addrAppCopy ≤ cell) :
    first cell = second cell := by
  refine outside ?_
  rw [Set.mem_compl_iff, runArea, Set.mem_Ico]
  omega

theorem verdict_congr {first second : Mem}
    (same : ∀ cell, chip.addrAppCopy ≤ cell → first cell = second cell) :
    verdict chip first = verdict chip second := by
  obtain ⟨flag, header, gate⟩ := checks_congr same
  simp only [verdict, flag, header, gate]

/-- The end of a recovered boot, from the attempt that verifies on. -/
theorem reset_of_attempt {attempt : FlashProg chip.geometry Bool}
    {later : List (FlashProg chip.geometry Bool)} {fuel : Nat} {state failed : State}
    {schedule rest : FlashSchedule} {length : Nat} {image : Nat → UInt8} {closed : Bool}
    (continues : Prog.run (bootEntry chip uncompress fuel) schedule state =
      Prog.run (updateAttempts chip (attempt :: later)) rest failed)
    (ends : Ends attempt failed.mem failed.locked true (installed failed.mem length image) closed)
    (fits : length ≤ otaBinMaxSize)
    (within : Schedule.Within (D := flash chip.geometry) Reliable rest)
    (powered : Schedule.Powered (D := flash chip.geometry) rest) :
    ∃ (after : State) (unused : FlashSchedule),
      Prog.run (main chip uncompress fuel) schedule state = .done .reset after unused ∧
      (∀ index < length, after.mem (flashAppRunAddr + index) = image index) ∧
      iapFlag chip after.mem = otaRunApp := by
  obtain ⟨entry, after, used, ended, rfl, reached⟩ := Prog.run_completes
    (@wp_attempt_reset chip attempt later _ _ _ _ ends failed.log) within powered
    fun _ impossible => impossible
  refine ⟨after, _, run_main_reset (continues.trans ended), ?_, ?_⟩
  · intro index inside
    have runBelow := run_below_info chip
    have infoFlag := info_lt_flag chip
    rw [reached, flagErased, overlay_outside _ _ (Or.inl (by omega)), installed_run inside]
  · rw [reached]
    exact iapFlag_erased

theorem plain_recovers {mem : Mem} {count : Nat}
    (disjoint : flashAppRunAddr + otaBinMaxSize ≤ chip.addrAppCopy)
    (updating : iapFlag chip mem = otaUpdateApp)
    (accepted : GateAccepts chip mem (headerAt chip mem))
    (plain : (headerAt chip mem).compressFlag ≠ 1) (bound : count ≤ 2) :
    Recovers chip uncompress mem (bytesAt mem chip.addrAppCopy)
      (headerAt chip mem).updatesTotalSize count := by
  refine ⟨0, fun fuel _ state failed schedule rest outside failedRun within powered => ?_⟩
  have staged := above_copy disjoint outside
  have verdictIs : verdict chip (powerUp state).mem = .update (headerAt chip mem) :=
    (verdict_congr staged).trans (verdict_update updating accepted)
  have below : BelowCopy chip (headerAt chip mem).updatesTotalSize :=
    le_trans (Nat.add_le_add_left (roundUp_le_max accepted.1) _) disjoint
  -- The failed attempts wrote to the pages of the image only.
  have failedWp : (firstFailed chip uncompress fuel count).wp AnyFault
      ⟨fun _ => Confined chip.geometry (runPages (headerAt chip mem).updatesTotalSize)
          (powerUp state),
        Confined chip.geometry (runPages (headerAt chip mem).updatesTotalSize) (powerUp state),
        Confined chip.geometry (runPages (headerAt chip mem).updatesTotalSize) (powerUp state)⟩
      (powerUp state) := by
    refine returns_bootChecks.wp_bind (Confined.refl _) ?_
    rw [verdictIs]
    refine wp_of_touches (.bind (.setLock false) fun _ => touches_failing ?_) _
    intro attempt member
    rw [attempts_plain fuel plain] at member
    rw [List.eq_of_mem_replicate (List.mem_of_mem_take member)]
    exact touches_plainAttempt
  have kept := Prog.run_meets failedWp (anyFault_within schedule)
  rw [failedRun] at kept
  have still (cell : Nat) (high : chip.addrAppCopy ≤ cell) : failed.mem cell = mem cell :=
    (kept.kept (outside_runPages below high)).trans (staged cell high)
  obtain ⟨-, -, gate⟩ := checks_congr still
  have continues := run_firstFailed failedRun verdictIs
  obtain ⟨left, remaining⟩ : ∃ left, 3 - count = left + 1 := ⟨2 - count, by omega⟩
  rw [attempts_plain fuel plain, List.drop_replicate, remaining, List.replicate_succ] at continues
  obtain ⟨closed, ends⟩ := ends_plainAttempt_any ((gate _).mpr accepted) below failed.locked
  obtain ⟨after, unused, resets, image, flag⟩ :=
    reset_of_attempt continues ends accepted.1 within powered
  refine ⟨after, unused, resets, fun index inside => ?_, flag⟩
  rw [image index inside]
  exact still _ (Nat.le_add_right _ _)

/-! ## The first compressed attempt succeeds -/

theorem compressed_first_recovers {ZlibStream : (stream output : List UInt8) → Prop} {mem : Mem}
    {original staged : List UInt8} (contract : ZlibContract uncompress ZlibStream)
    (disjoint : flashAppRunAddr + otaBinMaxSize ≤ chip.addrAppCopy)
    (pending : CompressedStaged chip ZlibStream mem original staged) :
    Recovers chip uncompress mem (bufferOf original) original.length 0 := by
  obtain ⟨steps, attempt⟩ := completes_compressedAttempt pending.bounded (pending.below disjoint)
    (pending.unpacks contract) (by rw [pending.originalCrc, pending.size])
  refine ⟨steps, fun fuel enough state failed schedule rest outside failedRun within powered => ?_⟩
  have source := above_copy disjoint outside
  have verdictIs : verdict chip (powerUp state).mem = .update (headerAt chip mem) :=
    (verdict_congr source).trans pending.verdict
  have failedWp : (firstFailed chip uncompress fuel 0).wp AnyFault
      ⟨fun _ (after : State) => after.mem = state.mem, fun _ => True, fun _ => True⟩
      (powerUp state) := by
    refine returns_bootChecks.wp_bind trivial ?_
    rw [verdictIs]
    exact (Prog.wp_bind _ _ _ _).mpr (wp_setLock trivial ((Prog.wp_done _ _ _).mpr rfl))
  have kept := Prog.run_meets failedWp (anyFault_within schedule)
  rw [failedRun] at kept
  have continues := run_firstFailed failedRun verdictIs
  rw [List.drop_zero, attempts_compressed fuel pending.compressed] at continues
  obtain ⟨closed, completes⟩ := attempt fuel failed.mem failed.locked fun index => by
    rw [kept]
    exact source _ (Nat.le_add_right _ _)
  have ends := completes.ends enough
  rw [pending.size] at ends
  exact reset_of_attempt continues ends pending.sizeFits within powered

/-! ## Later compressed attempts cannot succeed -/

/-- What `uncompress` is documented to do with a buffer that starts with an
erased byte, which starts no stream. -/
def RejectsErased (uncompress : Uncompress) : Prop :=
  ∀ (source : Nat → UInt8) (sourceLen destLen : Nat), source 0 = erasedByte → 0 < sourceLen →
    (uncompress source sourceLen destLen).destLen = 0 ∧
      0 < (uncompress source sourceLen destLen).sourceLen ∧
      (uncompress source sourceLen destLen).sourceLen ≤ sourceLen

def RunErased (mem : Mem) : Prop :=
  ∀ index < otaBinMaxSize, mem (flashAppRunAddr + index) = erasedByte

/-- Reading its source from the erased run area, the loop produces nothing. -/
theorem ends_decompressLoop_erased (rejects : RejectsErased uncompress) (bounded : Bounded header)
    (packs : 0 < header.perComPackOriginalSize) {mem : Mem} (erased : RunErased mem)
    (fuel comSizeCnt : Nat) (locked : Bool)
    (enough : header.updatesTotalSize - comSizeCnt < fuel) :
    ∃ closed, Ends (decompressLoop chip uncompress header fuel (flashAppRunAddr + comSizeCnt)
      comSizeCnt 0) mem locked 0 mem closed := by
  induction fuel generalizing comSizeCnt locked with
  | zero => omega
  | succ fuel ih =>
      rw [decompressLoop]
      by_cases more : comSizeCnt < header.updatesTotalSize
      · rw [if_pos more]
        have total := bounded.total
        have pack := bounded.pack
        simp only [otaBinMaxSize, flashPageSize] at total
        have first : bytesAt mem (flashAppRunAddr + comSizeCnt) 0 = erasedByte := by
          rw [bytesAt, Nat.add_zero]
          exact erased comSizeCnt (by simp only [otaBinMaxSize, flashPageSize]; omega)
        have rejected := rejects _ (header.perComPackOriginalSize * 2)
          (header.perComPackOriginalSize * 2) first (by omega)
        generalize call : uncompress (bytesAt mem (flashAppRunAddr + comSizeCnt))
          (header.perComPackOriginalSize * 2) (header.perComPackOriginalSize * 2) = output
          at rejected
        obtain ⟨produced, positive, available⟩ := rejected
        have write := @ends_flashWrite chip mem flashAppRunAddr 0 output.dest rfl
          (covers_run chip (Nat.zero_le _))
          (fun index inside => absurd inside (Nat.not_lt_zero _)) locked
        rw [overlay_zero] at write
        have wrapSource : (flashAppRunAddr + comSizeCnt + output.sourceLen) % 2 ^ 32 =
            flashAppRunAddr + (comSizeCnt + output.sourceLen) := by
          rw [Nat.add_assoc]
          exact Nat.mod_eq_of_lt (by simp only [flashAppRunAddr]; omega)
        have wrapCom : (comSizeCnt + output.sourceLen) % 2 ^ 32 =
            comSizeCnt + output.sourceLen := Nat.mod_eq_of_lt (by omega)
        have wrapRun : (flashAppRunAddr + 0) % 2 ^ 32 = flashAppRunAddr := rfl
        obtain ⟨closed, rest⟩ := ih (comSizeCnt + output.sourceLen) true (by omega)
        refine ⟨closed, ((returns_flashRead _).ends locked).bind ?_⟩
        simp only [call, produced, wrapRun, wrapSource, wrapCom]
        exact write.bind rest
      · rw [if_neg more]
        exact ⟨locked, .done 0⟩

/-- An attempt that reads its source from the run area fails and leaves that
area erased. -/
theorem ends_compressedAttempt_erased (rejects : RejectsErased uncompress)
    (bounded : Bounded header) (packs : 0 < header.perComPackOriginalSize)
    (original : 0 < header.comPackOriginalSize) {mem : Mem} {fuel : Nat} (locked : Bool)
    (beyond : ∀ index < otaBinMaxSize, roundUp flashPageSize header.comPackOriginalSize ≤ index →
      mem (flashAppRunAddr + index) = erasedByte)
    (enough : header.updatesTotalSize < fuel) :
    ∃ final closed, Ends (compressedAttempt chip uncompress fuel header flashAppRunAddr) mem
      locked false final closed ∧ RunErased final := by
  let cleared := overlay flashAppRunAddr (roundUp flashPageSize header.comPackOriginalSize)
    (fun _ => erasedByte) mem
  have erased : RunErased cleared := by
    intro index inside
    by_cases pages : index < roundUp flashPageSize header.comPackOriginalSize
    · exact overlay_inside _ _ (by omega) (by omega)
    · exact (overlay_outside _ _ (by omega)).trans (beyond index inside (by omega))
  have erase : Ends (flashErasePage chip flashAppRunAddr header.comPackOriginalSize) mem locked
      true cleared true :=
    ends_flashErasePage original bounded.original run_aligned
      (covers_run chip (roundUp_le_max bounded.original)) locked
  obtain ⟨closed, loop⟩ := @ends_decompressLoop_erased chip uncompress header rejects bounded
    packs cleared erased fuel 0 true (by omega)
  rw [Nat.add_zero] at loop
  refine ⟨cleared, closed, erase.bind (loop.bind (((returns_flashRead _).ends closed).bind ?_)),
    erased⟩
  rw [if_neg fun verified => by omega]
  exact .done false

/-- Nor does any number of such attempts succeed. -/
theorem ends_updateAttempts_erased (rejects : RejectsErased uncompress)
    (bounded : Bounded header) (packs : 0 < header.perComPackOriginalSize)
    (original : 0 < header.comPackOriginalSize) {mem : Mem} {fuel : Nat} (count : Nat)
    (locked : Bool)
    (beyond : ∀ index < otaBinMaxSize, roundUp flashPageSize header.comPackOriginalSize ≤ index →
      mem (flashAppRunAddr + index) = erasedByte)
    (enough : header.updatesTotalSize < fuel) :
    ∃ final closed, Ends (updateAttempts chip (List.replicate count
      (compressedAttempt chip uncompress fuel header flashAppRunAddr))) mem locked .otaoe
        final closed := by
  induction count generalizing mem locked with
  | zero =>
      exact ⟨_, _, (Ends.setLock true).bind (ends_forceUpdateAppMode.bind (.done _))⟩
  | succ count ih =>
      obtain ⟨middle, open', attempt, erased⟩ := @ends_compressedAttempt_erased chip uncompress
        header rejects bounded packs original mem fuel locked beyond enough
      obtain ⟨final, closed, rest⟩ := ih open' fun index inside _ => erased index inside
      exact ⟨final, closed, attempt.bind rest⟩

/-! ## A first attempt that fails -/

/-- Failures that freeze the memory do not keep the loop from ending. -/
theorem wp_decompressLoop_frozen {mem : Mem} {image : Nat → UInt8}
    {comSizeCnt uncomSizeCnt : Nat} (bounded : Bounded header)
    (unpacks : Unpacks uncompress header (bytesAt mem chip.addrAppCopy) image comSizeCnt
      uncomSizeCnt) :
    ∃ steps, ∀ fuel ≥ steps, ∀ (pSrcData : Nat) (state : State),
      pSrcData = chip.addrAppCopy + comSizeCnt → state.mem = mem →
      (decompressLoop chip uncompress header fuel pSrcData comSizeCnt uncomSizeCnt).wp
        (fun fault : Fault => fault = .fail mem)
        ⟨fun _ (after : State) => after.mem = mem, fun _ => True, fun _ => False⟩ state := by
  induction unpacks with
  | finished consumed =>
      refine ⟨1, fun fuel enough pSrcData state _ same => ?_⟩
      obtain ⟨fuel, rfl⟩ := Nat.exists_eq_add_of_le' enough
      rw [decompressLoop, if_neg (by omega)]
      exact (Prog.wp_done _ _ _).mpr same
  | @piece comSizeCnt uncomSizeCnt output more call aligned buffered available room stored rest
      ih =>
      obtain ⟨steps, continues⟩ := ih
      refine ⟨steps + 1, fun fuel enough pSrcData state pointer same => ?_⟩
      obtain ⟨fuel, rfl⟩ := Nat.exists_eq_add_of_le' (show 1 ≤ fuel by omega)
      have copyLt := copy_lt chip
      have total := bounded.total
      have pack := bounded.pack
      have original := bounded.original
      simp only [otaBinMaxSize, flashPageSize] at total original
      have call' : uncompress (bytesAt mem pSrcData) (header.perComPackOriginalSize * 2)
          (header.perComPackOriginalSize * 2) = output := by
        rw [← call, pointer]
        congr 1
        funext index
        simp only [bytesAt, Nat.add_assoc]
      rw [decompressLoop, if_pos more]
      refine (@returns_flashRead chip _ pSrcData).wp_bind trivial ?_
      simp only [same, call']
      refine (Prog.wp_bind _ _ _ _).mpr (Prog.wp_mono
        (Prog.wp_halts halts_flashWriteBy (wp_frozen _ same)) ?_ (fun _ _ => trivial)
        fun _ impossible => impossible)
      intro written after frozen
      rw [Nat.mod_eq_of_lt (show comSizeCnt + output.sourceLen < 2 ^ 32 by omega),
        Nat.mod_eq_of_lt (show uncomSizeCnt + output.destLen < 2 ^ 32 by omega)]
      refine continues fuel (by omega) _ after ?_ frozen
      rw [Nat.mod_eq_of_lt (by omega)]
      omega

/-- If what the run area holds does not verify, an attempt whose failures freeze
the memory fails. -/
theorem wp_compressedAttempt_frozen {mem : Mem} {image : Nat → UInt8} (bounded : Bounded header)
    (unpacks : Unpacks uncompress header (bytesAt mem chip.addrAppCopy) image 0 0)
    (mismatch : (crc32 (bytesAt mem flashAppRunAddr) header.comPackOriginalSize).toNat ≠
      header.comPackOriginalCRC32) :
    ∃ steps, ∀ fuel ≥ steps, ∀ state : State, state.mem = mem →
      (compressedAttempt chip uncompress fuel header chip.addrAppCopy).wp
        (fun fault : Fault => fault = .fail mem)
        ⟨fun verified (after : State) => verified = false ∧ after.mem = mem, fun _ => True,
          fun _ => False⟩ state := by
  obtain ⟨steps, loop⟩ := wp_decompressLoop_frozen bounded unpacks
  refine ⟨steps, fun fuel enough state same => ?_⟩
  have frozen : (compressedAttempt chip uncompress fuel header chip.addrAppCopy).wp
      (fun fault : Fault => fault = .fail mem)
      ⟨fun _ (after : State) => after.mem = mem, fun _ => True, fun _ => False⟩ state := by
    refine (Prog.wp_bind _ _ _ _).mpr (Prog.wp_mono
      (Prog.wp_halts (halts_flashErasePage _ _) (wp_frozen _ same)) ?_ (fun _ _ => trivial)
      fun _ impossible => impossible)
    intro erased cleared kept
    refine (Prog.wp_bind _ _ _ _).mpr (Prog.wp_mono (loop fuel enough _ cleared
      (Nat.add_zero _).symm kept) ?_
      (fun _ _ => trivial) fun _ impossible => impossible)
    intro uncomSizeCnt after still
    refine (@returns_flashRead chip _ flashAppRunAddr).wp_bind trivial
      (Prog.wp_ite (fun _ => ?_) fun _ => (Prog.wp_done _ _ _).mpr still)
    exact (Prog.wp_bind _ _ _ _).mpr (wp_stamp trivial ((Prog.wp_done _ _ _).mpr still))
  refine Prog.wp_mono (Prog.wp_and frozen (compressedAttempt_checks fuel chip.addrAppCopy state))
    ?_ (fun _ _ => trivial) fun _ impossible => impossible.1
  rintro verified after ⟨kept, checked⟩
  refine ⟨?_, kept⟩
  cases verified with
  | false => rfl
  | true =>
      have found := (checked rfl).1
      rw [kept] at found
      exact absurd found mismatch

/-- The memory with the run area erased except for its first byte. -/
def firstByte (first : UInt8) (mem : Mem) : Mem :=
  overlay flashAppRunAddr otaBinMaxSize (fun index => if index = 0 then first else erasedByte) mem

theorem firstByte_eqOn (first : UInt8) (mem : Mem) :
    Set.EqOn (firstByte first mem) mem runAreaᶜ := overlay_eqOn _ _ _ _

theorem firstByte_zero (first : UInt8) (mem : Mem) :
    bytesAt (firstByte first mem) flashAppRunAddr 0 = first := by
  rw [bytesAt, firstByte, overlay_inside _ _ (Nat.le_add_right _ _)
    (Nat.add_lt_add_left (by simp [otaBinMaxSize, flashPageSize]) _), Nat.add_sub_cancel_left,
    if_pos rfl]

theorem firstByte_erased {index : Nat} (first : UInt8) (mem : Mem)
    (inside : index < otaBinMaxSize) (behind : 0 < index) :
    firstByte first mem (flashAppRunAddr + index) = erasedByte := by
  rw [firstByte, overlay_inside _ _ (by omega) (by omega), Nat.add_sub_cancel_left,
    if_neg (by omega)]

/-- Behind the first byte these memories agree. -/
theorem firstByte_agree (one other : UInt8) (mem : Mem) (index : Nat) :
    bytesAt (firstByte one mem) flashAppRunAddr (index + 1) =
      bytesAt (firstByte other mem) flashAppRunAddr (index + 1) := by
  rw [bytesAt, bytesAt]
  by_cases inside : index + 1 < otaBinMaxSize
  · rw [firstByte_erased one mem inside (by omega), firstByte_erased other mem inside (by omega)]
  · rw [firstByte, firstByte, overlay_outside _ _ (by omega), overlay_outside _ _ (by omega)]

/-- Some content of the run area, erased behind its first byte, does not have
the check value. -/
theorem exists_mismatch (mem : Mem) {length : Nat} (digest : Nat) (positive : 0 < length) :
    ∃ first, (crc32 (bytesAt (firstByte first mem) flashAppRunAddr) length).toNat ≠ digest := by
  obtain ⟨rest, rfl⟩ := Nat.exists_eq_add_of_le' positive
  by_cases matching :
      (crc32 (bytesAt (firstByte 0 mem) flashAppRunAddr) (rest + 1)).toNat = digest
  · refine ⟨1, fun again => ?_⟩
    have differ : bytesAt (firstByte 0 mem) flashAppRunAddr 0 ≠
        bytesAt (firstByte 1 mem) flashAppRunAddr 0 := by
      rw [firstByte_zero, firstByte_zero]
      decide
    exact crc32_ne_of_first differ (firstByte_agree 0 1 mem)
      (UInt32.toNat_inj.mp (matching.trans again.symm))
  · exact ⟨0, matching⟩

/-- Failures that freeze the memory make the first attempt fail; after them the
schedule has no further failure. -/
theorem exists_firstFailed {start : State} {fuel : Nat}
    {attempt : FlashProg chip.geometry Bool} {later : List (FlashProg chip.geometry Bool)}
    (verdictIs : verdict chip (powerUp start).mem = .update header)
    (first : attempts chip uncompress fuel header = attempt :: later)
    (fails : ∀ state : State, state.mem = start.mem →
      attempt.wp (fun fault : Fault => fault = .fail start.mem)
        ⟨fun verified (after : State) => verified = false ∧ after.mem = start.mem,
          fun _ => True, fun _ => False⟩ state) :
    ∃ (schedule rest : FlashSchedule) (failed : State),
      Prog.run (firstFailed chip uncompress fuel 1) schedule (powerUp start) =
        .done () failed rest ∧
      failed.mem = start.mem ∧ Schedule.Within (D := flash chip.geometry) Reliable rest ∧
      Schedule.Powered (D := flash chip.geometry) rest := by
  have failedWp : (firstFailed chip uncompress fuel 1).wp
      (fun fault : Fault => fault = .fail start.mem)
      ⟨fun _ (after : State) => after.mem = start.mem, fun _ => True, fun _ => False⟩
      (powerUp start) := by
    refine returns_bootChecks.wp_bind trivial ?_
    rw [verdictIs]
    simp only [enterFailing, first, List.take_succ_cons, List.take_zero, failing]
    refine (Prog.wp_bind _ _ _ _).mpr (wp_setLock trivial ((Prog.wp_bind _ _ _ _).mpr
      (Prog.wp_mono (fails _ rfl) ?_ (fun _ holds => holds) fun _ holds => holds)))
    rintro verified after ⟨rfl, kept⟩
    exact (Prog.wp_done _ _ _).mpr kept
  let broken : FlashSchedule := fun _ => some (.fail start.mem)
  have brokenWithin : Schedule.Within (D := flash chip.geometry)
      (fun fault : Fault => fault = .fail start.mem) broken := by
    rintro index fault scheduled
    cases scheduled
    rfl
  have brokenPowered : Schedule.Powered (D := flash chip.geometry) broken := by
    rintro index scheduled
    cases scheduled
  obtain ⟨value, failed, before, ended, kept⟩ := Prog.run_completes failedWp brokenWithin
    brokenPowered fun _ impossible => impossible
  obtain ⟨used, -, same⟩ := Prog.run_used ended
  let schedule : FlashSchedule :=
    fun index => if index < used then some (.fail start.mem) else some .none
  have tail (index : Nat) : schedule (index + used) = some .none := if_neg (by omega)
  refine ⟨schedule, fun index => schedule (index + used), failed,
    same schedule fun index inside => if_pos inside, kept, ?_, ?_⟩
  · intro index fault scheduled
    cases (tail index).symm.trans scheduled
    rfl
  · intro index scheduled
    cases (tail index).symm.trans scheduled

section Doomed

variable (rejects : RejectsErased uncompress) (bounded : Bounded header)
  (packs : 0 < header.perComPackOriginalSize) (original : 0 < header.comPackOriginalSize)
  {fuel : Nat} (enough : header.updatesTotalSize < fuel) {start failed : State}
  {schedule rest : FlashSchedule}
  (verdictIs : verdict chip (powerUp start).mem = .update header)
  (compressed : header.compressFlag = 1)
  (beyond : ∀ index < otaBinMaxSize, roundUp flashPageSize header.comPackOriginalSize ≤ index →
    failed.mem (flashAppRunAddr + index) = erasedByte)
  (within : Schedule.Within (D := flash chip.geometry) Reliable rest)
  (powered : Schedule.Powered (D := flash chip.geometry) rest)

include rejects bounded packs original enough verdictIs compressed beyond within powered

/-- With an attempt behind it and the run area erased beyond the image, a boot
does not reset, whatever number of attempts is left. -/
theorem failed_not_reset {count : Nat} (positive : 0 < count)
    (run : Prog.run (firstFailed chip uncompress fuel count) schedule (powerUp start) =
      .done () failed rest) (after : State) (unused : FlashSchedule) :
    Prog.run (main chip uncompress fuel) schedule (powerUp start) ≠
      .done .reset after unused := by
  have left : (attempts chip uncompress fuel header).drop count =
      List.replicate (3 - count) (compressedAttempt chip uncompress fuel header
        flashAppRunAddr) := by
    obtain ⟨before, rfl⟩ := Nat.exists_eq_add_of_le' positive
    have remaining : 3 - (before + 1) = 2 - before := by omega
    rw [attempts_compressed fuel compressed, List.drop_succ_cons, List.drop_replicate, remaining]
  obtain ⟨final, closed, ends⟩ := @ends_updateAttempts_erased chip uncompress header rejects
    bounded packs original failed.mem fuel (3 - count) failed.locked beyond enough
  obtain ⟨log, used, ended⟩ := ends.run failed.log within powered
  have continues := run_firstFailed run verdictIs
  rw [left, ended] at continues
  exact run_main_otaoe continues

/-- The second attempt fails without any failure of the flash. -/
theorem second_fails
    (run : Prog.run (firstFailed chip uncompress fuel 1) schedule (powerUp start) =
      .done () failed rest) :
    ∃ (again : State) (tail : FlashSchedule),
      Prog.run (firstFailed chip uncompress fuel 2) schedule (powerUp start) =
        .done () again tail ∧
      RunErased again.mem ∧ Schedule.Within (D := flash chip.geometry) Reliable tail ∧
      Schedule.Powered (D := flash chip.geometry) tail := by
  obtain ⟨final, closed, ends, erased⟩ := @ends_compressedAttempt_erased chip uncompress header
    rejects bounded packs original failed.mem fuel failed.locked beyond enough
  have fails : Ends (failing chip [compressedAttempt chip uncompress fuel header
      flashAppRunAddr]) failed.mem failed.locked () final closed := ends.bind (.done ())
  obtain ⟨log, used, ended⟩ := fails.run failed.log within powered
  have continues : Prog.run (firstFailed chip uncompress fuel 2) schedule (powerUp start) =
      Prog.run (failing chip [compressedAttempt chip uncompress fuel header flashAppRunAddr])
        rest failed := by
    have entered : enterFailing chip uncompress fuel 2 (.update header) =
        setLock chip.geometry false >>= fun _ =>
          failing chip ((attempts chip uncompress fuel header).take 1 ++
            [compressedAttempt chip uncompress fuel header flashAppRunAddr]) := by
      rw [enterFailing, attempts_compressed fuel compressed]
      rfl
    rw [firstFailed]
    exact run_checks_failing (fun _ _ => rfl) entered verdictIs run
  exact ⟨_, _, continues.trans ended, erased, fun index => within (index + used),
    fun index => powered (index + used)⟩

end Doomed

/-- A pack of the original is not empty. -/
theorem CompressedStaged.packs {ZlibStream : (stream output : List UInt8) → Prop} {mem : Mem}
    {original staged : List UInt8}
    (pending : CompressedStaged chip ZlibStream mem original staged) :
    0 < (headerAt chip mem).perComPackOriginalSize := by
  have packed := pending.packed
  have nonempty := pending.nonempty
  cases packed with
  | nil => exact absurd nonempty (Nat.lt_irrefl 0)
  | cons _ _ packNonempty full =>
      have positive := List.length_pos_iff.mpr packNonempty
      rcases full with whole | ⟨short, -⟩ <;> omega

/-- After a failed compressed attempt the boot does not recover. -/
theorem compressed_not_recovers {ZlibStream : (stream output : List UInt8) → Prop} {mem : Mem}
    {original staged : List UInt8} {count : Nat} (contract : ZlibContract uncompress ZlibStream)
    (rejects : RejectsErased uncompress)
    (disjoint : flashAppRunAddr + otaBinMaxSize ≤ chip.addrAppCopy)
    (pending : CompressedStaged chip ZlibStream mem original staged)
    (after : count = 1 ∨ count = 2) :
    ¬ Recovers chip uncompress mem (bufferOf original) original.length count := by
  rintro ⟨enough, recovers⟩
  have nonempty : 0 < (headerAt chip mem).comPackOriginalSize := by
    rw [pending.size]
    exact pending.nonempty
  obtain ⟨first, mismatch⟩ := exists_mismatch mem (headerAt chip mem).comPackOriginalCRC32
    nonempty
  let start : State := ⟨firstByte first mem, true, []⟩
  have outside : Set.EqOn start.mem mem runAreaᶜ := firstByte_eqOn first mem
  have source := above_copy disjoint outside
  have verdictIs : verdict chip (powerUp start).mem = .update (headerAt chip mem) :=
    (verdict_congr source).trans pending.verdict
  have stagedSource : bytesAt start.mem chip.addrAppCopy = bytesAt mem chip.addrAppCopy :=
    funext fun index => source _ (Nat.le_add_right _ _)
  have unpacks := pending.unpacks contract
  rw [← stagedSource] at unpacks
  obtain ⟨steps, attempt⟩ := wp_compressedAttempt_frozen pending.bounded unpacks mismatch
  obtain ⟨fuel, enoughFuel, stepsFuel, totalFuel⟩ : ∃ fuel, enough ≤ fuel ∧ steps ≤ fuel ∧
      (headerAt chip mem).updatesTotalSize < fuel :=
    ⟨enough + steps + (headerAt chip mem).updatesTotalSize + 1, by omega, by omega, by omega⟩
  obtain ⟨schedule, rest, failed, run, kept, within, powered⟩ := exists_firstFailed verdictIs
    (attempts_compressed fuel pending.compressed) (attempt fuel stepsFuel)
  have beyond (index : Nat) (inside : index < otaBinMaxSize)
      (behind : roundUp flashPageSize (headerAt chip mem).comPackOriginalSize ≤ index) :
      failed.mem (flashAppRunAddr + index) = erasedByte := by
    have longer := le_roundUp page_pos (headerAt chip mem).comPackOriginalSize
    rw [kept]
    exact firstByte_erased first mem inside (by omega)
  rcases after with rfl | rfl
  · obtain ⟨final, unused, resets, -⟩ :=
      recovers fuel enoughFuel start failed schedule rest outside run within powered
    exact failed_not_reset rejects pending.bounded pending.packs nonempty totalFuel verdictIs
      pending.compressed beyond within powered (by omega) run final unused resets
  · obtain ⟨again, tail, runAgain, erased, tailWithin, tailPowered⟩ :=
      second_fails rejects pending.bounded pending.packs nonempty totalFuel verdictIs
        pending.compressed beyond within powered run
    obtain ⟨final, unused, resets, -⟩ :=
      recovers fuel enoughFuel start again schedule tail outside runAgain tailWithin tailPowered
    exact failed_not_reset rejects pending.bounded pending.packs nonempty totalFuel verdictIs
      pending.compressed (fun index inside _ => erased index inside) tailWithin tailPowered
      (by omega) runAgain final unused resets

/-- Retries recover in the uncompressed branch.  In the compressed branch only
a first attempt can succeed. -/
theorem retry_recovers_iff (chip : Chip) (uncompress : Uncompress)
    (ZlibStream : (stream output : List UInt8) → Prop)
    (contract : ZlibContract uncompress ZlibStream) (rejects : RejectsErased uncompress)
    (disjoint : flashAppRunAddr + otaBinMaxSize ≤ chip.addrAppCopy) (mem : Mem)
    (image : Nat → UInt8) (length count : Nat)
    (staged : Staged chip ZlibStream mem image length) (bound : count ≤ 2) :
    Recovers chip uncompress mem image length count ↔
      (headerAt chip mem).compressFlag ≠ 1 ∨ count = 0 := by
  constructor
  · intro recovers
    cases staged with
    | plain _ _ plain => exact Or.inl plain
    | compressed pending =>
        by_contra failing
        rw [not_or] at failing
        exact compressed_not_recovers contract rejects disjoint pending (by omega) recovers
  · intro condition
    cases staged with
    | plain updating accepted plain => exact plain_recovers disjoint updating accepted plain bound
    | compressed pending =>
        rcases condition with plain | rfl
        · exact absurd pending.compressed plain
        · exact compressed_first_recovers contract disjoint pending

theorem zeroUncompress_rejects : RejectsErased zeroUncompress := by
  intro source sourceLen destLen erased available
  have unknown : ¬ (zeroStream.length ≤ sourceLen ∧ 8 ≤ destLen ∧
      ∀ index < zeroStream.length, source index = bufferOf zeroStream index) := by
    rintro ⟨-, -, starts⟩
    have first := starts 0 (by decide)
    rw [erased] at first
    revert first
    decide
  rw [zeroUncompress, if_neg unknown]
  exact ⟨rfl, by simp only; omega, by simp only; omega⟩

theorem retry_recovers_iff_sample :
    Recovers sampleChip zeroUncompress zeroSample (bufferOf (List.replicate 8 0)) 8 1 ↔
      (headerAt sampleChip zeroSample).compressFlag ≠ 1 ∨ (1 : Nat) = 0 :=
  retry_recovers_iff sampleChip zeroUncompress IsZeroStream zeroUncompress_contract
    zeroUncompress_rejects (by decide +kernel) zeroSample _ 8 1 (.compressed zeroSample_staged)
    (by decide)

/-- Once its first attempt has failed, the boot of this well-formed compressed
update does not recover. -/
theorem zeroSample_not_recovers :
    Staged sampleChip IsZeroStream zeroSample (bufferOf (List.replicate 8 0)) 8 ∧
      ¬ Recovers sampleChip zeroUncompress zeroSample (bufferOf (List.replicate 8 0)) 8 1 :=
  ⟨.compressed zeroSample_staged, compressed_not_recovers zeroUncompress_contract
    zeroUncompress_rejects (by decide +kernel) zeroSample_staged (Or.inl rfl)⟩

end LedFirmware
