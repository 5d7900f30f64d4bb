import LedFirmware.UnpackLoop
import Mathlib.Order.Interval.Set.LinearOrder

/-!
# What the decompress-and-program loop may reach

The size check bounds the number of staged bytes; nothing bounds the size of a pack, the number
of iterations or the bytes they produce.  The loop keeps to its buffer and its areas as long as
every iteration it gets to does, which depends on what `uncompress` makes of the staged bytes.
-/

namespace LedFirmware

open CrashProgram NorFlash Relation

section Update

variable (chip : Chip) (uncompress : Uncompress) (header : IapUpdataParam)
  (allowed : Fault → Prop) (state : State)

/-- An attempt begins in a state: the first one where the update does, each later one where the
one before it has failed. -/
inductive Begins {ι : Type} (attempt : ι → FlashProg chip.geometry Bool) :
    List ι → State → ι → State → Prop
  | first {tried : ι} {later : List ι} {state : State} :
      Begins attempt (tried :: later) state tried state
  | later {failed tried : ι} {later : List ι} {state middle start : State}
      {schedule rest : FlashSchedule}
      (within : Schedule.Within (D := flash chip.geometry) allowed schedule)
      (ended : Prog.run (attempt failed) schedule state = .done false middle rest)
      (begins : Begins attempt later middle tried start) :
      Begins attempt (failed :: later) state tried start

/-- Where the attempts of a compressed update start to read. -/
def attemptSources : List Nat := [chip.addrAppCopy, flashAppRunAddr, flashAppRunAddr]

/-- An attempt of the compressed update, which starts to read at `pSrcData`, begins. -/
def AttemptStarts (pSrcData : Nat) (start : State) : Prop :=
  ∃ fuel, Begins chip allowed (compressedAttempt chip uncompress fuel header)
    (attemptSources chip) state pSrcData start

/-- An iteration of the loop begins with these variables: behind the erase of its attempt and
the iterations before it. -/
def Iterates (vars : UnpackVars) (before : State) : Prop :=
  ∃ pSrcData start, ∃ schedule : FlashSchedule, ∃ accepted opened rest,
    AttemptStarts chip uncompress header allowed state pSrcData start ∧
    Schedule.Within (D := flash chip.geometry) allowed schedule ∧
    Prog.run (flashErasePage chip flashAppRunAddr header.comPackOriginalSize) schedule start =
      .done accepted opened rest ∧
    ReflTransGen (Prog.LoopStep allowed (UnpackMore header) (unpackStep chip uncompress header))
      (⟨pSrcData, 0, 0⟩, opened) (vars, before) ∧
    UnpackMore header vars

/-- Where an iteration writes its output. -/
def outputAddr (vars : UnpackVars) : Nat := (flashAppRunAddr + vars.uncomSizeCnt) % 2 ^ 32

/-- The cells that the output of an iteration may get to: from an address of whole units on, up
to the first half-word that the flash does not take. -/
def OutputCells (vars : UnpackVars) (before : State) : Set Nat :=
  let piece := unpackPiece uncompress header vars before.mem
  {cell | outputAddr vars % 8 = 0 ∧ ∃ half, 2 * half < roundUp 8 piece.destLen ∧
    GetsTo chip.geometry allowed before.mem (outputAddr vars) (padded piece.destLen piece.dest)
      half ∧
    (cell = outputAddr vars + 2 * half ∨ cell = outputAddr vars + 2 * half + 1)}

end Update

variable {chip : Chip} {uncompress : Uncompress} {header : IapUpdataParam}
  {allowed : Fault → Prop} {state : State}

/-! ## One iteration -/

/-- An iteration reads, which changes nothing, and then writes. -/
theorem run_unpackStep_state (vars : UnpackVars) (schedule : FlashSchedule) (before : State) :
    (Prog.run (unpackStep chip uncompress header vars) schedule before).state =
      match schedule 0 with
      | none => before
      | some _ => (Prog.run (flashWrite chip (outputAddr vars)
          (unpackPiece uncompress header vars before.mem).dest
          (unpackPiece uncompress header vars before.mem).destLen)
          (fun index => schedule (index + 1)) before).state := by
  rw [unpackStep, run_read_bind]
  cases schedule 0 with
  | none => rfl
  | some fault =>
      dsimp only
      rw [Prog.run_bind, outputAddr]
      cases Prog.run (flashWrite chip ((flashAppRunAddr + vars.uncomSizeCnt) % 2 ^ 32)
        (unpackPiece uncompress header vars before.mem).dest
        (unpackPiece uncompress header vars before.mem).destLen)
        (fun index => schedule (index + 1)) before <;> rfl

/-- An iteration addresses a region only, exactly if its output does. -/
theorem unpackStep_within_iff (works : ∃ fault, allowed fault) {region : Set Nat}
    (vars : UnpackVars) (before : State) :
    (∀ schedule : FlashSchedule, Schedule.Within (D := flash chip.geometry) allowed schedule →
      LogWithin chip.geometry region before
        (Prog.run (unpackStep chip uncompress header vars) schedule before).state) ↔
      OutputCells chip uncompress header allowed vars before ⊆ region := by
  have write := @flashWriteBy_within_iff chip.geometry 4 (outputAddr vars)
    (unpackPiece uncompress header vars before.mem).destLen
    (unpackPiece uncompress header vars before.mem).dest allowed region before works (by decide)
  constructor
  · intro within cell member
    obtain ⟨aligned, half, inside, gets, place⟩ := member
    obtain ⟨fault, permitted⟩ := works
    have reached := write.mp (fun schedule writes => by
      -- The write runs behind the read.
      have step := within (fun index => if index = 0 then some fault else schedule (index - 1))
        (fun index found scheduled => by
          dsimp only at scheduled
          split at scheduled
          · cases scheduled
            exact permitted
          · exact writes _ found scheduled)
      rw [run_unpackStep_state] at step
      exact step) aligned half inside gets
    rcases place with rfl | rfl
    · exact reached.1
    · exact reached.2
  · intro subset schedule within
    rw [run_unpackStep_state]
    split
    · exact LogWithin.refl before
    · refine write.mpr (fun aligned half inside gets => ?_) _ fun index => within (index + 1)
      exact ⟨subset ⟨aligned, half, inside, gets, Or.inl rfl⟩,
        subset ⟨aligned, half, inside, gets, Or.inr rfl⟩⟩

/-- The output of a piece covers its whole units at most. -/
theorem outputCells_subset (vars : UnpackVars) (before : State) :
    OutputCells chip uncompress header allowed vars before ⊆
      Set.Ico (outputAddr vars) (outputAddr vars +
        roundUp 8 (unpackPiece uncompress header vars before.mem).destLen) := by
  rintro cell ⟨-, half, inside, -, place⟩
  simp only [roundUp] at inside ⊢
  rw [Set.mem_Ico]
  omega

/-! ## The bounds -/

/-- An iteration begins only when something is staged. -/
theorem Iterates.staged {before : State} {vars : UnpackVars}
    (iterates : Iterates chip uncompress header allowed state vars before) :
    0 < header.updatesTotalSize := by
  obtain ⟨_, _, _, _, _, _, -, -, -, -, more⟩ := iterates
  exact Nat.lt_of_le_of_lt (Nat.zero_le _) more

/-- Between the iterations of the first attempt on an image that unpacks: what is staged is still
there, and the pages for the rest of the image are erased. -/
structure Unpacking (chip : Chip) (uncompress : Uncompress) (header : IapUpdataParam)
    (source image : Nat → UInt8) (vars : UnpackVars) (before : State) : Prop where
  pointer : vars.pSrcData = chip.addrAppCopy + vars.comSizeCnt
  unpacks : Unpacks uncompress header source image vars.comSizeCnt vars.uncomSizeCnt
  staged : ∀ index, before.mem (chip.addrAppCopy + index) = source index
  erased : ∀ index, vars.uncomSizeCnt ≤ index →
    index < roundUp flashPageSize header.comPackOriginalSize →
      before.mem (flashAppRunAddr + index) = erasedByte

section Valid

variable {source image : Nat → UInt8}

/-- An iteration that begins so yields the next piece. -/
theorem Unpacking.piece (bounded : Bounded header)
    (below : BelowCopy chip header.comPackOriginalSize) {vars : UnpackVars} {before : State}
    (unpacking : Unpacking chip uncompress header source image vars before)
    (more : UnpackMore header vars) :
    ∃ output, PieceStep chip uncompress header image vars.comSizeCnt vars.uncomSizeCnt output
        before.mem before.locked ∧
      Unpacks uncompress header source image (vars.comSizeCnt + output.sourceLen)
        (vars.uncomSizeCnt + output.destLen) ∧ vars.uncomSizeCnt % 8 = 0 := by
  obtain ⟨-, unpacks, staged, erased⟩ := unpacking
  obtain ⟨pSrcData, comSizeCnt, uncomSizeCnt⟩ := vars
  cases unpacks with
  | finished consumed => exact absurd more (Nat.not_lt.mpr consumed)
  | @piece _ _ output more call aligned buffered available room stored rest =>
      exact ⟨output, piece_step bounded below more call aligned available room stored staged
        erased before.locked, rest, aligned⟩

/-- The output of that iteration stays in the pages of the image. -/
theorem Unpacking.output (bounded : Bounded header)
    (below : BelowCopy chip header.comPackOriginalSize) {vars : UnpackVars} {before : State}
    (unpacking : Unpacking chip uncompress header source image vars before)
    (more : UnpackMore header vars) :
    OutputCells chip uncompress header allowed vars before ⊆
      runPages header.comPackOriginalSize := by
  obtain ⟨output, step, -, -⟩ := unpacking.piece bounded below more
  have piece : unpackPiece uncompress header vars before.mem = output := by
    rw [unpackPiece, unpacking.pointer]
    exact step.call
  refine (outputCells_subset vars before).trans ?_
  rw [piece, outputAddr, step.target]
  exact step.inPages

/-- Without failures the invariant is kept. -/
theorem Unpacking.next (bounded : Bounded header)
    (below : BelowCopy chip header.comPackOriginalSize) {vars next : UnpackVars}
    {before after : State} (unpacking : Unpacking chip uncompress header source image vars before)
    (iteration : Prog.LoopStep (D := flash chip.geometry) Reliable (UnpackMore header)
      (unpackStep chip uncompress header) (vars, before) (next, after)) :
    Unpacking chip uncompress header source image next after := by
  obtain ⟨more, schedule, rest, within, run⟩ := iteration
  obtain ⟨output, step, unpacks, aligned⟩ := unpacking.piece bounded below more
  have piece : unpackPiece uncompress header vars before.mem = output := by
    rw [unpackPiece, unpacking.pointer]
    exact step.call
  have ends : Ends (unpackStep chip uncompress header vars) before.mem before.locked
      ⟨chip.addrAppCopy + (vars.comSizeCnt + output.sourceLen), vars.comSizeCnt + output.sourceLen,
        vars.uncomSizeCnt + output.destLen⟩
      (overlay (flashAppRunAddr + vars.uncomSizeCnt) output.destLen
        (fun index => image (vars.uncomSizeCnt + index)) before.mem) true := by
    refine Ends.read.bind ?_
    have moved : vars.next output = ⟨chip.addrAppCopy + (vars.comSizeCnt + output.sourceLen),
        vars.comSizeCnt + output.sourceLen, vars.uncomSizeCnt + output.destLen⟩ := by
      rw [UnpackVars.next, unpacking.pointer, step.source, step.consumed, step.produced]
    rw [piece, step.target, moved]
    exact step.written.bind (.done _)
  have meets := Prog.run_meets (ends.wp before.log) within
  rw [show (⟨before.mem, before.locked, before.log⟩ : State) = before from rfl, run] at meets
  obtain ⟨rfl, mem, -⟩ := meets
  have pages := step.inPages
  rw [BelowCopy] at below
  refine ⟨rfl, unpacks, fun index => ?_, fun index lower upper => ?_⟩
  · rw [mem, overlay_outside _ _ ?_]
    · exact unpacking.staged index
    · have longer := le_roundUp (show 0 < 8 by omega) output.destLen
      rcases Nat.eq_zero_or_pos output.destLen with none | some
      · omega
      · have last : flashAppRunAddr + vars.uncomSizeCnt + (output.destLen - 1) ∈
            runPages header.comPackOriginalSize := pages ⟨by omega, by omega⟩
        have inside := (Set.mem_Ico.mp last).2
        omega
  · rw [mem, overlay_outside _ _ (by dsimp only at lower; omega)]
    exact unpacking.erased index (by dsimp only at lower; omega) upper

/-- If the first attempt is verified, no other one begins. -/
theorem AttemptStarts.only_first {pSrcData : Nat} {start : State}
    (starts : AttemptStarts chip uncompress header allowed state pSrcData start)
    (verified : ∀ fuel, (compressedAttempt chip uncompress fuel header chip.addrAppCopy).wp allowed
      ⟨fun verified _ => verified = true, fun _ => True, fun _ => True⟩ state) :
    pSrcData = chip.addrAppCopy ∧ start = state := by
  obtain ⟨fuel, begins⟩ := starts
  rw [attemptSources] at begins
  cases begins with
  | first => exact ⟨rfl, rfl⟩
  | later within ended begins =>
      have meets := Prog.run_meets (verified fuel) within
      rw [ended] at meets
      exact absurd meets Bool.false_ne_true

/-- Without failures, every iteration of an update whose staged bytes unpack is one of its first
attempt. -/
theorem Iterates.unpacking (bounded : Bounded header)
    (below : BelowCopy chip header.comPackOriginalSize)
    (unpacks : Unpacks uncompress header (bytesAt state.mem chip.addrAppCopy) image 0 0)
    (crcMatches : header.comPackOriginalCRC32 = (crc32 image header.comPackOriginalSize).toNat)
    {vars : UnpackVars} {before : State}
    (iterates : Iterates chip uncompress header Reliable state vars before) :
    Unpacking chip uncompress header (bytesAt state.mem chip.addrAppCopy) image vars before := by
  obtain ⟨pSrcData, start, schedule, accepted, opened, rest, starts, within, ended, reached, -⟩ :=
    iterates
  obtain ⟨steps, attempt⟩ := completes_compressedAttempt bounded below unpacks crcMatches
  obtain ⟨rfl, rfl⟩ := starts.only_first fun fuel => by
    obtain ⟨closed, completes⟩ := attempt fuel state.mem state.locked fun _ => rfl
    exact Prog.wp_mono (completes.wp state.log) (fun _ _ holds => holds.1.1) (fun _ _ => trivial)
      fun _ _ => trivial
  obtain ⟨erased, afterErase, erase⟩ := @ends_flashErasePage_any chip start.mem flashAppRunAddr
    header.comPackOriginalSize bounded.original run_aligned
    (covers_run chip (roundUp_le_max bounded.original)) start.locked
  have meets := Prog.run_meets (erase.wp start.log) within
  rw [show (⟨start.mem, start.locked, start.log⟩ : State) = start from rfl, ended] at meets
  obtain ⟨-, cleared, -⟩ := meets
  have first : Unpacking chip uncompress header (bytesAt start.mem chip.addrAppCopy) image
      ⟨chip.addrAppCopy, 0, 0⟩ opened := by
    rw [BelowCopy] at below
    refine ⟨(Nat.add_zero _).symm, unpacks, fun index => ?_, fun index _ upper => ?_⟩
    · rw [cleared, overlay_outside _ _ (by omega)]
      rfl
    · rw [cleared, overlay_inside _ _ (by omega) (by omega)]
  have every (pair : UnpackVars × State) (chain : ReflTransGen (Prog.LoopStep Reliable
      (UnpackMore header) (unpackStep chip uncompress header)) (⟨chip.addrAppCopy, 0, 0⟩, opened)
      pair) : Unpacking chip uncompress header (bytesAt start.mem chip.addrAppCopy) image pair.1
        pair.2 := by
    induction chain with
    | refl => exact first
    | tail _ step ih => exact ih.next bounded below step
  exact every _ reached

end Valid

variable {ZlibStream : (stream output : List UInt8) → Prop} {mem : Mem}
  {original staged : List UInt8}

theorem CompressedStaged.unpacking (contract : ZlibContract uncompress ZlibStream)
    (disjoint : flashAppRunAddr + otaBinMaxSize ≤ chip.addrAppCopy)
    (pending : CompressedStaged chip ZlibStream mem original staged) {locked : Bool}
    {log : List Record} {vars : UnpackVars} {before : State}
    (iterates : Iterates chip uncompress (headerAt chip mem) Reliable ⟨mem, locked, log⟩ vars
      before) :
    Unpacking chip uncompress (headerAt chip mem) (bytesAt mem chip.addrAppCopy)
      (bufferOf original) vars before :=
  iterates.unpacking pending.bounded (pending.below disjoint) (pending.unpacks contract)
    (by rw [pending.originalCrc, pending.size])

end LedFirmware
