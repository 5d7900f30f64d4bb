import LedFirmware.EncryptCode
import LedFirmware.IapLayout
import LedFirmware.NorFlashLog

/-!
# The binding of a unit to its chip

The first check of a unit replaces the general code in its flash by the code of the chip, and
every later check compares the stored code with that of the chip it runs on.
-/

namespace LedFirmware

open CrashProgram NorFlash

/-- `ENCRYPT_FLASH_ADDR` -/
def encryptFlashAddr : Nat := 0x08000000 + 1024 * (128 - 4)

/-- What a check returns. -/
inductive EncryptState
  | init
  | ok
  | error
  deriving DecidableEq

/-- A board: its chip, and the memory in which the chip has its ID. -/
structure Board where
  chip : Chip
  info : Nat → UInt8

/-- The ID of the chip of a board. -/
def Board.uid (board : Board) (index : Nat) : UInt8 := board.info (uidAddr + index)

/-- The code of a board. -/
def Board.code (board : Board) : Nat → UInt8 :=
  encryptMyIDCodeCalc (data08 (encryptReadID board.info))

section Routines

/-- Program half-words one after the other, whatever the replies. -/
def programEach (geometry : Geometry) : (count addr : Nat) → (source : Nat → UInt8) →
    FlashProg geometry Unit
  | 0, _, _ => .done ()
  | count + 1, addr, source =>
      program geometry addr (source 0) (source 1) >>= fun _ =>
      programEach geometry count (addr + 2) fun index => source (2 + index)

/-- The bytes of the half-words that `rand` gives. -/
def randomBytes (rand : Nat → Nat) (index : Nat) : UInt8 :=
  LittleEndian.byte (rand (index / 2) % 65535) (index % 2)

variable (board : Board)

def encryptCodeLoad : FlashProg board.chip.geometry (Nat → UInt8) :=
  read _ >>= fun mem => .done fun index => mem (encryptFlashAddr + index)

/-- Behind the code go 64 random half-words. -/
def encryptCodeSave (rand : Nat → Nat) (myIDCode : Nat → UInt8) :
    FlashProg board.chip.geometry Unit :=
  setLock _ false >>= fun _ =>
  erase _ encryptFlashAddr >>= fun erased =>
  (if erased then
      programEach _ (12 / 2) encryptFlashAddr myIDCode >>= fun _ =>
      programEach _ 64 (encryptFlashAddr + 12) (randomBytes rand)
    else .done ()) >>= fun _ => setLock _ true

def encryptStateCheck (rand : Nat → Nat) : FlashProg board.chip.geometry EncryptState :=
  encryptCodeLoad board >>= fun encryptCode =>
  if SameBytes generalCode encryptCode then
    encryptCodeSave board rand board.code >>= fun _ => .done .init
  else if SameBytes board.code encryptCode then .done .ok
  else .done .error

/-- Checks one after the other, each with its own random numbers. -/
def encryptStateChecks : List (Nat → Nat) → FlashProg board.chip.geometry (List EncryptState)
  | [] => .done []
  | rand :: rands =>
      encryptStateCheck board rand >>= fun state =>
      encryptStateChecks rands >>= fun states => .done (state :: states)

end Routines

/-! ### The promise -/

/-- The code area holds the general code. -/
def HoldsGeneral (mem : Mem) : Prop :=
  SameBytes generalCode fun index => mem (encryptFlashAddr + index)

/-- The first check stores a code with which all later checks on the board succeed, and with
which all checks on the other board fail, if that has a different ID. -/
def Binds (board other : Board) : Prop :=
  ∀ (mem : Mem) (locked : Bool) (rand : Nat → Nat), HoldsGeneral mem → ∃ after,
    Ends (encryptStateCheck board rand) mem locked .init after true ∧
    (∀ rands, Ends (encryptStateChecks board rands) after true
      (rands.map fun _ => .ok) after true) ∧
    (¬ SameBytes board.uid other.uid → ∀ rands, Ends (encryptStateChecks other rands) after true
      (rands.map fun _ => .error) after true)

/-! ### Runs of the routines -/

variable {board other : Board} {mem : Mem} {locked : Bool}

/-- A result without failures is the only one. -/
theorem Ends.unique {geometry : Geometry} {α : Type} {program : FlashProg geometry α}
    {mem final final' : Mem} {locked closed closed' : Bool} {value value' : α}
    (first : Ends program mem locked value final closed)
    (second : Ends program mem locked value' final' closed') : value = value' ∧ final = final' := by
  obtain ⟨newLog, used, run⟩ := first.run [] faultless_within faultless_powered
  obtain ⟨newLog', used', run'⟩ := second.run [] faultless_within faultless_powered
  cases run.symm.trans run'
  exact ⟨rfl, rfl⟩

theorem ends_programEach {geometry : Geometry} {count addr : Nat} {source : Nat → UInt8}
    {mem : Mem} (covers : geometry.Covers addr (2 * count)) (even : addr % 2 = 0)
    (erased : ∀ index < 2 * count, mem (addr + index) = erasedByte) :
    Ends (programEach geometry count addr source) mem false ()
      (overlay addr (2 * count) source mem) false := by
  induction count generalizing addr source mem with
  | zero => simpa [programEach] using Ends.done ()
  | succ count ih =>
      obtain ⟨lower, upper⟩ := covers
      have first := @Ends.program_source geometry mem addr source ⟨lower, by omega⟩
        ⟨by omega, by omega⟩ even (erased 0 (by omega)) (erased 1 (by omega))
      have rest := @ih (addr + 2) (fun index => source (2 + index)) (overlay addr 2 source mem)
        ⟨by omega, by omega⟩ (by omega) fun index inside => by
          rw [overlay_outside _ _ (by omega), Nat.add_assoc]
          exact erased _ (by omega)
      rw [overlay_append, show 2 + 2 * count = 2 * (count + 1) by omega] at rest
      exact first.bind rest

/-- The flash behind a save. -/
def saved (rand : Nat → Nat) (myIDCode : Nat → UInt8) (mem : Mem) : Mem :=
  overlay (encryptFlashAddr + 12) 128 (randomBytes rand)
    (overlay encryptFlashAddr 12 myIDCode
      (overlay encryptFlashAddr flashPageSize (fun _ => erasedByte) mem))

theorem saved_code (rand : Nat → Nat) (myIDCode : Nat → UInt8) (mem : Mem) {index : Nat}
    (inside : index < 12) :
    saved rand myIDCode mem (encryptFlashAddr + index) = myIDCode index := by
  rw [saved, overlay_outside _ _ (by omega), overlay_inside _ _ (by omega) (by omega),
    Nat.add_sub_cancel_left]

theorem ends_encryptCodeSave (rand : Nat → Nat) (myIDCode : Nat → UInt8) :
    Ends (encryptCodeSave board rand myIDCode) mem locked () (saved rand myIDCode mem) true := by
  have covers : board.chip.geometry.Covers encryptFlashAddr flashPageSize := by
    have size := board.chip.aboveRun
    constructor
    · change 0x08000000 ≤ 0x08000000 + 1024 * (128 - 4)
      omega
    · change 0x08000000 + 1024 * (128 - 4) + 2048 ≤ 0x08000000 + board.chip.flashSize * 1024
      omega
  obtain ⟨lower, upper⟩ := covers
  have page : flashPageSize = 2048 := rfl
  have aligned : encryptFlashAddr % flashPageSize = 0 := by decide
  have erased := @Ends.erase_page board.chip.geometry mem encryptFlashAddr
    (page_positive board.chip) aligned ⟨lower, by omega⟩
  have code := @ends_programEach board.chip.geometry (12 / 2) encryptFlashAddr myIDCode
    (overlay encryptFlashAddr flashPageSize (fun _ => erasedByte) mem) ⟨lower, by omega⟩
    (by decide) fun index inside => overlay_inside _ _ (by omega) (by omega)
  have random := @ends_programEach board.chip.geometry 64 (encryptFlashAddr + 12)
    (randomBytes rand) (overlay encryptFlashAddr 12 myIDCode
      (overlay encryptFlashAddr flashPageSize (fun _ => erasedByte) mem))
    ⟨by omega, by omega⟩ (by decide) fun index inside => by
      rw [overlay_outside _ _ (by omega), overlay_inside _ _ (by omega) (by omega)]
  exact (Ends.setLock false).bind (erased.bind ((code.bind random).bind (Ends.setLock true)))

/-- The first check. -/
theorem ends_encryptStateCheck_init (rand : Nat → Nat) (general : HoldsGeneral mem) :
    Ends (encryptStateCheck board rand) mem locked .init (saved rand board.code mem) true := by
  have same : SameBytes generalCode fun index => mem (encryptFlashAddr + index) := general
  refine (Ends.read.bind (.done _)).bind ?_
  simp only [if_pos same]
  exact (ends_encryptCodeSave rand board.code).bind (.done _)

/-- The code of a board is in the flash. -/
def HoldsCode (board : Board) (mem : Mem) : Prop :=
  SameBytes board.code fun index => mem (encryptFlashAddr + index)

instance (board : Board) (mem : Mem) : Decidable (HoldsCode board mem) :=
  inferInstanceAs (Decidable (SameBytes _ _))

theorem HoldsCode.not_general (holds : HoldsCode board mem) : ¬ HoldsGeneral mem :=
  fun general => code_ne_general _ fun index inside =>
    (general index inside).trans (holds index inside).symm

theorem holdsCode_saved (rand : Nat → Nat) : HoldsCode board (saved rand board.code mem) :=
  fun _ inside => (saved_code rand board.code mem inside).symm

/-- A later check only compares. -/
theorem ends_encryptStateCheck (rand : Nat → Nat) (special : ¬ HoldsGeneral mem) :
    Ends (encryptStateCheck board rand) mem locked
      (if HoldsCode board mem then .ok else .error) mem locked := by
  have other : ¬ SameBytes generalCode fun index => mem (encryptFlashAddr + index) := special
  refine (Ends.read.bind (.done _)).bind ?_
  simp only [if_neg other]
  by_cases holds : SameBytes board.code fun index => mem (encryptFlashAddr + index)
  · rw [if_pos (show HoldsCode board mem from holds), if_pos holds]
    exact .done _
  · rw [if_neg (show ¬ HoldsCode board mem from holds), if_neg holds]
    exact .done _

theorem ends_encryptStateChecks (rands : List (Nat → Nat)) (special : ¬ HoldsGeneral mem) :
    Ends (encryptStateChecks board rands) mem locked
      (rands.map fun _ => if HoldsCode board mem then .ok else .error) mem locked := by
  induction rands with
  | nil => exact .done _
  | cons rand rands ih => exact (ends_encryptStateCheck rand special).bind (ih.bind (.done _))

/-! ### Which boards are told apart -/

theorem SameKept.congr {first second first' second' : Nat → UInt8}
    (same : SameBytes first first') (same' : SameBytes second second') :
    SameKept first second ↔ SameKept first' second' := by
  refine forall₂_congr fun index inside => ?_
  simp only [same index inside, same' index inside]

theorem Board.sameCode_iff (board other : Board) :
    SameBytes board.code other.code ↔ SameKept board.uid other.uid :=
  (LedFirmware.sameCode_iff _ _).trans
    (SameKept.congr (fun _ => data08_encryptReadID board.info)
      fun _ => data08_encryptReadID other.info)

/-- With the flash of the board the other one finds its code if the codes are the same. -/
theorem holdsCode_saved_iff (rand : Nat → Nat) :
    HoldsCode other (saved rand board.code mem) ↔ SameKept board.uid other.uid := by
  rw [← Board.sameCode_iff]
  constructor
  · exact fun holds index inside =>
      (saved_code rand board.code mem inside).symm.trans (holds index inside).symm
  · exact fun same index inside =>
      (same index inside).symm.trans (saved_code rand board.code mem inside).symm

/-- An erased page holds the general code. -/
theorem holdsGeneral_erased : HoldsGeneral fun _ => erasedByte := by
  have all : ∀ index < 12, generalCode index = erasedByte := by decide
  exact all

/-- Boards with different IDs and the same code are not told apart. -/
theorem not_binds (different : ¬ SameBytes board.uid other.uid)
    (kept : SameKept board.uid other.uid) : ¬ Binds board other := by
  intro binds
  obtain ⟨after, first, -, foreign⟩ := binds _ true (fun _ => 0) holdsGeneral_erased
  obtain ⟨-, rfl⟩ := Ends.unique first
    (ends_encryptStateCheck_init (fun _ => 0) holdsGeneral_erased)
  have special := (@holdsCode_saved board (fun _ => erasedByte) fun _ => 0).not_general
  have accepted := @ends_encryptStateChecks other _ true [fun _ => 0] special
  rw [if_pos ((holdsCode_saved_iff _).mpr kept)] at accepted
  cases (Ends.unique accepted (foreign different [fun _ => 0])).1

theorem binds_of (apart : SameBytes board.uid other.uid ∨ ¬ SameKept board.uid other.uid) :
    Binds board other := by
  intro mem locked rand general
  have special := (@holdsCode_saved board mem rand).not_general
  refine ⟨saved rand board.code mem, ends_encryptStateCheck_init rand general, fun rands => ?_,
    fun different rands => ?_⟩
  · have runs := @ends_encryptStateChecks board _ true rands special
    rwa [if_pos (holdsCode_saved rand)] at runs
  · have runs := @ends_encryptStateChecks other _ true rands special
    have refused : ¬ HoldsCode other (saved rand board.code mem) :=
      fun holds => (apart.resolve_left different) ((holdsCode_saved_iff rand).mp holds)
    rwa [if_neg refused] at runs

/-- The protection tells two boards apart if their IDs differ in a bit that the formulas keep. -/
theorem encryptState_binds_iff (board other : Board) : Binds board other ↔
    SameBytes board.uid other.uid ∨ ¬ SameKept board.uid other.uid := by
  refine ⟨fun binds => ?_, binds_of⟩
  by_contra neither
  obtain ⟨different, kept⟩ := not_or.mp neither
  exact not_binds different (not_not.mp kept) binds

/-- The lowest bit of the first byte is shifted out. -/
theorem encryptState_lowest_bit : ¬ Binds ⟨sampleChip, fun _ => 0⟩
    ⟨sampleChip, fun addr => if addr = uidAddr then 1 else 0⟩ :=
  not_binds (by decide) (by decide)

end LedFirmware
