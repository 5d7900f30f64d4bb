import LedFirmware.IapCommands
import LedFirmware.IapCompressedUpdate
import LedFirmware.IapRetries
import Mathlib.Data.Set.BooleanAlgebra
import Mathlib.Order.CompletePartialOrder

/-!
# Crash safety of the boot

A run alternates boots and, while the bootloader is in IAP mode, its commands;
each may be cut short by a power loss, after which the next event is a boot.  As
long as no boot gives up on an accepted update, the flag page reads as the
application is to run only over an intact or a checked run area.  Giving up
erases the flag page after the run area, before it programs the force flag.
-/

namespace LedFirmware

open CrashProgram NorFlash

/-- Between two events the processor is off, in the application or spinning, or
it waits for a command in IAP mode. -/
inductive Phase
  | off
  | iap (ram : IapRam)

structure System where
  state : State
  phase : Phase

def BootEnd.phase : BootEnd → Phase
  | .jump _ _ | .reset => .off
  | .iapLoop iapParam => .iap (.loaded iapParam)

def Handled.phase (handled : Handled) : Phase :=
  if handled.reset then .off else .iap handled.ram

/-- The system after an event. -/
def System.after {geometry : Geometry} {α : Type} (phase : α → Phase) :
    Outcome (flash geometry) α → System
  | .done value state _ => ⟨state, phase value⟩
  | .lost state | .spin state => ⟨state, .off⟩

section Runs

variable (chip : Chip) (uncompress : Uncompress)

/-- One event: a boot from an admitted flash, a command, or the force request.
No operation fails, but power may be lost before any of them. -/
inductive Step (admits : Mem → Prop) : System → System → Prop
  | boot {state : State} {phase : Phase} {fuel : Nat} {schedule : FlashSchedule}
      (admitted : admits state.mem)
      (within : Schedule.Within (D := flash chip.geometry) Reliable schedule) :
      Step admits ⟨state, phase⟩ (.after BootEnd.phase
        (Prog.run (main chip uncompress fuel) schedule (powerUp state)))
  | command {state : State} {ram : IapRam} {port : IapPort} {fuel len : Nat}
      {buf : Nat → UInt8} {schedule : FlashSchedule}
      (within : Schedule.Within (D := flash chip.geometry) Reliable schedule) :
      Step admits ⟨state, .iap ram⟩ (.after Handled.phase
        (Prog.run (protocolAnylise chip port fuel ram buf len) schedule state))
  | force {state : State} {ram : IapRam} {schedule : FlashSchedule}
      (within : Schedule.Within (D := flash chip.geometry) Reliable schedule) :
      Step admits ⟨state, .iap ram⟩ (.after (fun _ => .iap ram)
        (Prog.run (forceUpdateAppMode chip) schedule state))

/-- An image was found in the run area with its check value, and nothing was
written to the run area since. -/
def ImageChecked (state : State) : Prop :=
  ∃ length digest newer older,
    state.log = newer ++ .stamped flashAppRunAddr length digest :: older ∧
    (∀ record ∈ newer, Disjoint (record.footprint chip.geometry) runArea) ∧
    length ≤ otaBinMaxSize ∧
    (crc32 (bytesAt state.mem flashAppRunAddr) length).toNat = digest

/-- The run area holds the original application or a checked image. -/
def RunAreaGood (original : Mem) (state : State) : Prop :=
  Set.EqOn state.mem original runArea ∨ ImageChecked chip state

/-- If an update is accepted and compressed, what is staged unpacks to the
original image that its header describes. -/
def Installable (mem : Mem) : Prop :=
  ∀ header, verdict chip mem = .update header → header.compressFlag = 1 →
    Bounded header ∧ ∃ image,
      Unpacks uncompress header (bytesAt mem chip.addrAppCopy) image 0 0 ∧
      header.comPackOriginalCRC32 = (crc32 image header.comPackOriginalSize).toNat

/-- Either the run area is good, or the update that destroyed it is still
requested and still accepted. -/
inductive CrashSafe (original : Mem) : System → Prop
  | good {state : State} {phase : Phase} (kept : RunAreaGood chip original state) :
      CrashSafe original ⟨state, phase⟩
  | pending {state : State} {header : IapUpdataParam}
      (accepted : verdict chip state.mem = .update header) : CrashSafe original ⟨state, .off⟩

end Runs

variable {chip : Chip} {uncompress : Uncompress} {original : Mem} {region : Set Nat}

/-! ## Events -/

/-- What a program leaves in every outcome holds of the system after it. -/
theorem System.after_meets {α : Type} {phase : α → Phase} {invariant : System → Prop}
    {program : FlashProg chip.geometry α} {schedule : FlashSchedule} {state : State}
    (holds : program.wp Reliable
      ⟨fun value after => invariant ⟨after, phase value⟩, fun after => invariant ⟨after, .off⟩,
        fun after => invariant ⟨after, .off⟩⟩ state)
    (within : Schedule.Within (D := flash chip.geometry) Reliable schedule) :
    invariant (.after phase (Prog.run program schedule state)) := by
  have meets := Prog.run_meets holds within
  cases ended : Prog.run program schedule state with
  | done value after rest => rw [ended] at meets; exact meets
  | lost after => rw [ended] at meets; exact meets
  | spin after => rw [ended] at meets; exact meets

/-- Changes away from the run area keep it good. -/
theorem RunAreaGood.confined {before after : State} (good : RunAreaGood chip original before)
    (confined : Confined chip.geometry region before after) (apart : Disjoint region runArea) :
    RunAreaGood chip original after := by
  have outside : runArea ⊆ regionᶜ := fun _ inRun inRegion =>
    Set.disjoint_left.mp apart inRegion inRun
  rcases good with intact | ⟨length, digest, newer, older, logged, untouched, fits, crc⟩
  · exact Or.inl ((confined.kept.mono outside).trans intact)
  · obtain ⟨newest, appended, inside⟩ := confined.logged
    refine Or.inr ⟨length, digest, newest ++ newer, older, ?_, ?_, fits, ?_⟩
    · rw [appended, logged, List.append_assoc]
    · intro record member
      rcases List.mem_append.mp member with recent | earlier
      · exact apart.mono_left (inside record recent)
      · exact untouched record earlier
    · rw [← crc]
      refine congrArg UInt32.toNat (crc32_congr fun index bound => confined.kept (outside ?_))
      rw [runArea, Set.mem_Ico]
      omega

/-- A program away from the run area keeps it good, wherever it is cut. -/
theorem RunAreaGood.wp {α : Type} {phase : α → Phase} {program : FlashProg chip.geometry α}
    {state : State} (good : RunAreaGood chip original state)
    (confined : program.wp Reliable
      ⟨fun _ => Confined chip.geometry region state, Confined chip.geometry region state,
        Confined chip.geometry region state⟩ state)
    (apart : Disjoint region runArea) :
    program.wp Reliable
      ⟨fun value after => CrashSafe chip original ⟨after, phase value⟩,
        fun after => CrashSafe chip original ⟨after, .off⟩,
        fun after => CrashSafe chip original ⟨after, .off⟩⟩ state :=
  Prog.wp_mono confined (fun _ _ change => .good (good.confined change apart))
    (fun _ change => .good (good.confined change apart))
    fun _ change => .good (good.confined change apart)

theorem fromCopy_apart (disjoint : flashAppRunAddr + otaBinMaxSize ≤ chip.addrAppCopy) :
    Disjoint (fromCopy chip) runArea := by
  rw [Set.disjoint_left]
  intro cell high low
  have above : chip.addrAppCopy ≤ cell := high
  have below := (Set.mem_Ico.mp low).2
  omega

/-! ## A boot that installs an update -/

/-- A verified uncompressed attempt has just stamped the run area. -/
theorem plainAttempt_stamps {allowed : Fault → Prop} {header : IapUpdataParam} (state : State) :
    (plainAttempt chip header).wp allowed
      ⟨fun verified after => verified = true → ∃ older, after.log =
          .stamped flashAppRunAddr header.updatesTotalSize header.updatesCRC32 :: older,
        fun _ => True, fun _ => True⟩ state := by
  refine Prog.wp_bind_last (fun _ => trivial) (fun _ => trivial) fun erased opened => ?_
  refine Prog.wp_bind_last (fun _ => trivial) (fun _ => trivial) fun crc copied => ?_
  refine Prog.wp_bind_last (fun _ => trivial) (fun _ => trivial) fun total after => ?_
  refine Prog.wp_ite (fun _ => ?_) fun _ => ?_
  · exact (Prog.wp_bind _ _ _ _).mpr (wp_stamp trivial
      ((Prog.wp_done _ _ _).mpr fun _ => ⟨after.log, rfl⟩))
  · refine (Prog.wp_done _ _ _).mpr fun impossible => ?_
    exact absurd impossible Bool.false_ne_true

/-- What an update's first attempt is known to do: it verifies an image of the
given length and check value, touching the pages of the image only. -/
structure Attempts (chip : Chip) (attempt : FlashProg chip.geometry Bool) (state : State)
    (length digest : Nat) : Prop where
  fits : length ≤ otaBinMaxSize
  wp : attempt.wp Reliable
    ⟨fun verified after => verified = true ∧ JustChecked length digest after ∧
        Confined chip.geometry (runPages length) state after,
      Confined chip.geometry (runPages length) state,
      Confined chip.geometry (runPages length) state⟩ state

theorem attempts_of_completes {enough : Prop} {attempt : FlashProg chip.geometry Bool}
    {state : State} {length digest : Nat} {image : Nat → UInt8} {closed : Bool}
    (fits : length ≤ otaBinMaxSize)
    (completes : Completes enough (runPages length) attempt state.mem state.locked true
      (installed state.mem length image) closed)
    (stamps : attempt.wp Reliable
      ⟨fun verified after => verified = true → ∃ older, after.log =
          .stamped flashAppRunAddr length digest :: older,
        fun _ => True, fun _ => True⟩ state)
    (crcMatches : digest = (crc32 image length).toNat) :
    Attempts chip attempt state length digest := by
  refine ⟨fits, Prog.wp_mono (Prog.wp_and (completes.wp state.log) stamps) ?_
    (fun _ holds => holds.1) fun _ holds => holds.1.2⟩
  rintro verified after ⟨⟨⟨rfl, reached, -⟩, confined⟩, stamped⟩
  refine ⟨rfl, ⟨?_, stamped rfl⟩, confined⟩
  rw [reached, crcMatches]
  exact congrArg UInt32.toNat (crc32_congr fun index inside => installed_run inside)

/-- The first attempt of an installable update. -/
theorem exists_attempts {mem : Mem} {fuel : Nat} {header : IapUpdataParam}
    (disjoint : flashAppRunAddr + otaBinMaxSize ≤ chip.addrAppCopy)
    (installable : Installable chip uncompress mem)
    (accepted : verdict chip mem = .update header) :
    ∃ attempt later length digest,
      attempts chip uncompress fuel header = attempt :: later ∧
      ∀ state : State, state.mem = mem → Attempts chip attempt state length digest := by
  have gate : GateAccepts chip mem header := (verdict_accepts accepted).2
  have below {length : Nat} (fits : length ≤ otaBinMaxSize) : BelowCopy chip length :=
    le_trans (Nat.add_le_add_left (roundUp_le_max fits) _) disjoint
  by_cases compressed : header.compressFlag = 1
  · obtain ⟨bounded, image, unpacks, crcMatches⟩ := installable header accepted compressed
    obtain ⟨steps, completes⟩ :=
      completes_compressedAttempt bounded (below bounded.original) unpacks crcMatches
    refine ⟨_, _, header.comPackOriginalSize, header.comPackOriginalCRC32,
      attempts_compressed fuel compressed, ?_⟩
    rintro state rfl
    obtain ⟨closed, attempt⟩ := completes fuel state.mem state.locked fun _ => rfl
    exact attempts_of_completes bounded.original attempt
      (Prog.wp_mono (compressedAttempt_checks fuel chip.addrAppCopy state)
        (fun _ _ checks verified => (checks verified).2) (fun _ holds => holds)
        fun _ holds => holds) crcMatches
  · refine ⟨_, _, header.updatesTotalSize, header.updatesCRC32,
      attempts_plain fuel compressed, ?_⟩
    rintro state rfl
    obtain ⟨closed, ends⟩ := ends_plainAttempt_any gate (below gate.1) state.locked
    have completes : Completes True (runPages header.updatesTotalSize) (plainAttempt chip header)
      state.mem state.locked true _ closed := .of_ends ends touches_plainAttempt
    exact attempts_of_completes gate.1 completes (plainAttempt_stamps state) gate.2

theorem flagPage_footprint (chip : Chip) :
    (Record.erased chip.addrIapFlag).footprint chip.geometry = pageAt chip.addrIapFlag := by
  ext cell
  exact samePage_iff (page_positive chip) (pageFromEnd_aligned chip 1)

/-- A boot that installs an update leaves it requested or has checked the run area. -/
theorem wp_main_install {state : State} {header : IapUpdataParam} (fuel : Nat)
    (disjoint : flashAppRunAddr + otaBinMaxSize ≤ chip.addrAppCopy)
    (installable : Installable chip uncompress state.mem)
    (accepted : verdict chip state.mem = .update header) :
    (main chip uncompress fuel).wp Reliable
      ⟨fun result after => CrashSafe chip original ⟨after, result.phase⟩,
        fun after => CrashSafe chip original ⟨after, .off⟩,
        fun after => CrashSafe chip original ⟨after, .off⟩⟩ state := by
  obtain ⟨attempt, later, length, digest, first, does⟩ :=
    @exists_attempts chip uncompress state.mem fuel header disjoint installable accepted
  obtain ⟨fits, wp⟩ := does { state with locked := false } rfl
  have below : BelowCopy chip length :=
    le_trans (Nat.add_le_add_left (roundUp_le_max fits) _) disjoint
  -- Until the flag is erased, the update is still requested and accepted.
  have still {after : State} (locked : Bool)
      (kept : Set.EqOn after.mem state.mem (runPages length)ᶜ) :
      CrashSafe chip original ⟨{ after with locked }, .off⟩ := by
    refine @CrashSafe.pending chip original _ header (Eq.trans ?_ accepted)
    exact verdict_congr fun cell high => kept (outside_runPages below high)
  -- Once it is erased, nothing but the flag page was touched since the check.
  have finished {after : State} (locked : Bool) (checked : JustChecked length digest after) :
      CrashSafe chip original
        ⟨⟨flagErased chip after.mem, locked, .erased chip.addrIapFlag :: after.log⟩, .off⟩ := by
    have apart : Disjoint (pageAt chip.addrIapFlag) runArea :=
      (fromCopy_apart disjoint).mono_left (pageAt_fromCopy (copy_le_flag chip))
    obtain ⟨crc, older, stamped⟩ := checked
    refine .good (Or.inr ⟨length, digest, [.erased chip.addrIapFlag], older, ?_, ?_, fits, ?_⟩)
    · rw [stamped]
      rfl
    · intro record member
      rw [List.mem_singleton.mp member, flagPage_footprint]
      exact apart
    · rw [← crc]
      refine congrArg UInt32.toNat (crc32_congr fun index inside =>
        flagErased_eqOn chip after.mem ?_)
      refine fun inPage => Set.disjoint_left.mp apart inPage (Set.mem_Ico.mpr ?_)
      omega
  refine @wp_main_update _ _ _ _ _ _ _ _ (fun after : State => JustChecked length digest after ∧
      Set.EqOn after.mem state.mem (runPages length)ᶜ) accepted first ?_ ?_ ?_ ?_ ?_
  · exact fun locked => still locked fun _ _ => rfl
  · exact Prog.wp_mono wp (fun _ after done => ⟨done.1, done.2.1, done.2.2.kept⟩)
      (fun after confined => still after.locked confined.kept)
      fun after confined => still after.locked confined.kept
  · exact fun after verified locked => still locked verified.2
  · exact fun after verified locked => finished locked verified.1
  · exact fun after verified => finished true verified.1

/-! ## Runs -/

/-- Every event keeps the system crash safe, boots under the condition that what
they find accepted is installable. -/
theorem CrashSafe.step (disjoint : flashAppRunAddr + otaBinMaxSize ≤ chip.addrAppCopy)
    {before after : System} (safe : CrashSafe chip original before)
    (step : Step chip uncompress (Installable chip uncompress) before after) :
    CrashSafe chip original after := by
  cases step with
  | @boot state phase fuel schedule admitted within =>
      refine System.after_meets ?_ within
      by_cases update : ∃ header, verdict chip state.mem = .update header
      · obtain ⟨header, accepted⟩ := update
        exact @wp_main_install chip uncompress original (powerUp state) header fuel disjoint
          admitted accepted
      · have noUpdate (header : IapUpdataParam) : verdict chip state.mem ≠ .update header :=
          fun accepted => update ⟨header, accepted⟩
        cases safe with
        | good kept =>
            have started : RunAreaGood chip original (powerUp state) := kept
            exact started.wp (wp_main_confined uncompress fuel
              (pageAt_fromCopy (copy_le_flag chip)) (pageAt_fromCopy (copy_le_param chip)) noUpdate)
              (fromCopy_apart disjoint)
        | pending accepted => exact absurd accepted (noUpdate _)
  | @command state ram port fuel len buf schedule within =>
      cases safe with
      | good kept =>
          exact System.after_meets (kept.wp
            (wp_of_touches (touches_protocolAnylise port fuel ram buf len) state)
            (fromCopy_apart disjoint)) within
  | @force state ram schedule within =>
      cases safe with
      | good kept =>
          exact System.after_meets (kept.wp (wp_of_touches
            (touches_forceUpdateAppMode (pageAt_fromCopy (copy_le_flag chip))) state)
            (fromCopy_apart disjoint)) within

/-- While boots find installable updates only, the flag page reads as the
application is to run only over the original application or a checked image. -/
theorem boot_crash_safe (chip : Chip) (uncompress : Uncompress)
    (disjoint : flashAppRunAddr + otaBinMaxSize ≤ chip.addrAppCopy) (start finish : System)
    (run : Relation.ReflTransGen (Step chip uncompress (Installable chip uncompress)) start finish)
    (running : iapFlag chip finish.state.mem = otaRunApp) :
    RunAreaGood chip start.state.mem finish.state := by
  have safe : CrashSafe chip start.state.mem finish := by
    clear running
    induction run with
    | refl => exact .good (Or.inl fun _ _ => rfl)
    | tail _ step ih => exact ih.step disjoint step
  cases safe with
  | good kept => exact kept
  | pending accepted =>
      have updating := (verdict_accepts accepted).1
      rw [running] at updating
      exact absurd updating (by decide)

/-- Failure-free operations up to a power loss before the given one. -/
def poweredFor (count : Nat) : FlashSchedule :=
  fun index => if index < count then some .none else none

theorem poweredFor_within {geometry : Geometry} (count : Nat) :
    Schedule.Within (D := flash geometry) Reliable (poweredFor count) := by
  intro index fault scheduled
  unfold poweredFor at scheduled
  split at scheduled
  · cases scheduled
    rfl
  · cases scheduled

/-- The uncompressed sample, booted. -/
def plainBooted : System :=
  .after BootEnd.phase (Prog.run (main sampleChip zeroUncompress 1) (poweredFor 100)
    (powerUp ⟨plainSample, true, []⟩))

theorem boot_crash_safe_sample : RunAreaGood sampleChip plainSample plainBooted.state :=
  boot_crash_safe sampleChip zeroUncompress (by decide +kernel) ⟨⟨plainSample, true, []⟩, .off⟩
    plainBooted
    (.single (.boot (fun header accepted compressed => by
        obtain rfl : headerAt sampleChip plainSample = header := by
          rw [verdict_update (by decide +kernel) (by decide +kernel)] at accepted
          exact Verdict.update.inj accepted
        exact absurd compressed (by decide +kernel))
      (poweredFor_within 100)))
    (by decide +kernel)

/-- A staged stream of eight zero bytes whose header has a wrong check value for
them, and an application in the run area. -/
def wrongCrcFlash : Mem :=
  overlay flashAppRunAddr 4 (bufferOf [0x00, 0x10, 0x00, 0x20]) (zeroFlash [0, 0, 0, 0])

/-- Its boot, up to a power loss behind the 64th operation, in `ForceUpdateAppMode`. -/
def wrongCrcLost : System :=
  .after BootEnd.phase (Prog.run (main sampleChip zeroUncompress 12) (poweredFor 64)
    (powerUp ⟨wrongCrcFlash, true, []⟩))

/-- Without the condition a boot that gives up on an update leaves the run flag
over a destroyed run area. -/
theorem boot_not_crash_safe : ¬ ∀ start finish : System,
    Relation.ReflTransGen (Step sampleChip zeroUncompress fun _ => True) start finish →
    iapFlag sampleChip finish.state.mem = otaRunApp →
    RunAreaGood sampleChip start.state.mem finish.state := by
  intro safe
  have good := safe ⟨⟨wrongCrcFlash, true, []⟩, .off⟩ wrongCrcLost
    (.single (.boot trivial (poweredFor_within 64))) (by decide +kernel)
  rcases good with intact | ⟨length, digest, newer, older, logged, -⟩
  · have first : flashAppRunAddr ∈ runArea :=
      Set.mem_Ico.mpr ⟨le_rfl, Nat.lt_add_of_pos_right (by decide)⟩
    have erased : wrongCrcLost.state.mem flashAppRunAddr = erasedByte := by decide +kernel
    have original : wrongCrcFlash flashAppRunAddr = 0x00 := by decide +kernel
    have same : wrongCrcLost.state.mem flashAppRunAddr = wrongCrcFlash flashAppRunAddr :=
      intact first
    rw [erased, original] at same
    exact absurd same (by decide)
  · have unchecked : wrongCrcLost.state.log.all fun record =>
        record.casesOn (fun _ => true) (fun _ => true) fun _ _ _ => false := by decide +kernel
    rw [logged, List.all_append, List.all_cons] at unchecked
    simp at unchecked

end LedFirmware
