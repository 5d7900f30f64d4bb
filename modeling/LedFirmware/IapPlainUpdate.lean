import LedFirmware.IapInstall
import Mathlib.Logic.Relation

/-!
# The uncompressed update

A first attempt without failures copies the staged image and verifies it.
Power losses before the flag erase leave a state from which the next boot
produces the same memory, so any number of interrupted boots does no harm.
-/

namespace LedFirmware

open CrashProgram NorFlash

variable {chip : Chip} {region : Set Nat} {mem : Mem}

theorem touches_copyBlocks (count i : Nat) (crc : UInt32)
    (inside : Set.Ico (flashAppRunAddr + i * flashPageSize)
      (flashAppRunAddr + (i + count) * flashPageSize) ⊆ region) :
    Touches chip.geometry region (copyBlocks chip count i crc) := by
  induction count generalizing i crc with
  | zero => exact .done crc
  | succ count ih =>
      have whole : roundUp 8 flashPageSize = flashPageSize := rfl
      refine .bind (touches_flashRead _) fun _ => .bind (touches_flashWrite ?_) fun _ =>
        .bind (touches_flashRead _) fun _ => ih _ _ ?_
      · rw [whole]
        exact (Set.Ico_subset_Ico_right (by simp only [flashPageSize]; omega)).trans inside
      · exact (Set.Ico_subset_Ico (by simp only [flashPageSize]; omega)
          (by simp only [flashPageSize]; omega)).trans inside

theorem touches_plainAttempt {header : IapUpdataParam} :
    Touches chip.geometry (runPages header.updatesTotalSize) (plainAttempt chip header) := by
  have split := Nat.div_add_mod' header.updatesTotalSize flashPageSize
  have bound := Nat.mod_lt header.updatesTotalSize page_pos
  have rounded := roundUp_split page_pos header.updatesTotalSize
  rw [Nat.mul_comm] at rounded
  refine .bind (touches_flashErasePage run_aligned fun _ => subset_rfl) fun _ => .bind
    (touches_copyBlocks _ _ _ ?_) fun crc => .bind (.ite (fun left => .bind (touches_flashRead _)
      fun _ => .bind (touches_flashWrite ?_) fun _ => .bind (touches_flashRead _) fun _ =>
        .done _) fun _ => .done crc) fun _ => .ite (fun _ => .bind (.stamp _ _ _) fun _ =>
          .done true) fun _ => .done false
  · exact Set.Ico_subset_Ico (by omega) (by rw [Nat.zero_add]; omega)
  · have short : roundUp 8 (header.updatesTotalSize % flashPageSize) ≤ 8 * 256 :=
      roundUp_le (by omega) (by simp only [flashPageSize] at bound ⊢; omega)
    rw [if_neg left] at rounded
    simp only [flashPageSize] at rounded short ⊢
    exact Set.Ico_subset_Ico (by omega) (by simp only [flashPageSize]; omega)

theorem copy_in_flash (chip : Chip) :
    chip.addrAppCopy ≤ chip.geometry.base + chip.geometry.size := by
  obtain ⟨-, upper⟩ := covers_pageFromEnd chip (le_refl 57) (Nat.zero_le _)
  rw [Nat.add_zero] at upper
  exact upper

theorem run_aligned_mod {offset : Nat} (aligned : offset % 8 = 0) :
    (flashAppRunAddr + offset) % 8 = 0 := by
  rw [Nat.add_mod, aligned]
  rfl

/-- A block that is copied is read back for the check value. -/
theorem ends_copyBlock {α : Type} {image : Nat → UInt8} {offset len : Nat} {crc : UInt32}
    {next : UInt32 → FlashProg chip.geometry α} {value : α} {final : Mem} {closed : Bool}
    (aligned : offset % 8 = 0)
    (covers : chip.geometry.Covers (flashAppRunAddr + offset) (roundUp 8 len))
    (source : ∀ index < len, bytesAt mem (chip.addrAppCopy + offset) index = image (offset + index))
    (erased : ∀ index < roundUp 8 len, mem (flashAppRunAddr + offset + index) = erasedByte)
    (rest : Ends (next (crc32Update crc (fun index => image (offset + index)) len))
      (overlay (flashAppRunAddr + offset) len (fun index => image (offset + index)) mem) true value
      final closed) :
    Ends (flashRead chip (chip.addrAppCopy + offset) >>= fun checkBuf =>
      flashWrite chip (flashAppRunAddr + offset) checkBuf len >>= fun _ =>
      flashRead chip (flashAppRunAddr + offset) >>= fun checkBuf =>
      next (crc32Update crc checkBuf len)) mem true value final closed := by
  have write := @ends_flashWrite chip mem (flashAppRunAddr + offset) len
    (bytesAt mem (chip.addrAppCopy + offset)) (run_aligned_mod aligned) covers erased true
  rw [overlay_congr mem source] at write
  have readBack : crc32Update crc (bytesAt (overlay (flashAppRunAddr + offset) len
        (fun index => image (offset + index)) mem) (flashAppRunAddr + offset)) len =
      crc32Update crc (fun index => image (offset + index)) len := by
    refine crc32Update_congr fun index inside => ?_
    rw [bytesAt, overlay_inside _ _ (by omega) (by omega), Nat.add_sub_cancel_left]
  refine ((returns_flashRead _).ends true).bind (write.bind
    (((returns_flashRead _).ends true).bind ?_))
  rw [readBack]
  exact rest

/-- Copying whole blocks into erased pages stores the image, and the CRC fed
with what reads back is the image's. -/
theorem ends_copyBlocks {image : Nat → UInt8} (count i : Nat) (crc : UInt32)
    (below : flashAppRunAddr + (i + count) * flashPageSize ≤ chip.addrAppCopy)
    (source : ∀ index < (i + count) * flashPageSize,
      mem (chip.addrAppCopy + index) = image index)
    (erased : ∀ index, i * flashPageSize ≤ index → index < (i + count) * flashPageSize →
      mem (flashAppRunAddr + index) = erasedByte) :
    Ends (copyBlocks chip count i crc) mem true
      (crc32Update crc (fun index => image (i * flashPageSize + index)) (count * flashPageSize))
      (overlay (flashAppRunAddr + i * flashPageSize) (count * flashPageSize)
        (fun index => image (i * flashPageSize + index)) mem) true := by
  induction count generalizing i crc mem with
  | zero => simpa [copyBlocks, crc32Update] using Ends.done crc
  | succ count ih =>
      have inFlash := copy_in_flash chip
      have start : (i + 1) * flashPageSize = i * flashPageSize + flashPageSize := by
        rw [Nat.add_mul, Nat.one_mul]
      have finish : (i + 1 + count) * flashPageSize =
          i * flashPageSize + flashPageSize + count * flashPageSize := by
        rw [Nat.add_mul, start]
      rw [show i + (count + 1) = i + 1 + count by omega, finish] at below source erased
      have whole : roundUp 8 flashPageSize = flashPageSize := rfl
      have base := (covers_run chip (Nat.zero_le _)).1
      let block : Nat → UInt8 := fun index => image (i * flashPageSize + index)
      have rest := @ih (overlay (flashAppRunAddr + i * flashPageSize) flashPageSize block mem)
        (i + 1) (crc32Update crc block flashPageSize) (by rw [finish]; omega)
        (fun index inside => by
          rw [finish] at inside
          rw [overlay_outside _ _ (by omega)]
          exact source _ inside)
        (fun index lower upper => by
          rw [finish] at upper
          rw [overlay_outside _ _ (by omega)]
          exact erased _ (by omega) upper)
      have shifted : (fun index => image ((i + 1) * flashPageSize + index)) =
          fun index => block (flashPageSize + index) := by
        funext index
        rw [start, Nat.add_assoc]
      rw [shifted, crc32Update_append, start, ← Nat.add_assoc, overlay_append] at rest
      rw [show (count + 1) * flashPageSize = flashPageSize + count * flashPageSize by
        rw [Nat.add_mul, Nat.one_mul, Nat.add_comm]]
      refine ends_copyBlock (by simp only [flashPageSize]; omega) ⟨by omega, by omega⟩
        (fun index inside => ?_) (fun index inside => ?_) rest
      · rw [bytesAt, Nat.add_assoc]
        exact source _ (by omega)
      · rw [Nat.add_assoc]
        exact erased _ (by omega) (by omega)

/-- What an uncompressed update needs: the request, a positive size, checks that
accept, and whole pages below the copy area. -/
structure PlainPending (chip : Chip) (mem : Mem) : Prop where
  updating : iapFlag chip mem = otaUpdateApp
  plain : (headerAt chip mem).compressFlag ≠ 1
  positive : 0 < (headerAt chip mem).updatesTotalSize
  accepted : GateAccepts chip mem (headerAt chip mem)
  below : BelowCopy chip (headerAt chip mem).updatesTotalSize

/-- The memory in which an uncompressed update ends. -/
def plainFinal (chip : Chip) (mem : Mem) : Mem :=
  flagErased chip (installed mem (headerAt chip mem).updatesTotalSize
    (bytesAt mem chip.addrAppCopy))

/-- The last step of an attempt whose check value is right. -/
theorem ends_plainVerified {header : IapUpdataParam} {crc : UInt32}
    (crcMatches : header.updatesCRC32 = (crc32Final crc).toNat) (locked : Bool) :
    Ends (if header.updatesCRC32 = (crc32Final crc).toNat then
        stamp chip.geometry flashAppRunAddr header.updatesTotalSize header.updatesCRC32 >>=
          fun _ => .done true
      else .done false) mem locked true mem locked := by
  rw [if_pos crcMatches]
  exact (Ends.stamp _ _ _).bind (.done true)

/-- The copy loop and the last partial block together. -/
theorem ends_plainAttempt {header : IapUpdataParam} (positive : 0 < header.updatesTotalSize)
    (accepted : GateAccepts chip mem header) (below : BelowCopy chip header.updatesTotalSize)
    (locked : Bool) :
    Ends (plainAttempt chip header) mem locked true
      (installed mem header.updatesTotalSize (bytesAt mem chip.addrAppCopy)) true := by
  obtain ⟨fits, crcMatches⟩ := accepted
  have split := Nat.div_add_mod' header.updatesTotalSize flashPageSize
  have bound := Nat.mod_lt header.updatesTotalSize page_pos
  have rounded := roundUp_split page_pos header.updatesTotalSize
  have longer := le_roundUp page_pos header.updatesTotalSize
  rw [Nat.mul_comm] at rounded
  rw [BelowCopy] at below
  have inFlash := copy_in_flash chip
  have base := (covers_run chip (Nat.zero_le _)).1
  let image := bytesAt mem chip.addrAppCopy
  let cleared := overlay flashAppRunAddr (roundUp flashPageSize header.updatesTotalSize)
    (fun _ => erasedByte) mem
  have erase : Ends (flashErasePage chip flashAppRunAddr header.updatesTotalSize) mem locked true
      cleared true :=
    ends_flashErasePage positive fits run_aligned (covers_run chip (roundUp_le_max fits)) locked
  have clearedErased : ∀ index < roundUp flashPageSize header.updatesTotalSize,
      cleared (flashAppRunAddr + index) = erasedByte :=
    fun index inside => overlay_inside _ _ (by omega) (by omega)
  have clearedSource : ∀ index, cleared (chip.addrAppCopy + index) = image index :=
    fun index => overlay_outside _ _ (by omega)
  have blocks := @ends_copyBlocks chip cleared image (header.updatesTotalSize / flashPageSize) 0
    crc32Init (by rw [Nat.zero_add]; omega) (fun index _ => clearedSource index)
    (fun index _ inside => clearedErased index (by rw [Nat.zero_add] at inside; omega))
  simp only [Nat.zero_mul, Nat.add_zero, Nat.zero_add] at blocks
  refine erase.bind (blocks.bind ?_)
  by_cases whole : header.updatesTotalSize % flashPageSize = 0
  · rw [if_neg (not_not.mpr whole)]
    rw [whole, Nat.add_zero] at split
    refine (Ends.done _).bind ?_
    rw [split]
    exact ends_plainVerified crcMatches true
  · rw [if_pos whole]
    rw [if_neg whole] at rounded
    let copied := overlay flashAppRunAddr
      (header.updatesTotalSize / flashPageSize * flashPageSize) image cleared
    have short : roundUp 8 (header.updatesTotalSize % flashPageSize) ≤ flashPageSize :=
      @roundUp_le 8 _ 256 (by omega) (by simp only [flashPageSize] at bound ⊢; omega)
    have done := @Ends.done chip.geometry (overlay flashAppRunAddr header.updatesTotalSize image
      cleared) true _ (crc32Update crc32Init image header.updatesTotalSize)
    rw [← split, ← crc32Update_append, ← overlay_append] at done
    refine (@ends_copyBlock chip copied _ image _ _ _ _ _ _ _
      (by simp only [flashPageSize]; omega) ⟨by omega, by omega⟩ (fun index inside => ?_)
      (fun index inside => ?_) done).bind ?_
    · rw [bytesAt, Nat.add_assoc, ← clearedSource]
      exact overlay_outside _ _ (by omega)
    · rw [Nat.add_assoc]
      exact (overlay_outside _ _ (by omega)).trans (clearedErased _ (by omega))
    · rw [overlay_append, crc32Update_append, split]
      exact ends_plainVerified crcMatches true

/-- An attempt on an empty image does nothing and verifies. -/
theorem ends_plainAttempt_any {header : IapUpdataParam} (accepted : GateAccepts chip mem header)
    (below : BelowCopy chip header.updatesTotalSize) (locked : Bool) :
    ∃ closed, Ends (plainAttempt chip header) mem locked true
      (installed mem header.updatesTotalSize (bytesAt mem chip.addrAppCopy)) closed := by
  rcases Nat.eq_zero_or_pos header.updatesTotalSize with empty | positive
  · obtain ⟨-, crcMatches⟩ := accepted
    have none : installed mem 0 (bytesAt mem chip.addrAppCopy) = mem := by
      have pages : roundUp flashPageSize 0 = 0 := rfl
      rw [installed, pages, overlay_zero, overlay_zero]
    rw [empty] at crcMatches
    refine ⟨locked, ?_⟩
    rw [plainAttempt, empty, none]
    refine Ends.bind (by rw [flashErasePage, if_pos (Or.inr rfl)]; exact .done false)
      ((Ends.done crc32Init).bind (.bind (.done _) ?_))
    have emptyCrc : header.updatesCRC32 = (crc32Final crc32Init).toNat := crcMatches
    rw [if_pos emptyCrc]
    exact (Ends.stamp _ _ _).bind (.done true)
  · exact ⟨true, ends_plainAttempt positive accepted below locked⟩

theorem PlainPending.verdict {mem : Mem} (pending : PlainPending chip mem) :
    verdict chip mem = .update (headerAt chip mem) :=
  verdict_update pending.updating pending.accepted

theorem PlainPending.attempts {mem : Mem} (pending : PlainPending chip mem)
    (uncompress : Uncompress) (fuel : Nat) :
    attempts chip uncompress fuel (headerAt chip mem) =
      plainAttempt chip (headerAt chip mem) ::
        List.replicate 2 (plainAttempt chip (headerAt chip mem)) := by
  rw [LedFirmware.attempts, if_neg pending.plain]
  rfl

/-- Changes inside the pages of the image leave the update pending, with the
same result. -/
theorem PlainPending.congr {first second : Mem} (pending : PlainPending chip first)
    (outside : Set.EqOn second first (runPages (headerAt chip first).updatesTotalSize)ᶜ) :
    PlainPending chip second ∧ plainFinal chip second = plainFinal chip first ∧
      headerAt chip second = headerAt chip first := by
  have above (cell : Nat) (high : chip.addrAppCopy ≤ cell) : second cell = first cell :=
    outside (outside_runPages pending.below high)
  obtain ⟨flag, header, gate⟩ := checks_congr above
  refine ⟨⟨?_, ?_, ?_, ?_, ?_⟩, ?_, header⟩
  · rw [flag, pending.updating]
  · rw [header]
    exact pending.plain
  · rw [header]
    exact pending.positive
  · rw [header, gate]
    exact pending.accepted
  · rw [header]
    exact pending.below
  · rw [plainFinal, plainFinal, header]
    exact congrArg (flagErased chip)
      (installed_congr outside fun index _ => above _ (Nat.le_add_right _ _))

/-- A boot without failures that only loses power: it reaches the final memory,
and a power loss before the flag erase has changed pages of the image only. -/
theorem PlainPending.wp_main {state : State} (pending : PlainPending chip state.mem)
    (uncompress : Uncompress) (fuel : Nat) :
    (main chip uncompress fuel).wp Reliable
      ⟨fun result (after : State) =>
          result = .reset ∧ after.mem = plainFinal chip state.mem,
        fun after => ∀ newer, after.log = newer ++ state.log →
          .erased chip.addrIapFlag ∉ newer → Set.EqOn after.mem state.mem
            (runPages (headerAt chip state.mem).updatesTotalSize)ᶜ,
        fun _ => False⟩ state := by
  have ends := ends_plainAttempt pending.positive pending.accepted pending.below false
  have completes : Completes True _ _ _ _ _ _ _ := .of_ends ends touches_plainAttempt
  refine @wp_main_update _ _ _ _ _ _ _ _ (fun after : State =>
      after.mem = installed state.mem (headerAt chip state.mem).updatesTotalSize
        (bytesAt state.mem chip.addrAppCopy) ∧ ∃ newer, after.log = newer ++ state.log)
    pending.verdict (pending.attempts uncompress fuel) ?_ ?_ ?_ ?_ ?_
  · intro locked newer _ _ cell _
    rfl
  · refine Prog.wp_mono (completes.wp state.log) ?_ ?_ fun _ spins => spins.1 trivial
    · rintro accepted after ⟨⟨rfl, reached, -⟩, confined⟩
      obtain ⟨newer, appended, -⟩ := confined.logged
      exact ⟨rfl, reached, newer, appended⟩
    · intro after confined newer _ _
      exact confined.kept
  · rintro after ⟨reached, -⟩ locked newer _ _
    rw [reached]
    exact installed_eqOn _ _ _
  · rintro after ⟨-, older, appended⟩ locked newer appendedTo absent
    have records : newer = .erased chip.addrIapFlag :: older := by
      refine List.append_cancel_right (appendedTo.symm.trans ?_)
      rw [appended]
      rfl
    exact absurd (records ▸ List.mem_cons_self) absent
  · rintro after ⟨reached, -⟩
    refine ⟨rfl, ?_⟩
    rw [plainFinal, ← reached]

/-- A boot in which no operation fails and power is lost before the erase of
the flag page. -/
def InterruptedBoot (chip : Chip) (uncompress : Uncompress) (fuel : Nat)
    (before after : State) : Prop :=
  ∃ (schedule : FlashSchedule) (newer : List Record),
    Schedule.Within (D := flash chip.geometry) Reliable schedule ∧
    Prog.run (main chip uncompress fuel) schedule (powerUp before) = .lost after ∧
    after.log = newer ++ before.log ∧ .erased chip.addrIapFlag ∉ newer

/-- Every boot without failures and with power ends in a reset with the given
memory. -/
def BootsTo (chip : Chip) (uncompress : Uncompress) (fuel : Nat) (before : State)
    (final : Mem) : Prop :=
  ∀ schedule : FlashSchedule, Schedule.Within (D := flash chip.geometry) Reliable schedule →
    Schedule.Powered (D := flash chip.geometry) schedule →
    ∃ (after : State) (rest : FlashSchedule),
      Prog.run (main chip uncompress fuel) schedule (powerUp before) = .done .reset after rest ∧
        after.mem = final

theorem PlainPending.bootsTo {state : State} (pending : PlainPending chip state.mem)
    (uncompress : Uncompress) (fuel : Nat) :
    BootsTo chip uncompress fuel state (plainFinal chip state.mem) := by
  intro schedule within powered
  obtain ⟨result, after, used, ended, rfl, reached⟩ :=
    Prog.run_completes (@wp_main chip (powerUp state) pending uncompress fuel) within powered
      fun _ impossible => impossible
  exact ⟨after, _, ended, reached⟩

theorem PlainPending.interrupted {before after : State} (pending : PlainPending chip before.mem)
    {uncompress : Uncompress} {fuel : Nat}
    (interrupted : InterruptedBoot chip uncompress fuel before after) :
    PlainPending chip after.mem ∧ plainFinal chip after.mem = plainFinal chip before.mem := by
  obtain ⟨schedule, newer, within, lost, appended, absent⟩ := interrupted
  have meets := Prog.run_meets (@wp_main chip (powerUp before) pending uncompress fuel) within
  rw [lost] at meets
  obtain ⟨again, same, -⟩ := pending.congr (meets newer appended absent)
  exact ⟨again, same⟩

/-- The uncompressed update installs the staged image, and any number of boots
interrupted before the flag erase does not change where it ends. -/
theorem plain_update_correct (chip : Chip) (uncompress : Uncompress) (fuel : Nat) (state : State)
    (disjoint : flashAppRunAddr + otaBinMaxSize ≤ chip.addrAppCopy)
    (updating : iapFlag chip state.mem = otaUpdateApp)
    (plain : (headerAt chip state.mem).compressFlag ≠ 1)
    (positive : 0 < (headerAt chip state.mem).updatesTotalSize)
    (fits : (headerAt chip state.mem).updatesTotalSize ≤ otaBinMaxSize)
    (crcMatches : (crc32 (bytesAt state.mem chip.addrAppCopy)
      (headerAt chip state.mem).updatesTotalSize).toNat =
        (headerAt chip state.mem).updatesCRC32) :
    ∃ final : Mem,
      (∀ index < (headerAt chip state.mem).updatesTotalSize,
        final (flashAppRunAddr + index) = state.mem (chip.addrAppCopy + index)) ∧
      iapFlag chip final = otaRunApp ∧
      Set.EqOn final state.mem (copyArea chip ∪ pageAt chip.addrAppInfo) ∧
      BootsTo chip uncompress fuel state final ∧
      ∀ after, Relation.ReflTransGen (InterruptedBoot chip uncompress fuel) state after →
        BootsTo chip uncompress fuel after final := by
  have below : BelowCopy chip (headerAt chip state.mem).updatesTotalSize :=
    le_trans (Nat.add_le_add_left (roundUp_le_max fits) _) disjoint
  have pending : PlainPending chip state.mem :=
    ⟨updating, plain, positive, ⟨fits, crcMatches.symm⟩, below⟩
  have copyInfo := copy_below_info chip
  have infoFlag := info_lt_flag chip
  have flagOutside {cell : Nat} (low : cell < chip.addrIapFlag) :
      plainFinal chip state.mem cell = installed state.mem
        (headerAt chip state.mem).updatesTotalSize (bytesAt state.mem chip.addrAppCopy) cell := by
    rw [plainFinal, flagErased, overlay_outside _ _ (Or.inl low)]
  have positivePage := page_pos
  refine ⟨plainFinal chip state.mem, ?_, iapFlag_erased, ?_,
    pending.bootsTo uncompress fuel, ?_⟩
  · intro index inside
    rw [flagOutside (by omega), installed_run inside, bytesAt]
  · intro cell inside
    simp only [copyArea, pageAt, Set.mem_union, Set.mem_Ico] at inside
    rw [flagOutside (by omega)]
    exact installed_eqOn _ _ _ (outside_runPages below (by omega))
  · intro after interrupted
    have kept : PlainPending chip after.mem ∧
        plainFinal chip after.mem = plainFinal chip state.mem := by
      induction interrupted with
      | refl => exact ⟨pending, rfl⟩
      | tail _ step ih =>
          obtain ⟨again, same⟩ := ih.1.interrupted step
          exact ⟨again, same.trans ih.2⟩
    rw [← kept.2]
    exact kept.1.bootsTo uncompress fuel

/-- Three bytes, staged with their size and check value. -/
def plainSample : Mem :=
  stagedFlash sampleChip otaUpdateApp
    [0, 0, 3, 0, 0, 0, 8, 0, 0xBC, 0x51, 0xD9, 0xB6, 3, 0, 0, 0, 1, 0, 8, 0, 0xBC, 0x51, 0xD9, 0xB6]
    [0x55, 0xAA, 0x01]

theorem plain_update_correct_sample : ∃ final : Mem,
    (∀ index < (headerAt sampleChip plainSample).updatesTotalSize,
      final (flashAppRunAddr + index) = plainSample (sampleChip.addrAppCopy + index)) ∧
    iapFlag sampleChip final = otaRunApp ∧
    Set.EqOn final plainSample (copyArea sampleChip ∪ pageAt sampleChip.addrAppInfo) ∧
    BootsTo sampleChip zeroUncompress 1 ⟨plainSample, true, []⟩ final ∧
    ∀ after, Relation.ReflTransGen (InterruptedBoot sampleChip zeroUncompress 1)
        ⟨plainSample, true, []⟩ after →
      BootsTo sampleChip zeroUncompress 1 after final :=
  plain_update_correct sampleChip zeroUncompress 1 ⟨plainSample, true, []⟩
    (by decide +kernel) (by decide +kernel) (by decide +kernel) (by decide +kernel)
    (by decide +kernel) (by decide +kernel)

end LedFirmware
