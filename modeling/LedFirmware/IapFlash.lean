import LedFirmware.IapLayout

/-!
# Flash routines of the bootloader

The functions of `flash_if.c` and `iap_if.c`: page erase, buffer write, header
storage, the update flag and the device parameters.  For each, the region it
can touch under any failure, and the memory it leaves when nothing fails.
-/

namespace LedFirmware

open CrashProgram NorFlash

section Routines

variable (chip : Chip)

def flashErasePage (addr binSize : Nat) : FlashProg chip.geometry Bool :=
  if binSize > otaBinMaxSize ∨ binSize = 0 then .done false
  else
    setLock _ false >>= fun _ =>
    erasePages _ ((binSize + flashPageSize - 1) / flashPageSize) addr >>= fun erased =>
    setLock _ true >>= fun _ => .done erased

/-- `Flash_Write` of the bootloader, in double words. -/
def flashWrite (addr : Nat) (buf : Nat → UInt8) (len : Nat) : FlashProg chip.geometry Nat :=
  flashWriteBy chip.geometry 4 addr buf len

def flashRead (addr : Nat) : FlashProg chip.geometry (Nat → UInt8) :=
  read _ >>= fun mem => .done (bytesAt mem addr)

/-- Store the 24 header bytes.  A failed program operation returns at once,
without locking the flash. -/
def flashStorageHeader (pData : Nat → UInt8) : FlashProg chip.geometry Bool :=
  flashErasePage chip chip.addrAppInfo flashPageSize >>= fun erased =>
  if erased then
    setLock _ false >>= fun _ =>
    programUnits _ 4 3 chip.addrAppInfo pData >>= fun written =>
    if written = 3 then setLock _ true >>= fun _ => .done true else .done false
  else .done false

/-- The update flag stored in a memory. -/
def iapFlag (mem : Mem) : Nat := LittleEndian.value 8 (bytesAt mem chip.addrIapFlag)

def readIAPMode : FlashProg chip.geometry Nat :=
  read _ >>= fun mem => .done (iapFlag chip mem)

def runAppMode : FlashProg chip.geometry Unit :=
  setLock _ false >>= fun _ => erasePages _ 1 chip.addrIapFlag >>= fun _ => setLock _ true

/-- Unlock, program the flag double word and lock again. -/
def programIapFlag (flag : Nat) : FlashProg chip.geometry Unit :=
  setLock _ false >>= fun _ =>
  programHalves _ 4 chip.addrIapFlag flag >>= fun _ => setLock _ true

def updateAppMode : FlashProg chip.geometry Unit :=
  readIAPMode chip >>= fun flag =>
  (if flag ≠ otaRunApp then runAppMode chip else .done ()) >>= fun _ =>
  programIapFlag chip otaUpdateApp

/-- The condition reads the flag twice and always holds. -/
def forceUpdateAppMode : FlashProg chip.geometry Unit :=
  readIAPMode chip >>= fun flag => readIAPMode chip >>= fun again =>
  (if flag ≠ otaRunApp ∨ again ≠ otaUpdateApp then runAppMode chip else .done ()) >>= fun _ =>
  programIapFlag chip otaForceUpdateApp

def iapParamSave (param : IapParam) : FlashProg chip.geometry Unit :=
  setLock _ false >>= fun _ =>
  erasePages _ 1 chip.addrIapParam >>= fun _ =>
  flashWrite chip chip.addrIapParam param.bytes IapParam.size >>= fun _ => setLock _ true

def IapParam.default : IapParam where
  powerFirstFlag := devFirstPowerFlag
  chipUniqueID := chip.chipID
  swversion := 0x01
  hwversion := 0x01
  iapFlag := 0x01
  remoteID := 0x00
  id := 0xFFFF

def iapParamDefault : FlashProg chip.geometry IapParam :=
  iapParamSave chip (IapParam.default chip) >>= fun _ => .done (IapParam.default chip)

def iapParamLoad : FlashProg chip.geometry IapParam :=
  flashRead chip chip.addrIapParam >>= fun stored =>
  (if UInt16.ofNat (field stored 0 2) ≠ devFirstPowerFlag then
      iapParamDefault chip >>= fun _ => .done ()
    else .done ()) >>= fun _ =>
  flashRead chip chip.addrIapParam >>= fun bytes => .done (IapParam.read bytes)

end Routines

variable {chip : Chip} {region : Set Nat}

/-! ## Regions -/

theorem touches_flashErasePage {addr binSize : Nat} (aligned : addr % flashPageSize = 0)
    (inside : binSize ≤ otaBinMaxSize →
      Set.Ico addr (addr + roundUp flashPageSize binSize) ⊆ region) :
    Touches chip.geometry region (flashErasePage chip addr binSize) := by
  refine .ite (fun _ => .done false) fun accepted => .bind (.setLock false) fun _ =>
    .bind ?_ fun erased => .bind (.setLock true) fun _ => .done erased
  rw [not_or] at accepted
  exact touches_erasePages (page_positive chip) _ _ aligned (inside (by omega))

theorem touches_flashWrite {addr len : Nat} {buf : Nat → UInt8}
    (inside : Set.Ico addr (addr + roundUp 8 len) ⊆ region) :
    Touches chip.geometry region (flashWrite chip addr buf len) :=
  touches_flashWriteBy (by omega) inside

theorem touches_flashRead (addr : Nat) :
    Touches chip.geometry region (flashRead chip addr) :=
  .bind .read fun _ => .done _

theorem touches_readIAPMode : Touches chip.geometry region (readIAPMode chip) :=
  .bind .read fun _ => .done _

theorem touches_flashStorageHeader (pData : Nat → UInt8)
    (inside : pageAt chip.addrAppInfo ⊆ region) :
    Touches chip.geometry region (flashStorageHeader chip pData) := by
  refine .bind (touches_flashErasePage (pageFromEnd_aligned chip 4) fun _ => inside) fun erased =>
    .ite (fun _ => .bind (.setLock false) fun _ => .bind ?_ fun written =>
      .ite (fun _ => .bind (.setLock true) fun _ => .done true) fun _ => .done false)
      fun _ => .done false
  exact touches_programUnits _ _ _ _
    ((Set.Ico_subset_Ico_right (by simp [flashPageSize])).trans inside)

theorem touches_runAppMode (inside : pageAt chip.addrIapFlag ⊆ region) :
    Touches chip.geometry region (runAppMode chip) :=
  .bind (.setLock false) fun _ => .bind
    (touches_erasePages (page_positive chip) 1 _ (pageFromEnd_aligned chip 1) inside)
    fun _ => .setLock true

theorem touches_programIapFlag (flag : Nat) (inside : pageAt chip.addrIapFlag ⊆ region) :
    Touches chip.geometry region (programIapFlag chip flag) :=
  .bind (.setLock false) fun _ => .bind
    (touches_programHalves _ _ _
      ((Set.Ico_subset_Ico_right (by simp [flashPageSize])).trans inside))
    fun _ => .setLock true

theorem touches_updateAppMode (inside : pageAt chip.addrIapFlag ⊆ region) :
    Touches chip.geometry region (updateAppMode chip) :=
  .bind touches_readIAPMode fun _ => .bind
    (.ite (fun _ => touches_runAppMode inside) fun _ => .done ())
    fun _ => touches_programIapFlag _ inside

theorem touches_forceUpdateAppMode (inside : pageAt chip.addrIapFlag ⊆ region) :
    Touches chip.geometry region (forceUpdateAppMode chip) :=
  .bind touches_readIAPMode fun _ => .bind touches_readIAPMode fun _ => .bind
    (.ite (fun _ => touches_runAppMode inside) fun _ => .done ())
    fun _ => touches_programIapFlag _ inside

theorem touches_iapParamSave (param : IapParam) (inside : pageAt chip.addrIapParam ⊆ region) :
    Touches chip.geometry region (iapParamSave chip param) := by
  have fits : roundUp 8 IapParam.size ≤ flashPageSize := by
    simp [roundUp, IapParam.size, flashPageSize]
  have record : Set.Ico chip.addrIapParam (chip.addrIapParam + roundUp 8 IapParam.size) ⊆ region :=
    (Set.Ico_subset_Ico_right (Nat.add_le_add_left fits _)).trans inside
  have write : Touches chip.geometry region
      (flashWrite chip chip.addrIapParam param.bytes IapParam.size) := touches_flashWrite record
  have erase : Touches chip.geometry region (erasePages chip.geometry 1 chip.addrIapParam) :=
    touches_erasePages (page_positive chip) 1 _ (pageFromEnd_aligned chip 2) inside
  exact .bind (.setLock false) fun _ => erase.bind fun _ => write.bind fun _ => .setLock true

theorem touches_iapParamLoad (inside : pageAt chip.addrIapParam ⊆ region) :
    Touches chip.geometry region (iapParamLoad chip) :=
  .bind (touches_flashRead _) fun _ => .bind
    (.ite (fun _ => .bind (.bind (touches_iapParamSave _ inside) fun _ => .done _)
      fun _ => .done ()) fun _ => .done ())
    fun _ => .bind (touches_flashRead _) fun _ => .done _

theorem halts_flashErasePage (addr binSize : Nat) : (flashErasePage chip addr binSize).Halts :=
  Prog.halts_ite trivial (Prog.halts_bind (fun _ => trivial) fun _ =>
    Prog.halts_bind (halts_erasePages _ _) fun _ _ => trivial)

theorem halts_flashStorageHeader (pData : Nat → UInt8) :
    (flashStorageHeader chip pData).Halts := by
  refine Prog.halts_bind (halts_flashErasePage _ _) fun erased => Prog.halts_ite ?_ trivial
  refine Prog.halts_bind (fun _ => trivial) fun _ => ?_
  exact Prog.halts_bind (halts_programUnits _ _ _ _) fun _ =>
    Prog.halts_ite (fun _ => trivial) trivial

theorem halts_runAppMode : (runAppMode chip).Halts := by
  apply Prog.halts_bind (halts_setLock false)
  intro unlocked
  exact Prog.halts_bind (halts_erasePages _ _) fun _ => halts_setLock true

theorem halts_programIapFlag (flag : Nat) : (programIapFlag chip flag).Halts := by
  apply Prog.halts_bind (halts_setLock false)
  intro unlocked
  exact Prog.halts_bind (halts_programHalves _ _ _) fun _ => halts_setLock true

theorem halts_readIAPMode : (readIAPMode chip).Halts :=
  Prog.halts_bind halts_read fun _ => Prog.halts_done _

section Flag

-- Comparing the flag word by evaluation would unfold its bytes.
attribute [local irreducible] iapFlag

theorem halts_updateAppMode : (updateAppMode chip).Halts := by
  apply Prog.halts_bind halts_readIAPMode
  intro flag
  apply Prog.halts_bind (Prog.halts_ite halts_runAppMode (Prog.halts_done ()))
  intro left
  exact halts_programIapFlag _

theorem halts_forceUpdateAppMode : (forceUpdateAppMode chip).Halts := by
  apply Prog.halts_bind halts_readIAPMode
  intro flag
  apply Prog.halts_bind halts_readIAPMode
  intro again
  apply Prog.halts_bind (Prog.halts_ite halts_runAppMode (Prog.halts_done ()))
  intro left
  exact halts_programIapFlag _

end Flag

theorem halts_iapParamSave (param : IapParam) : (iapParamSave chip param).Halts := by
  refine Prog.halts_bind (fun _ => trivial) fun _ => ?_
  refine Prog.halts_bind (halts_erasePages _ _) fun _ => ?_
  exact Prog.halts_bind halts_flashWriteBy fun _ _ => trivial

/-! ## Results without failures -/

section Results

variable {mem : Mem} {locked : Bool}

theorem ends_flashErasePage {addr binSize : Nat} (positive : 0 < binSize)
    (fits : binSize ≤ otaBinMaxSize) (aligned : addr % flashPageSize = 0)
    (covers : chip.geometry.Covers addr (roundUp flashPageSize binSize)) (locked : Bool) :
    Ends (flashErasePage chip addr binSize) mem locked true
      (overlay addr (roundUp flashPageSize binSize) (fun _ => erasedByte) mem) true := by
  rw [flashErasePage, if_neg (by omega)]
  exact (Ends.setLock false).bind ((ends_erasePages (page_positive chip) aligned covers).bind
    ((Ends.setLock true).bind (.done true)))

/-- A refused erase of no bytes also leaves the memory with that range erased. -/
theorem ends_flashErasePage_any {addr binSize : Nat} (fits : binSize ≤ otaBinMaxSize)
    (aligned : addr % flashPageSize = 0)
    (covers : chip.geometry.Covers addr (roundUp flashPageSize binSize)) (locked : Bool) :
    ∃ erased closed, Ends (flashErasePage chip addr binSize) mem locked erased
      (overlay addr (roundUp flashPageSize binSize) (fun _ => erasedByte) mem) closed := by
  rcases Nat.eq_zero_or_pos binSize with rfl | positive
  · refine ⟨false, locked, ?_⟩
    have empty : roundUp flashPageSize 0 = 0 := rfl
    rw [empty, overlay_zero, flashErasePage, if_pos (Or.inr rfl)]
    exact .done false
  · exact ⟨true, true, ends_flashErasePage positive fits aligned covers locked⟩

theorem ends_flashWrite {addr len : Nat} {buf : Nat → UInt8} (aligned : addr % 8 = 0)
    (covers : chip.geometry.Covers addr (roundUp 8 len))
    (erased : ∀ index < roundUp 8 len, mem (addr + index) = erasedByte) (locked : Bool) :
    Ends (flashWrite chip addr buf len) mem locked len (overlay addr len buf mem) true :=
  ends_flashWriteBy (by omega) aligned covers erased locked

theorem returns_flashRead (addr : Nat) :
    Returns (flashRead chip addr) mem (bytesAt mem addr) :=
  Returns.read.bind (.done _)

theorem returns_readIAPMode : Returns (readIAPMode chip) mem (iapFlag chip mem) :=
  Returns.read.bind (.done _)

/-- The header page holds the header and is erased behind it. -/
theorem ends_flashStorageHeader (pData : Nat → UInt8) :
    Ends (flashStorageHeader chip pData) mem locked true
      (overlay chip.addrAppInfo IapUpdataParam.size pData
        (overlay chip.addrAppInfo flashPageSize (fun _ => erasedByte) mem)) true := by
  have covers (length : Nat) (fits : length ≤ flashPageSize) :
      chip.geometry.Covers chip.addrAppInfo length :=
    covers_pageFromEnd chip (by omega) (by omega)
  have erase := @ends_flashErasePage chip mem chip.addrAppInfo flashPageSize
    (by simp [flashPageSize]) (by simp [flashPageSize, otaBinMaxSize])
    (pageFromEnd_aligned chip 4) (covers _ le_rfl) locked
  have even : chip.addrAppInfo % 2 = 0 := by
    have aligned := pageFromEnd_aligned chip 4
    simp only [flashPageSize] at aligned
    simp only [Chip.addrAppInfo]
    omega
  have store := @ends_programUnits chip.geometry 4 3 chip.addrAppInfo pData
    (overlay chip.addrAppInfo flashPageSize (fun _ => erasedByte) mem)
    (covers _ (by simp [flashPageSize])) even
    fun index inside => overlay_inside _ _ (by omega) (by simp only [flashPageSize]; omega)
  exact erase.bind ((Ends.setLock false).bind (store.bind ((Ends.setLock true).bind (.done true))))

theorem covers_flag {length : Nat} (fits : length ≤ flashPageSize) :
    chip.geometry.Covers chip.addrIapFlag length :=
  covers_pageFromEnd chip (by omega) (by omega)

theorem ends_runAppMode :
    Ends (runAppMode chip) mem locked ()
      (overlay chip.addrIapFlag flashPageSize (fun _ => erasedByte) mem) true := by
  have erase := @ends_erasePages chip.geometry 1 chip.addrIapFlag mem (page_positive chip)
    (pageFromEnd_aligned chip 1) (covers_flag le_rfl)
  exact (Ends.setLock false).bind (erase.bind (Ends.setLock true))

theorem ends_programIapFlag {flag : Nat}
    (erased : ∀ index < 8, mem (chip.addrIapFlag + index) = erasedByte) :
    Ends (programIapFlag chip flag) mem locked ()
      (overlay chip.addrIapFlag 8 (LittleEndian.byte flag) mem) true := by
  have even : chip.addrIapFlag % 2 = 0 := by
    have aligned := pageFromEnd_aligned chip 1
    simp only [flashPageSize] at aligned
    simp only [Chip.addrIapFlag]
    omega
  have store := @ends_programHalves chip.geometry 4 chip.addrIapFlag flag mem
    (covers_flag (by simp [flashPageSize])) even erased
  exact (Ends.setLock false).bind (store.bind (Ends.setLock true))

/-- The flag reads as the application is to run exactly when its eight bytes
are erased. -/
theorem iapFlag_eq_run : iapFlag chip mem = otaRunApp ↔
    ∀ index < 8, mem (chip.addrIapFlag + index) = erasedByte := by
  have erasedValue : LittleEndian.value 8 (fun _ => erasedByte) = otaRunApp := by decide
  rw [← erasedValue, iapFlag, LittleEndian.value_inj]
  rfl

theorem iapFlag_overlay {flag : Nat} (fits : flag < 256 ^ 8) :
    iapFlag chip (overlay chip.addrIapFlag 8 (LittleEndian.byte flag) mem) = flag := by
  rw [iapFlag, ← LittleEndian.value_byte fits]
  refine LittleEndian.value_congr fun index inside => ?_
  rw [bytesAt, overlay_inside _ _ (by omega) (by omega), Nat.add_sub_cancel_left,
    LittleEndian.value_byte fits]

theorem iapFlag_erased : iapFlag chip
    (overlay chip.addrIapFlag flashPageSize (fun _ => erasedByte) mem) = otaRunApp :=
  iapFlag_eq_run.mpr fun index inside =>
    overlay_inside _ _ (by omega) (by simp only [flashPageSize]; omega)

/-- `UpdateAppMode` requests the update and changes only the flag page. -/
theorem ends_updateAppMode : ∃ after,
    Ends (updateAppMode chip) mem locked () after true ∧
      iapFlag chip after = otaUpdateApp ∧ Set.EqOn after mem (pageAt chip.addrIapFlag)ᶜ := by
  by_cases running : iapFlag chip mem = otaRunApp
  · refine ⟨overlay chip.addrIapFlag 8 (LittleEndian.byte otaUpdateApp) mem, ?_,
      iapFlag_overlay (by decide), ?_⟩
    · refine (returns_readIAPMode.ends locked).bind ?_
      rw [if_neg (not_not.mpr running)]
      exact (Ends.done ()).bind (ends_programIapFlag (iapFlag_eq_run.mp running))
    · exact (overlay_eqOn _ _ _ _).mono (Set.compl_subset_compl.mpr
        (Set.Ico_subset_Ico_right (by simp [flashPageSize])))
  · refine ⟨overlay chip.addrIapFlag 8 (LittleEndian.byte otaUpdateApp)
      (overlay chip.addrIapFlag flashPageSize (fun _ => erasedByte) mem), ?_,
      iapFlag_overlay (by decide), ?_⟩
    · refine (returns_readIAPMode.ends locked).bind ?_
      rw [if_pos running]
      exact ends_runAppMode.bind (ends_programIapFlag (iapFlag_eq_run.mp iapFlag_erased))
    · exact ((overlay_eqOn _ _ _ _).mono (Set.compl_subset_compl.mpr
        (Set.Ico_subset_Ico_right (by simp [flashPageSize])))).trans (overlay_eqOn _ _ _ _)

theorem forceUpdateAppMode_erases : iapFlag chip mem ≠ otaRunApp ∨
    iapFlag chip mem ≠ otaUpdateApp := by
  by_cases running : iapFlag chip mem = otaRunApp
  · right
    rw [running]
    decide
  · exact Or.inl running

/-- `ForceUpdateAppMode` erases the flag page and programs the force flag. -/
theorem ends_forceUpdateAppMode :
    Ends (forceUpdateAppMode chip) mem locked ()
      (overlay chip.addrIapFlag 8 (LittleEndian.byte otaForceUpdateApp)
        (overlay chip.addrIapFlag flashPageSize (fun _ => erasedByte) mem)) true := by
  refine (returns_readIAPMode.ends locked).bind ((returns_readIAPMode.ends locked).bind ?_)
  rw [if_pos forceUpdateAppMode_erases]
  exact ends_runAppMode.bind (ends_programIapFlag (iapFlag_eq_run.mp iapFlag_erased))

end Results

end LedFirmware
