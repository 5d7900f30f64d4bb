import LedFirmware.IapFlash

/-!
# Flash routines of the application

`flash_if.c` and `iap_if.c` of the application, where they differ from the
bootloader's: an erase passes over a page that fails, buffers are written in
words, the update header is stored without erasing its page, and the update flag
is programmed as two overlapping words.
-/

namespace LedFirmware.App

open CrashProgram NorFlash

section Routines

variable (chip : Chip)

/-- The loop of `Flash_Erase_Page`: a page that fails is reported and passed
over. -/
def eraseEach : (count addr : Nat) → FlashProg chip.geometry Unit
  | 0, _ => .done ()
  | count + 1, addr => erase _ addr >>= fun _ => eraseEach count (addr + flashPageSize)

def flashErasePage (addr binSize : Nat) : FlashProg chip.geometry Bool :=
  if binSize > otaBinMaxSize ∨ binSize = 0 then .done false
  else
    setLock _ false >>= fun _ =>
    eraseEach chip ((binSize + flashPageSize - 1) / flashPageSize) addr >>= fun _ =>
    setLock _ true >>= fun _ => .done true

/-- `Flash_Write` of the application, in words. -/
def flashWrite (addr : Nat) (buf : Nat → UInt8) (len : Nat) : FlashProg chip.geometry Nat :=
  flashWriteBy chip.geometry 2 addr buf len

/-- Store the 26 bytes of the header and the two bytes behind it.  A failed
program operation returns at once, without locking the flash. -/
def flashStorageHeader (pData : Nat → UInt8) : FlashProg chip.geometry Bool :=
  setLock _ false >>= fun _ =>
  programUnits _ 2 7 chip.addrAppInfo pData >>= fun written =>
  if written = 7 then setLock _ true >>= fun _ => .done true else .done false

/-- Unlock, program the flag as a word and, from its second half-word on, as
another one, and lock again. -/
def programIapFlag (flag : Nat) : FlashProg chip.geometry Unit :=
  setLock _ false >>= fun _ =>
  programHalves _ 2 chip.addrIapFlag (flag % 2 ^ 32) >>= fun _ =>
  programHalves _ 2 (chip.addrIapFlag + 2) (flag / 2 ^ 16 % 2 ^ 32) >>= fun _ => setLock _ true

def updateAppMode : FlashProg chip.geometry Unit :=
  readIAPMode chip >>= fun flag =>
  (if flag ≠ otaRunApp then runAppMode chip else .done ()) >>= fun _ =>
  programIapFlag chip otaUpdateApp

def iapParamSave (param : IapParam) : FlashProg chip.geometry Unit :=
  setLock _ false >>= fun _ =>
  erase _ chip.addrIapParam >>= fun _ =>
  flashWrite chip chip.addrIapParam param.bytes IapParam.size >>= fun _ => setLock _ true

def iapParamDefault : FlashProg chip.geometry IapParam :=
  iapParamSave chip (IapParam.default chip) >>= fun _ => .done (IapParam.default chip)

/-- The application marks the loaded record as its own. -/
def iapParamLoad : FlashProg chip.geometry IapParam :=
  flashRead chip chip.addrIapParam >>= fun stored =>
  (if UInt16.ofNat (field stored 0 2) ≠ devFirstPowerFlag then
      iapParamDefault chip >>= fun _ => .done ()
    else .done ()) >>= fun _ =>
  flashRead chip chip.addrIapParam >>= fun bytes =>
  .done { IapParam.read bytes with iapFlag := 0x02 }

end Routines

variable {chip : Chip} {mem : Mem} {locked : Bool}

theorem addr_even {addr : Nat} (aligned : addr % flashPageSize = 0) : addr % 2 = 0 := by
  rw [flashPageSize] at aligned
  omega

/-! ## Termination -/

theorem halts_eraseEach (count addr : Nat) : (eraseEach chip count addr).Halts := by
  induction count generalizing addr with
  | zero => trivial
  | succ count ih => exact Prog.halts_bind (fun _ => trivial) fun _ => ih _

theorem halts_flashErasePage (addr binSize : Nat) : (flashErasePage chip addr binSize).Halts := by
  refine Prog.halts_ite trivial (Prog.halts_bind (fun _ => trivial) fun _ => ?_)
  exact Prog.halts_bind (halts_eraseEach _ _) fun _ _ => trivial

theorem halts_flashStorageHeader (pData : Nat → UInt8) :
    (flashStorageHeader chip pData).Halts := by
  refine Prog.halts_bind (fun _ => trivial) fun _ => ?_
  exact Prog.halts_bind (halts_programUnits _ _ _ _) fun _ =>
    Prog.halts_ite (fun _ => trivial) trivial

theorem halts_programIapFlag (flag : Nat) : (programIapFlag chip flag).Halts := by
  refine Prog.halts_bind (fun _ => trivial) fun _ => ?_
  refine Prog.halts_bind (halts_programHalves _ _ _) fun _ => ?_
  exact Prog.halts_bind (halts_programHalves _ _ _) fun _ _ => trivial

-- Comparing the flag word by evaluation would unfold its bytes.
attribute [local irreducible] iapFlag in
theorem halts_updateAppMode : (updateAppMode chip).Halts := by
  have leave : (runAppMode chip).Halts := by
    refine Prog.halts_bind (fun _ => trivial) fun _ => ?_
    exact Prog.halts_bind (halts_erasePages _ _) fun _ _ => trivial
  have read : (readIAPMode chip).Halts := fun _ => trivial
  unfold updateAppMode
  refine Prog.halts_bind read fun flag => ?_
  exact Prog.halts_bind (Prog.halts_ite leave trivial) fun _ => halts_programIapFlag _

theorem halts_iapParamSave (param : IapParam) : (iapParamSave chip param).Halts := by
  refine Prog.halts_bind (fun _ => trivial) fun _ => ?_
  refine Prog.halts_bind (fun _ => trivial) fun _ => ?_
  exact Prog.halts_bind halts_flashWriteBy fun _ _ => trivial

/-! ## Results without failures -/

theorem ends_eraseEach {count addr : Nat} (aligned : addr % flashPageSize = 0)
    (covers : chip.geometry.Covers addr (flashPageSize * count)) :
    Ends (eraseEach chip count addr) mem false ()
      (overlay addr (flashPageSize * count) (fun _ => erasedByte) mem) false := by
  induction count generalizing addr mem with
  | zero => simpa [eraseEach] using Ends.done ()
  | succ count ih =>
      obtain ⟨lower, upper⟩ := covers
      have page : 0 < flashPageSize := by decide
      have total : flashPageSize * (count + 1) = flashPageSize + flashPageSize * count := by ring
      have first := @Ends.erase_page chip.geometry mem addr (page_positive chip) aligned
        ⟨lower, by omega⟩
      have rest := @ih (overlay addr flashPageSize (fun _ => erasedByte) mem)
        (addr + flashPageSize)
        (by rw [Nat.add_mod_right, aligned]) ⟨by omega, by omega⟩
      rw [overlay_append addr flashPageSize _ (fun _ => erasedByte), ← total] at rest
      exact first.bind rest

theorem ends_flashErasePage {addr binSize : Nat} (positive : 0 < binSize)
    (fits : binSize ≤ otaBinMaxSize) (aligned : addr % flashPageSize = 0)
    (covers : chip.geometry.Covers addr (roundUp flashPageSize binSize)) (locked : Bool) :
    Ends (flashErasePage chip addr binSize) mem locked true
      (overlay addr (roundUp flashPageSize binSize) (fun _ => erasedByte) mem) true := by
  rw [flashErasePage, if_neg (by omega)]
  exact (Ends.setLock false).bind ((ends_eraseEach aligned covers).bind
    ((Ends.setLock true).bind (.done true)))

/-- A size that is refused erases nothing. -/
theorem ends_flashErasePage_refused {addr binSize : Nat}
    (refused : binSize > otaBinMaxSize ∨ binSize = 0) (locked : Bool) :
    Ends (flashErasePage chip addr binSize) mem locked false mem locked := by
  rw [flashErasePage, if_pos refused]
  exact .done false

/-- The header is stored up to the first half-word of the page that is not
erased. -/
theorem ends_flashStorageHeader (pData : Nat → UInt8) (locked : Bool) :
    ∃ stored closed, Ends (flashStorageHeader chip pData) mem locked stored
      (overlay chip.addrAppInfo (2 * erasedHalves mem 14 chip.addrAppInfo) pData mem) closed := by
  have covers : chip.geometry.Covers chip.addrAppInfo 28 :=
    covers_pageFromEnd chip (by omega) (by decide)
  have units := @ends_programUnits_upTo chip.geometry mem 2 7 chip.addrAppInfo pData (by omega)
    covers (addr_even (pageFromEnd_aligned chip 4))
  by_cases whole : erasedHalves mem 14 chip.addrAppInfo / 2 = 7
  · refine ⟨true, true, (Ends.setLock false).bind (units.bind ?_)⟩
    rw [if_pos whole]
    exact (Ends.setLock true).bind (.done true)
  · refine ⟨false, false, (Ends.setLock false).bind (units.bind ?_)⟩
    rw [if_neg whole]
    exact .done false

theorem ends_iapParamSave (param : IapParam) (locked : Bool) :
    Ends (iapParamSave chip param) mem locked ()
      (overlay chip.addrIapParam IapParam.size param.bytes
        (overlay chip.addrIapParam flashPageSize (fun _ => erasedByte) mem)) true := by
  have covers (length : Nat) (fits : length ≤ flashPageSize) :
      chip.geometry.Covers chip.addrIapParam length :=
    covers_pageFromEnd chip (by omega) (by omega)
  have aligned : chip.addrIapParam % flashPageSize = 0 := pageFromEnd_aligned chip 2
  have positive : 0 < flashPageSize := by decide
  obtain ⟨lower, upper⟩ := covers flashPageSize le_rfl
  have erased := @Ends.erase_page chip.geometry mem chip.addrIapParam (page_positive chip) aligned
    ⟨lower, by omega⟩
  have stored := @ends_flashWriteBy chip.geometry 2 chip.addrIapParam IapParam.size param.bytes
    (overlay chip.addrIapParam flashPageSize (fun _ => erasedByte) mem) (by omega)
    (by rw [flashPageSize] at aligned; omega)
    (covers _ (by decide)) (fun index inside => overlay_inside _ _ (by omega) (by
      have record : roundUp (2 * 2) IapParam.size ≤ flashPageSize := by decide
      omega)) false
  exact (Ends.setLock false).bind (erased.bind (stored.bind (Ends.setLock true)))

/-- Loading the parameters changes at most their own page. -/
theorem ends_iapParamLoad (locked : Bool) : ∃ param after closed,
    Ends (iapParamLoad chip) mem locked param after closed ∧
      Set.EqOn after mem (pageAt chip.addrIapParam)ᶜ := by
  have reads (contents : Mem) (closed : Bool) :=
    (@returns_flashRead chip contents chip.addrIapParam).ends closed
  have record : ∃ after closed,
      Ends (if UInt16.ofNat (field (bytesAt mem chip.addrIapParam) 0 2) ≠ devFirstPowerFlag then
          iapParamDefault chip >>= fun _ => .done ()
        else .done ()) mem locked () after closed ∧
      Set.EqOn after mem (pageAt chip.addrIapParam)ᶜ := by
    split
    · have saved := @ends_iapParamSave chip mem (IapParam.default chip) locked
      have small : Set.Ico chip.addrIapParam (chip.addrIapParam + IapParam.size) ⊆
          pageAt chip.addrIapParam :=
        Set.Ico_subset_Ico_right (Nat.add_le_add_left (by decide) _)
      refine ⟨_, true, (saved.bind (.done (IapParam.default chip))).bind (.done ()), ?_⟩
      exact ((overlay_eqOn _ _ _ _).mono (Set.compl_subset_compl.mpr small)).trans
        (overlay_eqOn _ _ _ _)
    · exact ⟨mem, locked, .done (), fun _ _ => rfl⟩
  obtain ⟨after, closed, ends, kept⟩ := record
  exact ⟨{ IapParam.read (bytesAt after chip.addrIapParam) with iapFlag := 0x02 }, after, closed,
    (reads mem locked).bind (ends.bind ((reads after closed).bind (.done _))), kept⟩

end LedFirmware.App
