import LedFirmware.AppFlash
import LedFirmware.CanDemux
import LedFirmware.NorFlashLog

/-!
# The parameter record shared by the firmwares

Application and bootloader keep one record of parameters in the same flash page, each
with a save and a load of its own.  Whichever of them saves a marked record, either
loads it again.
-/

namespace LedFirmware

open CrashProgram NorFlash

section Firmwares

variable (chip : Chip)

/-- `iap_param_save` -/
def CanFirmware.paramSave : CanFirmware → IapParam → FlashProg chip.geometry Unit
  | .app => App.iapParamSave chip
  | .iap => iapParamSave chip

/-- `iap_param_load` -/
def CanFirmware.paramLoad : CanFirmware → FlashProg chip.geometry IapParam
  | .app => App.iapParamLoad chip
  | .iap => iapParamLoad chip

end Firmwares

/-- What a load makes of a stored record: the application enters itself as the running
program. -/
def CanFirmware.loadedFrom : CanFirmware → IapParam → IapParam
  | .app, param => { param with iapFlag := 0x02 }
  | .iap, param => param

variable {chip : Chip} {mem : Mem} {locked : Bool} {param : IapParam} {stored : Nat → UInt8}

/-! ## The bytes of a record -/

theorem IapParam.half_bytes {index : Nat} (inside : index < 12)
    (same : ∀ index < IapParam.size, stored index = param.bytes index) :
    UInt16.ofNat (field stored (2 * index) 2) = param.halfWord index := by
  have fits : (param.halfWord index).toNat < 256 ^ 2 := UInt16.toNat_lt _
  have value : field stored (2 * index) 2 = (param.halfWord index).toNat := by
    rw [field, ← LittleEndian.value_byte fits]
    apply LittleEndian.value_congr
    intro position short
    rw [same _ (by rw [size]; omega), bytes,
      show (2 * index + position) / 2 = index by omega,
      show (2 * index + position) % 2 = position by omega]
  rw [value, UInt16.ofNat_toNat]

/-- A record is read from the bytes that it was stored as. -/
theorem IapParam.read_bytes (same : ∀ index < IapParam.size, stored index = param.bytes index) :
    IapParam.read stored = param := by
  have half {index : Nat} (inside : index < 12) := half_bytes inside same
  have chipID : (fun index : Fin 6 => UInt16.ofNat (field stored (2 + 2 * index) 2)) =
      param.chipUniqueID := by
    ext1 index
    have inside := index.isLt
    have number := @half (index + 1) (by omega)
    rw [Nat.mul_add, Nat.add_comm] at number
    rw [number, halfWord, if_neg (Nat.succ_ne_zero _)]
    exact dif_pos inside
  have powerFirstFlag := @half 0 (by omega)
  have swversion := @half 7 (by omega)
  have hwversion := @half 8 (by omega)
  have iapFlag := @half 9 (by omega)
  have remoteID := @half 10 (by omega)
  have id := @half 11 (by omega)
  simp only [Nat.reduceMul] at powerFirstFlag swversion hwversion iapFlag remoteID id
  rw [read, chipID, powerFirstFlag, swversion, hwversion, iapFlag, remoteID, id]
  rfl

/-! ## Saving and loading -/

/-- The bootloader stores a record at the start of an erased page. -/
theorem ends_iapParamSave (param : IapParam) (locked : Bool) :
    Ends (iapParamSave chip param) mem locked ()
      (overlay chip.addrIapParam IapParam.size param.bytes
        (overlay chip.addrIapParam flashPageSize (fun _ => erasedByte) mem)) true := by
  have page : flashPageSize = 2048 := rfl
  have unit : roundUp 8 IapParam.size = 24 := by decide
  have covers (length : Nat) (fits : length ≤ flashPageSize) :
      chip.geometry.Covers chip.addrIapParam length :=
    covers_pageFromEnd chip (by omega) (by omega)
  have aligned : chip.addrIapParam % flashPageSize = 0 := pageFromEnd_aligned chip 2
  have erased := @ends_erasePages chip.geometry 1 chip.addrIapParam mem (page_positive chip)
    aligned (covers _ le_rfl)
  have stored := @ends_flashWrite chip
    (overlay chip.addrIapParam flashPageSize (fun _ => erasedByte) mem) chip.addrIapParam
    IapParam.size param.bytes (by rw [page] at aligned; omega) (covers _ (by omega))
    (fun index inside => overlay_inside _ _ (by omega) (by omega)) false
  exact (Ends.setLock false).bind (erased.bind (stored.bind (Ends.setLock true)))

/-- Both save routines leave the same memory. -/
theorem CanFirmware.ends_paramSave (firmware : CanFirmware) (param : IapParam) (locked : Bool) :
    Ends (firmware.paramSave chip param) mem locked ()
      (overlay chip.addrIapParam IapParam.size param.bytes
        (overlay chip.addrIapParam flashPageSize (fun _ => erasedByte) mem)) true := by
  cases firmware with
  | app => exact App.ends_iapParamSave param locked
  | iap => exact ends_iapParamSave param locked

/-- A marked record is loaded without a fallback to the defaults. -/
theorem CanFirmware.returns_paramLoad (reader : CanFirmware)
    (marked : param.powerFirstFlag = devFirstPowerFlag)
    (same : ∀ index < IapParam.size, bytesAt mem chip.addrIapParam index = param.bytes index) :
    Returns (reader.paramLoad chip) mem (reader.loadedFrom param) := by
  have flag : UInt16.ofNat (field (bytesAt mem chip.addrIapParam) 0 2) = devFirstPowerFlag :=
    (@IapParam.half_bytes param _ 0 (by omega) same).trans marked
  have reads := @returns_flashRead chip mem chip.addrIapParam
  cases reader with
  | app | iap =>
      refine reads.bind ?_
      rw [if_neg (not_not.mpr flag)]
      refine (Returns.done ()).bind (reads.bind ?_)
      rw [IapParam.read_bytes same]
      exact .done _

/-- A marked record that either firmware saves is what either of them loads later on, from
any memory with the same parameter page; the load leaves the memory as it is. -/
theorem param_record_persists (writer reader : CanFirmware) (chip : Chip) (param : IapParam)
    (state : State) (marked : param.powerFirstFlag = devFirstPowerFlag) :
    Ensures (writer.paramSave chip param) state fun _ after =>
      ∀ later : State, Set.EqOn later.mem after (pageAt chip.addrIapParam) →
        Ensures (reader.paramLoad chip) later fun loaded final =>
          loaded = reader.loadedFrom param ∧ final = later.mem := by
  rw [(writer.ends_paramSave param state.locked).ensures_iff state.log]
  intro later kept
  have same : ∀ index < IapParam.size,
      bytesAt later.mem chip.addrIapParam index = param.bytes index := by
    intro index inside
    have small : IapParam.size ≤ flashPageSize := by decide
    have cell : chip.addrIapParam + index ∈ pageAt chip.addrIapParam :=
      ⟨by omega, by omega⟩
    rw [bytesAt, kept cell, overlay_inside _ _ (by omega) (by omega), Nat.add_sub_cancel_left]
  rw [((reader.returns_paramLoad marked same).ends later.locked).ensures_iff later.log]
  exact ⟨rfl, rfl⟩

/-- The factory defaults of the bootloader as the application loads them. -/
theorem default_record_persists :
    (IapParam.default sampleChip).powerFirstFlag = devFirstPowerFlag ∧
      Ensures (CanFirmware.iap.paramSave sampleChip (IapParam.default sampleChip))
        ⟨fun _ => erasedByte, true, []⟩ fun _ after =>
        ∀ later : State, Set.EqOn later.mem after (pageAt sampleChip.addrIapParam) →
          Ensures (CanFirmware.app.paramLoad sampleChip) later fun loaded final =>
            loaded = CanFirmware.app.loadedFrom (IapParam.default sampleChip) ∧
              final = later.mem :=
  ⟨rfl, param_record_persists .iap .app sampleChip (IapParam.default sampleChip) _ rfl⟩

end LedFirmware
