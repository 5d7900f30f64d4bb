import LedFirmware.Crc32
import LedFirmware.FlashWrite

/-!
# Flash layout and stored records

Both firmwares place their data by counting pages back from the end of the
flash.  The bootloader keeps an update header and its device parameters there
as packed little-endian records.
-/

namespace LedFirmware

open NorFlash

def flashStartAddr : Nat := 0x08000000

def flashPageSize : Nat := 2048

def otaBinMaxSize : Nat := 52 * flashPageSize

def otaRunApp : Nat := 0xFFFFFFFFFFFFFFFF

def otaUpdateApp : Nat := 0xFFFF5678FFFF5678

def otaForceUpdateApp : Nat := 0x1234567812345678

def flashAppRunAddr : Nat := 0x0800A000

/-- An MCU: its flash size in KB as `Get_FlashSize` reads it, and its unique ID
as `Get_ChipID` reads it.  The copy area must not start below the run area. -/
structure Chip where
  flashSize : Nat
  chipID : Fin 6 → UInt16
  wholePages : flashSize % 2 = 0
  aboveRun : 154 ≤ flashSize
  inRegister : flashSize < 65536

/-- A chip with 512 KB of flash. -/
def sampleChip : Chip where
  flashSize := 512
  chipID := fun _ => 0
  wholePages := rfl
  aboveRun := by decide
  inRegister := by decide

namespace Chip

variable (chip : Chip)

/-- Irreducible, since unfolding an address makes definitional checks count
through the whole flash. -/
@[irreducible] def pageFromEnd (count : Nat) : Nat :=
  flashStartAddr + chip.flashSize * 1024 - count * flashPageSize

def addrIapFlag : Nat := chip.pageFromEnd 1

def addrIapParam : Nat := chip.pageFromEnd 2

def addrAppParam : Nat := chip.pageFromEnd 3

def addrAppInfo : Nat := chip.pageFromEnd 4

def addrAppCopy : Nat := chip.pageFromEnd 57

def geometry : Geometry where
  base := flashStartAddr
  size := chip.flashSize * 1024
  page := flashPageSize

end Chip

/-- The page that starts at an address. -/
def pageAt (addr : Nat) : Set Nat := Set.Ico addr (addr + flashPageSize)

def runArea : Set Nat := Set.Ico flashAppRunAddr (flashAppRunAddr + otaBinMaxSize)

def copyArea (chip : Chip) : Set Nat :=
  Set.Ico chip.addrAppCopy (chip.addrAppCopy + otaBinMaxSize)

/-- The whole pages from the start of the run area that `length` bytes occupy. -/
def runPages (length : Nat) : Set Nat :=
  Set.Ico flashAppRunAddr (flashAppRunAddr + roundUp flashPageSize length)

/-- A little-endian field of a packed record. -/
def field (bytes : Nat → UInt8) (offset width : Nat) : Nat :=
  LittleEndian.value width fun index => bytes (offset + index)

/-- The bytes of memory from an address on, as `Flash_Read` copies them. -/
def bytesAt (mem : Mem) (addr : Nat) : Nat → UInt8 := fun index => mem (addr + index)

/-- `iap_updata_param_type` of the bootloader: 24 bytes, packed. -/
structure IapUpdataParam where
  compressFlag : Nat
  updatesTotalSize : Nat
  updatesSubSize : Nat
  updatesCRC32 : Nat
  comPackOriginalSize : Nat
  comPackNo : Nat
  perComPackOriginalSize : Nat
  comPackOriginalCRC32 : Nat
  deriving DecidableEq

def IapUpdataParam.size : Nat := 24

def IapUpdataParam.read (bytes : Nat → UInt8) : IapUpdataParam where
  compressFlag := field bytes 0 2
  updatesTotalSize := field bytes 2 4
  updatesSubSize := field bytes 6 2
  updatesCRC32 := field bytes 8 4
  comPackOriginalSize := field bytes 12 4
  comPackNo := field bytes 16 2
  perComPackOriginalSize := field bytes 18 2
  comPackOriginalCRC32 := field bytes 20 4

def devFirstPowerFlag : UInt16 := 0x1234

/-- `iap_param_type` of the bootloader: twelve half-words. -/
structure IapParam where
  powerFirstFlag : UInt16
  chipUniqueID : Fin 6 → UInt16
  swversion : UInt16
  hwversion : UInt16
  iapFlag : UInt16
  remoteID : UInt16
  id : UInt16

def IapParam.size : Nat := 24

/-- The record as half-words in the order of its fields. -/
def IapParam.halfWord (param : IapParam) (index : Nat) : UInt16 :=
  if index = 0 then param.powerFirstFlag
  else if inside : index - 1 < 6 then param.chipUniqueID ⟨index - 1, inside⟩
  else if index = 7 then param.swversion
  else if index = 8 then param.hwversion
  else if index = 9 then param.iapFlag
  else if index = 10 then param.remoteID
  else param.id

def IapParam.bytes (param : IapParam) : Nat → UInt8 :=
  fun index => LittleEndian.byte (param.halfWord (index / 2)).toNat (index % 2)

def IapParam.read (bytes : Nat → UInt8) : IapParam where
  powerFirstFlag := UInt16.ofNat (field bytes 0 2)
  chipUniqueID := fun index => UInt16.ofNat (field bytes (2 + 2 * index) 2)
  swversion := UInt16.ofNat (field bytes 14 2)
  hwversion := UInt16.ofNat (field bytes 16 2)
  iapFlag := UInt16.ofNat (field bytes 18 2)
  remoteID := UInt16.ofNat (field bytes 20 2)
  id := UInt16.ofNat (field bytes 22 2)

/-! ## Where the areas lie -/

section Areas

variable (chip : Chip)

theorem pageFromEnd_aligned (count : Nat) :
    chip.pageFromEnd count % flashPageSize = 0 := by
  have even := chip.wholePages
  have large := chip.aboveRun
  simp only [Chip.pageFromEnd, flashStartAddr, flashPageSize]
  omega

theorem run_aligned : flashAppRunAddr % flashPageSize = 0 := rfl

theorem run_le_copy : flashAppRunAddr ≤ chip.addrAppCopy := by
  have large := chip.aboveRun
  simp only [Chip.addrAppCopy, Chip.pageFromEnd, flashStartAddr, flashPageSize, flashAppRunAddr]
  omega

/-- Pages counted from the end follow each other. -/
theorem pageFromEnd_add {far near : Nat} (ordered : near ≤ far) (inside : far ≤ 57) :
    chip.pageFromEnd far + (far - near) * flashPageSize = chip.pageFromEnd near := by
  have large := chip.aboveRun
  simp only [Chip.pageFromEnd, flashStartAddr, flashPageSize]
  omega

/-- The pages counted from the end lie in the flash. -/
theorem covers_pageFromEnd {count length : Nat} (inside : count ≤ 57)
    (fits : length ≤ count * flashPageSize) :
    chip.geometry.Covers (chip.pageFromEnd count) length := by
  have large := chip.aboveRun
  simp only [Geometry.Covers, Chip.geometry, Chip.pageFromEnd, flashStartAddr, flashPageSize]
    at fits ⊢
  omega

theorem covers_run {length : Nat} (fits : length ≤ otaBinMaxSize) :
    chip.geometry.Covers flashAppRunAddr length := by
  have large := chip.aboveRun
  simp only [Geometry.Covers, Chip.geometry, flashStartAddr, flashPageSize, otaBinMaxSize,
    flashAppRunAddr] at fits ⊢
  omega

/-- The run area ends below the four pages at the end of the flash. -/
theorem run_below_info : flashAppRunAddr + otaBinMaxSize ≤ chip.addrAppInfo := by
  have large := chip.aboveRun
  simp only [Chip.addrAppInfo, Chip.pageFromEnd, flashStartAddr, flashPageSize, otaBinMaxSize,
    flashAppRunAddr]
  omega

theorem copy_below_info : chip.addrAppCopy + otaBinMaxSize ≤ chip.addrAppInfo := by
  have large := chip.aboveRun
  simp only [Chip.addrAppCopy, Chip.addrAppInfo, Chip.pageFromEnd, flashStartAddr,
    flashPageSize, otaBinMaxSize]
  omega

theorem info_below_param : chip.addrAppInfo + flashPageSize ≤ chip.addrIapParam := by
  have large := chip.aboveRun
  simp only [Chip.addrAppInfo, Chip.addrIapParam, Chip.pageFromEnd, flashStartAddr,
    flashPageSize]
  omega

theorem param_below_flag : chip.addrIapParam + flashPageSize = chip.addrIapFlag :=
  pageFromEnd_add chip (by omega : 1 ≤ 2) (by omega)

end Areas

theorem page_positive (chip : Chip) : 0 < chip.geometry.page := by
  simp [Chip.geometry, flashPageSize]

theorem roundUp_le_max {length : Nat} (fits : length ≤ otaBinMaxSize) :
    roundUp flashPageSize length ≤ otaBinMaxSize := by
  rw [otaBinMaxSize, Nat.mul_comm] at fits ⊢
  exact roundUp_le (by simp [flashPageSize]) fits

theorem field_congr {first second : Nat → UInt8} {offset width : Nat}
    (same : ∀ index < width, first (offset + index) = second (offset + index)) :
    field first offset width = field second offset width := LittleEndian.value_congr same

/-- A header depends on its 24 bytes only. -/
theorem IapUpdataParam.read_congr {first second : Nat → UInt8}
    (same : ∀ index < IapUpdataParam.size, first index = second index) :
    IapUpdataParam.read first = IapUpdataParam.read second := by
  have fields {offset width : Nat} (inside : offset + width ≤ 24) :
      field first offset width = field second offset width :=
    field_congr fun index bound => same _ (by simp only [IapUpdataParam.size]; omega)
  simp only [IapUpdataParam.read, fields, Nat.reduceAdd, Nat.reduceLeDiff]

end LedFirmware
