import LedFirmware.FrameConstruct
import LedFirmware.IapBoot

/-!
# The commands of IAP mode

The two protocol handlers of the bootloader, on the CAN bus and on the UART.
Each scans for a frame and executes its command: the update commands change the
flash, the others answer or change the device parameters.  A handler returns the
bytes it sends and whether it resets the processor.
-/

namespace LedFirmware

open CrashProgram NorFlash

/-- The progress variables that each handler has of its own. -/
structure OtaProgress where
  updateFlag : Nat
  version : Nat
  totalSize : Nat
  subSize : Nat
  crc32 : Nat
  frameNum : Nat

def OtaProgress.initial : OtaProgress := ⟨0, 0, 0, 0, 0, 0⟩

/-- The variables of IAP mode. -/
structure IapRam where
  iapParam : IapParam
  can : OtaProgress
  uart : OtaProgress

/-- The variables when `main` enters its endless loop. -/
def IapRam.loaded (iapParam : IapParam) : IapRam := ⟨iapParam, .initial, .initial⟩

/-- What a handler returns and does outside the flash. -/
structure Handled where
  info : DelInfo
  ram : IapRam
  sent : List (List UInt8)
  reset : Bool

/-! ## Replies -/

section Replies

variable (ram : IapRam)

/-- The chip ID, six half-words with the low byte first. -/
def chipIDBytes : List UInt8 :=
  (List.finRange 6).flatMap fun index =>
    [lowByte (ram.iapParam.chipUniqueID index), highByte (ram.iapParam.chipUniqueID index)]

/-- A CAN reply carries the remote ID and the own ID before its data. -/
def canConstruct (code : UInt8) (data : List UInt8) : List UInt8 :=
  construct code (lowByte ram.iapParam.remoteID :: highByte ram.iapParam.remoteID ::
    lowByte ram.iapParam.id :: highByte ram.iapParam.id :: data)

def canOtaStartAckConstruct : List UInt8 := canConstruct ram 0x81 []

def canOtaUpdateAckConstruct (stateCode : UInt8) : List UInt8 :=
  canConstruct ram 0x82
    [UInt8.ofNat ram.can.frameNum, UInt8.ofNat (ram.can.frameNum / 256), stateCode]

def canOtaEndAckConstruct : List UInt8 := canConstruct ram 0x83 []

def canParamsetReadConstruct : List UInt8 := canConstruct ram 0xA1 (List.replicate 8 0)

def canParamsetWriteConstruct : List UInt8 := canConstruct ram 0xA2 []

def canParamsetSaveConstruct : List UInt8 := canConstruct ram 0xA3 []

def canDeviceRestartConstruct : List UInt8 := canConstruct ram 0xA4 []

def canParamsetDefaultConstruct : List UInt8 := canConstruct ram 0xA5 []

def canDeviceSearchConstruct : List UInt8 :=
  canConstruct ram 0xB1 (chipIDBytes ram ++
    [lowByte ram.iapParam.swversion, highByte ram.iapParam.swversion,
      lowByte ram.iapParam.hwversion, lowByte ram.iapParam.iapFlag, 0, 0,
      lowByte ram.iapParam.id, highByte ram.iapParam.id, 0, 0])

def canDeviceParamsetSearchConstruct : List UInt8 := canConstruct ram 0xB2 []

/-- The reply to an automatic check carries the code of a device search. -/
def canAutomaticCheckConstruct : List UInt8 := canConstruct ram 0xB1 (List.replicate 14 0)

/-- A UART reply carries the own ID before its data. -/
def uartConstruct (code : UInt8) (data : List UInt8) : List UInt8 :=
  construct code (lowByte ram.iapParam.id :: highByte ram.iapParam.id :: data)

def otaStartAckConstruct : List UInt8 := uartConstruct ram 0xE0 []

def otaUpdateAckConstruct (stateCode : UInt8) : List UInt8 :=
  uartConstruct ram 0xE1
    [UInt8.ofNat ram.uart.frameNum, UInt8.ofNat (ram.uart.frameNum / 256), stateCode]

def otaEndAckConstruct : List UInt8 := uartConstruct ram 0xE2 []

def iapParamRead : List UInt8 :=
  uartConstruct ram 0x0E ([0, 0, 0] ++ chipIDBytes ram ++
    [0, 0, lowByte ram.iapParam.iapFlag, 0, 0, lowByte ram.iapParam.swversion])

end Replies

/-! ## Commands -/

inductive CanCommand
  | otaStart
  | otaUpdate
  | otaEnd
  | paramsetRead
  | paramsetWrite
  | paramsetSave
  | deviceRestart
  | paramsetDefault
  | deviceSearch
  | deviceParamsetSearch
  | automaticCheck
  deriving DecidableEq

def CanCommand.decode (code : UInt8) : Option CanCommand :=
  if code = 0x01 then some .otaStart
  else if code = 0x02 then some .otaUpdate
  else if code = 0x03 then some .otaEnd
  else if code = 0xA1 then some .paramsetRead
  else if code = 0xA2 then some .paramsetWrite
  else if code = 0xA3 then some .paramsetSave
  else if code = 0xA4 then some .deviceRestart
  else if code = 0xA5 then some .paramsetDefault
  else if code = 0xB1 then some .deviceSearch
  else if code = 0xB2 then some .deviceParamsetSearch
  else if code = 0xC1 then some .automaticCheck
  else none

def CanCommand.code : CanCommand → UInt8
  | .otaStart => 0x01
  | .otaUpdate => 0x02
  | .otaEnd => 0x03
  | .paramsetRead => 0xA1
  | .paramsetWrite => 0xA2
  | .paramsetSave => 0xA3
  | .deviceRestart => 0xA4
  | .paramsetDefault => 0xA5
  | .deviceSearch => 0xB1
  | .deviceParamsetSearch => 0xB2
  | .automaticCheck => 0xC1

theorem CanCommand.decode_eq_some {code : UInt8} {command : CanCommand}
    (decoded : CanCommand.decode code = some command) : code = command.code := by
  unfold CanCommand.decode at decoded
  by_cases start : code = 0x01
  · grind [CanCommand.code]
  · by_cases update : code = 0x02
    · grind [CanCommand.code]
    · grind [CanCommand.code]

inductive UartCommand
  | otaStart
  | otaUpdate
  | otaEnd
  | paramIapRead
  | paramIapWrite
  | paramsetSave
  | paramsetReset
  deriving DecidableEq

def UartCommand.decode (code : UInt8) : Option UartCommand :=
  if code = 0xE0 then some .otaStart
  else if code = 0xE1 then some .otaUpdate
  else if code = 0xE2 then some .otaEnd
  else if code = 0x0E then some .paramIapRead
  else if code = 0x0F then some .paramIapWrite
  else if code = 0xA1 then some .paramsetSave
  else if code = 0xA0 then some .paramsetReset
  else none

def half (buf : Nat → UInt8) (offset : Nat) : UInt16 := UInt16.ofNat (field buf offset 2)

theorem half_toNat (buf : Nat → UInt8) (offset : Nat) :
    (half buf offset).toNat = (buf offset).toNat + 256 * (buf (offset + 1)).toNat := by
  have low := (buf offset).toNat_lt
  have high := (buf (offset + 1)).toNat_lt
  rw [half, field, UInt16.toNat_ofNat']
  simp only [LittleEndian.value, Nat.add_zero, Nat.zero_add, Nat.mul_zero]
  omega

/-- `CAN_Device_Paramset_Search_SetID`: take the new ID if the chip ID matches. -/
def setSearchedID (param : IapParam) (frame : Nat → UInt8) : IapParam :=
  if ∀ index : Fin 6, half frame (8 + 2 * index) = param.chipUniqueID index then
    { param with id := half frame 26 }
  else param

section Handlers

variable (chip : Chip)

/-- Write one piece of the image, unless it starts behind the copy area. -/
def writePiece (progress : OtaProgress) (piece : Nat → UInt8) (accepts : Bool) (length : Nat) :
    FlashProg chip.geometry Bool :=
  if accepts ∧ progress.frameNum * progress.subSize < otaBinMaxSize then
    flashWrite chip (chip.addrAppCopy + progress.frameNum * progress.subSize) piece length >>=
      fun _ => .done true
  else .done false

/-- Execute the frame of `dataLen` bytes at index `i` of the CAN buffer. -/
def canExecute (ram : IapRam) (buf : Nat → UInt8) (i dataLen : Nat) (info : DelInfo) :
    FlashProg chip.geometry Handled :=
  let frame := bytesFrom buf i
  let devID := half frame 4
  -- The high byte of the remote ID comes from the device ID.
  let ram := { ram with
    iapParam := { ram.iapParam with
      remoteID := devID <<< 8 ||| UInt16.ofNat (frame 6).toNat } }
  if ram.iapParam.id ≠ devID ∧ ram.iapParam.id ≠ 0xFFFF then .done ⟨info, ram, [], false⟩
  else match CanCommand.decode (frame 3) with
    | some .otaStart =>
        let ram := { ram with
          can := { ram.can with
            updateFlag := 1
            version := field frame 8 2
            totalSize := field frame 12 4
            subSize := field frame 16 2
            crc32 := field frame 18 4 } }
        flashStorageHeader chip (bytesFrom frame 10) >>= fun _ =>
        flashErasePage chip chip.addrAppCopy ram.can.totalSize >>= fun _ =>
        .done ⟨info, ram, [canOtaStartAckConstruct ram], false⟩
    | some .otaUpdate =>
        let ram := { ram with can := { ram.can with updateFlag := 2, frameNum := field frame 8 2 } }
        writePiece chip ram.can (bytesFrom frame 10) (10 < dataLen) (sub32 dataLen 12) >>=
        fun written =>
        .done ⟨info, ram, [canOtaUpdateAckConstruct ram (if written then 0 else 1)], false⟩
    | some .otaEnd =>
        let ram := { ram with can := { ram.can with updateFlag := 3 } }
        updateAppMode chip >>= fun _ => .done ⟨info, ram, [canOtaEndAckConstruct ram], true⟩
    | some .paramsetRead => .done ⟨info, ram, [canParamsetReadConstruct ram], false⟩
    | some .paramsetWrite => .done ⟨info, ram, [canParamsetWriteConstruct ram], false⟩
    | some .paramsetSave =>
        iapParamSave chip ram.iapParam >>= fun _ =>
        .done ⟨info, ram, [canParamsetSaveConstruct ram], false⟩
    | some .deviceRestart => .done ⟨info, ram, [canDeviceRestartConstruct ram], true⟩
    | some .paramsetDefault =>
        iapParamDefault chip >>= fun iapParam =>
        .done ⟨info, { ram with iapParam }, [canParamsetDefaultConstruct ram], false⟩
    | some .deviceSearch => .done ⟨info, ram, [canDeviceSearchConstruct ram], false⟩
    | some .deviceParamsetSearch =>
        let ram := { ram with iapParam := setSearchedID ram.iapParam frame }
        .done ⟨info, ram, [canDeviceParamsetSearchConstruct ram], false⟩
    | some .automaticCheck => .done ⟨info, ram, [canAutomaticCheckConstruct ram], false⟩
    | none => .done ⟨info, ram, [], false⟩

/-- Execute the frame of `dataLen` bytes at index `i` of the UART buffer. -/
def uartExecute (ram : IapRam) (buf : Nat → UInt8) (i dataLen : Nat) (info : DelInfo) :
    FlashProg chip.geometry Handled :=
  let frame := bytesFrom buf i
  match UartCommand.decode (frame 3) with
  | some .otaStart =>
      let ram := { ram with
        uart := { ram.uart with
          updateFlag := 1
          version := (frame 6).toNat * 256 + (frame 7).toNat
          totalSize := field frame 10 4
          subSize := field frame 14 2
          crc32 := field frame 16 4 } }
      flashStorageHeader chip (bytesFrom frame 8) >>= fun _ =>
      flashErasePage chip chip.addrAppCopy ram.uart.totalSize >>= fun _ =>
      .done ⟨info, ram, [otaStartAckConstruct ram], false⟩
  | some .otaUpdate =>
      let ram := { ram with uart := { ram.uart with updateFlag := 2, frameNum := field frame 6 2 } }
      writePiece chip ram.uart (bytesFrom frame 8) (10 < dataLen) (sub32 dataLen 10) >>=
      fun written =>
      .done ⟨info, ram, [otaUpdateAckConstruct ram (if written then 0 else 1)], false⟩
  | some .otaEnd =>
      let ram := { ram with uart := { ram.uart with updateFlag := 3 } }
      updateAppMode chip >>= fun _ => .done ⟨info, ram, [otaEndAckConstruct ram], true⟩
  | some .paramIapRead => .done ⟨info, ram, [iapParamRead ram], false⟩
  -- `iap_param_analysis` reads the ID at the start of the buffer, not of the frame.
  | some .paramIapWrite =>
      .done ⟨info, { ram with iapParam := { ram.iapParam with id := half buf 4 } }, [], false⟩
  | some .paramsetSave => iapParamSave chip ram.iapParam >>= fun _ => .done ⟨info, ram, [], false⟩
  | some .paramsetReset => .done ⟨info, ram, [], true⟩
  | none => .done ⟨info, ram, [], false⟩

/-- The two handlers of the bootloader. -/
inductive IapPort
  | can
  | uart
  deriving DecidableEq

def IapPort.protocol : IapPort → Protocol
  | .can => .iapCan500
  | .uart => .iapUart

def IapPort.execute : IapPort → (ram : IapRam) → (buf : Nat → UInt8) → (i dataLen : Nat) →
    (info : DelInfo) → FlashProg chip.geometry Handled
  | .can => canExecute chip
  | .uart => uartExecute chip

/-- A handler: scan, then execute an accepted frame. -/
def protocolAnylise (port : IapPort) (fuel : Nat) (ram : IapRam) (buf : Nat → UInt8)
    (len : Nat) : FlashProg chip.geometry Handled :=
  if len < commProtocolMinLen then .done ⟨⟨.waiting, 0⟩, ram, [], false⟩
  else match scan port.protocol (unchecked buf) len fuel 0 with
    | .ended (.accept i dataLen) =>
        port.execute chip ram buf i dataLen (ScanEnd.accept i dataLen).info
    | .ended result => .done ⟨result.info, ram, [], false⟩
    | .outOfBounds | .running => .spin

/-- `can500_protocol_anylise` of the bootloader. -/
def can500ProtocolAnylise : (fuel : Nat) → IapRam → (Nat → UInt8) → (len : Nat) →
    FlashProg chip.geometry Handled := protocolAnylise chip .can

/-- `OTA_Protocol_Anylise`. -/
def otaProtocolAnylise : (fuel : Nat) → IapRam → (Nat → UInt8) → (len : Nat) →
    FlashProg chip.geometry Handled := protocolAnylise chip .uart

end Handlers

/-! ## After the scan -/

section Scanned

variable {chip : Chip} {port : IapPort} {fuel i dataLen len : Nat} {ram : IapRam}
  {buf : Nat → UInt8}

/-- A handler that waits changes nothing. -/
theorem protocolAnylise_waits (waits : len < commProtocolMinLen ∨
    scan port.protocol (unchecked buf) len fuel 0 = .ended .waiting) :
    protocolAnylise chip port fuel ram buf len = .done ⟨⟨.waiting, 0⟩, ram, [], false⟩ := by
  rw [protocolAnylise]
  by_cases short : len < commProtocolMinLen
  · rw [if_pos short]
  · rw [if_neg short, waits.resolve_left short]
    rfl

theorem protocolAnylise_accepts (enough : commProtocolMinLen ≤ len)
    (ended : scan port.protocol (unchecked buf) len fuel 0 = .ended (.accept i dataLen)) :
    protocolAnylise chip port fuel ram buf len =
      port.execute chip ram buf i dataLen (ScanEnd.accept i dataLen).info := by
  rw [protocolAnylise, if_neg (Nat.not_lt.mpr enough), ended]

end Scanned

/-! ## Regions -/

/-- The flash from the copy area on. -/
def fromCopy (chip : Chip) : Set Nat := Set.Ici chip.addrAppCopy

variable {chip : Chip}

theorem pageAt_fromCopy {addr : Nat} (high : chip.addrAppCopy ≤ addr) :
    pageAt addr ⊆ fromCopy chip := fun _ inside => le_trans high (Set.mem_Ico.mp inside).1

theorem copy_le_param (chip : Chip) : chip.addrAppCopy ≤ chip.addrIapParam := by
  have copy := copy_below_info chip
  have info := info_below_param chip
  omega

theorem copy_le_flag (chip : Chip) : chip.addrAppCopy ≤ chip.addrIapFlag := by
  have param := copy_le_param chip
  have flag := param_below_flag chip
  omega

theorem touches_startCommand {size : Nat} {pData : Nat → UInt8} {handled : Handled} :
    Touches chip.geometry (fromCopy chip)
      (flashStorageHeader chip pData >>= fun _ =>
        flashErasePage chip chip.addrAppCopy size >>= fun _ => .done handled) :=
  .bind (touches_flashStorageHeader _ (pageAt_fromCopy
    (le_trans (Nat.le_add_right _ _) (copy_below_info chip)))) fun _ =>
    .bind (touches_flashErasePage (pageFromEnd_aligned chip 57) fun _ _ inside =>
      (Set.mem_Ico.mp inside).1) fun _ => .done _

/-- Pieces go to the copy area or, with a wrapped length, behind it. -/
theorem touches_writePiece {progress : OtaProgress} {piece : Nat → UInt8} {accepts : Bool}
    {length : Nat} :
    Touches chip.geometry (fromCopy chip) (writePiece chip progress piece accepts length) := by
  refine .ite (fun _ => .bind (touches_flashWrite ?_) fun _ => .done true) fun _ => .done false
  intro cell inside
  exact le_trans (Nat.le_add_right _ _) (Set.mem_Ico.mp inside).1

theorem touches_canExecute (ram : IapRam) (buf : Nat → UInt8) (i dataLen : Nat)
    (info : DelInfo) :
    Touches chip.geometry (fromCopy chip) (canExecute chip ram buf i dataLen info) := by
  refine .ite (fun _ => .done _) fun _ => ?_
  split
  · exact touches_startCommand
  · exact .bind touches_writePiece fun _ => .done _
  · exact .bind (touches_updateAppMode (pageAt_fromCopy (copy_le_flag chip))) fun _ => .done _
  · exact .done _
  · exact .done _
  · exact .bind (touches_iapParamSave _ (pageAt_fromCopy (copy_le_param chip))) fun _ => .done _
  · exact .done _
  · exact .bind (.bind (touches_iapParamSave _ (pageAt_fromCopy (copy_le_param chip)))
      fun _ => .done _) fun _ => .done _
  · exact .done _
  · exact .done _
  · exact .done _
  · exact .done _

theorem touches_uartExecute (ram : IapRam) (buf : Nat → UInt8) (i dataLen : Nat)
    (info : DelInfo) :
    Touches chip.geometry (fromCopy chip) (uartExecute chip ram buf i dataLen info) := by
  rw [uartExecute]
  split
  · exact touches_startCommand
  · exact .bind touches_writePiece fun _ => .done _
  · exact .bind (touches_updateAppMode (pageAt_fromCopy (copy_le_flag chip))) fun _ => .done _
  · exact .done _
  · exact .done _
  · exact .bind (touches_iapParamSave _ (pageAt_fromCopy (copy_le_param chip))) fun _ => .done _
  · exact .done _
  · exact .done _

/-- Whatever bytes a handler is given, it touches nothing below the copy area. -/
theorem touches_protocolAnylise (port : IapPort) (fuel : Nat) (ram : IapRam)
    (buf : Nat → UInt8) (len : Nat) :
    Touches chip.geometry (fromCopy chip) (protocolAnylise chip port fuel ram buf len) := by
  refine .ite (fun _ => .done _) fun _ => ?_
  split
  · cases port with
    | can => exact touches_canExecute _ _ _ _ _
    | uart => exact touches_uartExecute _ _ _ _ _
  · exact .done _
  · exact .spin
  · exact .spin

end LedFirmware
