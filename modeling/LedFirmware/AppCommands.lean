import LedFirmware.AppReplies

/-!
# The commands of the application

The two protocol handlers of the application.  They accept the same commands as
the bootloader's, but keep the version in the stored header, answer the UART
without an ID, and save the parameters of `param.c` as well.
-/

namespace LedFirmware.App

open CrashProgram NorFlash

/-- What a handler returns and does outside the flash. -/
structure Handled where
  info : DelInfo
  ram : Ram
  sent : List (List UInt8)
  reset : Bool

/-- `send_buf` of the CAN handler. -/
def canSendBuf : Nat := 100

/-- `send_buf` of the UART handler. -/
def uartSendBuf : Nat := 256

/-- A constructed frame is sent, unless nothing was built. -/
def send (frame : List UInt8) : List (List UInt8) := if frame.length = 0 then [] else [frame]

/-- `iap_updata_param_data` on the stack: the 26 bytes of the frame with the
version written over the first two, and what lies behind them. -/
def updataParamData (version : Nat) (bytes stack : Nat → UInt8) : Nat → UInt8 := fun index =>
  if index < 2 then LittleEndian.byte version index
  else if index < 26 then bytes index else stack (index - 26)

/-- `CAN_Paramset_Receive_Analyse`. -/
def canParamsetReceiveAnalyse (ram : Ram) (frame : Nat → UInt8) : Ram :=
  { ram with
    iapParam := { ram.iapParam with id := half frame 8 }
    dev := { ram.dev with
      msworkMode := UInt16.ofNat (frame 10).toNat
      analogDialSwitch := frame 12 }
    realtime := { ram.realtime with canDebugFlag := frame 11 } }

section Handlers

variable (chip : Chip)

/-- Write one piece of the image, unless it starts behind the copy area. -/
def writePiece (progress : OtaProgress) (piece : Nat → UInt8) (accepts : Bool) (length : Nat) :
    FlashProg chip.geometry Bool :=
  if accepts ∧ progress.frameNum * progress.subSize < otaBinMaxSize then
    flashWrite chip (chip.addrAppCopy + progress.frameNum * progress.subSize) piece length >>=
      fun _ => .done true
  else .done false

/-- Execute the frame of `dataLen` bytes at index `i` of the CAN buffer. -/
def canExecute (ram : Ram) (stack buf : Nat → UInt8) (i dataLen : Nat) (info : DelInfo) :
    FlashProg chip.geometry Handled :=
  let frame := bytesFrom buf i
  let devID := half frame 4
  let ram := { ram with iapParam := { ram.iapParam with remoteID := half frame 6 } }
  if ram.iapParam.id ≠ devID ∧ ram.iapParam.id ≠ 0xFFFF then .done ⟨info, ram, [], false⟩
  else match CanCommand.decode (frame 3) with
    | some .otaStart =>
        let ram := { ram with
          can := { ram.can with
            updateFlag := 1
            version := field frame 8 2
            totalSize := field frame 12 4
            subSize := field frame 16 2
            crc32 := field frame 18 4 } }
        flashStorageHeader chip (updataParamData ram.can.version (bytesFrom frame 8) stack) >>=
        fun _ => flashErasePage chip chip.addrAppCopy ram.can.totalSize >>= fun _ =>
        .done ⟨info, ram, send (canOtaStartAckConstruct ram canSendBuf), false⟩
    | some .otaUpdate =>
        let ram := { ram with can := { ram.can with updateFlag := 2, frameNum := field frame 8 2 } }
        writePiece chip ram.can (bytesFrom frame 10) (10 < dataLen) (sub32 dataLen 12) >>=
        fun written =>
        .done ⟨info, ram,
          send (canOtaUpdateAckConstruct ram (if written then 0 else 1) canSendBuf), false⟩
    | some .otaEnd =>
        let ram := { ram with can := { ram.can with updateFlag := 3 } }
        updateAppMode chip >>= fun _ =>
        .done ⟨info, ram, send (canOtaEndAckConstruct ram canSendBuf), true⟩
    | some .paramsetRead =>
        .done ⟨info, ram, send (canParamsetReadConstruct ram canSendBuf), false⟩
    | some .paramsetWrite =>
        let ram := canParamsetReceiveAnalyse ram frame
        .done ⟨info, ram, send (canParamsetWriteConstruct ram canSendBuf), false⟩
    | some .paramsetSave =>
        stm32ParamSave chip ram.net ram.dev >>= fun _ =>
        iapParamSave chip ram.iapParam >>= fun _ =>
        .done ⟨info, ram, send (canParamsetSaveConstruct ram canSendBuf), false⟩
    | some .deviceRestart =>
        .done ⟨info, ram, send (canDeviceRestartConstruct ram canSendBuf), true⟩
    | some .paramsetDefault =>
        stm32ParamDefault chip >>= fun (net, dev) =>
        .done ⟨info, { ram with net, dev }, send (canParamsetDefaultConstruct ram canSendBuf),
          false⟩
    | some .deviceSearch =>
        .done ⟨info, ram, send (canDeviceSearchConstruct ram canSendBuf), false⟩
    | some .deviceParamsetSearch =>
        let ram := { ram with iapParam := setSearchedID ram.iapParam frame }
        .done ⟨info, ram, send (canDeviceParamsetSearchConstruct ram canSendBuf), false⟩
    | some .automaticCheck =>
        .done ⟨info, ram, send (canAutomaticCheckConstruct ram canSendBuf), false⟩
    | none => .done ⟨info, ram, [], false⟩

/-- Execute the frame of `dataLen` bytes at index `i` of the UART buffer. -/
def uartExecute (ram : Ram) (stack buf : Nat → UInt8) (i dataLen : Nat) (info : DelInfo) :
    FlashProg chip.geometry Handled :=
  let frame := bytesFrom buf i
  match UartCommand.decode (frame 3) with
  | some .otaStart =>
      let ram := { ram with
        uart := { ram.uart with
          updateFlag := 1
          version := (frame 6).toNat * 256 + (frame 7).toNat
          totalSize := field frame 10 4
          subSize := field frame 14 2
          crc32 := field frame 16 4 } }
      -- The 64-bit size is passed on as 32 bits.
      flashErasePage chip chip.addrAppCopy ((ram.uart.totalSize + 64) % 2 ^ 32) >>= fun _ =>
      flashStorageHeader chip (updataParamData ram.uart.version (bytesFrom frame 6) stack) >>=
      fun _ => .done ⟨info, ram, send (otaStartAckConstruct uartSendBuf), false⟩
  | some .otaUpdate =>
      let ram := { ram with uart := { ram.uart with updateFlag := 2, frameNum := field frame 6 2 } }
      writePiece chip ram.uart (bytesFrom frame 8) (10 < dataLen) (sub32 dataLen 10) >>=
      fun written =>
      .done ⟨info, ram, send (otaUpdateAckConstruct ram (if written then 0 else 1) uartSendBuf),
        false⟩
  | some .otaEnd =>
      let ram := { ram with uart := { ram.uart with updateFlag := 3 } }
      updateAppMode chip >>= fun _ => .done ⟨info, ram, send (otaEndAckConstruct uartSendBuf), true⟩
  | some .paramIapRead => .done ⟨info, ram, send (iapParamRead ram uartSendBuf), false⟩
  -- `iap_param_analysis` reads the ID at the start of the buffer, not of the frame.
  | some .paramIapWrite =>
      .done ⟨info, { ram with iapParam := { ram.iapParam with id := half buf 4 } }, [], false⟩
  | some .paramsetSave => iapParamSave chip ram.iapParam >>= fun _ => .done ⟨info, ram, [], false⟩
  | some .paramsetReset => .done ⟨info, ram, [], true⟩
  | none => .done ⟨info, ram, [], false⟩

/-- The two handlers of the application. -/
inductive Port
  | can
  | uart
  deriving DecidableEq

def Port.protocol : Port → Protocol
  | .can => .appCan500
  | .uart => .appUart

def Port.execute : Port → (ram : Ram) → (stack buf : Nat → UInt8) → (i dataLen : Nat) →
    (info : DelInfo) → FlashProg chip.geometry Handled
  | .can => canExecute chip
  | .uart => uartExecute chip

/-- A handler: scan, then execute an accepted frame. -/
def protocolAnylise (port : Port) (fuel : Nat) (ram : Ram) (stack buf : Nat → UInt8)
    (len : Nat) : FlashProg chip.geometry Handled :=
  if len < commProtocolMinLen then .done ⟨⟨.waiting, 0⟩, ram, [], false⟩
  else match scan port.protocol (unchecked buf) len fuel 0 with
    | .ended (.accept i dataLen) =>
        port.execute chip ram stack buf i dataLen (ScanEnd.accept i dataLen).info
    | .ended result => .done ⟨result.info, ram, [], false⟩
    | .outOfBounds | .running => .spin

/-- `can500_protocol_anylise` of the application. -/
def can500ProtocolAnylise : (fuel : Nat) → Ram → (stack buf : Nat → UInt8) → (len : Nat) →
    FlashProg chip.geometry Handled := protocolAnylise chip .can

/-- `UART_OTA_Protocol_Anylise`. -/
def uartOtaProtocolAnylise : (fuel : Nat) → Ram → (stack buf : Nat → UInt8) → (len : Nat) →
    FlashProg chip.geometry Handled := protocolAnylise chip .uart

end Handlers

/-! ## After the scan -/

variable {chip : Chip} {port : Port} {fuel i dataLen len : Nat} {ram : Ram}
  {stack buf : Nat → UInt8}

/-- A handler that waits changes nothing. -/
theorem protocolAnylise_waits (waits : len < commProtocolMinLen ∨
    scan port.protocol (unchecked buf) len fuel 0 = .ended .waiting) :
    protocolAnylise chip port fuel ram stack buf len =
      .done ⟨⟨.waiting, 0⟩, ram, [], false⟩ := by
  rw [protocolAnylise]
  by_cases short : len < commProtocolMinLen
  · rw [if_pos short]
  · rw [if_neg short, waits.resolve_left short]
    rfl

theorem protocolAnylise_accepts (enough : commProtocolMinLen ≤ len)
    (ended : scan port.protocol (unchecked buf) len fuel 0 = .ended (.accept i dataLen)) :
    protocolAnylise chip port fuel ram stack buf len =
      port.execute chip ram stack buf i dataLen (ScanEnd.accept i dataLen).info := by
  rw [protocolAnylise, if_neg (Nat.not_lt.mpr enough), ended]

end LedFirmware.App
