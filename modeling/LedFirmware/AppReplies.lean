import LedFirmware.AppParam
import LedFirmware.IapCommands

/-!
# Replies of the application

The variables of the application and the constructors of `can_ota_protocol.c`,
`can_search_protocol.c` and `uart_ota_protocol.c`.  Each constructor counts its
frame by hand and builds nothing in a buffer that is too short; what the CAN
constructors build, the CAN handler accepts.
-/

namespace LedFirmware.App

/-- The variables that the handlers read and write, with the static ones of
each protocol file. -/
structure Ram where
  iapParam : IapParam
  net : NetParam
  dev : DevParam
  realtime : RealtimeParam
  sysRunTime : UInt32
  can : OtaProgress
  uart : OtaProgress

/-- A frame with a length counted by the constructor, in a buffer of `len`
bytes.  The checksum spans what that length says. -/
def constructFrame (dataLen : Nat) (code : UInt8) (payload : List UInt8) (len : Nat) :
    List UInt8 :=
  if len < dataLen then []
  else
    let written := commProtocolHead :: UInt8.ofNat dataLen :: UInt8.ofNat (dataLen / 256) ::
      code :: payload
    written ++ [sum8 ((written.drop 1).take (dataLen - 3)), commProtocolTail]

def chipIDBytes (param : IapParam) : List UInt8 :=
  (List.finRange 6).flatMap fun index =>
    [lowByte (param.chipUniqueID index), highByte (param.chipUniqueID index)]

section Replies

variable (ram : Ram)

/-- A CAN reply carries the remote ID and the own ID before its data. -/
def canConstruct (dataLen : Nat) (code : UInt8) (data : List UInt8) (len : Nat) : List UInt8 :=
  constructFrame dataLen code (lowByte ram.iapParam.remoteID :: highByte ram.iapParam.remoteID ::
    lowByte ram.iapParam.id :: highByte ram.iapParam.id :: data) len

def canOtaStartAckConstruct (len : Nat) : List UInt8 := canConstruct ram 10 0x81 [] len

def canOtaUpdateAckConstruct (stateCode : UInt8) (len : Nat) : List UInt8 :=
  canConstruct ram 13 0x82
    [UInt8.ofNat ram.can.frameNum, UInt8.ofNat (ram.can.frameNum / 256), stateCode] len

def canOtaEndAckConstruct (len : Nat) : List UInt8 := canConstruct ram 10 0x83 [] len

def canParamsetReadConstruct (len : Nat) : List UInt8 :=
  canConstruct ram 32 0xA1
    [lowByte ram.iapParam.id, highByte ram.iapParam.id, lowByte ram.dev.msworkMode,
      ram.realtime.canDebugFlag, ram.dev.analogDialSwitch,
      lowByte ram.realtime.voltage, highByte ram.realtime.voltage,
      lowByte ram.realtime.current, highByte ram.realtime.current,
      ram.sysRunTime.toUInt8, (ram.sysRunTime >>> 8).toUInt8,
      (ram.sysRunTime >>> 16).toUInt8, (ram.sysRunTime >>> 24).toUInt8,
      lowByte ram.dev.version, highByte ram.dev.version,
      lowByte ram.iapParam.swversion, highByte ram.iapParam.swversion,
      lowByte ram.iapParam.hwversion, 0, 0, 0, 0] len

/-- The reply to an automatic check carries the code of a device search. -/
def canAutomaticCheckConstruct (len : Nat) : List UInt8 :=
  canConstruct ram 24 0xB1 (List.replicate 14 0) len

def canParamsetWriteConstruct (len : Nat) : List UInt8 := canConstruct ram 10 0xA2 [] len

def canParamsetSaveConstruct (len : Nat) : List UInt8 := canConstruct ram 10 0xA3 [] len

def canDeviceRestartConstruct (len : Nat) : List UInt8 := canConstruct ram 10 0xA4 [] len

def canParamsetDefaultConstruct (len : Nat) : List UInt8 := canConstruct ram 10 0xA5 [] len

def canDeviceSearchConstruct (len : Nat) : List UInt8 :=
  canConstruct ram 32 0xB1 (chipIDBytes ram.iapParam ++
    [lowByte ram.iapParam.swversion, highByte ram.iapParam.swversion,
      lowByte ram.iapParam.hwversion, lowByte ram.iapParam.iapFlag,
      lowByte ram.dev.version, highByte ram.dev.version,
      lowByte ram.iapParam.id, highByte ram.iapParam.id, 0, 0]) len

def canDeviceParamsetSearchConstruct (len : Nat) : List UInt8 := canConstruct ram 10 0xB2 [] len

/-- A UART acknowledgement carries two zero bytes instead of an ID. -/
def otaStartAckConstruct (len : Nat) : List UInt8 := constructFrame 8 0xE0 [0, 0] len

def otaUpdateAckConstruct (stateCode : UInt8) (len : Nat) : List UInt8 :=
  constructFrame 11 0xE1
    [0, 0, UInt8.ofNat ram.uart.frameNum, UInt8.ofNat (ram.uart.frameNum / 256), stateCode] len

def otaEndAckConstruct (len : Nat) : List UInt8 := constructFrame 8 0xE2 [0, 0] len

def iapParamRead (len : Nat) : List UInt8 :=
  constructFrame 29 0x0E ([lowByte ram.iapParam.id, highByte ram.iapParam.id, 0, 0, 0] ++
    chipIDBytes ram.iapParam ++
    [0, 0, lowByte ram.iapParam.iapFlag, 0, 0, lowByte ram.iapParam.swversion]) len

end Replies

/-- The constructors of the CAN protocols with their arguments. -/
inductive CanReply
  | otaStartAck
  | otaUpdateAck (stateCode : UInt8)
  | otaEndAck
  | paramsetRead
  | automaticCheck
  | paramsetWrite
  | paramsetSave
  | deviceRestart
  | paramsetDefault
  | deviceSearch
  | deviceParamsetSearch

def CanReply.construct (ram : Ram) (len : Nat) : CanReply → List UInt8
  | .otaStartAck => canOtaStartAckConstruct ram len
  | .otaUpdateAck stateCode => canOtaUpdateAckConstruct ram stateCode len
  | .otaEndAck => canOtaEndAckConstruct ram len
  | .paramsetRead => canParamsetReadConstruct ram len
  | .automaticCheck => canAutomaticCheckConstruct ram len
  | .paramsetWrite => canParamsetWriteConstruct ram len
  | .paramsetSave => canParamsetSaveConstruct ram len
  | .deviceRestart => canDeviceRestartConstruct ram len
  | .paramsetDefault => canParamsetDefaultConstruct ram len
  | .deviceSearch => canDeviceSearchConstruct ram len
  | .deviceParamsetSearch => canDeviceParamsetSearchConstruct ram len

/-- `data_len`, the length that the constructor counts. -/
def CanReply.dataLen : CanReply → Nat
  | .otaUpdateAck _ => 13
  | .automaticCheck => 24
  | .paramsetRead | .deviceSearch => 32
  | .otaStartAck | .otaEndAck | .paramsetWrite | .paramsetSave | .deviceRestart
  | .paramsetDefault | .deviceParamsetSearch => 10

variable {ram : Ram} {dataLen len : Nat} {code : UInt8} {payload data : List UInt8}

/-- Where the counted length is right and the buffer large enough, the frame is
the one with that payload. -/
theorem constructFrame_eq (whole : payload.length + 6 = dataLen) (room : dataLen ≤ len) :
    constructFrame dataLen code payload len = construct code payload := by
  have span : (UInt8.ofNat dataLen :: UInt8.ofNat (dataLen / 256) :: code :: payload).take
      (dataLen - 3) = UInt8.ofNat dataLen :: UInt8.ofNat (dataLen / 256) :: code :: payload := by
    apply List.take_of_length_le
    simp only [List.length_cons]
    omega
  rw [constructFrame, if_neg (by omega), construct, whole]
  simp only [List.drop_succ_cons, List.drop_zero, span, List.cons_append]

/-- What a CAN constructor builds in a buffer with room is a frame for the CAN handler, of
the counted length. -/
theorem isFrame_canConstruct (whole : data.length + 10 = dataLen)
    (fits : dataLen ≤ canCommProtocolMaxLen) (room : dataLen ≤ len) :
    IsFrame .appCan500 (canConstruct ram dataLen code data len) ∧
      (canConstruct ram dataLen code data len).length = dataLen := by
  rw [canConstruct, constructFrame_eq (by simp only [List.length_cons]; omega) room]
  have frame := @isFrame_construct .appCan500 code (lowByte ram.iapParam.remoteID ::
    highByte ram.iapParam.remoteID :: lowByte ram.iapParam.id :: highByte ram.iapParam.id :: data)
    (by
      change _ ≤ canCommProtocolMaxLen
      simp only [List.length_cons]
      omega)
    (by simp only [List.length_cons]; omega)
  refine ⟨frame.1, frame.2.trans ?_⟩
  simp only [List.length_cons]
  omega

theorem CanReply.isFrame {reply : CanReply} (room : reply.dataLen ≤ len) :
    IsFrame .appCan500 (reply.construct ram len) ∧
      (reply.construct ram len).length = reply.dataLen := by
  cases reply with
  | otaStartAck => exact isFrame_canConstruct rfl (by decide) room
  | otaUpdateAck stateCode => exact isFrame_canConstruct rfl (by decide) room
  | otaEndAck => exact isFrame_canConstruct rfl (by decide) room
  | paramsetRead => exact isFrame_canConstruct rfl (by decide) room
  | automaticCheck => exact isFrame_canConstruct rfl (by decide) room
  | paramsetWrite => exact isFrame_canConstruct rfl (by decide) room
  | paramsetSave => exact isFrame_canConstruct rfl (by decide) room
  | deviceRestart => exact isFrame_canConstruct rfl (by decide) room
  | paramsetDefault => exact isFrame_canConstruct rfl (by decide) room
  | deviceSearch => exact isFrame_canConstruct rfl (by decide) room
  | deviceParamsetSearch => exact isFrame_canConstruct rfl (by decide) room

/-- In a buffer with room for its frame, a CAN constructor builds a frame of the length
that it counts.  The CAN handler's scan accepts it, alone and between any bytes without a
head and any other bytes. -/
theorem canReply_accepted (ram : Ram) (len : Nat) (reply : CanReply)
    (room : reply.dataLen ≤ len) (before after : List UInt8)
    (noHead : commProtocolHead ∉ before)
    (bound : (before ++ reply.construct ram len ++ after).length < 2 ^ 32)
    (memory : Nat → UInt8) (holds : Holds memory 0 (before ++ reply.construct ram len ++ after)) :
    (reply.construct ram len).length = reply.dataLen ∧
      Returned .appCan500 (before ++ reply.construct ram len ++ after).length memory
        ⟨.accept, before.length + (reply.construct ram len).length⟩ := by
  obtain ⟨isFrame, counted⟩ := @CanReply.isFrame ram len reply room
  exact ⟨counted, isFrame.returned noHead bound holds⟩

def sampleRam : Ram where
  iapParam := IapParam.default sampleChip
  net := .default
  dev := .default
  realtime := realtimeParamInit
  sysRunTime := 0
  can := .initial
  uart := .initial

theorem canReply_accepted_sample :
    (CanReply.construct sampleRam 100 (.otaUpdateAck 1)).length = 13 ∧
      Returned .appCan500 17 (bufferOf ([1, 2] ++
        CanReply.construct sampleRam 100 (.otaUpdateAck 1) ++ [0xFE, 0])) ⟨.accept, 15⟩ :=
  canReply_accepted sampleRam 100 (.otaUpdateAck 1) (by decide) [1, 2] [0xFE, 0] (by decide)
    (by decide)
    (bufferOf ([1, 2] ++ CanReply.construct sampleRam 100 (.otaUpdateAck 1) ++ [0xFE, 0]))
    (fun index _ => by rw [Nat.zero_add])

end LedFirmware.App
