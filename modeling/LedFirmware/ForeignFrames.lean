import LedFirmware.CanDemux
import LedFirmware.UpdateFrames

/-!
# Frames for other devices

A CAN handler takes the device ID and the remote ID from every valid frame before it
compares the device ID with its own.  A frame for another device therefore replaces the
remembered remote ID, and does nothing else.
-/

namespace LedFirmware

open CrashProgram NorFlash

/-- Everything that a handler of any firmware returns and does outside the flash. -/
structure Response (Ram : Type) where
  info : DelInfo
  ram : Ram
  sent : List (List UInt8)
  reset : Bool

def App.Handled.response (handled : App.Handled) : Response App.Ram :=
  ⟨handled.info, handled.ram, handled.sent, handled.reset⟩

def Handled.response (handled : Handled) : Response IapRam :=
  ⟨handled.info, handled.ram, handled.sent, handled.reset⟩

namespace Protocol

section Calls

variable (chip : Chip)

/-- A call of a handler with everything that it returns. -/
def handle : (protocol : Protocol) → (fuel : Nat) → protocol.Ram → (stack buf : Nat → UInt8) →
    (len : Nat) → FlashProg chip.geometry (Response protocol.Ram)
  | .appCan500, fuel, ram, stack, buf, len =>
      App.can500ProtocolAnylise chip fuel ram stack buf len >>= fun handled =>
      .done handled.response
  | .appUart, fuel, ram, stack, buf, len =>
      App.uartOtaProtocolAnylise chip fuel ram stack buf len >>= fun handled =>
      .done handled.response
  | .iapUart, fuel, ram, _, buf, len =>
      otaProtocolAnylise chip fuel ram buf len >>= fun handled => .done handled.response
  | .iapCan500, fuel, ram, _, buf, len =>
      can500ProtocolAnylise chip fuel ram buf len >>= fun handled => .done handled.response

/-- What a handler does with the frame of `dataLen` bytes at index `i`. -/
def execute : (protocol : Protocol) → protocol.Ram → (stack buf : Nat → UInt8) →
    (i dataLen : Nat) → DelInfo → FlashProg chip.geometry (Response protocol.Ram)
  | .appCan500, ram, stack, buf, i, dataLen, info =>
      App.canExecute chip ram stack buf i dataLen info >>= fun handled => .done handled.response
  | .appUart, ram, stack, buf, i, dataLen, info =>
      App.uartExecute chip ram stack buf i dataLen info >>= fun handled => .done handled.response
  | .iapUart, ram, _, buf, i, dataLen, info =>
      uartExecute chip ram buf i dataLen info >>= fun handled => .done handled.response
  | .iapCan500, ram, _, buf, i, dataLen, info =>
      canExecute chip ram buf i dataLen info >>= fun handled => .done handled.response

end Calls

/-- The length up to the end of an accepted frame, as the handlers return it. -/
def acceptInfo (i dataLen : Nat) : DelInfo := ⟨.accept, add32 dataLen i⟩

variable {chip : Chip} {protocol : Protocol} {fuel : Nat} {ram : protocol.Ram}
  {stack buf : Nat → UInt8} {len i dataLen : Nat}

/-- A frame that the scan accepts is executed. -/
theorem handle_accepts (accepts : protocol.Accepts fuel buf len i dataLen) :
    protocol.handle chip fuel ram stack buf len =
      protocol.execute chip ram stack buf i dataLen (acceptInfo i dataLen) := by
  obtain ⟨enough, ended⟩ := accepts
  cases protocol with
  | appCan500 =>
      have scanned := @App.protocolAnylise_accepts chip .can fuel i dataLen len ram stack buf enough
        ended
      rw [handle, App.can500ProtocolAnylise, scanned]
      rfl
  | appUart =>
      have scanned := @App.protocolAnylise_accepts chip .uart fuel i dataLen len ram stack buf
        enough ended
      rw [handle, App.uartOtaProtocolAnylise, scanned]
      rfl
  | iapUart =>
      have scanned := @protocolAnylise_accepts chip .uart fuel i dataLen len ram buf enough ended
      rw [handle, otaProtocolAnylise, scanned]
      rfl
  | iapCan500 =>
      have scanned := @protocolAnylise_accepts chip .can fuel i dataLen len ram buf enough ended
      rw [handle, can500ProtocolAnylise, scanned]
      rfl

end Protocol

namespace CanFirmware

def protocol : CanFirmware → Protocol
  | .app => .appCan500
  | .iap => .iapCan500

/-- The remembered remote ID. -/
def remoteID : (firmware : CanFirmware) → firmware.protocol.Ram → UInt16
  | .app, (ram : App.Ram) => ram.iapParam.remoteID
  | .iap, (ram : IapRam) => ram.iapParam.remoteID

/-- The remote ID that the handler takes from a frame.  In the bootloader its high byte
is the low byte of the device ID. -/
def readRemoteID : CanFirmware → (frame : Nat → UInt8) → UInt16
  | .app, frame => half frame 6
  | .iap, frame => half frame 4 <<< 8 ||| UInt16.ofNat (frame 6).toNat

/-- Store the remote ID. -/
def remember : (firmware : CanFirmware) → firmware.protocol.Ram → UInt16 → firmware.protocol.Ram
  | .app, (ram : App.Ram), remoteID => { ram with iapParam := { ram.iapParam with remoteID } }
  | .iap, (ram : IapRam), remoteID => { ram with iapParam := { ram.iapParam with remoteID } }

/-- The handler deletes the bytes up to the end of the frame, and nothing else happens. -/
def Inert (firmware : CanFirmware) (chip : Chip) (fuel : Nat) (ram : firmware.protocol.Ram)
    (stack buf : Nat → UInt8) (len i dataLen : Nat) : Prop :=
  ∀ (schedule : FlashSchedule) (state : State),
    Prog.run (firmware.protocol.handle chip fuel ram stack buf len) schedule state =
      .done ⟨Protocol.acceptInfo i dataLen, ram, [], false⟩ state schedule

variable {firmware : CanFirmware} {chip : Chip} {ram : firmware.protocol.Ram}
  {stack buf : Nat → UInt8} {fuel len i dataLen : Nat} {info : DelInfo}

theorem remember_eq_self_iff {remoteID : UInt16} :
    firmware.remember ram remoteID = ram ↔ firmware.remoteID ram = remoteID := by
  constructor
  · intro same
    rw [← same]
    cases firmware <;> rfl
  · rintro rfl
    cases firmware <;> rfl

/-- Of a frame for another device only the remote ID is stored. -/
theorem execute_foreign (foreign : ¬ IapPort.can.Addressed (firmware.protocol.ownID ram)
    (bytesFrom buf i)) :
    firmware.protocol.execute chip ram stack buf i dataLen info =
      .done ⟨info, firmware.remember ram (firmware.readRemoteID (bytesFrom buf i)), [], false⟩ := by
  simp only [IapPort.Addressed, not_or] at foreign
  obtain ⟨other, assigned⟩ := foreign
  cases firmware with
  | app =>
      simp only [protocol, Protocol.execute, App.canExecute]
      rw [if_pos ⟨fun same => other same.symm, assigned⟩]
      rfl
  | iap =>
      simp only [protocol, Protocol.execute, canExecute]
      rw [if_pos ⟨fun same => other same.symm, assigned⟩]
      rfl

theorem inert_iff_remembered (accepts : firmware.protocol.Accepts fuel buf len i dataLen)
    (foreign : ¬ IapPort.can.Addressed (firmware.protocol.ownID ram) (bytesFrom buf i)) :
    firmware.Inert chip fuel ram stack buf len i dataLen ↔
      firmware.remoteID ram = firmware.readRemoteID (bytesFrom buf i) := by
  rw [Inert, Protocol.handle_accepts accepts, execute_foreign foreign, ← remember_eq_self_iff]
  constructor
  · intro inert
    have run := inert faultless ⟨fun _ => erasedByte, true, []⟩
    simp only [Prog.run, Outcome.done.injEq, Response.mk.injEq] at run
    exact run.1.2.1
  · intro same schedule state
    rw [same, Prog.run]

/-- Of all variables, a frame for another device changes at most the remembered remote
ID; it sends nothing, leaves the flash alone and is deleted. -/
theorem foreign_remembers_only (firmware : CanFirmware) (chip : Chip) (fuel : Nat)
    (ram : firmware.protocol.Ram) (stack buf : Nat → UInt8) (len i dataLen : Nat)
    (accepts : firmware.protocol.Accepts fuel buf len i dataLen)
    (assigned : firmware.protocol.ownID ram ≠ 0xFFFF)
    (foreign : half (bytesFrom buf i) 4 ≠ firmware.protocol.ownID ram) :
    ∃ remoteID : UInt16, (firmware = .app → remoteID = half (bytesFrom buf i) 6) ∧
      ∀ (schedule : FlashSchedule) (state : State),
        Prog.run (firmware.protocol.handle chip fuel ram stack buf len) schedule state =
          .done ⟨Protocol.acceptInfo i dataLen, firmware.remember ram remoteID, [], false⟩ state
            schedule := by
  refine ⟨firmware.readRemoteID (bytesFrom buf i), ?_, fun schedule state => ?_⟩
  · rintro rfl
    rfl
  · rw [Protocol.handle_accepts accepts, execute_foreign (not_or.mpr ⟨foreign, assigned⟩),
      Prog.run]

/-- The variables of a device with ID 1. -/
def assignedRam : App.Ram :=
  { App.sampleRam with iapParam := { App.sampleRam.iapParam with id := 1 } }

/-- A frame from device 7 to device 2. -/
def toSecond : List UInt8 := construct 0x01 [2, 0, 7, 0]

theorem toSecond_accepts : app.protocol.Accepts 1 (bufferOf toSecond) 10 0 10 := by
  constructor
  · decide
  · decide +kernel

theorem foreign_remembers_only_sample :
    ∃ remoteID : UInt16, (app = .app → remoteID = half (bytesFrom (bufferOf toSecond) 0) 6) ∧
      ∀ (schedule : FlashSchedule) (state : State),
        Prog.run (app.protocol.handle sampleChip 1 assignedRam (fun _ => 0)
            (bufferOf toSecond) 10) schedule state =
          .done ⟨Protocol.acceptInfo 0 10, app.remember assignedRam remoteID, [], false⟩ state
            schedule :=
  foreign_remembers_only .app sampleChip 1 assignedRam (fun _ => 0) (bufferOf toSecond) 10 0 10
    toSecond_accepts (by decide) (by decide)

/-- The frame from device 7 to device 2 replaces the remote ID of device 1. -/
theorem foreign_not_inert :
    ¬ ∀ (firmware : CanFirmware) (chip : Chip) (fuel : Nat) (ram : firmware.protocol.Ram)
      (stack buf : Nat → UInt8) (len i dataLen : Nat),
      firmware.protocol.Accepts fuel buf len i dataLen →
      firmware.protocol.ownID ram ≠ 0xFFFF →
      half (bytesFrom buf i) 4 ≠ firmware.protocol.ownID ram →
      half (bytesFrom buf i) 4 ≠ 0xFFFF →
      firmware.Inert chip fuel ram stack buf len i dataLen := by
  intro inert
  have stays := inert .app sampleChip 1 assignedRam (fun _ => 0) (bufferOf toSecond) 10 0 10
    toSecond_accepts (by decide) (by decide) (by decide)
  have remembered := (inert_iff_remembered toSecond_accepts
    (by unfold IapPort.Addressed; decide)).mp stays
  exact absurd remembered (by decide)

end CanFirmware

end LedFirmware
