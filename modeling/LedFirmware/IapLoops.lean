import LedFirmware.CanDemux
import LedFirmware.CommDev

/-!
# The receive loops of the bootloader

In IAP mode `main` calls two handlers in turn, one for the UART and one for the
CAN bus.  Each looks at all bytes of its ring and deletes what the analysis has
used; when the analysis waits for too long, the one clears the ring of the UART
and the other the message ring of the CAN driver.
-/

namespace LedFirmware

open CrashProgram NorFlash

/-- `Abs(tick_diff) > limit` on signed numbers; the least one is its own absolute
value. -/
def TicksExceed (difference : UInt32) (limit : Nat) : Prop :=
  limit < (App.absTicks difference).toNat ∧ (App.absTicks difference).toNat < 2 ^ 31

instance (difference : UInt32) (limit : Nat) : Decidable (TicksExceed difference limit) :=
  inferInstanceAs (Decidable (_ ∧ _))

/-- The ring of `UartTTL` with the variables of `OTA_Periodic_Handle`. -/
structure IapComm where
  ring : RingBufType
  otaCommBuf : Nat → UInt8
  otaWaitTicks : UInt32

/-- What one call leaves and sends. -/
structure IapRound where
  comm : IapComm
  ram : IapRam
  sent : List (List UInt8)
  reset : Bool

/-- `CAN_BUF500` and the driver's ring with the variables of
`CAN_OTA_Periodic_Handle`. -/
structure IapCanComm where
  can : CanBus
  canBuf500 : CanBuf500
  otaCanBuf500 : Nat → UInt8
  canOtaWaitTicks : UInt32

structure IapCanRound where
  comm : IapCanComm
  ram : IapRam
  sent : List (List UInt8)
  reset : Bool

/-- The size of `OTACommBuf` and of `otacanbuf500`. -/
def iapCommBufSize : Nat := 2048

section Loops

variable (chip : Chip)

/-- `OTA_Periodic_Handle` at a tick. -/
def otaPeriodicHandle (fuel : Nat) (now : UInt32) (comm : IapComm) (ram : IapRam) :
    FlashProg chip.geometry IapRound :=
  let read := readDataFromBuf comm.ring comm.otaCommBuf iapCommBufSize false
  let comm := { comm with ring := read.buf, otaCommBuf := read.dest }
  if read.count = 0 then .done ⟨{ comm with otaWaitTicks := now }, ram, [], false⟩
  else
    otaProtocolAnylise chip fuel ram comm.otaCommBuf read.count >>= fun handled =>
    -- A command that resets the processor does not return.
    if handled.reset then .done ⟨comm, handled.ram, handled.sent, true⟩
    else if handled.info.state ≠ .waiting then
      .done ⟨{ comm with
        ring := (delDataFromBuf comm.ring handled.info.delLen).2
        otaWaitTicks := now }, handled.ram, handled.sent, false⟩
    else if TicksExceed (now - comm.otaWaitTicks) 20000 then
      .done ⟨{ comm with ring := clearDateFromBuf comm.ring, otaWaitTicks := now }, handled.ram,
        handled.sent, false⟩
    else .done ⟨comm, handled.ram, handled.sent, false⟩

/-- The receive part of `CAN_OTA_Periodic_Handle`: one message, if there is one. -/
def IapCanComm.receive (comm : IapCanComm) : IapCanComm :=
  match stm32CanRecv comm.can with
  | (some rx, can) => { comm with can, canBuf500 := canOtaReceive comm.canBuf500 rx }
  | (none, can) => { comm with can }

/-- The rest of it: the analysis of `CAN_BUF500`. -/
def canOtaAnalyse (fuel : Nat) (now : UInt32) (comm : IapCanComm) (ram : IapRam) :
    FlashProg chip.geometry IapCanRound :=
  let read := readDataFromBuf comm.canBuf500.ring comm.otaCanBuf500 iapCommBufSize false
  let comm := { comm with
    canBuf500 := { comm.canBuf500 with ring := read.buf }
    otaCanBuf500 := read.dest }
  if read.count = 0 then .done ⟨{ comm with canOtaWaitTicks := now }, ram, [], false⟩
  else
    can500ProtocolAnylise chip fuel ram comm.otaCanBuf500 read.count >>= fun handled =>
    -- A command that resets the processor does not return.
    if handled.reset then .done ⟨comm, handled.ram, handled.sent, true⟩
    else if handled.info.state ≠ .waiting then
      .done ⟨{ comm with
        canBuf500 := { comm.canBuf500 with
          ring := (delDataFromBuf comm.canBuf500.ring handled.info.delLen).2 }
        canOtaWaitTicks := now }, handled.ram, handled.sent, false⟩
    else if TicksExceed (now - comm.canOtaWaitTicks) 1000 then
      .done ⟨{ comm with can := stm32CanClear comm.can, canOtaWaitTicks := now }, handled.ram,
        handled.sent, false⟩
    else .done ⟨comm, handled.ram, handled.sent, false⟩

/-- `CAN_OTA_Periodic_Handle` at a tick. -/
def canOtaPeriodicHandle (fuel : Nat) (now : UInt32) (comm : IapCanComm) (ram : IapRam) :
    FlashProg chip.geometry IapCanRound :=
  canOtaAnalyse chip fuel now comm.receive ram

end Loops

end LedFirmware
