import LedFirmware.IapLoops
import LedFirmware.UpdateFrames

/-!
# Recovery by a timeout

Each of the four handlers has a receive loop: `protocol_anylise_process` on two
rings in the application, `OTA_Periodic_Handle` and `CAN_OTA_Periodic_Handle` in
the bootloader.  A loop whose handler waits for too long should forget the pending
bytes, so that the next frame is read from its head.
-/

namespace LedFirmware

open BoundedFifo CrashProgram NorFlash

/-- `uart_ota_init` registers one handler. -/
def App.uartSlots (chip : Chip) (fuel : Nat) (stack : Nat → UInt8) :
    List (Option (App.AnyliseHandle chip)) :=
  [some fun ram buf len => App.uartOtaProtocolAnylise chip fuel ram stack buf len, none, none]

namespace Protocol

/-- The state of a receive loop.  Only the CAN loop of the bootloader takes its
messages from the driver itself. -/
structure Loop (protocol : Protocol) where
  ring : RingBufType
  buf : Nat → UInt8
  waitTicks : UInt32
  can : CanBus
  ram : protocol.Ram

/-- The size of the buffer for one analysis. -/
def bufLen : Protocol → Nat
  | .appCan500 | .appUart => 1024
  | .iapUart | .iapCan500 => iapCommBufSize

/-- The device of `comm_dev_create`: 1024 bytes and one second. -/
def commDev {protocol : Protocol} (loop : protocol.Loop) : App.CommDev where
  ring := loop.ring
  buf := loop.buf
  bufLen := 1024
  waitTicks := loop.waitTicks
  ticksOut := 100

def iapComm {protocol : Protocol} (loop : protocol.Loop) : IapComm :=
  ⟨loop.ring, loop.buf, loop.waitTicks⟩

def iapCanComm {protocol : Protocol} (loop : protocol.Loop) : IapCanComm :=
  ⟨loop.can, ⟨loop.ring, []⟩, loop.buf, loop.waitTicks⟩

/-- One call of the loop's function at a tick. -/
def round (chip : Chip) (fuel : Nat) (stack : Nat → UInt8) (now : UInt32) :
    (protocol : Protocol) → protocol.Loop → FlashProg chip.geometry protocol.Loop
  | .appCan500, loop =>
      App.protocolAnyliseProcess (App.can500Slots chip fuel stack) now (commDev loop) loop.ram >>=
      fun processed => .done
        ⟨processed.comm.ring, processed.comm.buf, processed.comm.waitTicks, loop.can, processed.ram⟩
  | .appUart, loop =>
      App.protocolAnyliseProcess (App.uartSlots chip fuel stack) now (commDev loop) loop.ram >>=
      fun processed => .done
        ⟨processed.comm.ring, processed.comm.buf, processed.comm.waitTicks, loop.can, processed.ram⟩
  | .iapUart, loop =>
      otaPeriodicHandle chip fuel now (iapComm loop) loop.ram >>= fun handled => .done
        ⟨handled.comm.ring, handled.comm.otaCommBuf, handled.comm.otaWaitTicks, loop.can,
          handled.ram⟩
  | .iapCan500, loop =>
      canOtaPeriodicHandle chip fuel now (iapCanComm loop) loop.ram >>= fun handled => .done
        ⟨handled.comm.canBuf500.ring, handled.comm.otaCanBuf500, handled.comm.canOtaWaitTicks,
          handled.comm.can, handled.ram⟩

/-- The ring that the analysis of a round reads. -/
def pending : (protocol : Protocol) → protocol.Loop → RingBufType
  | .appCan500, loop | .appUart, loop | .iapUart, loop => loop.ring
  | .iapCan500, loop => (iapCanComm loop).receive.canBuf500.ring

/-- What it reads there. -/
def received (protocol : Protocol) (loop : protocol.Loop) : ReadData :=
  readDataFromBuf (protocol.pending loop) loop.buf protocol.bufLen false

/-- The pending bytes make the parser wait. -/
def Waits (protocol : Protocol) (fuel : Nat) (loop : protocol.Loop) : Prop :=
  let read := protocol.received loop
  read.count ≠ 0 ∧ (read.count < commProtocolMinLen ∨
    scan protocol (unchecked read.dest) read.count fuel 0 = .ended .waiting)

/-- The wait exceeds the timeout that the loop tests for. -/
def TimedOut (now : UInt32) : (protocol : Protocol) → protocol.Loop → Prop
  | .appCan500, loop | .appUart, loop => App.absTicks (now - loop.waitTicks) > 100
  | .iapUart, loop => TicksExceed (now - loop.waitTicks) 20000
  | .iapCan500, loop => TicksExceed (now - loop.waitTicks) 1000

end Protocol

/-- Nothing is pending, and when the bytes of the frame have arrived, the next
analysis accepts it. -/
def Protocol.Loop.Recovers {protocol : Protocol} (loop : protocol.Loop) (frame : List UInt8) :
    Prop :=
  contents loop.ring = [] ∧
    let read := readDataFromBuf (addDataToBuf loop.ring frame) loop.buf protocol.bufLen false
    ∀ fuel, protocol.Accepts (fuel + 1) read.dest read.count 0 frame.length

variable {chip : Chip} {protocol : Protocol} {fuel : Nat} {stack buf : Nat → UInt8}
  {now : UInt32} {loop : protocol.Loop} {frame : List UInt8} {len : Nat}

/-! ## The analysis that waits -/

/-- With one handler that waits too long, the analysis clears the ring. -/
theorem App.process_timeout {handle : App.AnyliseHandle chip} {comm : App.CommDev} {ram : App.Ram}
    {read : ReadData} (reads : comm.received = read) (nonempty : read.count ≠ 0)
    (waits : handle ram read.dest read.count = .done ⟨⟨.waiting, 0⟩, ram, [], false⟩)
    (late : App.absTicks (now - comm.waitTicks) > comm.ticksOut) :
    App.protocolAnyliseProcess [some handle, none, none] now comm ram =
      .done ⟨{ comm with
        ring := clearDateFromBuf read.buf
        buf := read.dest
        waitTicks := now }, ram, true, false⟩ := by
  have each : App.anyliseEach read.dest read.count [some handle, none, none] ram [] =
      .done ⟨[⟨.waiting, 0⟩, ⟨.reject, read.count⟩, ⟨.reject, read.count⟩], none, ram, false⟩ := by
    rw [App.anyliseEach, waits]
    rfl
  rw [App.CommDev.received] at reads
  unfold App.protocolAnyliseProcess
  rw [reads]
  simp only [if_neg nonempty, each, Prog.done_bind, Bool.false_eq_true, if_false]
  exact if_pos late

theorem otaPeriodicHandle_timeout {comm : IapComm} {ram : IapRam} {read : ReadData}
    (reads : readDataFromBuf comm.ring comm.otaCommBuf iapCommBufSize false = read)
    (nonempty : read.count ≠ 0)
    (waits : otaProtocolAnylise chip fuel ram read.dest read.count =
      .done ⟨⟨.waiting, 0⟩, ram, [], false⟩)
    (late : TicksExceed (now - comm.otaWaitTicks) 20000) :
    otaPeriodicHandle chip fuel now comm ram =
      .done ⟨⟨clearDateFromBuf read.buf, read.dest, now⟩, ram, [], false⟩ := by
  unfold otaPeriodicHandle
  rw [reads]
  simp only [if_neg nonempty, waits, Prog.done_bind, Bool.false_eq_true, if_false, ne_eq,
    not_true_eq_false, if_pos late]

theorem canOtaAnalyse_timeout {comm : IapCanComm} {ram : IapRam} {read : ReadData}
    (reads : readDataFromBuf comm.canBuf500.ring comm.otaCanBuf500 iapCommBufSize false = read)
    (nonempty : read.count ≠ 0)
    (waits : can500ProtocolAnylise chip fuel ram read.dest read.count =
      .done ⟨⟨.waiting, 0⟩, ram, [], false⟩)
    (late : TicksExceed (now - comm.canOtaWaitTicks) 1000) :
    canOtaAnalyse chip fuel now comm ram =
      .done ⟨⟨stm32CanClear comm.can, ⟨read.buf, comm.canBuf500.appended⟩, read.dest, now⟩, ram,
        [], false⟩ := by
  unfold canOtaAnalyse
  rw [reads]
  simp only [if_neg nonempty, waits, Prog.done_bind, Bool.false_eq_true, if_false, ne_eq,
    not_true_eq_false, if_pos late]

/-! ## Every loop -/

variable {queue : Fifo UInt8 1023}

/-- A received message changes neither the analysis buffer nor the ticks. -/
theorem iapCanComm_receive (loop : Protocol.iapCan500.Loop) :
    (Protocol.iapCanComm loop).receive.otaCanBuf500 = loop.buf ∧
      (Protocol.iapCanComm loop).receive.canOtaWaitTicks = loop.waitTicks := by
  rw [IapCanComm.receive]
  split <;> exact ⟨rfl, rfl⟩

/-- The ring after a timeout.  The CAN loop of the bootloader leaves its ring alone. -/
def Protocol.afterTimeout (protocol : Protocol) (ring : RingBufType) : RingBufType :=
  if protocol = .iapCan500 then ring else clearDateFromBuf ring

-- What was read is a variable here: evaluating the read would count its 2048 bytes.
theorem round_timeout_of_read {read : ReadData} (reads : protocol.received loop = read)
    (nonempty : read.count ≠ 0)
    (waits : read.count < commProtocolMinLen ∨
      scan protocol (unchecked read.dest) read.count fuel 0 = .ended .waiting)
    (late : protocol.TimedOut now loop) :
    ∃ after : protocol.Loop, protocol.round chip fuel stack now loop = .done after ∧
      after.ring = protocol.afterTimeout read.buf ∧ after.buf = read.dest := by
  cases protocol with
  | appCan500 =>
      have processed := @App.process_timeout chip now
        (fun ram buf len => App.can500ProtocolAnylise chip fuel ram stack buf len)
        (Protocol.commDev loop) loop.ram read reads nonempty
        (@App.protocolAnylise_waits chip .can fuel read.count loop.ram stack read.dest waits) late
      exact ⟨_, (congrArg (· >>= _) processed).trans rfl, rfl, rfl⟩
  | appUart =>
      have processed := @App.process_timeout chip now
        (fun ram buf len => App.uartOtaProtocolAnylise chip fuel ram stack buf len)
        (Protocol.commDev loop) loop.ram read reads nonempty
        (@App.protocolAnylise_waits chip .uart fuel read.count loop.ram stack read.dest waits) late
      exact ⟨_, (congrArg (· >>= _) processed).trans rfl, rfl, rfl⟩
  | iapUart =>
      have handled := @otaPeriodicHandle_timeout chip fuel now (Protocol.iapComm loop) loop.ram
        read reads nonempty
        (@protocolAnylise_waits chip .uart fuel read.count loop.ram read.dest waits) late
      exact ⟨_, (congrArg (· >>= _) handled).trans rfl, rfl, rfl⟩
  | iapCan500 =>
      obtain ⟨buf, ticks⟩ := iapCanComm_receive loop
      have handled := @canOtaAnalyse_timeout chip fuel now (Protocol.iapCanComm loop).receive
        loop.ram read (by rw [buf]; exact reads) nonempty
        (@protocolAnylise_waits chip .can fuel read.count loop.ram read.dest waits)
        (by rw [ticks]; exact late)
      exact ⟨_, (congrArg (· >>= _) handled).trans rfl, rfl, rfl⟩

/-- A loop that waits too long, and what the timeout leaves. -/
theorem round_timeout (refines : Refines (protocol.pending loop) queue)
    (waits : protocol.Waits fuel loop) (late : protocol.TimedOut now loop) :
    ∃ after : protocol.Loop, protocol.round chip fuel stack now loop = .done after ∧
      after.ring = protocol.afterTimeout (protocol.pending loop) := by
  have kept : (protocol.received loop).buf = protocol.pending loop := refines.read_keep _ _
  obtain ⟨after, ends, ring, -⟩ := @round_timeout_of_read chip protocol fuel stack now loop _ rfl
    waits.1 waits.2 late
  exact ⟨after, ends, by rw [ring, kept]⟩

/-! ## What the next analysis finds -/

/-- A loop with an empty ring accepts each frame that fits, and no longer one. -/
theorem accepts_after_iff {after : protocol.Loop} (refines : Refines after.ring queue)
    (empty : queue.items = []) (isFrame : IsFrame protocol frame) :
    (∀ fuel, protocol.Accepts (fuel + 1)
      (readDataFromBuf (addDataToBuf after.ring frame) after.buf protocol.bufLen false).dest
      (readDataFromBuf (addDataToBuf after.ring frame) after.buf protocol.bufLen false).count 0
      frame.length) ↔ frame.length ≤ 1023 := by
  have room : 1023 ≤ protocol.bufLen := by
    cases protocol <;> decide
  obtain ⟨count, holds⟩ := (refines.add frame).read_holds after.buf room
  have items : (queue.push frame).items = newest 1023 frame := by
    rw [Fifo.push_items, empty, List.nil_append]
  rw [items] at count holds
  constructor
  · intro accepts
    obtain ⟨-, -, room, -⟩ := scan_accept (accepts 0).2
    rw [count, newest_length, sub32] at room
    omega
  · intro fits budget
    rw [newest_of_le fits] at count holds
    rw [count]
    exact ⟨isFrame.lower, isFrame.scan_whole holds (List.prefix_refl _) (by omega) budget⟩

/-- A timeout empties the ring of every loop but the CAN loop of the bootloader, and
then the next frame is accepted if it fits in the ring. -/
theorem timeout_recovers_iff (protocol : Protocol) (chip : Chip) (fuel : Nat)
    (stack : Nat → UInt8) (now : UInt32) (loop : protocol.Loop) (queue : Fifo UInt8 1023)
    (refines : Refines (protocol.pending loop) queue) (waits : protocol.Waits fuel loop)
    (late : protocol.TimedOut now loop) (frame : List UInt8) (isFrame : IsFrame protocol frame) :
    ∃ after, protocol.round chip fuel stack now loop = .done after ∧
      (after.Recovers frame ↔ protocol ≠ .iapCan500 ∧ frame.length ≤ 1023) := by
  obtain ⟨after, ends, ring⟩ := @round_timeout chip protocol fuel stack now loop queue refines
    waits late
  refine ⟨after, ends, ?_⟩
  by_cases iapCan : protocol = .iapCan500
  · have pending : contents after.ring ≠ [] := by
      have count := (refines.read_bytes loop.buf protocol.bufLen false).1
      have nonempty : (protocol.received loop).count ≠ 0 := waits.1
      rw [Protocol.received, count] at nonempty
      rw [ring, Protocol.afterTimeout, if_pos iapCan, refines.items]
      intro none
      rw [none, List.length_nil, Nat.min_zero] at nonempty
      exact nonempty rfl
    exact ⟨fun recovers => absurd recovers.1 pending, fun other => absurd iapCan other.1⟩
  · have cleared : Refines after.ring (Fifo.empty : Fifo UInt8 1023) := by
      rw [ring, Protocol.afterTimeout, if_neg iapCan]
      exact (refines.step .clearDate).state
    have accepts := @accepts_after_iff protocol frame _ after cleared rfl isFrame
    exact ⟨fun recovers => ⟨iapCan, accepts.mp recovers.2⟩,
      fun fits => ⟨cleared.items, accepts.mpr fits.2⟩⟩

/-- One head byte has been pending since the first tick. -/
def headPending (protocol : Protocol) (ram : protocol.Ram) : protocol.Loop where
  ring := addDataToBuf (rxBufInit (fun _ => 0) 1024) [commProtocolHead]
  buf := fun _ => 0
  waitTicks := 0
  can := ⟨fun _ => ⟨0, 0, 0, 0, 0, fun _ => 0⟩, 0, 0⟩
  ram

theorem headPending_refines (protocol : Protocol) (ram : protocol.Ram) :
    Refines (protocol.pending (headPending protocol ram))
      ((Fifo.empty : Fifo UInt8 1023).push [commProtocolHead]) := by
  have refines := (refines_init (fun _ => 0) (by decide : 1 ≤ 1024) (by decide)).add
    [commProtocolHead]
  cases protocol <;> exact refines

theorem headPending_waits (protocol : Protocol) (ram : protocol.Ram) (fuel : Nat) :
    protocol.Waits fuel (headPending protocol ram) := by
  have room : 1023 ≤ protocol.bufLen := by
    cases protocol <;> decide
  have count : (protocol.received (headPending protocol ram)).count = 1 :=
    ((headPending_refines protocol ram).read_holds _ room).1
  have minimum : commProtocolMinLen = 8 := rfl
  exact ⟨by rw [count]; decide, .inl (by rw [count]; decide)⟩

theorem headPending_late (protocol : Protocol) (ram : protocol.Ram) :
    protocol.TimedOut 30000 (headPending protocol ram) := by
  cases protocol <;> simp only [Protocol.TimedOut, headPending] <;> decide

theorem timeout_recovers_iff_sample :
    ∃ after, Protocol.round sampleChip 1 (fun _ => 0) 30000 .iapUart
        (headPending .iapUart (IapRam.loaded (IapParam.default sampleChip))) = .done after ∧
      (after.Recovers (construct 0xE2 [0, 0]) ↔
        Protocol.iapUart ≠ .iapCan500 ∧ (construct 0xE2 [0, 0]).length ≤ 1023) :=
  timeout_recovers_iff .iapUart sampleChip 1 (fun _ => 0) 30000 _ _ (headPending_refines _ _)
    (headPending_waits _ _ 1) (headPending_late _ _) (construct 0xE2 [0, 0])
    (isFrame_construct 0xE2 [0, 0] (by decide) (by decide)).1

/-- The CAN loop of the bootloader keeps the head byte. -/
theorem iapCan500_keeps_pending :
    ¬ ∀ (protocol : Protocol) (chip : Chip) (fuel : Nat) (stack : Nat → UInt8) (now : UInt32)
      (loop : protocol.Loop) (queue : Fifo UInt8 1023),
      Refines (protocol.pending loop) queue → protocol.Waits fuel loop →
      protocol.TimedOut now loop →
      ∃ after, protocol.round chip fuel stack now loop = .done after ∧
        contents after.ring = [] := by
  intro empties
  let ram : IapRam := IapRam.loaded (IapParam.default sampleChip)
  have refines := headPending_refines .iapCan500 ram
  have waits := headPending_waits .iapCan500 ram 1
  have late := headPending_late .iapCan500 ram
  obtain ⟨after, ends, empty⟩ := empties .iapCan500 sampleChip 1 (fun _ => 0) 30000 _ _ refines
    waits late
  obtain ⟨other, ends', ring⟩ := @round_timeout sampleChip .iapCan500 1 (fun _ => 0) 30000 _ _
    refines waits late
  have same : after = other := by
    rw [ends] at ends'
    exact Prog.done.inj ends'
  rw [same, ring, Protocol.afterTimeout, if_pos rfl, refines.items] at empty
  exact absurd empty (by decide)

end LedFirmware
