import LedFirmware.AppCommands
import LedFirmware.RingFifo

/-!
# The analysis of received bytes

`protocol_anylise_process` reads the receive ring without clearing it, lets up to
three protocol handlers look at the bytes, and deletes what they accept or all
reject.  If some handler waits for too long, it clears the ring.
-/

namespace LedFirmware

open BoundedFifo CrashProgram NorFlash

/-- A read into a buffer of the ring's size gets everything. -/
theorem Refines.read_holds {ring : RingBufType} {capacity : Nat} {queue : Fifo UInt8 capacity}
    (refines : Refines ring queue) (dest : Nat → UInt8) {len : Nat} (room : capacity ≤ len) :
    (readDataFromBuf ring dest len false).count = queue.items.length ∧
      Holds (readDataFromBuf ring dest len false).dest 0 queue.items := by
  have fits := queue.fits
  obtain ⟨count, bytes⟩ := refines.read_bytes dest len false
  rw [Nat.min_eq_right (by omega)] at count
  refine ⟨count, fun index inside => ?_⟩
  have length : index < (readDataFromBuf ring dest len false).bytes.length := by
    rw [ReadData.bytes, List.length_map, List.length_range]
    exact count ▸ inside
  have same : (readDataFromBuf ring dest len false).bytes = queue.items := by
    rw [bytes, List.take_of_length_le (by omega)]
  rw [Nat.zero_add, bufferOf, ← same, List.getD_eq_getElem _ _ length]
  simp only [ReadData.bytes, List.getElem_map, List.getElem_range]

namespace App

/-- `comm_dev_type`, with the ring on which its functions `recv`, `del` and `clear`
work. -/
structure CommDev where
  ring : RingBufType
  buf : Nat → UInt8
  bufLen : Nat
  waitTicks : UInt32
  ticksOut : UInt32

/-- A protocol handler, as the analysis calls it. -/
abbrev AnyliseHandle (chip : Chip) : Type :=
  Ram → (buf : Nat → UInt8) → (len : Nat) → FlashProg chip.geometry Handled

/-- What the handlers leave: their answers, or the length to delete for the first
one that accepts. -/
structure Anylised where
  infos : List DelInfo
  accepted : Option Nat
  ram : Ram
  reset : Bool

/-- What one call of the analysis leaves. -/
structure Processed where
  comm : CommDev
  ram : Ram
  cleared : Bool
  reset : Bool

/-- `Abs` of a difference of ticks as a signed number. -/
def absTicks (difference : UInt32) : UInt32 :=
  if difference.toNat < 2 ^ 31 then difference else 0 - difference

section Process

variable {chip : Chip}

/-- The first loop: call the handlers in turn, up to one that accepts.  An empty
place rejects everything. -/
def anyliseEach (buf : Nat → UInt8) (len : Nat) :
    (slots : List (Option (AnyliseHandle chip))) → Ram → (infos : List DelInfo) →
    FlashProg chip.geometry Anylised
  | [], ram, infos => .done ⟨infos, none, ram, false⟩
  | none :: later, ram, infos => anyliseEach buf len later ram (infos ++ [⟨.reject, len⟩])
  | some handle :: later, ram, infos =>
      handle ram buf len >>= fun handled =>
      if handled.info.state = .accept then
        .done ⟨infos, some handled.info.delLen, handled.ram, handled.reset⟩
      else anyliseEach buf len later handled.ram (infos ++ [handled.info])

/-- The second loop: the least length to delete if all handlers reject. -/
def delMin : List DelInfo → (least : Nat) → Option Nat
  | [], least => some least
  | info :: later, least =>
      if info.state = .reject then
        delMin later (if least = 0 then info.delLen else min least info.delLen)
      else none

/-- `protocol_anylise_process` at a tick. -/
def protocolAnyliseProcess (slots : List (Option (AnyliseHandle chip))) (now : UInt32)
    (comm : CommDev) (ram : Ram) : FlashProg chip.geometry Processed :=
  let read := readDataFromBuf comm.ring comm.buf comm.bufLen false
  let comm := { comm with ring := read.buf, buf := read.dest }
  if read.count = 0 then .done ⟨{ comm with waitTicks := now }, ram, false, false⟩
  else
    anyliseEach comm.buf read.count slots ram [] >>= fun anylised =>
    -- A handler that resets the processor does not return.
    if anylised.reset then .done ⟨comm, anylised.ram, false, true⟩
    else match anylised.accepted with
      | some delLen =>
          .done ⟨{ comm with ring := (delDataFromBuf comm.ring delLen).2, waitTicks := now },
            anylised.ram, false, false⟩
      | none =>
          match delMin anylised.infos 0 with
          | some least =>
              .done ⟨{ comm with ring := (delDataFromBuf comm.ring least).2, waitTicks := now },
                anylised.ram, false, false⟩
          | none =>
              if absTicks (now - comm.waitTicks) > comm.ticksOut then
                .done ⟨{ comm with ring := clearDateFromBuf comm.ring, waitTicks := now },
                  anylised.ram, true, false⟩
              else .done ⟨comm, anylised.ram, false, false⟩

end Process

/-- `CAN500_Anylise` has one handler in its three places. -/
def can500Slots (chip : Chip) (fuel : Nat) (stack : Nat → UInt8) :
    List (Option (AnyliseHandle chip)) :=
  [some fun ram buf len => can500ProtocolAnylise chip fuel ram stack buf len, none, none]

/-- The ring and the buffer of `can_ota_init`, over what their memories hold. -/
def canOtaInit (ring buf : Nat → UInt8) : CommDev where
  ring := rxBufInit ring 1024
  buf
  bufLen := 1024
  waitTicks := 0
  ticksOut := 100

variable {chip : Chip} {fuel i dataLen len : Nat} {ram : Ram} {stack buf : Nat → UInt8}
  {info : DelInfo}

/-! ## The handler -/

/-- The codes after which the handler resets the processor. -/
def Resets (code : UInt8) : Prop := code = 0x03 ∨ code = 0xA4

-- From here on the commands are followed by rules only: evaluating them would compare
-- addresses and sizes bit by bit.
attribute [local irreducible] Prog.Halts Prog.Yields

/-- The handler answers as the scan has ended, and resets after two commands
only. -/
structure Answers (info : DelInfo) (code : UInt8) (handled : Handled) : Prop where
  info : handled.info = info
  resets : handled.reset = true → Resets code

theorem canExecute_answers : (canExecute chip ram stack buf i dataLen info).Yields
    (Answers info (bytesFrom buf i 3)) := by
  unfold canExecute
  refine Prog.yields_ite (fun _ => Prog.yields_done ⟨rfl, nofun⟩) fun _ => ?_
  cases decoded : CanCommand.decode (bytesFrom buf i 3) with
  | none => exact Prog.yields_done ⟨rfl, nofun⟩
  | some command =>
      cases command with
      | otaStart =>
          exact Prog.yields_after _ fun _ => Prog.yields_after _ fun _ =>
            Prog.yields_done ⟨rfl, nofun⟩
      | otaUpdate => exact Prog.yields_after _ fun _ => Prog.yields_done ⟨rfl, nofun⟩
      | otaEnd =>
          exact Prog.yields_after _ fun _ =>
            Prog.yields_done ⟨rfl, fun _ => .inl (CanCommand.decode_eq_some decoded)⟩
      | paramsetSave =>
          exact Prog.yields_after _ fun _ => Prog.yields_after _ fun _ =>
            Prog.yields_done ⟨rfl, nofun⟩
      | deviceRestart =>
          exact Prog.yields_done ⟨rfl, fun _ => .inr (CanCommand.decode_eq_some decoded)⟩
      | paramsetDefault => exact Prog.yields_after _ fun _ => Prog.yields_done ⟨rfl, nofun⟩
      | paramsetRead => exact Prog.yields_done ⟨rfl, nofun⟩
      | paramsetWrite => exact Prog.yields_done ⟨rfl, nofun⟩
      | deviceSearch => exact Prog.yields_done ⟨rfl, nofun⟩
      | deviceParamsetSearch => exact Prog.yields_done ⟨rfl, nofun⟩
      | automaticCheck => exact Prog.yields_done ⟨rfl, nofun⟩

theorem halts_writePiece {progress : OtaProgress} {piece : Nat → UInt8} {accepts : Bool}
    {length : Nat} : (writePiece chip progress piece accepts length).Halts :=
  Prog.halts_ite (Prog.halts_bind halts_flashWriteBy fun _ => Prog.halts_done _)
    (Prog.halts_done _)

theorem halts_canExecute : (canExecute chip ram stack buf i dataLen info).Halts := by
  unfold canExecute
  refine Prog.halts_ite (Prog.halts_done _) ?_
  cases CanCommand.decode (bytesFrom buf i 3) with
  | none => exact Prog.halts_done _
  | some command =>
      cases command with
      | otaStart =>
          exact Prog.halts_bind (halts_flashStorageHeader _) fun _ =>
            Prog.halts_bind (halts_flashErasePage _ _) fun _ => Prog.halts_done _
      | otaUpdate => exact Prog.halts_bind halts_writePiece fun _ => Prog.halts_done _
      | otaEnd => exact Prog.halts_bind halts_updateAppMode fun _ => Prog.halts_done _
      | paramsetSave =>
          exact Prog.halts_bind (halts_stm32ParamSave _ _) fun _ =>
            Prog.halts_bind (halts_iapParamSave _) fun _ => Prog.halts_done _
      | paramsetDefault => exact Prog.halts_bind halts_stm32ParamDefault fun _ => Prog.halts_done _
      | deviceRestart => exact Prog.halts_done _
      | paramsetRead => exact Prog.halts_done _
      | paramsetWrite => exact Prog.halts_done _
      | deviceSearch => exact Prog.halts_done _
      | deviceParamsetSearch => exact Prog.halts_done _
      | automaticCheck => exact Prog.halts_done _

theorem can500_accepts (enough : commProtocolMinLen ≤ len)
    (ended : scan .appCan500 (unchecked buf) len fuel 0 = .ended (.accept i dataLen)) :
    can500ProtocolAnylise chip fuel ram stack buf len =
      canExecute chip ram stack buf i dataLen ⟨.accept, add32 dataLen i⟩ :=
  @protocolAnylise_accepts chip .can fuel i dataLen len ram stack buf enough ended

/-! ## The analysis -/

/-- What the analysis reads. -/
def CommDev.received (comm : CommDev) : ReadData :=
  readDataFromBuf comm.ring comm.buf comm.bufLen false

theorem anyliseEach_can500 : anyliseEach buf len (can500Slots chip fuel stack) ram [] =
    can500ProtocolAnylise chip fuel ram stack buf len >>= fun handled =>
      if handled.info.state = .accept then
        .done ⟨[], some handled.info.delLen, handled.ram, handled.reset⟩
      else .done ⟨[handled.info, ⟨.reject, len⟩, ⟨.reject, len⟩], none, handled.ram, false⟩ := rfl

variable {slots : List (Option (AnyliseHandle chip))} {now : UInt32} {comm : CommDev}
  {capacity : Nat} {queue : Fifo UInt8 capacity}

/-- Whatever the handlers answer, the ring stays a queue, and the buffer holds what
was read. -/
theorem process_keeps (refines : Refines comm.ring queue) :
    (protocolAnyliseProcess slots now comm ram).Yields fun processed =>
      (∃ left : Fifo UInt8 capacity, Refines processed.comm.ring left) ∧
        processed.comm.buf = comm.received.dest ∧ processed.comm.bufLen = comm.bufLen := by
  have kept : Refines comm.received.buf queue := by
    rw [CommDev.received, refines.read_keep]
    exact refines
  unfold protocolAnyliseProcess
  refine Prog.yields_ite (fun _ => Prog.yields_done ⟨⟨queue, kept⟩, rfl, rfl⟩) fun _ => ?_
  refine Prog.yields_after _ fun anylised => ?_
  refine Prog.yields_ite (fun _ => Prog.yields_done ⟨⟨queue, kept⟩, rfl, rfl⟩) fun _ => ?_
  cases anylised.accepted with
  | some delLen => exact Prog.yields_done ⟨⟨_, (kept.del delLen).2⟩, rfl, rfl⟩
  | none =>
      cases delMin anylised.infos 0 with
      | some least => exact Prog.yields_done ⟨⟨_, (kept.del least).2⟩, rfl, rfl⟩
      | none =>
          refine Prog.yields_ite (fun _ => ?_) fun _ =>
            Prog.yields_done ⟨⟨queue, kept⟩, rfl, rfl⟩
          exact Prog.yields_done ⟨⟨_, (kept.step .clearDate).state⟩, rfl, rfl⟩

/-- An analysis whose handler is still scanning does not end. -/
theorem process_running (nonempty : comm.received.count ≠ 0)
    (running : can500ProtocolAnylise chip fuel ram stack comm.received.dest comm.received.count =
      .spin) :
    (protocolAnyliseProcess (can500Slots chip fuel stack) now comm ram).Yields
      fun _ => False := by
  unfold protocolAnyliseProcess
  refine Prog.yields_ite (fun empty => absurd empty nonempty) fun _ => ?_
  have each : (anyliseEach comm.received.dest comm.received.count (can500Slots chip fuel stack)
      ram []).Yields fun _ => False := by
    rw [anyliseEach_can500, running]
    exact Prog.yields_spin
  exact Prog.yields_bind each fun _ impossible => impossible.elim

/-- While the handler waits, the ring changes by a timeout only. -/
theorem process_waits (refines : Refines comm.ring queue)
    (waits : can500ProtocolAnylise chip fuel ram stack comm.received.dest comm.received.count =
      .done ⟨⟨.waiting, 0⟩, ram, [], false⟩) :
    (protocolAnyliseProcess (can500Slots chip fuel stack) now comm ram).Yields fun processed =>
      processed.reset = false ∧ (processed.cleared = false → processed.comm.ring = comm.ring) := by
  have kept : comm.received.buf = comm.ring := refines.read_keep _ _
  unfold protocolAnyliseProcess
  refine Prog.yields_ite (fun _ => Prog.yields_done ⟨rfl, fun _ => kept⟩) fun _ => ?_
  have answer := (@anyliseEach_can500 chip fuel comm.received.count ram stack
    comm.received.dest).trans (congrArg (· >>= _) waits)
  refine (congrArg (fun program => Prog.Yields _ (program >>= _)) answer).mpr ?_
  refine Prog.yields_ite (fun _ => Prog.yields_done ⟨rfl, nofun⟩) fun _ => ?_
  exact Prog.yields_done ⟨rfl, fun _ => kept⟩

/-- An accepted frame is deleted, unless it has reset the processor. -/
theorem process_accepts {delLen : Nat} {code : UInt8} (refines : Refines comm.ring queue)
    (nonempty : comm.received.count ≠ 0)
    (accepts : (can500ProtocolAnylise chip fuel ram stack comm.received.dest
      comm.received.count).Yields (Answers ⟨.accept, delLen⟩ code)) :
    (protocolAnyliseProcess (can500Slots chip fuel stack) now comm ram).Yields fun processed =>
      processed.cleared = false ∧ (processed.reset = true → Resets code) ∧
        (processed.reset = false → Refines processed.comm.ring (queue.remove delLen)) := by
  have kept : comm.received.buf = comm.ring := refines.read_keep _ _
  unfold protocolAnyliseProcess
  refine Prog.yields_ite (fun empty => absurd empty nonempty) fun _ => ?_
  have each : (anyliseEach comm.received.dest comm.received.count (can500Slots chip fuel stack)
      ram []).Yields fun anylised =>
        anylised.accepted = some delLen ∧ (anylised.reset = true → Resets code) := by
    rw [anyliseEach_can500]
    refine Prog.yields_bind accepts fun handled answers => ?_
    rw [answers.info]
    exact Prog.yields_done ⟨rfl, answers.resets⟩
  refine Prog.yields_bind each ?_
  rintro ⟨infos, _, final, reset⟩ ⟨rfl, resets⟩
  refine Prog.yields_ite (fun isReset => ?_) fun notReset => ?_
  · exact Prog.yields_done ⟨rfl, fun _ => resets isReset, nofun⟩
  · refine Prog.yields_done ⟨rfl, nofun, fun _ => ?_⟩
    change Refines (delDataFromBuf comm.received.buf delLen).2 _
    rw [kept]
    exact (refines.del delLen).2

theorem halts_process (halts : (can500ProtocolAnylise chip fuel ram stack comm.received.dest
    comm.received.count).Halts) :
    (protocolAnyliseProcess (can500Slots chip fuel stack) now comm ram).Halts := by
  unfold protocolAnyliseProcess
  refine Prog.halts_ite (Prog.halts_done _) ?_
  have each : (anyliseEach comm.received.dest comm.received.count (can500Slots chip fuel stack)
      ram []).Halts := by
    rw [anyliseEach_can500]
    exact Prog.halts_bind halts fun _ => Prog.halts_ite (Prog.halts_done _) (Prog.halts_done _)
  refine Prog.halts_bind each fun anylised => Prog.halts_ite (Prog.halts_done _) ?_
  cases anylised.accepted with
  | some delLen => exact Prog.halts_done _
  | none =>
      cases delMin anylised.infos 0 with
      | some least => exact Prog.halts_done _
      | none => exact Prog.halts_ite (Prog.halts_done _) (Prog.halts_done _)

end App

end LedFirmware
