import LedFirmware.AppCommands
import LedFirmware.IapSession

/-!
# Update frames

All four handlers treat an update frame alike: they compute where its piece
belongs, write it with the flash routine of their firmware, and acknowledge it
without looking at the result.  The first part gives the handlers one shape; the
second says which frames write behind the copy area, and the third when an
acknowledgement can be relied on.
-/

namespace LedFirmware

open CrashProgram NorFlash

namespace Protocol

/-- The variables of the firmware that a handler belongs to. -/
def Ram : Protocol → Type
  | .appCan500 | .appUart => App.Ram
  | .iapUart | .iapCan500 => IapRam

/-- The handlers of one bus use the same frames. -/
def bus : Protocol → IapPort
  | .appCan500 | .iapCan500 => .can
  | .appUart | .iapUart => .uart

/-- The half-words in one unit of the firmware's `Flash_Write`. -/
def halves : Protocol → Nat
  | .appCan500 | .appUart => 2
  | .iapUart | .iapCan500 => 4

def unit (protocol : Protocol) : Nat := 2 * protocol.halves

def ownID : (protocol : Protocol) → protocol.Ram → UInt16
  | .appCan500, (ram : App.Ram) | .appUart, (ram : App.Ram) => ram.iapParam.id
  | .iapUart, (ram : IapRam) | .iapCan500, (ram : IapRam) => ram.iapParam.id

/-- The piece length that the last start frame of the bus has announced. -/
def subSize : (protocol : Protocol) → protocol.Ram → Nat
  | .appCan500, (ram : App.Ram) => ram.can.subSize
  | .appUart, (ram : App.Ram) => ram.uart.subSize
  | .iapUart, (ram : IapRam) => ram.uart.subSize
  | .iapCan500, (ram : IapRam) => ram.can.subSize

/-- A call of a handler; the result is the variables afterwards and the frames
that it sends. -/
def anylise (chip : Chip) : (protocol : Protocol) → (fuel : Nat) → protocol.Ram →
    (stack buf : Nat → UInt8) → (len : Nat) →
    FlashProg chip.geometry (protocol.Ram × List (List UInt8))
  | .appCan500, fuel, ram, stack, buf, len =>
      App.can500ProtocolAnylise chip fuel ram stack buf len >>= fun handled =>
      .done (handled.ram, handled.sent)
  | .appUart, fuel, ram, stack, buf, len =>
      App.uartOtaProtocolAnylise chip fuel ram stack buf len >>= fun handled =>
      .done (handled.ram, handled.sent)
  | .iapUart, fuel, ram, _, buf, len =>
      otaProtocolAnylise chip fuel ram buf len >>= fun handled => .done (handled.ram, handled.sent)
  | .iapCan500, fuel, ram, _, buf, len =>
      can500ProtocolAnylise chip fuel ram buf len >>= fun handled =>
      .done (handled.ram, handled.sent)

/-- The scan accepts the frame of `dataLen` bytes at index `i`. -/
def Accepts (protocol : Protocol) (fuel : Nat) (buf : Nat → UInt8) (len i dataLen : Nat) : Prop :=
  commProtocolMinLen ≤ len ∧ scan protocol (unchecked buf) len fuel 0 = .ended (.accept i dataLen)

/-- Where the state byte of an update acknowledgement lies. -/
def stateOffset (protocol : Protocol) : Nat :=
  match protocol.bus with
  | .can => 10
  | .uart => 8

/-- The update is acknowledged with success. -/
def Acks (protocol : Protocol) (sent : List (List UInt8)) : Prop :=
  ∃ ack ∈ sent, bufferOf ack protocol.stateOffset = 0

section Frame

variable (protocol : Protocol) (ram : protocol.Ram) (frame : Nat → UInt8)

/-- Where the piece of an update frame belongs in the copy area. -/
def start : Nat := field frame protocol.bus.frameNumOffset 2 * protocol.subSize ram

def piece : Nat → UInt8 := bytesFrom frame protocol.bus.dataOffset

/-- The write of a piece; the result says whether it was attempted. -/
def updateWrite (chip : Chip) (dataLen : Nat) : FlashProg chip.geometry Bool :=
  if 10 < dataLen ∧ protocol.start ram frame < otaBinMaxSize then
    flashWriteBy chip.geometry protocol.halves (chip.addrAppCopy + protocol.start ram frame)
      (protocol.piece frame) (sub32 dataLen protocol.bus.overhead) >>= fun _ => .done true
  else .done false

end Frame

end Protocol

variable {chip : Chip} {protocol : Protocol} {fuel : Nat} {ram : protocol.Ram}
  {stack buf : Nat → UInt8} {len i dataLen : Nat}

/-- One acknowledgement with the state byte in its place. -/
theorem acks_singleton {ack : List UInt8} {written : Bool}
    (state : bufferOf ack protocol.stateOffset = if written then 0 else 1) :
    protocol.Acks [ack] ↔ written = true := by
  simp only [Protocol.Acks, List.mem_singleton, exists_eq_left, state]
  cases written <;> decide

/-- The handler writes the piece of the update frame and acknowledges what the write
says. -/
def Protocol.HandlesUpdate (chip : Chip) (protocol : Protocol) (fuel : Nat) (ram : protocol.Ram)
    (stack buf : Nat → UInt8) (len i dataLen : Nat) : Prop :=
  ∃ (after : protocol.Ram) (sent : Bool → List (List UInt8)),
    protocol.anylise chip fuel ram stack buf len =
      (protocol.updateWrite ram (bytesFrom buf i) chip dataLen >>= fun written =>
        .done (after, sent written)) ∧
    (∀ written, protocol.Acks (sent written) ↔ written = true) ∧
    protocol.ownID after = protocol.ownID ram ∧
    protocol.subSize after = protocol.subSize ram

section Handlers

variable {appRam : App.Ram} {iapRam : IapRam}

theorem can_update (update : bytesFrom buf i 3 = IapPort.can.updateCode) :
    CanCommand.decode (bytesFrom buf i 3) = some .otaUpdate := by
  rw [update]
  rfl

theorem uart_update (update : bytesFrom buf i 3 = IapPort.uart.updateCode) :
    UartCommand.decode (bytesFrom buf i 3) = some .otaUpdate := by
  rw [update]
  rfl

theorem appCan500_handlesUpdate (long : ¬ len < commProtocolMinLen)
    (ended : scan .appCan500 (unchecked buf) len fuel 0 = .ended (.accept i dataLen))
    (addressed : IapPort.can.Addressed appRam.iapParam.id (bytesFrom buf i))
    (update : bytesFrom buf i 3 = IapPort.can.updateCode) :
    Protocol.appCan500.HandlesUpdate chip fuel appRam stack buf len i dataLen := by
  refine ⟨?after, fun written => App.send (App.canOtaUpdateAckConstruct ?after
    (if written then 0 else 1) App.canSendBuf), ?same, ?acks, ?id, ?sub⟩
  case same =>
    simp only [Protocol.anylise, App.can500ProtocolAnylise, App.protocolAnylise, if_neg long,
      App.Port.protocol, ended, App.Port.execute, App.canExecute, if_neg (not_foreign addressed),
      can_update update, App.writePiece, decide_eq_true_eq, Prog.bind_bind]
    rfl
  case acks => exact fun written => acks_singleton (by cases written <;> rfl)
  case id => rfl
  case sub => rfl

theorem appUart_handlesUpdate (long : ¬ len < commProtocolMinLen)
    (ended : scan .appUart (unchecked buf) len fuel 0 = .ended (.accept i dataLen))
    (update : bytesFrom buf i 3 = IapPort.uart.updateCode) :
    Protocol.appUart.HandlesUpdate chip fuel appRam stack buf len i dataLen := by
  refine ⟨?after, fun written => App.send (App.otaUpdateAckConstruct ?after
    (if written then 0 else 1) App.uartSendBuf), ?same, ?acks, ?id, ?sub⟩
  case same =>
    simp only [Protocol.anylise, App.uartOtaProtocolAnylise, App.protocolAnylise, if_neg long,
      App.Port.protocol, ended, App.Port.execute, App.uartExecute, uart_update update,
      App.writePiece, decide_eq_true_eq, Prog.bind_bind]
    rfl
  case acks => exact fun written => acks_singleton (by cases written <;> rfl)
  case id => rfl
  case sub => rfl

theorem iapUart_handlesUpdate (long : ¬ len < commProtocolMinLen)
    (ended : scan .iapUart (unchecked buf) len fuel 0 = .ended (.accept i dataLen))
    (update : bytesFrom buf i 3 = IapPort.uart.updateCode) :
    Protocol.iapUart.HandlesUpdate chip fuel iapRam stack buf len i dataLen := by
  refine ⟨?after, fun written => [otaUpdateAckConstruct ?after (if written then 0 else 1)],
    ?same, ?acks, ?id, ?sub⟩
  case same =>
    simp only [Protocol.anylise, otaProtocolAnylise, protocolAnylise, if_neg long,
      IapPort.protocol, ended, IapPort.execute, uartExecute, uart_update update, writePiece,
      decide_eq_true_eq, Prog.bind_bind]
    rfl
  case acks => exact fun written => acks_singleton (by cases written <;> rfl)
  case id => rfl
  case sub => rfl

theorem iapCan500_handlesUpdate (long : ¬ len < commProtocolMinLen)
    (ended : scan .iapCan500 (unchecked buf) len fuel 0 = .ended (.accept i dataLen))
    (addressed : IapPort.can.Addressed iapRam.iapParam.id (bytesFrom buf i))
    (update : bytesFrom buf i 3 = IapPort.can.updateCode) :
    Protocol.iapCan500.HandlesUpdate chip fuel iapRam stack buf len i dataLen := by
  refine ⟨?after, fun written => [canOtaUpdateAckConstruct ?after (if written then 0 else 1)],
    ?same, ?acks, ?id, ?sub⟩
  case same =>
    simp only [Protocol.anylise, can500ProtocolAnylise, protocolAnylise, if_neg long,
      IapPort.protocol, ended, IapPort.execute, canExecute, if_neg (not_foreign addressed),
      can_update update, writePiece, decide_eq_true_eq, Prog.bind_bind]
    rfl
  case acks => exact fun written => acks_singleton (by cases written <;> rfl)
  case id => rfl
  case sub => rfl

end Handlers

/-- What every handler does with an update frame that is addressed to the device. -/
theorem anylise_update (accepts : protocol.Accepts fuel buf len i dataLen)
    (addressed : protocol.bus.Addressed (protocol.ownID ram) (bytesFrom buf i))
    (update : bytesFrom buf i 3 = protocol.bus.updateCode) :
    protocol.HandlesUpdate chip fuel ram stack buf len i dataLen := by
  obtain ⟨long, ended⟩ := accepts
  have whole : ¬ len < commProtocolMinLen := not_lt.mpr long
  cases protocol with
  | appCan500 => exact appCan500_handlesUpdate whole ended addressed update
  | appUart => exact appUart_handlesUpdate whole ended update
  | iapUart => exact iapUart_handlesUpdate whole ended update
  | iapCan500 => exact iapCan500_handlesUpdate whole ended addressed update

/-- A frame for another device is accepted and does nothing. -/
theorem anylise_foreign (accepts : protocol.Accepts fuel buf len i dataLen)
    (foreign : ¬ protocol.bus.Addressed (protocol.ownID ram) (bytesFrom buf i)) :
    ∃ after, protocol.anylise chip fuel ram stack buf len = .done (after, []) := by
  obtain ⟨long, ended⟩ := accepts
  have whole : ¬ len < commProtocolMinLen := not_lt.mpr long
  have other {id : UInt16} {frame : Nat → UInt8} (absent : ¬ IapPort.can.Addressed id frame) :
      id ≠ half frame 4 ∧ id ≠ 0xFFFF := by
    simp only [IapPort.Addressed, not_or] at absent
    exact ⟨fun same => absent.1 same.symm, absent.2⟩
  cases protocol with
  | appCan500 =>
      have own := other foreign
      simp only [Protocol.ownID] at own
      simp only [Protocol.anylise, App.can500ProtocolAnylise, App.protocolAnylise, if_neg whole,
        App.Port.protocol, ended, App.Port.execute, App.canExecute, if_pos own, Prog.done_bind]
      exact ⟨_, rfl⟩
  | appUart => exact absurd trivial foreign
  | iapUart => exact absurd trivial foreign
  | iapCan500 =>
      have own := other foreign
      simp only [Protocol.ownID] at own
      simp only [Protocol.anylise, can500ProtocolAnylise, protocolAnylise, if_neg whole,
        IapPort.protocol, ended, IapPort.execute, canExecute, if_pos own, Prog.done_bind]
      exact ⟨_, rfl⟩

/-! ## Writes behind the copy area -/

/-- The write of a piece leaves the copy area: nothing that it meets before the
end of the area is in its way, since the cells are erased or it has zeros for them. -/
structure Protocol.Overruns (protocol : Protocol) (ram : protocol.Ram) (frame : Nat → UInt8)
    (chip : Chip) (dataLen : Nat) (mem : Mem) : Prop where
  addressed : protocol.bus.Addressed (protocol.ownID ram) frame
  admitted : 10 < dataLen
  within : protocol.start ram frame < otaBinMaxSize
  aligned : protocol.start ram frame % protocol.unit = 0
  beyond : otaBinMaxSize <
    protocol.start ram frame + roundUp protocol.unit (sub32 dataLen protocol.bus.overhead)
  free : ∀ half, protocol.start ram frame + 2 * half < otaBinMaxSize →
    Storable mem (chip.addrAppCopy + protocol.start ram frame + 2 * half)
      (protocol.piece frame (2 * half)) (protocol.piece frame (2 * half + 1))

theorem Protocol.halves_pos (protocol : Protocol) : 0 < protocol.halves := by
  cases protocol <;> decide

/-- The copy area starts on a multiple of every unit. -/
theorem Protocol.copy_aligned (protocol : Protocol) (offset : Nat) :
    (chip.addrAppCopy + offset) % (2 * protocol.halves) = offset % protocol.unit := by
  have page : chip.addrAppCopy % flashPageSize = 0 := pageFromEnd_aligned chip 57
  simp only [flashPageSize] at page
  cases protocol <;> simp only [Protocol.halves, Protocol.unit] <;> omega

/-- A piece that leaves the copy area fills it up to its end: the padding of the last unit
lies behind. -/
theorem Protocol.payload_inside {start length index : Nat} (aligned : start % protocol.unit = 0)
    (beyond : otaBinMaxSize < start + roundUp protocol.unit length)
    (inside : start + index < otaBinMaxSize) : index < length := by
  cases protocol <;>
    simp only [Protocol.unit, Protocol.halves, roundUp, otaBinMaxSize, flashPageSize]
      at aligned beyond inside <;>
    omega

theorem Protocol.even_of_aligned {start : Nat} (aligned : start % protocol.unit = 0) :
    start % 2 = 0 := by
  rw [← Nat.mod_mod_of_dvd _ (Dvd.intro protocol.halves rfl : 2 ∣ protocol.unit), aligned]

/-- Unless it overruns, the write of a piece stays in the copy area, whatever
fails. -/
theorem wp_updateWrite {allowed : Fault → Prop} {frame : Nat → UInt8} {state : State}
    (addressed : protocol.bus.Addressed (protocol.ownID ram) frame)
    (safe : ¬ protocol.Overruns ram frame chip dataLen state.mem) :
    (protocol.updateWrite ram frame chip dataLen).wp allowed
      (confinedPost chip.geometry (copyArea chip) (fun _ => True) state) state := by
  refine Prog.wp_ite ?_ fun _ => (Prog.wp_done _ _ _).mpr ⟨trivial, Confined.refl state⟩
  rintro ⟨admitted, within⟩
  rw [Prog.wp_bind]
  have positive := protocol.halves_pos
  have written : (flashWriteBy chip.geometry protocol.halves
      (chip.addrAppCopy + protocol.start ram frame) (protocol.piece frame)
      (sub32 dataLen protocol.bus.overhead)).wp allowed
      (confinedPost chip.geometry (copyArea chip) (fun _ => True) state) state := by
    by_cases aligned : protocol.start ram frame % protocol.unit = 0
    · by_cases fits : protocol.start ram frame +
          roundUp protocol.unit (sub32 dataLen protocol.bus.overhead) ≤ otaBinMaxSize
      · refine Prog.wp_mono (wp_of_touches (touches_flashWriteBy positive ?_) state)
          (fun _ _ holds => ⟨trivial, holds⟩) (fun _ holds => holds) fun _ holds => holds
        rw [Protocol.unit] at fits
        exact Set.Ico_subset_Ico (Nat.le_add_right _ _) (by omega)
      · obtain ⟨half, upper, blocked⟩ : ∃ half, protocol.start ram frame + 2 * half <
            otaBinMaxSize ∧
              ¬ Storable state.mem (chip.addrAppCopy + protocol.start ram frame + 2 * half)
                (protocol.piece frame (2 * half)) (protocol.piece frame (2 * half + 1)) := by
          by_contra none
          refine safe ⟨addressed, admitted, within, aligned, by omega, fun half upper => ?_⟩
          by_contra blocked
          exact none ⟨half, upper, blocked⟩
        have even := Protocol.even_of_aligned aligned
        have sizeEven : otaBinMaxSize % 2 = 0 := by decide
        -- The half-word that cannot be stored stops the write.
        refine confinedPost_trans (Confined.refl state) (@wp_flashWriteBy_refused _ _ _ _ _ _ _
          half positive ?_ ?_) ?_ fun _ _ => trivial
        · rw [Protocol.unit] at fits
          omega
        · rw [padded_inside _ (Protocol.payload_inside aligned (by omega) upper),
            padded_inside _ (Protocol.payload_inside aligned (by omega) (by omega))]
          exact not_takes blocked
        · exact Set.Ico_subset_Ico (Nat.le_add_right _ _) (by omega)
    · rw [flashWriteBy, if_pos (by rw [Protocol.copy_aligned]; exact aligned)]
      exact (Prog.wp_done _ _ _).mpr ⟨trivial, Confined.refl state⟩
  exact Prog.wp_mono written (fun _ _ holds => (Prog.wp_done _ _ _).mpr holds)
    (fun _ holds => holds) fun _ holds => holds

/-- A write that overruns may program the first half-word behind the copy area. -/
theorem mayIssue_updateWrite {frame : Nat → UInt8} {mem : Mem} (locked : Bool)
    (overruns : protocol.Overruns ram frame chip dataLen mem) :
    MayIssue AnyFault (protocol.updateWrite ram frame chip dataLen)
      (.programmed (chip.addrAppCopy + otaBinMaxSize)) mem locked := by
  obtain ⟨-, admitted, within, aligned, beyond, free⟩ := overruns
  have startEven := Protocol.even_of_aligned aligned
  have sizeEven : otaBinMaxSize % 2 = 0 := by decide
  obtain ⟨lower, upper⟩ := covers_pageFromEnd chip (le_refl 57)
    (show otaBinMaxSize + 1 ≤ 57 * flashPageSize by decide)
  rw [Protocol.updateWrite, if_pos ⟨admitted, within⟩]
  have issues := @mayIssue_flashWriteBy chip.geometry protocol.halves
    (chip.addrAppCopy + protocol.start ram frame) (sub32 dataLen protocol.bus.overhead)
    (protocol.piece frame) mem AnyFault ((otaBinMaxSize - protocol.start ram frame) / 2)
    ⟨.none, trivial⟩ protocol.halves_pos
    (by
      rw [Protocol.copy_aligned]
      exact aligned)
    (by
      rw [Protocol.unit] at beyond
      omega)
    (fun half before => by
      have inside : protocol.start ram frame + 2 * half < otaBinMaxSize := by omega
      rw [padded_inside _ (Protocol.payload_inside aligned beyond inside),
        padded_inside _ (Protocol.payload_inside aligned beyond (by omega))]
      refine ⟨⟨?_, ?_⟩, .zeroOver, trivial, free half inside⟩
      · exact le_trans lower (by rw [Nat.add_assoc]; exact Nat.le_add_right _ _)
      · refine le_trans ?_ upper
        rw [Chip.addrAppCopy]
        omega)
    locked
  rw [show chip.addrAppCopy + protocol.start ram frame +
    2 * ((otaBinMaxSize - protocol.start ram frame) / 2) = chip.addrAppCopy + otaBinMaxSize by
      omega] at issues
  exact issues.bind_left

/-- The frame that overruns takes a write out of the copy area. -/
theorem Protocol.Overruns.escapes {mem : Mem}
    (overruns : protocol.Overruns ram (bytesFrom buf i) chip dataLen mem)
    (accepts : protocol.Accepts fuel buf len i dataLen)
    (update : bytesFrom buf i 3 = protocol.bus.updateCode) (locked : Bool) :
    ¬ ∀ schedule : FlashSchedule, Confined chip.geometry (copyArea chip) ⟨mem, locked, []⟩
      (Prog.run (protocol.anylise chip fuel ram stack buf len) schedule
        (⟨mem, locked, []⟩ : State)).state := by
  obtain ⟨after, sent, equation, -⟩ := anylise_update accepts overruns.addressed update
  intro confined
  have issues : MayIssue AnyFault (protocol.anylise chip fuel ram stack buf len)
      (.programmed (chip.addrAppCopy + otaBinMaxSize)) mem locked := by
    rw [equation]
    exact (mayIssue_updateWrite locked overruns).bind_left
  have inside := @MayIssue.footprint_subset _ _ _ _ _ _ ⟨mem, locked, []⟩ issues
    fun schedule _ => (confined schedule).logged
  exact absurd (inside (Or.inl rfl)).2 (lt_irrefl _)

/-- An update frame that any handler accepts is written inside the copy area,
whatever fails and wherever power is lost, unless it overruns. -/
theorem update_writes_inside (chip : Chip) (protocol : Protocol) (fuel : Nat)
    (ram : protocol.Ram) (stack buf : Nat → UInt8) (len i dataLen : Nat)
    (accepts : protocol.Accepts fuel buf len i dataLen)
    (update : bytesFrom buf i 3 = protocol.bus.updateCode) (mem : Mem) (locked : Bool) :
    (∀ schedule : FlashSchedule, Confined chip.geometry (copyArea chip) ⟨mem, locked, []⟩
      (Prog.run (protocol.anylise chip fuel ram stack buf len) schedule
        (⟨mem, locked, []⟩ : State)).state) ↔
      ¬ protocol.Overruns ram (bytesFrom buf i) chip dataLen mem := by
  constructor
  · intro confined overruns
    exact overruns.escapes accepts update locked confined
  · intro safe schedule
    refine @Prog.run_state _ _ (fun _ => True) _ _ _ _ ?_ fun _ _ _ => trivial
    by_cases addressed : protocol.bus.Addressed (protocol.ownID ram) (bytesFrom buf i)
    · obtain ⟨after, sent, equation, -⟩ := anylise_update accepts addressed update
      rw [equation, Prog.wp_bind]
      exact Prog.wp_mono (wp_updateWrite addressed safe)
        (fun _ _ holds => (Prog.wp_done _ _ _).mpr holds.2) (fun _ holds => holds)
        fun _ holds => holds
    · obtain ⟨after, equation⟩ := anylise_foreign accepts addressed
      rw [equation]
      exact (Prog.wp_done _ _ _).mpr (Confined.refl _)

/-- An update frame of eleven bytes: its two length bytes and the ID are whole,
but the sequence number has one byte and the checksum for its high one. -/
def shortUpdate : List UInt8 := construct 0x02 [0xFF, 0xFF, 0, 0, 0]

theorem shortUpdate_accepts :
    Protocol.appCan500.Accepts 1 (bufferOf shortUpdate) 11 0 11 := by
  constructor
  · decide
  · decide +kernel

def erasedFlash : Mem := fun _ => erasedByte

theorem shortUpdate_overruns : Protocol.appCan500.Overruns App.sampleRam
    (bytesFrom (bufferOf shortUpdate) 0) sampleChip 11 erasedFlash where
  addressed := Or.inr rfl
  admitted := by decide
  within := by decide
  aligned := by decide
  beyond := by decide
  free := fun _ _ => Or.inl ⟨rfl, rfl⟩

/-- The length of its piece wraps around, and the write runs to the end of the
flash. -/
theorem shortUpdate_not_inside : ¬ ∀ schedule : FlashSchedule,
    Confined sampleChip.geometry (copyArea sampleChip) ⟨erasedFlash, true, []⟩
      (Prog.run (Protocol.appCan500.anylise sampleChip 1 App.sampleRam (fun _ => 0)
        (bufferOf shortUpdate) 11) schedule (⟨erasedFlash, true, []⟩ : State)).state :=
  shortUpdate_overruns.escapes shortUpdate_accepts rfl true

theorem update_writes_inside_sample :
    (∀ schedule : FlashSchedule,
      Confined sampleChip.geometry (copyArea sampleChip) ⟨erasedFlash, true, []⟩
        (Prog.run (Protocol.appCan500.anylise sampleChip 1 App.sampleRam (fun _ => 0)
          (bufferOf shortUpdate) 11) schedule (⟨erasedFlash, true, []⟩ : State)).state) ↔
      ¬ Protocol.appCan500.Overruns App.sampleRam (bytesFrom (bufferOf shortUpdate) 0) sampleChip
        11 erasedFlash :=
  update_writes_inside sampleChip .appCan500 1 App.sampleRam (fun _ => 0) (bufferOf shortUpdate) 11
    0 11 shortUpdate_accepts rfl erasedFlash true

/-! ## What an acknowledgement says about the flash -/

section Honest

variable (protocol : Protocol) (ram : protocol.Ram) (frame : Nat → UInt8) (chip : Chip)

/-- The payload of the frame is in its place. -/
def Protocol.Delivered (dataLen : Nat) (mem : Mem) : Prop :=
  ∀ index < dataLen - protocol.bus.overhead,
    mem (chip.addrAppCopy + protocol.start ram frame + index) = protocol.piece frame index

/-- A byte of the piece can be programmed: the piece is aligned, and all cells up
to the half-word of the byte are erased. -/
def Protocol.Programmable (mem : Mem) (index : Nat) : Prop :=
  protocol.start ram frame % protocol.unit = 0 ∧
    ∀ offset < 2 * (index / 2) + 2,
      mem (chip.addrAppCopy + protocol.start ram frame + offset) = erasedByte

/-- Every byte of the piece is there already or can be programmed. -/
def Protocol.Deliverable (dataLen : Nat) (mem : Mem) : Prop :=
  ∀ index < dataLen - protocol.bus.overhead,
    mem (chip.addrAppCopy + protocol.start ram frame + index) = protocol.piece frame index ∨
      protocol.Programmable ram frame chip mem index

end Honest

theorem roundUp_lt {unit : Nat} (positive : 0 < unit) (length : Nat) :
    roundUp unit length < length + unit := by
  have split := roundUp_split positive length
  have parts := Nat.div_add_mod length unit
  have bound := Nat.mod_lt length positive
  split at split <;> omega

/-- Pieces that a frame can carry stay in the flash. -/
theorem covers_piece {offset length : Nat} (within : offset < otaBinMaxSize)
    (bounded : length ≤ 1460) :
    chip.geometry.Covers (chip.addrAppCopy + offset) (roundUp (2 * protocol.halves) length) := by
  have longer := roundUp_lt (show 0 < 2 * protocol.halves by
    have positive := protocol.halves_pos
    omega) length
  have units : 2 * protocol.halves ≤ 8 := by cases protocol <;> decide
  have fits : offset + roundUp (2 * protocol.halves) length ≤ otaBinMaxSize + 1468 := by
    -- Opaque, since comparing the two lengths would evaluate them.
    generalize roundUp (2 * protocol.halves) length = rounded at longer ⊢
    generalize otaBinMaxSize = size at within ⊢
    omega
  have pages : otaBinMaxSize + 1468 ≤ 57 * flashPageSize := by
    simp only [otaBinMaxSize, flashPageSize]
    omega
  obtain ⟨lower, upper⟩ := covers_pageFromEnd chip (le_refl 57) (le_trans fits pages)
  refine ⟨le_trans lower (Nat.le_add_right _ _), ?_⟩
  rw [Nat.add_assoc]
  exact upper

theorem halts_updateWrite {frame : Nat → UInt8} :
    (protocol.updateWrite ram frame chip dataLen).Halts :=
  Prog.halts_ite (Prog.halts_bind halts_flashWriteBy fun _ => trivial) trivial

/-- Without failures, an update frame that is written leaves its payload in its
place exactly if it was deliverable. -/
theorem ends_updateWrite {frame : Nat → UInt8} {mem : Mem} (locked : Bool)
    (admitted : 10 < dataLen) (bounded : dataLen ≤ protocol.maxLen)
    (payload : protocol.bus.overhead ≤ dataLen)
    (within : protocol.start ram frame < otaBinMaxSize) :
    ∃ after closed,
      Ends (protocol.updateWrite ram frame chip dataLen) mem locked true after closed ∧
      (protocol.Delivered ram frame chip dataLen after ↔
        protocol.Deliverable ram frame chip dataLen mem) := by
  have most := (maxLen_le protocol).2
  have positive := protocol.halves_pos
  rw [Protocol.updateWrite, if_pos ⟨admitted, within⟩, sub32_le payload (by omega)]
  by_cases aligned : protocol.start ram frame % protocol.unit = 0
  · obtain ⟨written, ends⟩ := @ends_flashWriteBy_upTo chip.geometry protocol.halves
      (chip.addrAppCopy + protocol.start ram frame) (dataLen - protocol.bus.overhead)
      (protocol.piece frame) mem positive (by rw [Protocol.copy_aligned]; exact aligned)
      (covers_piece within (by omega)) locked
    refine ⟨_, true, ends.bind (.done true), forall₂_congr fun index inside => ?_⟩
    have longer := le_roundUp (show 0 < 2 * protocol.halves by omega)
      (dataLen - protocol.bus.overhead)
    have halfInside : index / 2 <
        roundUp (2 * protocol.halves) (dataLen - protocol.bus.overhead) / 2 := by
      have even : roundUp (2 * protocol.halves) (dataLen - protocol.bus.overhead) % 2 = 0 := by
        rw [roundUp, Nat.mul_assoc, Nat.mul_mod_right]
      omega
    have reached := @lt_erasedHalves_iff mem
      (roundUp (2 * protocol.halves) (dataLen - protocol.bus.overhead) / 2)
      (chip.addrAppCopy + protocol.start ram frame) (index / 2)
    have programmable : protocol.Programmable ram frame chip mem index ↔
        index / 2 < erasedHalves mem
          (roundUp (2 * protocol.halves) (dataLen - protocol.bus.overhead) / 2)
          (chip.addrAppCopy + protocol.start ram frame) := by
      rw [reached, Protocol.Programmable]
      exact ⟨fun holds => ⟨halfInside, holds.2⟩, fun holds => ⟨aligned, holds.2⟩⟩
    rw [programmable]
    by_cases stored : index / 2 < erasedHalves mem
        (roundUp (2 * protocol.halves) (dataLen - protocol.bus.overhead) / 2)
        (chip.addrAppCopy + protocol.start ram frame)
    · rw [overlay_inside _ _ (by omega) (by omega), Nat.add_sub_cancel_left,
        padded_inside _ inside]
      exact ⟨fun _ => Or.inr stored, fun _ => rfl⟩
    · rw [overlay_outside _ _ (by omega)]
      exact ⟨Or.inl, fun holds => holds.resolve_right stored⟩
  · rw [flashWriteBy, if_pos (by rw [Protocol.copy_aligned]; exact aligned)]
    refine ⟨mem, locked, .done true, forall₂_congr fun index _ => ?_⟩
    exact ⟨Or.inl, fun holds => holds.resolve_right fun programmable => aligned programmable.1⟩

/-- A run without failures ends, and what it acknowledges with success is in the
copy area. -/
def Protocol.Honest (protocol : Protocol) (chip : Chip) (fuel : Nat) (ram : protocol.Ram)
    (stack buf : Nat → UInt8) (len i dataLen : Nat) (state : State) : Prop :=
  Ensures (protocol.anylise chip fuel ram stack buf len) state fun handled after =>
    protocol.Acks handled.2 → protocol.Delivered ram (bytesFrom buf i) chip dataLen after

/-- Where a piece is written, its acknowledgement is honest exactly if the piece was
deliverable. -/
theorem honest_iff_deliverable (accepts : protocol.Accepts fuel buf len i dataLen)
    (update : bytesFrom buf i 3 = protocol.bus.updateCode)
    (addressed : protocol.bus.Addressed (protocol.ownID ram) (bytesFrom buf i))
    (admitted : 10 < dataLen) (within : protocol.start ram (bytesFrom buf i) < otaBinMaxSize)
    (payload : protocol.bus.overhead ≤ dataLen) (mem : Mem) (locked : Bool) (log : List Record) :
    protocol.Honest chip fuel ram stack buf len i dataLen ⟨mem, locked, log⟩ ↔
      protocol.Deliverable ram (bytesFrom buf i) chip dataLen mem := by
  obtain ⟨after, sent, equation, acks, -⟩ := @anylise_update chip protocol fuel ram stack buf len i
    dataLen accepts addressed update
  obtain ⟨-, bounded, -, -⟩ := scan_accept accepts.2
  obtain ⟨final, closed, ends, delivered⟩ := @ends_updateWrite chip protocol ram dataLen
    (bytesFrom buf i) mem locked admitted bounded payload within
  have run : Ends (protocol.anylise chip fuel ram stack buf len) mem locked (after, sent true) final
      closed := by
    rw [equation]
    exact ends.bind (.done (after, sent true))
  rw [Protocol.Honest, run.ensures_iff, acks, delivered]
  exact forall_prop_of_true rfl

/-- An update acknowledged with success is in the copy area exactly if it was not
written at all or was deliverable. -/
theorem update_ack_honest (chip : Chip) (protocol : Protocol) (fuel : Nat)
    (ram : protocol.Ram) (stack buf : Nat → UInt8) (len i dataLen : Nat)
    (accepts : protocol.Accepts fuel buf len i dataLen)
    (update : bytesFrom buf i 3 = protocol.bus.updateCode) (state : State) :
    protocol.Honest chip fuel ram stack buf len i dataLen state ↔
      ¬ (protocol.bus.Addressed (protocol.ownID ram) (bytesFrom buf i) ∧ 10 < dataLen ∧
          protocol.start ram (bytesFrom buf i) < otaBinMaxSize) ∨
        protocol.Deliverable ram (bytesFrom buf i) chip dataLen state.mem := by
  obtain ⟨mem, locked, log⟩ := state
  by_cases addressed : protocol.bus.Addressed (protocol.ownID ram) (bytesFrom buf i)
  · obtain ⟨after, sent, equation, acks, -⟩ := anylise_update accepts addressed update
    by_cases writes : 10 < dataLen ∧ protocol.start ram (bytesFrom buf i) < otaBinMaxSize
    · by_cases payload : protocol.bus.overhead ≤ dataLen
      · rw [honest_iff_deliverable accepts update addressed writes.1 writes.2 payload]
        simp only [addressed, writes, true_and, not_true_eq_false, false_or]
      · have empty (contents : Mem) : protocol.Delivered ram (bytesFrom buf i) chip dataLen
            contents := fun index inside => by omega
        refine iff_of_true ?_ (Or.inr fun index inside => by omega)
        rw [Protocol.Honest, equation]
        exact ensures_of_halts (Prog.halts_bind halts_updateWrite fun _ => trivial)
          fun _ contents _ => empty contents
    · have ends : Ends (protocol.updateWrite ram (bytesFrom buf i) chip dataLen) mem locked false
          mem locked := by
        rw [Protocol.updateWrite, if_neg writes]
        exact .done false
      have run : Ends (protocol.anylise chip fuel ram stack buf len) mem locked (after, sent false)
          mem locked := by
        rw [equation]
        exact ends.bind (.done (after, sent false))
      rw [Protocol.Honest, run.ensures_iff, acks]
      simp only [writes, and_false, not_false_eq_true, true_or, Bool.false_eq_true, false_imp_iff]
  · obtain ⟨after, equation⟩ := @anylise_foreign chip protocol fuel ram stack buf len i dataLen
      accepts addressed
    have ends : Ends (protocol.anylise chip fuel ram stack buf len) mem locked (after, []) mem
        locked := by
      rw [equation]
      exact .done (after, [])
    rw [Protocol.Honest, ends.ensures_iff]
    simp only [addressed, false_and, not_false_eq_true, true_or, iff_true]
    rintro ⟨ack, impossible, -⟩
    exact absurd impossible List.not_mem_nil

/-- The frame with the first piece of the sample image. -/
def pieceUpdate : List UInt8 := samplePiece 0

theorem pieceUpdate_accepts :
    Protocol.appCan500.Accepts 1 (bufferOf pieceUpdate) 20 0 20 := by
  constructor
  · decide
  · decide +kernel

/-- Over cells that are not erased nothing is stored, and the frame is acknowledged
with success all the same. -/
theorem pieceUpdate_not_honest :
    ¬ Protocol.appCan500.Honest sampleChip 1 App.sampleRam (fun _ => 0) (bufferOf pieceUpdate) 20 0
      20 ⟨fun _ => 0, true, []⟩ := by
  intro honest
  have deliverable := (honest_iff_deliverable pieceUpdate_accepts rfl (Or.inr rfl) (by decide)
    (by decide) (by decide) _ _ _).mp honest
  rcases deliverable 0 (by decide) with stored | programmable
  · exact absurd stored (by decide)
  · exact absurd (programmable.2 0 (by decide)) (by decide)

theorem update_ack_honest_sample :
    Protocol.appCan500.Honest sampleChip 1 App.sampleRam (fun _ => 0) (bufferOf pieceUpdate) 20 0 20
        ⟨erasedFlash, true, []⟩ ↔
      ¬ (Protocol.appCan500.bus.Addressed (Protocol.appCan500.ownID App.sampleRam)
            (bytesFrom (bufferOf pieceUpdate) 0) ∧ 10 < 20 ∧
          Protocol.appCan500.start App.sampleRam (bytesFrom (bufferOf pieceUpdate) 0) <
            otaBinMaxSize) ∨
        Protocol.appCan500.Deliverable App.sampleRam (bytesFrom (bufferOf pieceUpdate) 0) sampleChip
          20 erasedFlash :=
  update_ack_honest sampleChip .appCan500 1 App.sampleRam (fun _ => 0) (bufferOf pieceUpdate) 20 0
    20 pieceUpdate_accepts rfl ⟨erasedFlash, true, []⟩

end LedFirmware
