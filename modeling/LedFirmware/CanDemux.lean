import LedFirmware.RingBuf
import Mathlib.Data.List.Basic

/-!
# CAN messages on their way to the OTA buffer

Both firmwares take the messages that their drivers have stored one by one and
append the payload of some of them to `CAN_BUF500`.  A driver writes the standard
ID of a standard message only; for an extended one the record keeps whatever
standard ID it held before.
-/

namespace LedFirmware

/-- A message on the bus, with the eight data bytes of the mailbox. -/
structure CanMessage where
  extended : Bool
  id : Nat
  remote : Bool
  dlc : Nat
  data : Nat → UInt8
  id_lt : id < if extended then 2 ^ 29 else 2 ^ 11
  dlc_le : dlc ≤ 8

def CanMessage.payload (message : CanMessage) : List UInt8 :=
  (List.range message.dlc).map message.data

/-- A standard data frame with the ID of the OTA protocol. -/
def CanMessage.IsOta (message : CanMessage) : Prop :=
  message.extended = false ∧ message.remote = false ∧ message.id = 0x500

instance (message : CanMessage) : Decidable message.IsOta :=
  inferInstanceAs (Decidable (_ ∧ _))

/-- `CanRxMsg` of the application, `CANBusRx_type` of the bootloader. -/
structure CanRx where
  stdId : Nat
  extId : Nat
  ide : Nat
  rtr : Nat
  dlc : Nat
  data : Nat → UInt8

def canIdStandard : Nat := 0

def canIdExtended : Nat := 4

def canRtrData : Nat := 0

/-- `CAN_RTR_Remote`: the bit as it stands in the register of the mailbox. -/
def canRtrRemote : Nat := 2

/-- A record with a message over what it held before; `rtrRemote` marks a remote one. -/
def CanRx.fill (record : CanRx) (rtrRemote : Nat) (message : CanMessage) : CanRx where
  stdId := if message.extended then record.stdId else message.id
  extId := if message.extended then message.id else record.extId
  ide := if message.extended then canIdExtended else canIdStandard
  rtr := if message.remote then rtrRemote else canRtrData
  dlc := message.dlc
  data := message.data

def CanRx.payload (rx : CanRx) : List UInt8 := (List.range rx.dlc).map rx.data

/-- `CAN_Receive` into a slot of the message ring. -/
def canReceive (slot : CanRx) (message : CanMessage) : CanRx := slot.fill canRtrRemote message

/-- `HAL_CAN_GetRxMessage` into a local record, which is copied to the ring.  The bit that marks a
remote message is shifted down. -/
def halCanGetRxMessage (rxHeader : CanRx) (message : CanMessage) : CanRx := rxHeader.fill 1 message

/-- `CAN_RX_BUFFER_SIZE` -/
def canRxBufferSize : Nat := 20

/-- The message ring of `CANBus_type`. -/
structure CanBus where
  canRxBuf : Nat → CanRx
  canRxRead : Nat
  canRxWrite : Nat

/-- The oldest message, if there is one. -/
def stm32CanRecv (can : CanBus) : Option CanRx × CanBus :=
  if can.canRxRead = can.canRxWrite then (none, can)
  else (some (can.canRxBuf can.canRxRead),
    { can with canRxRead := (can.canRxRead + 1) % canRxBufferSize })

def stm32CanClear (can : CanBus) : CanBus := { can with canRxRead := can.canRxWrite }

/-- `CAN_BUF500`; the bytes ever appended to it are a history variable. -/
structure CanBuf500 where
  ring : RingBufType
  appended : List UInt8

def CanBuf500.addData (buf : CanBuf500) (data : List UInt8) : CanBuf500 :=
  ⟨addDataToBuf buf.ring data, buf.appended ++ data⟩

/-- The body of the loop of `canbus_middle_thread_entry` on a received message. -/
def canbusMiddleReceive (buf : CanBuf500) (rx : CanRx) : CanBuf500 :=
  if rx.ide ≠ canIdStandard ∨ rx.rtr ≠ canRtrData then buf
  else if rx.stdId = 0x500 then buf.addData rx.payload
  else buf

/-- The receive part of `CAN_OTA_Periodic_Handle`.  Its test of the message kind has
an empty branch. -/
def canOtaReceive (buf : CanBuf500) (rx : CanRx) : CanBuf500 :=
  if rx.stdId = 0x500 then buf.addData rx.payload else buf

inductive CanFirmware
  | app
  | iap
  deriving DecidableEq, Repr

/-- How a driver reads a message into a record. -/
def CanFirmware.read : CanFirmware → (record : CanRx) → CanMessage → CanRx
  | .app => canReceive
  | .iap => halCanGetRxMessage

/-- A message and what its record holds before. -/
structure Reception where
  record : CanRx
  message : CanMessage

def CanFirmware.receive (buf : CanBuf500) (reception : Reception) : CanFirmware → CanBuf500
  | .app => canbusMiddleReceive buf (canReceive reception.record reception.message)
  | .iap => canOtaReceive buf (halCanGetRxMessage reception.record reception.message)

/-- The buffer after a sequence of messages. -/
def CanFirmware.receiveAll (firmware : CanFirmware) (receptions : List Reception)
    (buf : CanBuf500) : CanBuf500 :=
  receptions.foldl (fun buf reception => firmware.receive buf reception) buf

/-! ## What each message appends -/

/-- An extended or a remote message that is taken for an OTA message. -/
def Reception.Strays (reception : Reception) : Prop :=
  ¬ reception.message.IsOta ∧ reception.message.dlc ≠ 0 ∧
    (halCanGetRxMessage reception.record reception.message).stdId = 0x500

instance (reception : Reception) : Decidable reception.Strays :=
  inferInstanceAs (Decidable (_ ∧ _))

/-- The bytes that the message should append. -/
def Reception.wanted (reception : Reception) : List UInt8 :=
  if reception.message.IsOta then reception.message.payload else []

/-- The bytes that the message appends. -/
def CanFirmware.contribution (firmware : CanFirmware) (reception : Reception) : List UInt8 :=
  if firmware = .iap ∧ reception.Strays then reception.message.payload else reception.wanted

variable {firmware : CanFirmware} {reception : Reception} {receptions : List Reception}
  {buf : CanBuf500}

theorem addData_nil (buf : CanBuf500) : buf.addData [] = buf := by
  simp [CanBuf500.addData, addDataToBuf]

/-- The application looks at the kind of the message before its standard ID. -/
theorem canbusMiddleReceive_eq : CanFirmware.app.receive buf reception =
    buf.addData reception.wanted := by
  obtain ⟨record, ⟨extended, id, remote, dlc, data, idLt, dlcLe⟩⟩ := reception
  simp only [CanFirmware.receive, canbusMiddleReceive, canReceive, CanRx.fill, Reception.wanted,
    CanMessage.IsOta]
  cases extended with
  | true => simp [canIdExtended, canIdStandard, addData_nil]
  | false =>
      cases remote with
      | true => simp [canIdStandard, canRtrRemote, canRtrData, addData_nil]
      | false =>
          by_cases ota : id = 0x500
          · simp [ota, canIdStandard, canRtrData, CanRx.payload, CanMessage.payload]
          · simp [ota, canIdStandard, canRtrData, addData_nil]

/-- The bootloader looks at the standard ID only. -/
theorem canOtaReceive_eq : CanFirmware.iap.receive buf reception =
    buf.addData (CanFirmware.iap.contribution reception) := by
  have payload : (halCanGetRxMessage reception.record reception.message).payload =
      reception.message.payload := rfl
  simp only [CanFirmware.receive, canOtaReceive, payload, CanFirmware.contribution,
    Reception.wanted, true_and]
  by_cases ota : reception.message.IsOta
  · have stdId : (halCanGetRxMessage reception.record reception.message).stdId = 0x500 := by
      simp [halCanGetRxMessage, CanRx.fill, ota.1, ota.2.2]
    rw [if_pos stdId, if_pos ota, ite_self]
  · by_cases stdId : (halCanGetRxMessage reception.record reception.message).stdId = 0x500
    · by_cases empty : reception.message.dlc = 0
      · simp [stdId, ota, CanMessage.payload, empty]
      · rw [if_pos stdId, if_pos ⟨ota, empty, stdId⟩]
    · rw [if_neg stdId, if_neg fun strays : reception.Strays => stdId strays.2.2, if_neg ota,
        addData_nil]

theorem CanFirmware.receive_eq :
    firmware.receive buf reception = buf.addData (firmware.contribution reception) := by
  cases firmware with
  | app =>
      rw [canbusMiddleReceive_eq, CanFirmware.contribution, if_neg (fun both => nomatch both.1)]
  | iap => exact canOtaReceive_eq

/-- The ring gets the contributions, each after the other. -/
theorem CanFirmware.receiveAll_eq :
    firmware.receiveAll receptions buf =
      buf.addData (receptions.flatMap firmware.contribution) := by
  induction receptions generalizing buf with
  | nil => exact (addData_nil buf).symm
  | cons reception receptions ih =>
      change firmware.receiveAll receptions (firmware.receive buf reception) = _
      rw [ih, receive_eq, List.flatMap_cons]
      simp [CanBuf500.addData, addDataToBuf, List.foldl_append]

/-! ## The whole stream -/

theorem flatMap_length_le {α β : Type} {f g : α → List β} {items : List α}
    (shorter : ∀ item ∈ items, (g item).length ≤ (f item).length) :
    (items.flatMap g).length ≤ (items.flatMap f).length := by
  induction items with
  | nil => exact Nat.le_refl 0
  | cons item items ih =>
      have first := shorter item List.mem_cons_self
      have rest := ih fun other member => shorter other (List.mem_cons_of_mem item member)
      simp only [List.flatMap_cons, List.length_append]
      omega

/-- Where no piece of one stream is longer than that of the other, the streams agree
only piece by piece. -/
theorem flatMap_eq_iff {α β : Type} {f g : α → List β} {items : List α}
    (shorter : ∀ item ∈ items, (g item).length ≤ (f item).length) :
    items.flatMap f = items.flatMap g ↔ ∀ item ∈ items, f item = g item := by
  induction items with
  | nil => simp
  | cons item items ih =>
      have first := shorter item List.mem_cons_self
      have later : ∀ other ∈ items, (g other).length ≤ (f other).length :=
        fun other member => shorter other (List.mem_cons_of_mem item member)
      have rest := flatMap_length_le later
      rw [List.flatMap_cons, List.flatMap_cons, List.forall_mem_cons, ← ih later]
      constructor
      · intro same
        have lengths := congrArg List.length same
        rw [List.length_append, List.length_append] at lengths
        exact List.append_inj same (by omega)
      · rintro ⟨head, tail⟩
        rw [head, tail]

theorem CanFirmware.contribution_eq_iff :
    firmware.contribution reception = reception.wanted ↔
      firmware = .app ∨ ¬ reception.Strays := by
  cases firmware with
  | app => simp [contribution]
  | iap =>
      by_cases strays : reception.Strays
      · have payload : reception.message.payload ≠ [] := by
          simpa [CanMessage.payload] using strays.2.1
        simp [contribution, strays, Reception.wanted, strays.1, payload]
      · simp [contribution, strays]

theorem CanFirmware.wanted_le_contribution :
    reception.wanted.length ≤ (firmware.contribution reception).length := by
  rw [contribution]
  split
  next strays =>
    rw [Reception.wanted, if_neg strays.2.1]
    exact Nat.zero_le _
  next => exact Nat.le_refl _

/-- The bytes appended are the payloads of the standard data frames with ID 0x500:
always in the application, and in the bootloader exactly when no other message that
has a length is read with that standard ID. -/
theorem can_demux_iff (firmware : CanFirmware) (receptions : List Reception)
    (ring : RingBufType) :
    (firmware.receiveAll receptions ⟨ring, []⟩).appended =
        (receptions.filter fun reception => reception.message.IsOta).flatMap
          (fun reception => reception.message.payload) ↔
      firmware = .app ∨ ∀ reception ∈ receptions, ¬ reception.Strays := by
  have wanted : (receptions.filter fun reception => reception.message.IsOta).flatMap
      (fun reception => reception.message.payload) = receptions.flatMap Reception.wanted := by
    induction receptions with
    | nil => rfl
    | cons reception receptions ih =>
        by_cases ota : reception.message.IsOta <;> simp [ota, Reception.wanted, ih]
  have appended : (firmware.receiveAll receptions ⟨ring, []⟩).appended =
      receptions.flatMap firmware.contribution := by
    rw [CanFirmware.receiveAll_eq]
    rfl
  rw [wanted, appended, flatMap_eq_iff fun _ _ => CanFirmware.wanted_le_contribution]
  simp only [CanFirmware.contribution_eq_iff]
  cases firmware <;> simp

/-- A remote frame with the ID of the OTA protocol. -/
def remoteReception : Reception where
  record := { stdId := 0, extId := 0, ide := 0, rtr := 0, dlc := 0, data := fun _ => 0 }
  message :=
    { extended := false, id := 0x500, remote := true, dlc := 1, data := fun _ => 7
      id_lt := by decide, dlc_le := by decide }

theorem can_demux_takes_remote :
    ¬ ∀ (firmware : CanFirmware) (receptions : List Reception) (ring : RingBufType),
      (firmware.receiveAll receptions ⟨ring, []⟩).appended =
        (receptions.filter fun reception => reception.message.IsOta).flatMap
          (fun reception => reception.message.payload) := by
  intro demux
  have remote := demux .iap [remoteReception] (rxBufInit (fun _ => 0) 1024)
  rw [CanFirmware.receiveAll_eq] at remote
  exact absurd remote (by decide)

end LedFirmware
