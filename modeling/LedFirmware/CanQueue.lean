import LedFirmware.BoundedFifo
import LedFirmware.CanDemux
import LedFirmware.Simulation
import Mathlib.Data.List.ReduceOption
import Mathlib.Logic.Function.Basic

/-!
# The message ring of the CAN driver is a bounded queue

The receive interrupt stores a message in the slot of the write index and advances
that index; if it meets the read index, the oldest message is given up.  Run as
atomic steps, the functions of either driver answer like a queue of 19 messages.
-/

namespace LedFirmware

open BoundedFifo Simulation

/-- The end of the receive interrupt: the write index advances, and pushes the read
index on if the ring is full. -/
def CanBus.stored (can : CanBus) : CanBus :=
  let can := { can with canRxWrite := (can.canRxWrite + 1) % canRxBufferSize }
  if can.canRxWrite = can.canRxRead then
    { can with canRxRead := (can.canRxRead + 1) % canRxBufferSize }
  else can

/-- One message of `stm32_CAN_recv_isr`, received into its slot. -/
def stm32CanRecvIsr (can : CanBus) (message : CanMessage) : CanBus :=
  let record := canReceive (can.canRxBuf can.canRxWrite) message
  { can with canRxBuf := Function.update can.canRxBuf can.canRxWrite record }.stored

/-- `HAL_CAN_RxFifo0MsgPendingCallback`, with the contents of its local record. -/
def halCanRxFifo0MsgPendingCallback (can : CanBus) (rxHeader : CanRx) (message : CanMessage) :
    CanBus :=
  let record := halCanGetRxMessage rxHeader message
  { can with canRxBuf := Function.update can.canRxBuf can.canRxWrite record }.stored

/-- What may happen to the ring. -/
inductive CanOp
  | interrupt (message : CanMessage) (rxHeader : CanRx)
  | recv
  | clear

/-- One step on the ring, and the message that it delivers. -/
def CanFirmware.canStep (firmware : CanFirmware) (can : CanBus) : CanOp → Option CanRx × CanBus
  | .interrupt message rxHeader =>
      (none, match firmware with
        | .app => stm32CanRecvIsr can message
        | .iap => halCanRxFifo0MsgPendingCallback can rxHeader message)
  | .recv => stm32CanRecv can
  | .clear => (none, stm32CanClear can)

/-- The ring has one slot more than it can hold messages. -/
abbrev CanFifo := Fifo CanMessage (canRxBufferSize - 1)

/-- The same step on a queue. -/
def canFifoStep (queue : CanFifo) : CanOp → Option CanMessage × CanFifo
  | .interrupt message _ => (none, queue.push [message])
  | .recv => (queue.items.head?, queue.remove 1)
  | .clear => (none, .empty)

/-- The messages that the interrupts bring. -/
def canArrivals (ops : List CanOp) : List CanMessage :=
  (ops.map fun
    | .interrupt message _ => some message
    | .recv | .clear => none).reduceOption

/-- A record with this message: reading it once more would change nothing. -/
def CanFirmware.Carries (firmware : CanFirmware) (rx : CanRx) (message : CanMessage) : Prop :=
  firmware.read rx message = rx

/-- The slots from the read index on hold the messages of the queue, in their order, and the
write index is behind the last one. -/
structure CanBus.Holds (firmware : CanFirmware) (can : CanBus) (queue : CanFifo) : Prop where
  read : can.canRxRead < canRxBufferSize
  write : can.canRxWrite = (can.canRxRead + queue.items.length) % canRxBufferSize
  slots : ∀ index (inside : index < queue.items.length),
    firmware.Carries (can.canRxBuf ((can.canRxRead + index) % canRxBufferSize)) queue.items[index]

theorem CanFirmware.read_carries (firmware : CanFirmware) (rx : CanRx) (message : CanMessage) :
    firmware.Carries (firmware.read rx message) message := by
  unfold Carries read
  cases firmware <;> simp only [canReceive, halCanGetRxMessage, CanRx.fill] <;>
    cases message.extended <;> rfl

section Steps

variable {firmware : CanFirmware} {can : CanBus} {queue : CanFifo} {record : CanRx}
  {message : CanMessage}

/-- The indices as numbers, with the size of the ring as a numeral. -/
theorem CanBus.Holds.indices (holds : CanBus.Holds firmware can queue) :
    can.canRxRead < 20 ∧ can.canRxWrite = (can.canRxRead + queue.items.length) % 20 ∧
      queue.items.length < 20 :=
  ⟨holds.read, holds.write, Nat.lt_succ_of_le queue.fits⟩

/-- A stored message is behind the others, and no slot of theirs is written. -/
theorem CanBus.Holds.slots_update (holds : CanBus.Holds firmware can queue)
    (carries : firmware.Carries record message) (index : Nat)
    (inside : index < (queue.items ++ [message]).length) :
    firmware.Carries (Function.update can.canRxBuf can.canRxWrite record
      ((can.canRxRead + index) % canRxBufferSize)) (queue.items ++ [message])[index] := by
  obtain ⟨read, write, short⟩ := holds.indices
  have length : (queue.items ++ [message]).length = queue.items.length + 1 := by simp
  rcases Nat.lt_or_ge index queue.items.length with older | newest
  · have apart : (can.canRxRead + index) % canRxBufferSize ≠ can.canRxWrite := by
      rw [canRxBufferSize]
      omega
    rw [Function.update_of_ne apart, List.getElem_append_left older]
    exact holds.slots index older
  · obtain rfl : index = queue.items.length := by omega
    rw [← holds.write, Function.update_self, List.getElem_append_right le_rfl]
    simpa using carries

theorem CanBus.Holds.stored (holds : CanBus.Holds firmware can queue)
    (carries : firmware.Carries record message) :
    Holds firmware
      { can with canRxBuf := Function.update can.canRxBuf can.canRxWrite record }.stored
      (queue.push [message]) := by
  obtain ⟨read, write, short⟩ := holds.indices
  have slots := holds.slots_update carries
  have length : (queue.items ++ [message]).length = queue.items.length + 1 := by simp
  have capacity : canRxBufferSize - 1 = 19 := rfl
  rcases Nat.lt_or_ge queue.items.length 19 with room | full
  · have items : (queue.push [message]).items = queue.items ++ [message] := by
      rw [Fifo.push_items, newest_of_le (by omega)]
    have apart : ¬ (can.canRxWrite + 1) % canRxBufferSize = can.canRxRead := by
      rw [canRxBufferSize]
      omega
    simp only [CanBus.stored, if_neg apart]
    refine ⟨holds.read, ?_, ?_⟩
    · rw [items, length]
      dsimp only [canRxBufferSize]
      omega
    · intro index inside
      simp only [items] at inside ⊢
      exact slots index inside
  · have items : (queue.push [message]).items = (queue.items ++ [message]).drop 1 := by
      rw [Fifo.push_items, newest, length]
      congr 1
      omega
    have meet : (can.canRxWrite + 1) % canRxBufferSize = can.canRxRead := by
      rw [canRxBufferSize]
      omega
    simp only [CanBus.stored, if_pos meet]
    refine ⟨Nat.mod_lt _ (by decide), ?_, ?_⟩
    · rw [items, List.length_drop, length]
      dsimp only [canRxBufferSize]
      omega
    · intro index inside
      simp only [items] at inside ⊢
      rw [List.length_drop, length] at inside
      have slot := slots (index + 1) (by omega)
      have position : ((can.canRxRead + 1) % canRxBufferSize + index) % canRxBufferSize =
          (can.canRxRead + (index + 1)) % canRxBufferSize := by
        rw [canRxBufferSize]
        omega
      simp only [List.getElem_drop, position, Nat.add_comm 1 index]
      exact slot

theorem CanBus.Holds.recv (holds : CanBus.Holds firmware can queue) :
    Alike (Option.Rel firmware.Carries) (CanBus.Holds firmware) (stm32CanRecv can)
      (queue.items.head?, queue.remove 1) := by
  obtain ⟨read, write, short⟩ := holds.indices
  have slots := holds.slots
  cases items : queue.items with
  | nil =>
      rw [items, List.length_nil] at write
      have empty : can.canRxRead = can.canRxWrite := by omega
      have same : queue.remove 1 = queue := by
        ext1
        rw [Fifo.remove_items, items, List.drop_nil]
      rw [stm32CanRecv, if_pos empty, same]
      exact ⟨.none, holds⟩
  | cons oldest later =>
      rw [items, List.length_cons] at short write
      have apart : ¬ can.canRxRead = can.canRxWrite := by omega
      have rest : (queue.remove 1).items = later := by
        rw [Fifo.remove_items, items, List.drop_one, List.tail_cons]
      simp only [items] at slots
      rw [stm32CanRecv, if_neg apart]
      refine ⟨.some ?_, Nat.mod_lt _ (by decide), ?_, ?_⟩
      · have slot := slots 0 (Nat.succ_pos _)
        rw [Nat.add_zero, Nat.mod_eq_of_lt holds.read] at slot
        exact slot
      · rw [rest]
        dsimp only [canRxBufferSize]
        omega
      · intro index inside
        simp only [rest] at inside ⊢
        have slot := slots (index + 1) (Nat.succ_lt_succ inside)
        have position : ((can.canRxRead + 1) % canRxBufferSize + index) % canRxBufferSize =
            (can.canRxRead + (index + 1)) % canRxBufferSize := by
          rw [canRxBufferSize]
          omega
        rw [position]
        exact slot

theorem CanBus.Holds.clear (holds : CanBus.Holds firmware can queue) :
    CanBus.Holds firmware (stm32CanClear can) .empty := by
  have positive : 0 < canRxBufferSize := by decide
  have write : can.canRxWrite < canRxBufferSize := by
    rw [holds.write]
    exact Nat.mod_lt _ positive
  refine ⟨write, ?_, ?_⟩
  · exact (Nat.mod_eq_of_lt write).symm
  · intro index inside
    exact absurd inside (Nat.not_lt_zero _)

/-- Each step of either driver is a step of the queue. -/
theorem CanBus.Holds.step (op : CanOp) (holds : CanBus.Holds firmware can queue) :
    Alike (Option.Rel firmware.Carries) (CanBus.Holds firmware) (firmware.canStep can op)
      (canFifoStep queue op) := by
  cases op with
  | interrupt message rxHeader =>
      cases firmware with
      | app => exact ⟨.none, holds.stored (CanFirmware.app.read_carries _ message)⟩
      | iap => exact ⟨.none, holds.stored (CanFirmware.iap.read_carries _ message)⟩
  | recv => exact holds.recv
  | clear => exact ⟨.none, holds.clear⟩

end Steps

theorem holds_empty (firmware : CanFirmware) (canRxBuf : Nat → CanRx) :
    CanBus.Holds firmware ⟨canRxBuf, 0, 0⟩ .empty := by
  refine ⟨show 0 < canRxBufferSize by decide, rfl, ?_⟩
  intro index inside
  exact absurd inside (Nat.not_lt_zero _)

/-- What a queue delivers and still holds has arrived in this order. -/
theorem delivered_sublist (ops : List CanOp) (queue : CanFifo) :
    ((runAll canFifoStep ops queue).1.reduceOption ++
      (runAll canFifoStep ops queue).2.items).Sublist (queue.items ++ canArrivals ops) := by
  induction ops generalizing queue with
  | nil => simp [runAll, canArrivals]
  | cons op later ih =>
      have rest := ih (canFifoStep queue op).2
      cases op with
      | interrupt message rxHeader =>
          have kept : (canFifoStep queue (.interrupt message rxHeader)).2.items.Sublist
              (queue.items ++ [message]) := List.drop_sublist _ _
          have whole := rest.trans (kept.append_right (canArrivals later))
          rw [List.append_assoc] at whole
          exact whole
      | recv =>
          cases items : queue.items with
          | nil =>
              simp only [canFifoStep, Fifo.remove_items, items, List.drop_nil] at rest
              simp only [runAll, canFifoStep, items, List.head?_nil, List.reduceOption_cons_of_none]
              exact rest
          | cons oldest others =>
              simp only [canFifoStep, Fifo.remove_items, items, List.drop_one, List.tail_cons]
                at rest
              simp only [runAll, canFifoStep, items, List.head?_cons,
                List.reduceOption_cons_of_some, List.cons_append]
              exact rest.cons_cons oldest
      | clear => exact rest.trans (List.sublist_append_right _ _)

/-- After any interrupts, reads and clears, the ring of either driver has delivered what a
queue of 19 messages delivers that drops its oldest one on overflow, and holds the same;
what was delivered is a part of what has arrived, in its order. -/
theorem can_queue_refines_fifo (firmware : CanFirmware) (canRxBuf : Nat → CanRx)
    (ops : List CanOp) :
    let ring := runAll firmware.canStep ops ⟨canRxBuf, 0, 0⟩
    let fifo := runAll canFifoStep ops .empty
    List.Forall₂ (Option.Rel firmware.Carries) ring.1 fifo.1 ∧
      CanBus.Holds firmware ring.2 fifo.2 ∧
      (fifo.1.reduceOption ++ fifo.2.items).Sublist (canArrivals ops) := by
  intro ring fifo
  have alike := runAll_alike (fun op => CanBus.Holds.step op) ops (holds_empty firmware canRxBuf)
  exact ⟨alike.answer, alike.state, delivered_sublist ops .empty⟩

end LedFirmware
