import LedFirmware.RingBuf
import Mathlib.Data.List.Basic
import Mathlib.Data.List.Range

/-!
# The receive machine of USART1

The interrupt of the LED link hands each received byte to a machine with five
states: head, length, data, checksum, end.  Its variables keep their values from
one interrupt to the next.  The list of writes is a history variable; the memory
behind the receive buffer is a part of `rxBuffer`, so that a write past the array
changes none of the other variables.
-/

namespace LedFirmware

namespace Usart1

/-- `UART1_RxBuf_SIZE`, the declared size of `USART1_RxBuffer`. -/
def rxBufSize : Nat := 8

/-- `UART1_Frame_Head` -/
def frameHead : UInt8 := 0xFE

/-- `UART1_Frame_End` -/
def frameEnd : UInt8 := 0xBE

/-- The values of `state`. -/
inductive State
  | frameHead
  | frameLength
  | frameData
  | frameCS
  | frameEnd
  deriving DecidableEq, Repr

end Usart1

/-- The variables of `USART1_IRQHandler_Callback` and those that it shares, with
the indices at which it has written `USART1_RxBuffer`. -/
structure Usart1 where
  state : Usart1.State
  length : UInt8
  i : UInt8
  cs : UInt8
  rxBuffer : Nat → UInt8
  rxFlag : UInt8
  writes : List Nat

namespace Usart1

def initial : Usart1 where
  state := .frameHead
  length := 0
  i := 0
  cs := 0
  rxBuffer := fun _ => 0
  rxFlag := 0
  writes := []

/-- `USART1_IRQHandler_Callback` on a received byte. -/
def callback (uart : Usart1) (temp : UInt8) : Usart1 :=
  match uart.state with
  | .frameHead =>
      if temp = frameHead then
        { uart with state := .frameLength, length := 0, i := 0, cs := 0 }
      else uart
  | .frameLength => { uart with length := temp, state := .frameData }
  | .frameData =>
      let stored := { uart with
        rxBuffer := storeByte uart.rxBuffer uart.i.toNat (some temp)
        writes := uart.writes ++ [uart.i.toNat]
        cs := uart.cs ^^^ temp }
      -- `length -1` is an `int`: for length zero it is no index at all
      if (uart.i.toNat : Int) = uart.length.toNat - 1 then
        { stored with i := 0, state := .frameCS }
      else { stored with i := uart.i + 1 }
  | .frameCS =>
      if temp = uart.cs then { uart with state := .frameEnd }
      else { uart with state := .frameHead }
  | .frameEnd =>
      if temp = frameEnd then { uart with state := .frameHead, rxFlag := 1 }
      else { uart with state := .frameHead }

/-- The machine after a stream of bytes. -/
def receive (uart : Usart1) (stream : List UInt8) : Usart1 := stream.foldl callback uart

/-! ## Frames -/

/-- The checksum of the payload. -/
def xorSum (payload : List UInt8) : UInt8 := payload.foldl (· ^^^ ·) 0

/-- A frame with the given payload. -/
def frame (payload : List UInt8) : List UInt8 :=
  frameHead :: UInt8.ofNat payload.length :: payload ++ [xorSum payload, frameEnd]

theorem toNat_pos {length : UInt8} (nonzero : length ≠ 0) : 0 < length.toNat :=
  Nat.pos_of_ne_zero fun zero => nonzero (UInt8.toNat_inj.mp zero)

/-! ## The steps of the callback -/

variable {uart : Usart1} {temp length : UInt8} {bytes payload rest stream : List UInt8}

@[simp]
theorem receive_nil (uart : Usart1) : receive uart [] = uart :=
  rfl

@[simp]
theorem receive_cons (uart : Usart1) (temp : UInt8) (stream : List UInt8) :
    receive uart (temp :: stream) = receive (callback uart temp) stream :=
  rfl

theorem receive_append (uart : Usart1) (first later : List UInt8) :
    receive uart (first ++ later) = receive (receive uart first) later :=
  List.foldl_append

theorem callback_head (state : uart.state = .frameHead) :
    callback uart frameHead =
      { uart with state := .frameLength, length := 0, i := 0, cs := 0 } := by
  simp [callback, state]

theorem callback_noHead (state : uart.state = .frameHead) (other : temp ≠ frameHead) :
    callback uart temp = uart := by
  simp [callback, state, other]

theorem callback_length (state : uart.state = .frameLength) :
    callback uart temp = { uart with length := temp, state := .frameData } := by
  simp [callback, state]

/-- The data byte in the buffer, the index one further. -/
def store (uart : Usart1) (temp : UInt8) : Usart1 :=
  { uart with
    rxBuffer := storeByte uart.rxBuffer uart.i.toNat (some temp)
    writes := uart.writes ++ [uart.i.toNat]
    cs := uart.cs ^^^ temp
    i := uart.i + 1 }

/-- More than one byte of the payload is missing, or the length is zero. -/
def Unfinished (uart : Usart1) : Prop :=
  uart.length = 0 ∨ uart.i.toNat + 1 < uart.length.toNat

theorem callback_data (state : uart.state = .frameData) (unfinished : Unfinished uart) :
    callback uart temp = store uart temp := by
  have further : (uart.i.toNat : Int) ≠ uart.length.toNat - 1 := by
    rcases unfinished with zero | short
    · rw [zero, UInt8.toNat_zero]
      omega
    · omega
  simp [callback, store, state, further]

theorem callback_lastData (state : uart.state = .frameData)
    (last : uart.i.toNat + 1 = uart.length.toNat) :
    callback uart temp = { store uart temp with state := .frameCS, i := 0 } := by
  have equal : (uart.i.toNat : Int) = uart.length.toNat - 1 := by
    omega
  simp [callback, store, state, equal]

theorem callback_cs (state : uart.state = .frameCS) :
    callback uart uart.cs = { uart with state := .frameEnd } := by
  simp [callback, state]

theorem callback_wrongCS (state : uart.state = .frameCS) (wrong : temp ≠ uart.cs) :
    callback uart temp = { uart with state := .frameHead } := by
  simp [callback, state, wrong]

theorem callback_end (state : uart.state = .frameEnd) :
    callback uart frameEnd = { uart with state := .frameHead, rxFlag := 1 } := by
  simp [callback, state]

theorem callback_wrongEnd (state : uart.state = .frameEnd) (wrong : temp ≠ frameEnd) :
    callback uart temp = { uart with state := .frameHead } := by
  simp [callback, state, wrong]

/-- Behind the end byte, right or wrong, the machine looks for a head. -/
theorem callback_behindEnd (state : uart.state = .frameEnd) (temp : UInt8) :
    (callback uart temp).state = .frameHead ∧ (callback uart temp).writes = uart.writes := by
  by_cases right : temp = frameEnd
  · rw [right, callback_end state]
    exact ⟨rfl, rfl⟩
  · rw [callback_wrongEnd state right]
    exact ⟨rfl, rfl⟩

/-! ## The data phase -/

/-- A piece of the payload in the buffer. -/
def storeAll (uart : Usart1) (bytes : List UInt8) : Usart1 := bytes.foldl store uart

theorem storeAll_fields (uart : Usart1) (bytes : List UInt8) :
    (storeAll uart bytes).state = uart.state ∧ (storeAll uart bytes).length = uart.length ∧
      (storeAll uart bytes).rxFlag = uart.rxFlag := by
  induction bytes generalizing uart with
  | nil => exact ⟨rfl, rfl, rfl⟩
  | cons byte bytes ih => exact ih (store uart byte)

theorem storeAll_cs (uart : Usart1) (bytes : List UInt8) :
    (storeAll uart bytes).cs = bytes.foldl (· ^^^ ·) uart.cs := by
  induction bytes generalizing uart with
  | nil => rfl
  | cons byte bytes ih => exact ih (store uart byte)

theorem storeAll_i (uart : Usart1) (bytes : List UInt8) :
    (storeAll uart bytes).i = uart.i + UInt8.ofNat bytes.length := by
  induction bytes generalizing uart with
  | nil => simp [storeAll]
  | cons byte bytes ih =>
      change (storeAll (store uart byte) bytes).i = _
      rw [ih, List.length_cons]
      simp [store, UInt8.add_assoc, UInt8.add_comm 1]

theorem storeAll_writes (uart : Usart1) (bytes : List UInt8) :
    (storeAll uart bytes).writes =
      uart.writes ++ (List.range bytes.length).map fun k => (uart.i.toNat + k) % 256 := by
  induction bytes generalizing uart with
  | nil => simp [storeAll]
  | cons byte bytes ih =>
      change (storeAll (store uart byte) bytes).writes = _
      have first : (uart.i.toNat + 0) % 256 = uart.i.toNat :=
        Nat.mod_eq_of_lt uart.i.toNat_lt
      rw [ih, List.length_cons, List.range_succ_eq_map, List.map_cons, List.map_map, first]
      simp [store, Nat.add_comm 1, Nat.add_assoc]

theorem store_i {byte : UInt8} (fits : uart.i.toNat + 1 < 256) :
    (store uart byte).i.toNat = uart.i.toNat + 1 := by
  simp only [store, UInt8.toNat_add, UInt8.toNat_one]
  omega

theorem storeAll_keeps {index : Nat} (before : index < uart.i.toNat)
    (fits : uart.i.toNat + bytes.length ≤ 256) :
    (storeAll uart bytes).rxBuffer index = uart.rxBuffer index := by
  induction bytes generalizing uart with
  | nil => rfl
  | cons byte bytes ih =>
      rw [List.length_cons] at fits
      change (storeAll (store uart byte) bytes).rxBuffer index = _
      by_cases ended : bytes = []
      · subst ended
        simp [storeAll, store, storeByte, Nat.ne_of_lt before]
      · have more : 0 < bytes.length := List.length_pos_iff.mpr ended
        have next := @store_i uart byte (by omega)
        rw [ih (by omega) (by omega)]
        simp [store, storeByte, Nat.ne_of_lt before]

theorem storeAll_rxBuffer (fits : uart.i.toNat + bytes.length ≤ 256) (k : Nat)
    (inside : k < bytes.length) :
    (storeAll uart bytes).rxBuffer (uart.i.toNat + k) = bytes[k] := by
  induction bytes generalizing uart k with
  | nil => simp at inside
  | cons byte bytes ih =>
      rw [List.length_cons] at fits inside
      change (storeAll (store uart byte) bytes).rxBuffer _ = _
      by_cases ended : bytes = []
      · subst ended
        have zero : k = 0 := by
          simpa using inside
        simp [storeAll, store, storeByte, zero]
      · have more : 0 < bytes.length := List.length_pos_iff.mpr ended
        have next := @store_i uart byte (by omega)
        cases k with
        | zero =>
            rw [storeAll_keeps (by omega) (by omega)]
            simp [store, storeByte]
        | succ k =>
            have later := @ih (store uart byte) (by omega) k (by omega)
            rw [next] at later
            have place : uart.i.toNat + (k + 1) = uart.i.toNat + 1 + k := by
              omega
            rw [place, later]
            simp

/-- As long as a byte of the payload is missing, the machine stores. -/
theorem receive_unfinished (state : uart.state = .frameData)
    (unfinished : uart.length = 0 ∨ uart.i.toNat + bytes.length < uart.length.toNat) :
    receive uart bytes = storeAll uart bytes := by
  induction bytes generalizing uart with
  | nil => rfl
  | cons byte bytes ih =>
      rw [List.length_cons] at unfinished
      rw [receive_cons, callback_data state (unfinished.imp_right (by omega))]
      apply ih
      · exact state
      · rcases unfinished with zero | short
        · exact .inl zero
        · right
          have := uart.length.toNat_lt
          simp only [store, UInt8.toNat_add, UInt8.toNat_one]
          omega

/-- The last byte of the payload ends the data phase. -/
theorem receive_payload (state : uart.state = .frameData) (nonempty : bytes ≠ [])
    (whole : uart.i.toNat + bytes.length = uart.length.toNat) :
    receive uart bytes = { storeAll uart bytes with state := .frameCS, i := 0 } := by
  obtain ⟨front, last, rfl⟩ : ∃ front last, bytes = front ++ [last] :=
    ⟨_, _, (List.dropLast_concat_getLast nonempty).symm⟩
  rw [List.length_append, List.length_singleton] at whole
  have stored : receive uart front = storeAll uart front :=
    receive_unfinished state (.inr (by omega))
  obtain ⟨state', length', -⟩ := storeAll_fields uart front
  have bound := uart.length.toNat_lt
  have index : (storeAll uart front).i.toNat = uart.i.toNat + front.length := by
    rw [storeAll_i, UInt8.toNat_add, UInt8.toNat_ofNat']
    omega
  rw [receive_append, stored, receive_cons, receive_nil,
    callback_lastData (state'.trans state) (by rw [index, length']; omega)]
  simp [storeAll]

end Usart1

end LedFirmware
