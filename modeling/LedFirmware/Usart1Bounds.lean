import LedFirmware.Usart1

/-!
# The writes of the USART1 receive machine

Which indices of `USART1_RxBuffer` a stream makes the machine write follows from
the length bytes that a reader of whole frames meets in it.
-/

namespace LedFirmware

namespace Usart1

/-- What is behind the checksum and, if that is right, the end byte. -/
def behindData (payload : List UInt8) : List UInt8 → List UInt8
  | [] => []
  | cs :: rest => if cs = xorSum payload then rest.tail else rest

theorem length_behindData (payload rest : List UInt8) :
    (behindData payload rest).length ≤ rest.length := by
  cases rest with
  | nil => exact Nat.le_refl 0
  | cons cs rest =>
      rw [behindData]
      split <;> simp only [List.length_tail, List.length_cons] <;> omega

/-- The length bytes that a reader of whole frames meets in a stream, each with
the bytes behind it.  Behind length zero it meets no further one. -/
def announced : List UInt8 → List (UInt8 × List UInt8)
  | [] => []
  | byte :: stream =>
      if byte = frameHead then
        match stream with
        | [] => []
        | length :: rest =>
            (length, rest) :: if length = 0 then [] else
              announced (behindData (rest.take length.toNat) (rest.drop length.toNat))
      else announced stream
  termination_by stream => stream.length
  decreasing_by
    · have := length_behindData (rest.take length.toNat) (rest.drop length.toNat)
      rw [List.length_drop] at this
      simp only [List.length_cons]
      omega
    · simp

theorem announced_skip {byte : UInt8} (other : byte ≠ frameHead) (stream : List UInt8) :
    announced (byte :: stream) = announced stream := by
  rw [announced.eq_def]
  exact if_neg other

theorem announced_head (length : UInt8) (rest : List UInt8) :
    announced (frameHead :: length :: rest) =
      (length, rest) :: if length = 0 then [] else
        announced (behindData (rest.take length.toNat) (rest.drop length.toNat)) := by
  rw [announced, if_pos rfl]

/-! ## The writes of a whole stream -/

variable {uart : Usart1} {payload rest stream : List UInt8}

theorem callback_state_behind (state : uart.state = .frameCS) (sum : uart.cs = xorSum payload) :
    ∃ next : Usart1, next.state = .frameHead ∧ next.writes = uart.writes ∧
      (receive uart rest).writes = (receive next (behindData payload rest)).writes := by
  cases rest with
  | nil => exact ⟨{ uart with state := .frameHead }, rfl, rfl, rfl⟩
  | cons byte rest =>
      by_cases right : byte = xorSum payload
      · rw [behindData, if_pos right, right, ← sum, receive_cons, callback_cs state]
        cases rest with
        | nil => exact ⟨{ uart with state := .frameHead }, rfl, rfl, rfl⟩
        | cons last rest =>
            have ended := @callback_behindEnd { uart with state := .frameEnd } rfl last
            exact ⟨_, ended.1, ended.2, rfl⟩
      · have wrong : byte ≠ uart.cs := by
          rwa [sum]
        rw [behindData, if_neg right, receive_cons, callback_wrongCS state wrong]
        exact ⟨{ uart with state := .frameHead }, rfl, rfl, rfl⟩

/-- The indices that a length byte makes the machine write. -/
def indices (announcement : UInt8 × List UInt8) : List Nat :=
  let count := if announcement.1 = 0 then announcement.2.length
    else min announcement.2.length announcement.1.toNat
  (List.range count).map (· % 256)

theorem writes_receive (state : uart.state = .frameHead) :
    (receive uart stream).writes = uart.writes ++ (announced stream).flatMap indices := by
  induction stream using announced.induct generalizing uart with
  | case1 => simp [announced]
  | case2 =>
      rw [receive_cons, callback_head state]
      simp [announced]
  | case3 length rest ih =>
      let started : Usart1 := { uart with state := .frameData, length := length, i := 0, cs := 0 }
      have start : receive uart (frameHead :: length :: rest) = receive started rest := by
        rw [receive_cons, callback_head state, receive_cons, callback_length rfl]
      rw [start, announced_head, List.flatMap_cons, ← List.append_assoc]
      by_cases zero : length = 0
      · rw [receive_unfinished rfl (.inl zero), storeAll_writes]
        simp [started, indices, zero]
      · rw [if_neg zero]
        have stored : (storeAll started (rest.take length.toNat)).writes =
            uart.writes ++ indices (length, rest) := by
          rw [storeAll_writes]
          simp [started, indices, zero, Nat.min_comm]
        by_cases short : rest.length < length.toNat
        · rw [receive_unfinished rfl (.inr (by simpa [started] using short))]
          rw [List.take_of_length_le (Nat.le_of_lt short)] at stored
          rw [stored, List.drop_of_length_le (Nat.le_of_lt short)]
          simp [behindData, announced]
        · have count : (rest.take length.toNat).length = length.toNat := by
            rw [List.length_take]
            omega
          have positive : 0 < length.toNat := toNat_pos zero
          have whole := @receive_payload started (rest.take length.toNat) rfl
            (List.ne_nil_of_length_pos (by omega)) (by rw [count]; exact Nat.zero_add _)
          obtain ⟨next, state', writes, later⟩ := @callback_state_behind
            { storeAll started (rest.take length.toNat) with state := .frameCS, i := 0 }
            (rest.take length.toNat) (rest.drop length.toNat) rfl (storeAll_cs started _)
          rw [← whole, ← receive_append, List.take_append_drop] at later
          rw [later, ih state', writes, ← stored]
  | case4 byte stream other ih =>
      rw [receive_cons, callback_noHead state other, announced_skip other]
      exact ih state

theorem indices_inside (announcement : UInt8 × List UInt8) :
    (∀ index ∈ indices announcement, index < rxBufSize) ↔
      announcement.1 ≠ 0 ∧ announcement.1.toNat ≤ rxBufSize ∨
        announcement.2.length ≤ rxBufSize := by
  obtain ⟨length, rest⟩ := announcement
  have size : rxBufSize = 8 := rfl
  have counted (count : Nat) :
      (∀ index ∈ (List.range count).map (· % 256), index < rxBufSize) ↔ count ≤ rxBufSize := by
    constructor
    · intro inside
      by_contra many
      have ninth := inside (8 % 256) (List.mem_map_of_mem (List.mem_range.mpr (by omega)))
      omega
    · intro few index member
      obtain ⟨k, before, rfl⟩ := List.mem_map.mp member
      have := List.mem_range.mp before
      omega
  rw [indices, counted]
  by_cases zero : length = 0
  · simp [zero]
  · simp only [zero, if_false, ne_eq, not_false_eq_true, true_and]
    omega

/-- Every write is inside the buffer exactly when no length byte announces zero or
more than eight bytes with more than eight bytes behind it. -/
theorem usart1_writes_inside_iff (stream : List UInt8) :
    (∀ index ∈ (receive initial stream).writes, index < rxBufSize) ↔
      ∀ announcement ∈ announced stream,
        announcement.1 ≠ 0 ∧ announcement.1.toNat ≤ rxBufSize ∨
          announcement.2.length ≤ rxBufSize := by
  have written : (receive initial stream).writes = (announced stream).flatMap indices :=
    writes_receive rfl
  simp only [written, List.mem_flatMap, ← indices_inside]
  constructor
  · intro inside announcement member index written
    exact inside index ⟨announcement, member, written⟩
  · rintro inside index ⟨announcement, member, written⟩
    exact inside announcement member index written

/-- A length of nine and nine bytes behind it. -/
theorem usart1_writes_past_end :
    ¬ ∀ stream : List UInt8, ∀ index ∈ (receive initial stream).writes, index < rxBufSize := by
  intro inside
  have past := inside [0xFE, 9, 1, 2, 3, 4, 5, 6, 7, 8, 9] 8 (by decide)
  exact absurd past (by decide)

end Usart1

end LedFirmware
