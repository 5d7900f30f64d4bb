import LedFirmware.Usart1

/-!
# The way back to the head state

Unless a length byte is zero, each byte leads the machine to the head state or
nearer to it: the missing bytes of the frame are a measure that it decreases.
-/

namespace LedFirmware

namespace Usart1

variable {uart : Usart1} {temp : UInt8} {rest : List UInt8}

/-- The next bytes announce length zero, or they have done so. -/
def AnnouncesZero (uart : Usart1) (next : List UInt8) : Prop :=
  match uart.state with
  | .frameHead => next.take 2 = [frameHead, 0]
  | .frameLength => next.take 1 = [0]
  | .frameData => uart.length = 0
  | .frameCS | .frameEnd => False

/-- The index starts at zero and stays below the length, unless that is zero. -/
def IndexBelow (uart : Usart1) : Prop :=
  match uart.state with
  | .frameLength => uart.i = 0
  | .frameData => uart.length = 0 ∨ uart.i.toNat < uart.length.toNat
  | _ => True

/-- A bound of the number of bytes to the head state. -/
def bytesLeft (uart : Usart1) : Nat :=
  match uart.state with
  | .frameHead => 259
  | .frameLength => 258
  | .frameData => uart.length.toNat - uart.i.toNat + 2
  | .frameCS => 2
  | .frameEnd => 1

theorem IndexBelow.callback (below : IndexBelow uart) (temp : UInt8) :
    IndexBelow (uart.callback temp) := by
  cases state : uart.state with
  | frameHead => grind [Usart1.callback, IndexBelow]
  | frameLength =>
      simp only [IndexBelow, state] at below
      rw [callback_length state]
      simp only [IndexBelow, below, UInt8.toNat_zero]
      exact or_iff_not_imp_left.mpr toNat_pos
  | frameData =>
      simp only [IndexBelow, state] at below
      by_cases unfinished : Unfinished uart
      · rw [callback_data state unfinished]
        have := uart.length.toNat_lt
        simp only [IndexBelow, store, state, UInt8.toNat_add, UInt8.toNat_one]
        exact unfinished.imp_right (by omega)
      · rw [Unfinished, not_or] at unfinished
        have last : uart.i.toNat + 1 = uart.length.toNat := by
          have := below.resolve_left unfinished.1
          omega
        rw [callback_lastData state last]
        trivial
  | frameCS => grind [Usart1.callback, IndexBelow]
  | frameEnd => grind [Usart1.callback, IndexBelow]

theorem IndexBelow.receive (below : IndexBelow uart) (stream : List UInt8) :
    IndexBelow (uart.receive stream) := by
  induction stream generalizing uart with
  | nil => exact below
  | cons temp stream ih => exact ih (below.callback temp)

/-- A byte leads to the head state or nearer to it, unless a length is zero. -/
theorem callback_nearer (below : IndexBelow uart)
    (fine : ¬ AnnouncesZero uart (temp :: rest)) :
    (callback uart temp).state = .frameHead ∨
      bytesLeft (callback uart temp) < bytesLeft uart ∧
        ¬ AnnouncesZero (callback uart temp) rest := by
  cases state : uart.state with
  | frameHead =>
      by_cases isHead : temp = frameHead
      · right
        rw [isHead, callback_head state]
        simp_all [AnnouncesZero, bytesLeft]
      · left
        rw [callback_noHead state isHead, state]
  | frameLength =>
      right
      rw [callback_length state]
      have := temp.toNat_lt
      simp_all [AnnouncesZero, bytesLeft]
      omega
  | frameData =>
      right
      simp only [AnnouncesZero, IndexBelow, state] at fine below
      have inside := below.resolve_left fine
      by_cases unfinished : Unfinished uart
      · rw [callback_data state unfinished]
        have short := unfinished.resolve_left fine
        have := uart.length.toNat_lt
        simp only [bytesLeft, AnnouncesZero, store, state, UInt8.toNat_add, UInt8.toNat_one]
        exact ⟨by omega, fine⟩
      · rw [Unfinished, not_or] at unfinished
        rw [callback_lastData state (by omega)]
        simp only [bytesLeft, AnnouncesZero, state, not_false_eq_true, and_true]
        omega
  | frameCS =>
      by_cases right : temp = uart.cs
      · rw [right, callback_cs state]
        simp [bytesLeft, AnnouncesZero, state]
      · rw [callback_wrongCS state right]
        exact .inl rfl
  | frameEnd => exact .inl (callback_behindEnd state temp).1

theorem head_within (below : IndexBelow uart) (next : List UInt8)
    (enough : bytesLeft uart ≤ next.length) (fine : ¬ AnnouncesZero uart next) :
    ∃ k, 1 ≤ k ∧ k ≤ bytesLeft uart ∧ (receive uart (next.take k)).state = .frameHead := by
  have some : 0 < bytesLeft uart := by
    rw [bytesLeft]
    split <;> omega
  induction next generalizing uart with
  | nil =>
      rw [List.length_nil] at enough
      omega
  | cons temp next ih =>
      rw [List.length_cons] at enough
      rcases callback_nearer below fine with head | ⟨nearer, fine'⟩
      · exact ⟨1, Nat.le_refl 1, some, by simpa using head⟩
      · obtain ⟨k, -, atMost, head⟩ := ih (below.callback temp) (by omega) fine' (by
          rw [bytesLeft]
          split <;> omega)
        exact ⟨k + 1, by omega, by omega, by simpa using head⟩

/-- A length of zero holds the machine in the data state. -/
theorem AnnouncesZero.callback (zero : AnnouncesZero uart (temp :: rest)) :
    (uart.callback temp).state ≠ .frameHead ∧ AnnouncesZero (uart.callback temp) rest := by
  cases state : uart.state with
  | frameHead =>
      obtain ⟨rfl, next⟩ : temp = frameHead ∧ rest.take 1 = [0] := by
        simpa [AnnouncesZero, state] using zero
      rw [callback_head state]
      exact ⟨by simp, next⟩
  | frameLength =>
      have : temp = 0 := by
        simpa [AnnouncesZero, state] using zero
      rw [callback_length state]
      exact ⟨by simp, this⟩
  | frameData =>
      simp only [AnnouncesZero, state] at zero
      rw [callback_data state (.inl zero)]
      simp only [AnnouncesZero, store, state, zero]
      exact ⟨by simp, trivial⟩
  | frameCS => simp [AnnouncesZero, state] at zero
  | frameEnd => simp [AnnouncesZero, state] at zero

theorem AnnouncesZero.never_head {next : List UInt8} (zero : AnnouncesZero uart next) {k : Nat}
    (further : 1 ≤ k) (inside : k ≤ next.length) :
    (uart.receive (next.take k)).state ≠ .frameHead := by
  induction next generalizing uart k with
  | nil =>
      rw [List.length_nil] at inside
      omega
  | cons temp next ih =>
      obtain ⟨k, rfl⟩ : ∃ before, k = before + 1 := ⟨k - 1, by omega⟩
      obtain ⟨state, zero'⟩ := zero.callback
      rw [List.length_cons] at inside
      rw [List.take_succ_cons, receive_cons]
      by_cases first : k = 0
      · simpa [first] using state
      · exact ih zero' (by omega) (by omega)

theorem bytesLeft_le (uart : Usart1) : bytesLeft uart ≤ 259 := by
  have := uart.length.toNat_lt
  rw [bytesLeft]
  split <;> omega

/-- Behind any stream the machine is in the head state again within one maximal
frame, unless a length byte is zero.  The second part counts the present state. -/
theorem usart1_head_within_iff (stream next : List UInt8) (enough : 259 ≤ next.length) :
    ((∃ k, 1 ≤ k ∧ k ≤ 259 ∧
        (receive (receive initial stream) (next.take k)).state = .frameHead) ↔
      ¬ AnnouncesZero (receive initial stream) next) ∧
    ((∃ k ≤ 259, (receive (receive initial stream) (next.take k)).state = .frameHead) ↔
      (receive initial stream).state = .frameHead ∨
        ¬ AnnouncesZero (receive initial stream) next) := by
  have below : IndexBelow (receive initial stream) := @IndexBelow.receive initial trivial stream
  have bound := bytesLeft_le (receive initial stream)
  have further : (∃ k, 1 ≤ k ∧ k ≤ 259 ∧
      (receive (receive initial stream) (next.take k)).state = .frameHead) ↔
      ¬ AnnouncesZero (receive initial stream) next := by
    constructor
    · rintro ⟨k, positive, atMost, head⟩ zero
      exact zero.never_head positive (by omega) head
    · intro fine
      obtain ⟨k, positive, atMost, head⟩ := head_within below next (by omega) fine
      exact ⟨k, positive, by omega, head⟩
  refine ⟨further, ?_⟩
  rw [← further]
  constructor
  · rintro ⟨k, atMost, head⟩
    by_cases now : k = 0
    · exact .inl (by simpa [now] using head)
    · exact .inr ⟨k, by omega, atMost, head⟩
  · rintro (head | ⟨k, -, atMost, head⟩)
    · exact ⟨0, by omega, by simpa using head⟩
    · exact ⟨k, atMost, head⟩

theorem usart1_head_within_one_byte :
    259 ≤ (List.replicate 259 (0 : UInt8)).length ∧
      ∃ k, 1 ≤ k ∧ k ≤ 259 ∧
        (receive (receive initial [0xFE, 1, 5]) ((List.replicate 259 0).take k)).state =
          .frameHead := by
  have enough : 259 ≤ (List.replicate 259 (0 : UInt8)).length := by
    rw [List.length_replicate]
  exact ⟨enough, (usart1_head_within_iff [0xFE, 1, 5] _ enough).1.mpr id⟩

/-- Length zero holds the machine in the data state. -/
theorem usart1_length_zero_wedges :
    ¬ ∀ stream next : List UInt8, 259 ≤ next.length →
      ∃ k ≤ 259, (receive (receive initial stream) (next.take k)).state = .frameHead := by
  intro within
  obtain ⟨k, atMost, head⟩ := within [0xFE, 0] (List.replicate 259 0)
    (by rw [List.length_replicate])
  have zero : AnnouncesZero (receive initial [0xFE, 0]) (List.replicate 259 0) := rfl
  by_cases now : k = 0
  · subst now
    exact absurd head nofun
  · exact zero.never_head (by omega) (by rwa [List.length_replicate]) head

end Usart1

end LedFirmware
