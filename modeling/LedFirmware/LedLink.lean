import LedFirmware.Usart1

/-!
# The LED thread behind USART1

The receive machine publishes a payload by a flag.  The LED thread tests the
flag, reads the first byte of the buffer and clears the flag; the interrupt may
come between any two of these steps.  The bytes received and the values consumed
are history variables.
-/

namespace LedFirmware

namespace Usart1

variable {uart : Usart1} {temp value : UInt8} {stream payload garbage : List UInt8}

/-! ## Where in a frame the machine is -/

/-- Behind these bytes the machine looks for a head. -/
def AtHead (stream : List UInt8) : Prop := (receive initial stream).state = .frameHead

/-- The stream ends with a head byte, the length and a part of the payload, whose
first byte is in the buffer. -/
structure Reads (stream : List UInt8) (uart : Usart1) (payload : List UInt8) : Prop where
  stream : ∃ before, AtHead before ∧ stream = before ++ frameHead :: uart.length :: payload
  nonzero : uart.length ≠ 0
  sum : uart.cs = xorSum payload
  first : ∀ byte ∈ payload.head?, uart.rxBuffer 0 = byte

/-- The state of the machine and the end of the stream. -/
inductive Parsing (stream : List UInt8) (uart : Usart1) : Prop
  | head (state : uart.state = .frameHead)
  | length (state : uart.state = .frameLength) (i : uart.i = 0) (cs : uart.cs = 0)
      (read : ∃ before, AtHead before ∧ stream = before ++ [frameHead])
  | endless (state : uart.state = .frameData) (zero : uart.length = 0)
  | data (state : uart.state = .frameData) (payload : List UInt8)
      (reads : Reads stream uart payload) (index : uart.i.toNat = payload.length)
      (short : payload.length < uart.length.toNat)
  | cs (state : uart.state = .frameCS) (payload : List UInt8)
      (reads : Reads stream uart payload) (whole : payload.length = uart.length.toNat)
  | finish (state : uart.state = .frameEnd) (payload front : List UInt8)
      (reads : Reads front uart payload) (whole : payload.length = uart.length.toNat)
      (checked : stream = front ++ [xorSum payload])

/-- The next byte of the payload. -/
theorem Reads.store (reads : Reads stream uart payload)
    (index : uart.i.toNat = payload.length) (temp : UInt8) :
    Reads (stream ++ [temp]) (uart.store temp) (payload ++ [temp]) := by
  obtain ⟨⟨before, atHead, rfl⟩, nonzero, sum, first⟩ := reads
  constructor
  · exact ⟨before, atHead, by simp [Usart1.store]⟩
  · exact nonzero
  · simp [Usart1.store, sum, xorSum, List.foldl_append]
  · intro byte member
    cases payload with
    | nil =>
        have : temp = byte := by
          simpa using member
        simp [Usart1.store, storeByte, index, this]
    | cons head later =>
        have : head = byte := by
          simpa using member
        rw [← this, ← first head rfl]
        simp [Usart1.store, storeByte, index]

theorem Parsing.callback (parsing : Parsing stream uart)
    (atHead : uart.state = .frameHead → AtHead stream) (temp : UInt8) :
    Parsing (stream ++ [temp]) (uart.callback temp) := by
  cases parsing with
  | head state =>
      by_cases isHead : temp = frameHead
      · rw [isHead, callback_head state]
        exact .length rfl rfl rfl ⟨stream, atHead state, rfl⟩
      · rw [callback_noHead state isHead]
        exact .head state
  | length state i cs read =>
      rw [callback_length state]
      by_cases zero : temp = 0
      · exact .endless rfl zero
      · obtain ⟨before, headBefore, rfl⟩ := read
        refine .data rfl [] ⟨⟨before, headBefore, by simp⟩, zero, cs, nofun⟩ ?_ (toNat_pos zero)
        simp [i]
  | endless state zero =>
      rw [callback_data state (.inl zero)]
      exact .endless state zero
  | data state payload reads index short =>
      have count : (payload ++ [temp]).length = payload.length + 1 := by
        rw [List.length_append, List.length_singleton]
      by_cases last : uart.i.toNat + 1 = uart.length.toNat
      · rw [callback_lastData state last]
        obtain ⟨read, nonzero, sum, first⟩ := reads.store index temp
        exact .cs rfl (payload ++ [temp]) ⟨read, nonzero, sum, first⟩ (by
          simp only [Usart1.store, count]
          omega)
      · rw [callback_data state (.inr (by omega))]
        have := uart.length.toNat_lt
        refine .data state (payload ++ [temp]) (reads.store index temp) ?_ ?_
        · simp only [Usart1.store, UInt8.toNat_add, UInt8.toNat_one, count]
          omega
        · simp only [Usart1.store, count]
          omega
  | cs state payload reads whole =>
      by_cases right : temp = uart.cs
      · rw [right, callback_cs state]
        obtain ⟨read, nonzero, sum, first⟩ := reads
        exact .finish rfl payload stream ⟨read, nonzero, sum, first⟩ whole (by rw [sum])
      · rw [callback_wrongCS state right]
        exact .head rfl
  | finish state payload front reads whole checked =>
      exact .head (callback_behindEnd state temp).1

/-! ## Frames -/

/-- The machine reads a frame in the stream and ends it with this byte. -/
def Completes (stream payload : List UInt8) : Prop :=
  payload ≠ [] ∧ payload.length < 256 ∧
    ∃ before, AtHead before ∧ stream = before ++ frame payload

/-- The flag is only ever set by the end byte of a frame. -/
theorem Parsing.completes (parsing : Parsing stream uart) (unset : uart.rxFlag ≠ 1)
    (set : (uart.callback temp).rxFlag = 1) :
    ∃ payload, Completes (stream ++ [temp]) payload ∧
      ∀ byte ∈ payload.head?, (uart.callback temp).rxBuffer 0 = byte := by
  have state : uart.state = .frameEnd ∧ temp = frameEnd := by
    rw [Usart1.callback] at set
    grind
  cases parsing with
  | finish state' payload front reads whole checked =>
      obtain ⟨⟨before, atHead, rfl⟩, nonzero, sum, first⟩ := reads
      have positive := toNat_pos nonzero
      have bound := uart.length.toNat_lt
      have length : UInt8.ofNat payload.length = uart.length := by
        rw [whole, UInt8.ofNat_toNat]
      refine ⟨payload, ⟨List.ne_nil_of_length_pos (by omega), by omega, before, atHead, ?_⟩, ?_⟩
      · simp [checked, state.2, frame, length]
      · rw [state.2, callback_end state']
        exact first
  | _ => simp_all

theorem receive_garbage (state : uart.state = .frameHead) (clean : frameHead ∉ garbage) :
    receive uart garbage = uart := by
  induction garbage with
  | nil => rfl
  | cons temp garbage ih =>
      rw [List.mem_cons, not_or] at clean
      rw [receive_cons, callback_noHead state (Ne.symm clean.1), ih clean.2]

theorem frame_dropLast (payload : List UInt8) :
    (frame payload).dropLast =
      (frameHead :: UInt8.ofNat payload.length :: payload) ++ [xorSum payload] := by
  rw [frame, List.dropLast_append_of_ne_nil (List.cons_ne_nil _ _)]
  rfl

theorem frame_eq_dropLast (payload : List UInt8) :
    frame payload = (frame payload).dropLast ++ [frameEnd] := by
  rw [frame_dropLast, frame]
  simp

/-- The machine before the end byte of a frame. -/
theorem receive_checked (state : uart.state = .frameHead) (nonempty : payload ≠ [])
    (short : payload.length < 256) :
    let checked := receive uart (frame payload).dropLast
    checked.state = .frameEnd ∧ checked.rxFlag = uart.rxFlag ∧
      ∀ k (inside : k < payload.length), checked.rxBuffer k = payload[k] := by
  intro checked
  let started : Usart1 := { uart with
    state := .frameData, length := UInt8.ofNat payload.length, i := 0, cs := 0 }
  have count : (UInt8.ofNat payload.length).toNat = payload.length := by
    rw [UInt8.toNat_ofNat', Nat.mod_eq_of_lt (by simpa using short)]
  have read := @receive_payload started payload rfl nonempty (by
    rw [count]
    exact Nat.zero_add _)
  let body : Usart1 := { storeAll started payload with state := .frameCS, i := 0 }
  have sum : body.cs = xorSum payload := storeAll_cs started payload
  have behind : checked = { body with state := .frameEnd } := by
    have start : receive uart (frameHead :: UInt8.ofNat payload.length :: payload) = body := by
      rw [receive_cons, callback_head state, receive_cons, callback_length rfl]
      exact read
    simp only [checked]
    rw [frame_dropLast, receive_append, start, receive_cons, receive_nil, ← sum]
    exact callback_cs rfl
  rw [behind]
  refine ⟨rfl, (storeAll_fields started payload).2.2, ?_⟩
  intro k inside
  have stored := @storeAll_rxBuffer started payload (by
    simp only [started, UInt8.toNat_zero]
    omega) k inside
  simpa [started] using stored

/-- The flag has nothing to do with the analysis. -/
theorem callback_flag (uart : Usart1) (flag temp : UInt8) :
    ∃ flag', callback { uart with rxFlag := flag } temp =
      { callback uart temp with rxFlag := flag' } := by
  obtain ⟨state, length, i, cs, rxBuffer, old, writes⟩ := uart
  cases state with
  | frameHead => by_cases isHead : temp = frameHead <;> exact ⟨flag, by simp [callback, isHead]⟩
  | frameLength => exact ⟨flag, rfl⟩
  | frameData =>
      by_cases last : (i.toNat : Int) = length.toNat - 1 <;>
        exact ⟨flag, by simp [callback, last]⟩
  | frameCS => by_cases right : temp = cs <;> exact ⟨flag, by simp [callback, right]⟩
  | frameEnd =>
      by_cases right : temp = frameEnd
      · exact ⟨1, by simp [callback, right]⟩
      · exact ⟨flag, by simp [callback, right]⟩

theorem callback_keeps_flag (set : uart.rxFlag = 1) : (callback uart temp).rxFlag = 1 := by
  rw [callback]
  split <;> grind

theorem callback_keeps_first (elsewhere : ¬ (uart.state = .frameData ∧ uart.i = 0)) :
    (callback uart temp).rxBuffer 0 = uart.rxBuffer 0 := by
  cases state : uart.state with
  | frameData =>
      have later : uart.i.toNat ≠ 0 := fun zero =>
        elsewhere ⟨state, UInt8.toNat_inj.mp zero⟩
      simp only [callback, state]
      split <;> exact if_neg later.symm
  | _ =>
      simp only [callback, state]
      try split <;> rfl

theorem Reads.flag (reads : Reads stream uart payload) (flag : UInt8) :
    Reads stream { uart with rxFlag := flag } payload :=
  ⟨reads.stream, reads.nonzero, reads.sum, reads.first⟩

theorem Parsing.flag (parsing : Parsing stream uart) (flag : UInt8) :
    Parsing stream { uart with rxFlag := flag } := by
  cases parsing with
  | head state => exact .head state
  | length state i cs read => exact .length state i cs read
  | endless state zero => exact .endless state zero
  | data state payload reads index short => exact .data state payload (reads.flag flag) index short
  | cs state payload reads whole => exact .cs state payload (reads.flag flag) whole
  | finish state payload front reads whole checked =>
      exact .finish state payload front (reads.flag flag) whole checked

end Usart1

/-! ## The two parties -/

/-- The next atomic step of the LED thread. -/
inductive LedStep
  | test
  | read
  | clear
  deriving DecidableEq, Repr

/-- The receive machine and the LED thread. -/
structure LedLink where
  uart : Usart1
  next : LedStep
  ledTwinkleMode : UInt8
  received : List UInt8
  consumed : List UInt8

/-- A receive interrupt or a step of the LED thread. -/
inductive LedEvent
  | interrupt (temp : UInt8)
  | led
  deriving DecidableEq, Repr

namespace LedLink

open Usart1

def initial : LedLink where
  uart := Usart1.initial
  next := .test
  ledTwinkleMode := 0xFF
  received := []
  consumed := []

/-- The flag part of a round of `LEDcontrol_thread_entry`. -/
def ledStep (link : LedLink) : LedLink :=
  match link.next with
  | .test => if link.uart.rxFlag = 1 then { link with next := .read } else link
  | .read =>
      { link with
        ledTwinkleMode := link.uart.rxBuffer 0
        consumed := link.consumed ++ [link.uart.rxBuffer 0]
        next := .clear }
  | .clear => { link with uart := { link.uart with rxFlag := 0 }, next := .test }

def step (link : LedLink) : LedEvent → LedLink
  | .interrupt temp =>
      { link with uart := callback link.uart temp, received := link.received ++ [temp] }
  | .led => ledStep link

/-- Both parties in the order of the events. -/
def run (events : List LedEvent) : LedLink := events.foldl step initial

variable {link : LedLink} {events : List LedEvent}

theorem run_append (first later : List LedEvent) :
    run (first ++ later) = later.foldl step (run first) :=
  List.foldl_append

/-- The machine has analysed the bytes received, whatever the thread has done. -/
structure Sound (link : LedLink) : Prop where
  control : ∃ flag, link.uart = { receive Usart1.initial link.received with rxFlag := flag }
  parsing : Parsing link.received link.uart

theorem Sound.atHead (sound : Sound link) (state : link.uart.state = .frameHead) :
    AtHead link.received := by
  obtain ⟨flag, control⟩ := sound.control
  rw [control] at state
  exact state

theorem Sound.step (sound : Sound link) (event : LedEvent) : Sound (link.step event) := by
  obtain ⟨flag, control⟩ := sound.control
  cases event with
  | interrupt temp =>
      constructor
      · obtain ⟨flag', later⟩ := callback_flag (receive Usart1.initial link.received) flag temp
        exact ⟨flag', by rw [LedLink.step, receive_append, control]; exact later⟩
      · exact sound.parsing.callback sound.atHead temp
  | led =>
      cases next : link.next with
      | test =>
          simp only [LedLink.step, ledStep, next]
          split
          · exact ⟨sound.control, sound.parsing⟩
          · exact sound
      | read =>
          simp only [LedLink.step, ledStep, next]
          exact ⟨sound.control, sound.parsing⟩
      | clear =>
          simp only [LedLink.step, ledStep, next]
          exact ⟨⟨0, by rw [control]⟩, sound.parsing.flag 0⟩

theorem sound_run (events : List LedEvent) : Sound (run events) := by
  induction events using List.reverseRecOn with
  | nil => exact ⟨⟨0, rfl⟩, .head rfl⟩
  | append_singleton events event ih =>
      rw [run_append]
      exact ih.step event

/-! ## What the flag says -/

/-- Whatever the LED thread does in between, the flag goes to one only on the end
byte of a frame; and from the head state, behind bytes without a head byte, it does
so on the end byte of each frame that fits in the buffer. -/
theorem usart1_recognises_frames :
    (∀ (events : List LedEvent) (temp : UInt8), (run events).uart.rxFlag = 0 →
      (run (events ++ [.interrupt temp])).uart.rxFlag = 1 →
      ∃ before payload, 1 ≤ payload.length ∧ payload.length ≤ 255 ∧
        (run events).received ++ [temp] = before ++ frame payload) ∧
    ∀ (uart : Usart1) (garbage payload : List UInt8), uart.state = .frameHead →
      frameHead ∉ garbage → 1 ≤ payload.length → payload.length ≤ rxBufSize →
      (receive uart (garbage ++ (frame payload).dropLast)).rxFlag = uart.rxFlag ∧
      (receive uart (garbage ++ frame payload)).rxFlag = 1 ∧
      ∀ k (inside : k < payload.length),
        (receive uart (garbage ++ frame payload)).rxBuffer k = payload[k] := by
  constructor
  · intro events temp unset set
    rw [run_append] at set
    obtain ⟨payload, ⟨nonempty, short, before, -, stream⟩, -⟩ :=
      (sound_run events).parsing.completes (by rw [unset]; decide) set
    exact ⟨before, payload, List.length_pos_iff.mpr nonempty, by omega, stream⟩
  · intro uart garbage payload state clean positive fits
    have size : rxBufSize = 8 := rfl
    obtain ⟨state', flag, stored⟩ := receive_checked state
      (List.ne_nil_of_length_pos positive) (by omega)
    have whole : garbage ++ frame payload = garbage ++ (frame payload).dropLast ++ [frameEnd] := by
      rw [List.append_assoc, ← frame_eq_dropLast]
    have ready : receive uart (garbage ++ (frame payload).dropLast) =
        receive uart (frame payload).dropLast := by
      rw [receive_append, receive_garbage state clean]
    rw [ready, whole, receive_append, ready, receive_cons, receive_nil, callback_end state']
    exact ⟨flag, rfl, stored⟩

theorem usart1_recognises_one_frame :
    (∃ before payload, 1 ≤ payload.length ∧ payload.length ≤ 255 ∧
      ([0xFE, 1, 5, 5, 0xBE] : List UInt8) = before ++ frame payload) ∧
    (receive Usart1.initial ([1, 2] ++ frame [5, 6])).rxFlag = 1 := by
  let events : List LedEvent := ([0xFE, 1, 5, 5] : List UInt8).map .interrupt
  have sound := usart1_recognises_frames.1 events 0xBE rfl rfl
  have complete := usart1_recognises_frames.2 Usart1.initial [1, 2] [5, 6] rfl (by decide)
    (by decide) (by decide)
  exact ⟨sound, complete.2.1⟩

/-! ## What the thread consumes -/

/-- The value is the first payload byte of a frame that the machine has read to its
end byte. -/
def Validated (stream : List UInt8) (value : UInt8) : Prop :=
  ∃ payload front after, Completes front payload ∧ stream = front ++ after ∧
    payload.head? = some value

/-- The next data byte replaces a first payload byte that is published and not
read yet. -/
def Overwrites (link : LedLink) : Prop :=
  link.uart.state = .frameData ∧ link.uart.i = 0 ∧ link.uart.rxFlag = 1 ∧ link.next ≠ .clear

/-- No interrupt replaces a published byte. -/
def KeepsPublished (events : List LedEvent) : Prop :=
  ∀ before temp after, events = before ++ .interrupt temp :: after → ¬ Overwrites (run before)

theorem Validated.later (validated : Validated stream value) (temp : UInt8) :
    Validated (stream ++ [temp]) value := by
  obtain ⟨payload, front, after, completes, rfl, first⟩ := validated
  exact ⟨payload, front, after ++ [temp], completes, by rw [List.append_assoc], first⟩

/-- A set flag vouches for the first byte of the buffer until the thread has read
it. -/
structure Published (link : LedLink) : Prop where
  first : link.uart.rxFlag = 1 → link.next ≠ .clear →
    Validated link.received (link.uart.rxBuffer 0)
  tested : link.next = .read → link.uart.rxFlag = 1

theorem Published.interrupt (published : Published link) (sound : Sound link)
    (keeps : ¬ Overwrites link) (temp : UInt8) : Published (link.step (.interrupt temp)) := by
  constructor
  · intro set next
    by_cases before : link.uart.rxFlag = 1
    · have kept : (callback link.uart temp).rxBuffer 0 = link.uart.rxBuffer 0 :=
        callback_keeps_first fun written => keeps ⟨written.1, written.2, before, next⟩
      rw [LedLink.step, kept]
      exact (published.first before next).later temp
    · obtain ⟨payload, completes, first⟩ := sound.parsing.completes before set
      obtain ⟨head, later, rfl⟩ := List.exists_cons_of_ne_nil completes.1
      exact ⟨head :: later, _, [], completes, by rw [List.append_nil]; rfl,
        congrArg some (first head rfl).symm⟩
  · exact fun reading => callback_keeps_flag (published.tested reading)

theorem Published.led (published : Published link) : Published (link.step .led) := by
  obtain ⟨first, tested⟩ := published
  cases next : link.next with
  | test =>
      simp only [LedLink.step, ledStep, next]
      split
      next set => exact ⟨fun _ _ => first set (by rw [next]; nofun), fun _ => set⟩
      next => exact ⟨first, tested⟩
  | read =>
      simp only [LedLink.step, ledStep, next]
      exact ⟨fun _ clears => absurd rfl clears, nofun⟩
  | clear =>
      simp only [LedLink.step, ledStep, next]
      exact ⟨nofun, nofun⟩

instance (link : LedLink) : Decidable (Overwrites link) :=
  inferInstanceAs (Decidable (_ ∧ _))

theorem keepsPublished_of_take
    (keeps : ∀ k < events.length, ¬ Overwrites (run (events.take k))) :
    KeepsPublished events := by
  rintro before temp after rfl
  simpa using keeps before.length (by simp)

theorem KeepsPublished.left {later : List LedEvent}
    (keeps : KeepsPublished (events ++ later)) : KeepsPublished events := by
  rintro before temp after rfl
  exact keeps before temp (after ++ later) (by simp)

theorem published_run (keeps : KeepsPublished events) : Published (run events) := by
  induction events using List.reverseRecOn with
  | nil => exact ⟨nofun, nofun⟩
  | append_singleton events event ih =>
      rw [run_append]
      cases event with
      | interrupt temp =>
          exact (ih keeps.left).interrupt (sound_run events) (keeps events temp [] rfl) temp
      | led => exact (ih keeps.left).led

/-- In every interleaving that replaces no published byte before it is read, each
value that the thread consumes is the first payload byte of a validated frame. -/
theorem led_consumes_validated (events : List LedEvent) (keeps : KeepsPublished events)
    (value : UInt8)
    (consumes : (run (events ++ [.led])).consumed = (run events).consumed ++ [value]) :
    Validated (run events).received value := by
  have published := published_run keeps
  rw [run_append] at consumes
  have reading : (run events).next = .read ∧ value = (run events).uart.rxBuffer 0 := by
    simp only [List.foldl_cons, List.foldl_nil, LedLink.step, ledStep] at consumes
    cases next : (run events).next with
    | test =>
        simp only [next] at consumes
        split at consumes <;> simp at consumes
    | read =>
        rw [next] at consumes
        simpa using consumes.symm
    | clear =>
        rw [next] at consumes
        simp at consumes
  rw [reading.2]
  exact published.first (published.tested reading.1) (by rw [reading.1]; nofun)

/-- A frame, read before the next byte comes. -/
theorem led_consumes_first_payload : Validated [0xFE, 1, 5, 5, 0xBE] 5 := by
  let events : List LedEvent := ([0xFE, 1, 5, 5, 0xBE] : List UInt8).map .interrupt ++ [.led]
  have keeps : KeepsPublished events := keepsPublished_of_take (by decide)
  exact led_consumes_validated events keeps 5 rfl

/-- A frame, the test of the flag, the first payload byte of a second frame. -/
def overtaken : List LedEvent :=
  ([0xFE, 1, 5, 5, 0xBE] : List UInt8).map .interrupt ++ [.led] ++
    ([0xFE, 1, 7] : List UInt8).map .interrupt

theorem led_consumes_unvalidated :
    ¬ ∀ (events : List LedEvent) (value : UInt8),
      (run (events ++ [.led])).consumed = (run events).consumed ++ [value] →
      Validated (run events).received value := by
  intro validated
  obtain ⟨payload, front, after, ⟨-, -, before, -, rfl⟩, stream, first⟩ :=
    validated overtaken 7 rfl
  obtain ⟨later, rfl⟩ : ∃ later, payload = 7 :: later := by
    cases payload with
    | nil => simp at first
    | cons head later => exact ⟨later, by simpa using first⟩
  have received : (run overtaken).received = [0xFE, 1, 5, 5, 0xBE, 0xFE, 1, 7] := rfl
  rw [received] at stream
  have lengths := congrArg List.length stream
  simp only [frame, List.length_append, List.length_cons, List.length_nil] at lengths
  -- the frame begins at one of the first four bytes, and none of them is two before a 7
  have first : ([0xFE, 1, 5, 5, 0xBE, 0xFE, 1, 7] : List UInt8)[before.length + 2]? = some 7 := by
    rw [stream]
    simp [frame]
  have few : before.length = 0 ∨ before.length = 1 ∨ before.length = 2 ∨ before.length = 3 := by
    omega
  rcases few with place | place | place | place <;> rw [place] at first <;>
    exact absurd first (by decide)

end LedLink

end LedFirmware
