import LedFirmware.LedLink
import LedFirmware.LedShows

/-!
# The LED board as a device

The bytes of the serial link come in interrupts at any time; the LED thread looks at
the flag, picks a mode and makes the calls of that mode one after the other.  In
every order of these steps the lamps show the pictures of the modes picked, one
round behind the other.
-/

namespace LedFirmware

open Playback Simulation Usart1

/-- The link with the LED thread, the pins and what the thread has still to call before
it looks at the flag again.  The pauses and the modes of the rounds begun are history
variables. -/
structure LedDevice where
  link : LedLink
  levels : GpioLevels
  pending : List LedCall
  shown : List (Pause GpioLevels)
  rounds : List UInt8

namespace LedDevice

/-- Behind `led_gpio_init`, at the head of the loop. -/
def initial (levels : GpioLevels) : LedDevice where
  link := LedLink.initial
  levels := ledGpioInit levels
  pending := [.delay 5]
  shown := []
  rounds := []

/-- A step of `LEDcontrol_thread_entry`: the next call, or the flag part, which ends in
the `switch` and the loop head. -/
def thread (device : LedDevice) : LedDevice :=
  match device.pending with
  | call :: later =>
      let made := gpioCall device.levels call
      { device with
        levels := made.2
        pending := later
        shown := device.shown ++ made.1.toList }
  | [] =>
      let link := device.link.ledStep
      if link.next = .test then
        { device with
          link
          pending := ledRound link.ledTwinkleMode ++ [.delay 5]
          rounds := device.rounds ++ [link.ledTwinkleMode] }
      else { device with link }

def step (device : LedDevice) : LedEvent → LedDevice
  | .interrupt temp => { device with link := device.link.step (.interrupt temp) }
  | .led => device.thread

/-- Both parties in the order of the events. -/
def run (device : LedDevice) (events : List LedEvent) : LedDevice := events.foldl step device

variable {device : LedDevice} {levels : GpioLevels} {events : List LedEvent}

theorem run_append (device : LedDevice) (first later : List LedEvent) :
    device.run (first ++ later) = (device.run first).run later :=
  List.foldl_append

theorem run_concat (device : LedDevice) (events : List LedEvent) (event : LedEvent) :
    device.run (events ++ [event]) = (device.run events).step event := by
  simp [run]

/-! ## The calls of a run -/

/-- The calls of the thread up to the end of a round. -/
def programme (rounds : List UInt8) : List LedCall :=
  .delay 5 :: rounds.flatMap fun mode => ledRound mode ++ [.delay 5]

theorem programme_concat (rounds : List UInt8) (mode : UInt8) :
    programme (rounds ++ [mode]) = programme rounds ++ (ledRound mode ++ [.delay 5]) := by
  simp [programme]

/-- The calls made and the calls to make are the programme, and the pins are as the
calls made have left them. -/
def Playing (levels : GpioLevels) (device : LedDevice) : Prop :=
  ∃ made, made ++ device.pending = programme device.rounds ∧
    play gpioCall made (ledGpioInit levels) = (device.shown, device.levels)

theorem Playing.step (playing : Playing levels device) (event : LedEvent) :
    Playing levels (device.step event) := by
  obtain ⟨made, whole, played⟩ := playing
  cases event with
  | interrupt temp => exact ⟨made, whole, played⟩
  | led =>
      simp only [LedDevice.step, thread]
      cases pending : device.pending with
      | cons call later =>
          refine ⟨made ++ [call], ?_, ?_⟩
          · rw [pending] at whole
            simpa using whole
          · simp [play_append, played, play_cons]
      | nil =>
          rw [pending, List.append_nil] at whole
          by_cases ready : device.link.ledStep.next = .test
          · simp only [ready, if_true]
            refine ⟨made, ?_, played⟩
            rw [programme_concat, whole]
          · simp only [ready, if_false]
            exact ⟨made, by simpa [pending] using whole, played⟩

theorem playing_run (levels : GpioLevels) (events : List LedEvent) :
    Playing levels ((initial levels).run events) := by
  induction events using List.reverseRecOn with
  | nil => exact ⟨[], rfl, rfl⟩
  | append_singleton events event ih =>
      rw [run_concat]
      exact ih.step event

/-! ## What the lamps show -/

/-- The pictures of the rounds, each followed by the wait at the loop head. -/
def roundShows : List UInt8 → Lamps → Show
  | [], lamps => ([], lamps)
  | mode :: later, lamps =>
      let first := roundShow mode lamps
      let rest := roundShows later first.2
      (first.1 ++ (5, first.2) :: rest.1, rest.2)

theorem play_rounds (rounds : List UInt8) (lamps : Lamps) :
    play lampCall (rounds.flatMap fun mode => ledRound mode ++ [.delay 5]) lamps =
      roundShows rounds lamps := by
  induction rounds generalizing lamps with
  | nil => rfl
  | cons mode later ih =>
      simp [play_append, play_ledRound, play_delay, ih, roundShows]

theorem play_programme (rounds : List UInt8) (lamps : Lamps) :
    play lampCall (programme rounds) lamps =
      ((5, lamps) :: (roundShows rounds lamps).1, (roundShows rounds lamps).2) := by
  rw [programme, play_delay, play_rounds]

/-- The lamps behind `led_gpio_init`. -/
def litAtStart (levels : GpioLevels) : Lamps := lampsOf (ledGpioInit levels)

theorem drives_atStart (levels : GpioLevels) :
    Drives levels (ledGpioInit levels) (litAtStart levels) := by
  refine ⟨rfl, fun pin other => ?_⟩
  rw [ledGpioInit, Function.update_of_ne (other _ _), Function.update_of_ne (other _ _)]

/-- In every order of interrupts and steps of the thread, the pauses of the thread show,
one after the other, the pictures of the modes of its rounds; between two rounds the
lamps are those that the last picture leaves; and no pin without a lamp ever changes. -/
theorem ledDevice_shows (levels : GpioLevels) (events : List LedEvent) :
    let device := (initial levels).run events
    let pictures := (5, litAtStart levels) ::
      (roundShows device.rounds (litAtStart levels)).1
    (∃ coming, List.Forall₂ (PausesAlike levels) (device.shown ++ coming) pictures) ∧
      (device.pending = [] →
        List.Forall₂ (PausesAlike levels) device.shown pictures ∧
          lampsOf device.levels = (roundShows device.rounds (litAtStart levels)).2) ∧
      ∀ pin, (∀ num sel, pin ≠ ledPin sel num) → device.levels pin = levels pin := by
  intro device pictures
  obtain ⟨made, whole, played⟩ := playing_run levels events
  have drives := drives_atStart levels
  have all := gpio_play_alike drives (programme device.rounds)
  rw [play_programme] at all
  refine ⟨?_, fun idle => ?_, ?_⟩
  · have shown := all.answer
    rw [← whole, play_append, played] at shown
    exact ⟨_, shown⟩
  · have complete : made = programme device.rounds := by
      simpa [device, idle] using whole
    rw [← complete, played] at all
    exact ⟨all.answer, all.state.lamps⟩
  · have now := (gpio_play_alike drives made).state
    rw [played] at now
    exact now.rest

/-! ## Which modes are picked -/

/-- The mode is the one at the start or the first payload byte of a frame. -/
def Vouched (received : List UInt8) (mode : UInt8) : Prop :=
  mode = 0xFF ∨ LedLink.Validated received mode

theorem Vouched.later {received : List UInt8} {mode : UInt8} (vouched : Vouched received mode)
    (temp : UInt8) : Vouched (received ++ [temp]) mode :=
  vouched.imp_right fun validated => validated.later temp

/-- The modes picked so far and the present one are vouched for, and the next one will
be. -/
structure Obeys (device : LedDevice) : Prop where
  sound : device.link.Sound
  published : device.link.Published
  mode : Vouched device.link.received device.link.ledTwinkleMode
  rounds : ∀ mode ∈ device.rounds, Vouched device.link.received mode

theorem Obeys.interrupt (obeys : Obeys device) (keeps : ¬ device.link.Overwrites) (temp : UInt8) :
    Obeys (device.step (.interrupt temp)) where
  sound := obeys.sound.step (.interrupt temp)
  published := obeys.published.interrupt obeys.sound keeps temp
  mode := obeys.mode.later temp
  rounds := fun mode picked => (obeys.rounds mode picked).later temp

/-- The flag part adds no byte, and its mode is the published one. -/
theorem vouched_ledStep (published : device.link.Published)
    (mode : Vouched device.link.received device.link.ledTwinkleMode) :
    device.link.ledStep.received = device.link.received ∧
      Vouched device.link.received device.link.ledStep.ledTwinkleMode := by
  cases next : device.link.next with
  | test =>
      rw [LedLink.ledStep, next]
      dsimp only
      split <;> exact ⟨rfl, mode⟩
  | read =>
      rw [LedLink.ledStep, next]
      exact ⟨rfl, .inr (published.first (published.tested next) (by simp [next]))⟩
  | clear =>
      rw [LedLink.ledStep, next]
      exact ⟨rfl, mode⟩

theorem Obeys.led (obeys : Obeys device) : Obeys (device.step .led) := by
  obtain ⟨sound, published, mode, rounds⟩ := obeys
  simp only [LedDevice.step, thread]
  cases pending : device.pending with
  | cons call later => exact ⟨sound, published, mode, rounds⟩
  | nil =>
      obtain ⟨received, picked⟩ := vouched_ledStep published mode
      have sound' : device.link.ledStep.Sound := sound.step .led
      have published' : device.link.ledStep.Published := published.led
      by_cases ready : device.link.ledStep.next = .test
      · simp only [ready, if_true]
        refine ⟨sound', published', by rwa [received], fun mode' member => ?_⟩
        rw [received]
        rcases List.mem_append.mp member with before | new
        · exact rounds mode' before
        · rwa [List.mem_singleton.mp new]
      · simp only [ready, if_false]
        exact ⟨sound', published', by rwa [received], by rwa [received]⟩

/-- If no interrupt replaces a published byte before it is read, every round has the mode
of the start or the first payload byte of a frame that was received to its end. -/
theorem ledDevice_obeys_frames (levels : GpioLevels) (events : List LedEvent)
    (keeps : ∀ before temp after, events = before ++ .interrupt temp :: after →
      ¬ ((initial levels).run before).link.Overwrites) :
    ∀ mode ∈ ((initial levels).run events).rounds,
      mode = 0xFF ∨ LedLink.Validated ((initial levels).run events).link.received mode := by
  suffices Obeys ((initial levels).run events) from this.rounds
  induction events using List.reverseRecOn with
  | nil => exact ⟨LedLink.sound_run [], ⟨nofun, nofun⟩, .inl rfl, nofun⟩
  | append_singleton events event ih =>
      have before := ih fun front temp after split =>
        keeps front temp (after ++ [event]) (by rw [split]; simp)
      rw [run_concat]
      cases event with
      | interrupt temp => exact before.interrupt (keeps events temp [] rfl) temp
      | led => exact before.led

/-- A frame comes during the first wait, and its mode is picked. -/
theorem ledDevice_obeys_one_frame :
    LedLink.Validated [0xFE, 1, 5, 5, 0xBE] 5 := by
  let events : List LedEvent :=
    ([0xFE, 1, 5, 5, 0xBE] : List UInt8).map .interrupt ++ [.led, .led, .led, .led]
  have prefixes : ∀ k < events.length,
      ¬ ((initial fun _ => false).run (events.take k)).link.Overwrites := by
    decide
  have keeps : ∀ before temp after, events = before ++ .interrupt temp :: after →
      ¬ ((initial fun _ => false).run before).link.Overwrites := by
    intro before temp after split
    have taken := prefixes before.length (by rw [split]; simp)
    rwa [split, List.take_left] at taken
  have obeys := ledDevice_obeys_frames (fun _ => false) events keeps 5 (List.mem_singleton.mpr rfl)
  exact obeys.resolve_left (by decide)

/-! ## From a frame to its pictures -/

/-- The bytes that the interrupts bring. -/
def received (events : List LedEvent) : List UInt8 :=
  events.filterMap fun
    | .interrupt temp => some temp
    | .led => none

/-- While calls are pending, the interrupts reach the receive machine and nobody looks at
the flag. -/
theorem run_pending {calls later : List LedCall} (pending : device.pending = calls ++ later)
    (steps : events.count .led = calls.length) :
    device.run events = { device with
      link := { device.link with
        uart := receive device.link.uart (received events)
        received := device.link.received ++ received events }
      levels := (play gpioCall calls device.levels).2
      pending := later
      shown := device.shown ++ (play gpioCall calls device.levels).1 } := by
  induction events generalizing device calls with
  | nil =>
      obtain rfl : calls = [] := List.eq_nil_of_length_eq_zero (by simpa using steps.symm)
      rw [List.nil_append] at pending
      simp [run, received, ← pending]
  | cons event events ih =>
      cases event with
      | interrupt temp =>
          have rest := @ih (device.step (.interrupt temp)) calls pending
            (by simpa using steps)
          simpa [run, received, LedDevice.step, LedLink.step] using rest
      | led =>
          cases calls with
          | nil => simp at steps
          | cons call calls =>
              have rest := @ih (device.step .led) calls
                (by simp [LedDevice.step, thread, pending]) (by simpa using steps)
              simp only [LedDevice.step, thread, pending, List.cons_append] at rest
              simp only [run, received, LedDevice.step, thread, pending, List.cons_append,
                List.foldl_cons, List.filterMap_cons] at rest ⊢
              rw [rest]
              simp [play_cons]

/-- The machine behind a frame that it has read from its head state. -/
theorem receive_frame {uart : Usart1} {payload : List UInt8} (state : uart.state = .frameHead)
    (nonempty : payload ≠ []) (fits : payload.length ≤ rxBufSize) :
    (receive uart (frame payload)).state = .frameHead ∧
      (receive uart (frame payload)).rxFlag = 1 ∧
        (receive uart (frame payload)).rxBuffer 0 = payload.head nonempty := by
  have size : rxBufSize = 8 := rfl
  obtain ⟨ended, -, stored⟩ := receive_checked state nonempty (by omega)
  rw [frame_eq_dropLast, receive_append, receive_cons, receive_nil, callback_end ended]
  exact ⟨rfl, rfl, (stored 0 (List.length_pos_iff.mpr nonempty)).trans
    (List.head_eq_getElem nonempty).symm⟩

/-- Three steps of the thread with a flag set: it takes the first byte of the buffer as the
mode of the next round. -/
theorem run_flag (pending : device.pending = []) (next : device.link.next = .test)
    (set : device.link.uart.rxFlag = 1) :
    device.run [.led, .led, .led] = { device with
      link := { device.link with
        uart := { device.link.uart with rxFlag := 0 }
        ledTwinkleMode := device.link.uart.rxBuffer 0
        consumed := device.link.consumed ++ [device.link.uart.rxBuffer 0] }
      pending := ledRound (device.link.uart.rxBuffer 0) ++ [.delay 5]
      rounds := device.rounds ++ [device.link.uart.rxBuffer 0] } := by
  simp [run, LedDevice.step, thread, LedLink.ledStep, pending, next, set]

/-- A frame with at most eight payload bytes, received from the head state while the thread
makes the calls that lead to its next look at the flag, is obeyed: the next round has the
first payload byte as its mode, and the pauses of its calls show the pictures of this
mode, whatever bytes come meanwhile. -/
theorem ledDevice_shows_frame (device : LedDevice) (payload : List UInt8)
    (during show' : List LedEvent) (nonempty : payload ≠ [])
    (fits : payload.length ≤ rxBufSize) (idle : device.link.uart.state = .frameHead)
    (ready : device.link.next = .test) (bytes : received during = frame payload)
    (waits : during.count .led = device.pending.length)
    (calls : show'.count .led = (ledRound (payload.head nonempty)).length) :
    let mode := payload.head nonempty
    let begun := device.run (during ++ [.led, .led, .led])
    let ended := begun.run show'
    begun.rounds = device.rounds ++ [mode] ∧ begun.link.uart.rxFlag = 0 ∧
      ∃ pauses, ended.shown = begun.shown ++ pauses ∧
        List.Forall₂ (PausesAlike begun.levels) pauses (roundShow mode (lampsOf begun.levels)).1 ∧
        lampsOf ended.levels = (roundShow mode (lampsOf begun.levels)).2 := by
  intro mode begun ended
  obtain ⟨-, set, first⟩ := receive_frame idle nonempty fits
  have all : device.pending = device.pending ++ [] := (List.append_nil _).symm
  have waited := run_pending all waits
  rw [bytes] at waited
  have started := @run_flag (device.run during) (by rw [waited])
    (by rw [waited]; exact ready) (by rw [waited]; exact set)
  rw [← run_append, waited] at started
  change begun = _ at started
  have pending : begun.pending = ledRound mode ++ [.delay 5] := by
    rw [started, first]
  have shown := run_pending pending calls
  have alike := gpio_play_alike (.refl begun.levels) (ledRound mode)
  rw [play_ledRound] at alike
  refine ⟨?_, ?_, _, congrArg LedDevice.shown shown, alike.answer, ?_⟩
  · rw [started, first]
  · rw [started]
  · exact (congrArg (fun device => lampsOf device.levels) shown).trans alike.state.lamps

/-- At the end of the first wait, a frame with the mode that lights all lamps. -/
theorem ledDevice_lights_lamps :
    let device : LedDevice := { initial fun _ => false with pending := [] }
    let begun := device.run ((frame [1]).map .interrupt ++ [.led, .led, .led])
    lampsOf (begun.run (List.replicate 38 .led)).levels =
      (roundShow 1 (lampsOf begun.levels)).2 := by
  intro device begun
  obtain ⟨-, -, pauses, -, -, lit⟩ := ledDevice_shows_frame device [1] ((frame [1]).map .interrupt)
    (List.replicate 38 .led) (by decide) (by decide) rfl rfl rfl rfl rfl
  exact lit

end LedDevice

end LedFirmware
