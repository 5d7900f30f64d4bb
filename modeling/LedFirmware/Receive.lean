import LedFirmware.CommDev
import LedFirmware.Inevitability
import Mathlib.Logic.Relation

/-!
# Receiving frames in pieces

Bytes arrive in chunks of any size, and rounds of the analysis run between them.
The bytes in the ring are always the ones behind the accepted frames, so a round
either finds the whole next frame or a beginning of it.
-/

namespace LedFirmware.App

open BoundedFifo CrashProgram Inevitability NorFlash

/-- The receive path of the CAN bus, with the bytes that have arrived so far and
the frames that were accepted so far. -/
structure Receiver where
  comm : CommDev
  ram : Ram
  flash : State
  reset : Bool
  arrived : List UInt8
  accepted : List (List UInt8)

/-- Nothing has arrived, and nothing is pending at any position of the ring. -/
structure Receiver.Empty (receiver : Receiver) : Prop where
  ring : Refines receiver.comm.ring (Fifo.empty : Fifo UInt8 1023)
  bufLen : receiver.comm.bufLen = 1024
  running : receiver.reset = false
  arrived : receiver.arrived = []
  accepted : receiver.accepted = []

/-- A chunk is added to the ring. -/
def Receiver.receive (receiver : Receiver) (data : List UInt8) : Receiver :=
  { receiver with
    comm := { receiver.comm with ring := addDataToBuf receiver.comm.ring data }
    arrived := receiver.arrived ++ data }

/-- The bytes that the handler accepts as a frame. -/
def acceptedFrames (fuel : Nat) (buf : Nat → UInt8) (len : Nat) : List (List UInt8) :=
  if len < commProtocolMinLen then []
  else match scan .appCan500 (unchecked buf) len fuel 0 with
    | .ended (.accept i dataLen) => [(List.range dataLen).map (bytesFrom buf i)]
    | _ => []

/-- A completed call of the analysis without a timeout, whatever the flash does. -/
inductive Round (chip : Chip) (receiver : Receiver) : Receiver → Prop
  | round {fuel : Nat} {stack : Nat → UInt8} {now : UInt32}
      {schedule rest : Schedule (flash chip.geometry)} {processed : Processed} {flash : State}
      (running : receiver.reset = false)
      (run : Prog.run (protocolAnyliseProcess (can500Slots chip fuel stack) now receiver.comm
        receiver.ram) schedule receiver.flash = .done processed flash rest)
      (inTime : processed.cleared = false) :
      Round chip receiver
        { receiver with
          comm := processed.comm
          ram := processed.ram
          flash
          reset := processed.reset
          accepted := receiver.accepted ++
            acceptedFrames fuel receiver.comm.received.dest receiver.comm.received.count }

/-- A step of the receiver, while the processor runs: an admitted chunk arrives,
or a round is completed. -/
inductive Step (chip : Chip) (admits : Receiver → List UInt8 → Prop) (receiver : Receiver) :
    Receiver → Prop
  | chunk {data : List UInt8} (running : receiver.reset = false)
      (admitted : admits receiver data) : Step chip admits receiver (receiver.receive data)
  | round {next : Receiver} (round : Round chip receiver next) : Step chip admits receiver next

/-- With a chunk of any size no more than the capacity of the ring is pending. -/
def Fits (receiver : Receiver) (data : List UInt8) : Prop :=
  getLenFromBuf receiver.comm.ring + data.length ≤ 1023

variable {chip : Chip} {receiver next : Receiver} {queue : Fifo UInt8 1023}
  {frame bytes : List UInt8} {frames : List (List UInt8)} {fuel : Nat} {buf : Nat → UInt8}

/-! ## What a round finds -/

/-- The analysis reads everything that is in the ring. -/
theorem received_bytes {comm : CommDev} (refines : Refines comm.ring queue)
    (bufLen : comm.bufLen = 1024) :
    comm.received.count = queue.items.length ∧ Holds comm.received.dest 0 queue.items := by
  exact refines.read_holds comm.buf (by omega)

/-- The bytes of a list in a buffer. -/
theorem Holds.map_range (holds : Holds buf 0 bytes) :
    (List.range bytes.length).map (bytesFrom buf 0) = bytes := by
  apply List.ext_getElem
  · rw [List.length_map, List.length_range]
  · intro index _ inside
    have byte := holds index inside
    rw [bufferOf, List.getD_eq_getElem _ _ inside] at byte
    rw [List.getElem_map, List.getElem_range]
    exact byte

theorem acceptedFrames_whole (isFrame : IsFrame .appCan500 frame) (holds : Holds buf 0 bytes)
    (begins : frame <+: bytes) (bound : bytes.length < 2 ^ 32) :
    acceptedFrames (fuel + 1) buf bytes.length = [frame] := by
  have long : commProtocolMinLen ≤ bytes.length := isFrame.lower.trans begins.length_le
  rw [acceptedFrames, if_neg (Nat.not_lt.mpr long), isFrame.scan_whole holds begins bound]
  obtain ⟨later, rfl⟩ := begins
  exact congrArg (fun bytes => [bytes]) (Holds.map_range holds.left)

/-- The ring holds a beginning of a frame, or too little to look at. -/
def Incomplete (bytes : List UInt8) : Prop :=
  bytes.length < commProtocolMinLen ∨
    ∃ frame, IsFrame .appCan500 frame ∧ bytes <+: frame ∧ bytes.length < frame.length

theorem Incomplete.scan (incomplete : Incomplete bytes) (holds : Holds buf 0 bytes)
    (bound : bytes.length < 2 ^ 32) : bytes.length < commProtocolMinLen ∨
      LedFirmware.scan .appCan500 (unchecked buf) bytes.length (fuel + 1) 0 =
        .ended .waiting := by
  rcases incomplete with short | ⟨frame, isFrame, begins, missing⟩
  · exact .inl short
  · rcases Nat.lt_or_ge bytes.length commProtocolMinLen with short | long
    · exact .inl short
    · have minimum : commProtocolMinLen = 8 := rfl
      exact .inr (isFrame.scan_partial holds begins missing (by omega) bound fuel)

theorem acceptedFrames_incomplete (incomplete : Incomplete bytes) (holds : Holds buf 0 bytes)
    (bound : bytes.length < 2 ^ 32) : acceptedFrames fuel buf bytes.length = [] := by
  cases fuel with
  | zero =>
      rw [acceptedFrames]
      split <;> rfl
  | succ fuel =>
      rcases @Incomplete.scan bytes fuel buf incomplete holds bound with short | waits
      · exact if_pos short
      · rw [acceptedFrames, waits]
        split <;> rfl

/-! ## Rounds -/

/-- A completed round has scanned what is long enough for a frame. -/
theorem scanned {comm : CommDev} {ram : Ram} {stack : Nat → UInt8} {now : UInt32}
    {schedule rest : Schedule (flash chip.geometry)} {processed : Processed} {before after : State}
    (run : Prog.run (protocolAnyliseProcess (can500Slots chip fuel stack) now comm ram) schedule
      before = .done processed after rest)
    (long : commProtocolMinLen ≤ comm.received.count) : ∃ budget, fuel = budget + 1 := by
  have minimum : commProtocolMinLen = 8 := rfl
  cases fuel with
  | succ budget => exact ⟨budget, rfl⟩
  | zero =>
      have running : can500ProtocolAnylise chip 0 ram stack comm.received.dest
          comm.received.count = .spin := by
        rw [can500ProtocolAnylise, protocolAnylise, if_neg (Nat.not_lt.mpr long)]
        rfl
      exact (Prog.run_yields (process_running (by omega) running) run).elim

/-- Whatever a round finds, the ring stays a queue, and the buffer holds what was
read. -/
theorem Round.keeps (round : Round chip receiver next)
    (refines : Refines receiver.comm.ring queue) :
    (∃ left : Fifo UInt8 1023, Refines next.comm.ring left) ∧
      next.comm.buf = receiver.comm.received.dest ∧
      next.comm.bufLen = receiver.comm.bufLen := by
  cases round with
  | round running run inTime =>
      obtain ⟨ring, buf, bufLen⟩ := Prog.run_yields (process_keeps refines) run
      exact ⟨ring, buf, bufLen⟩

/-- A round only adds to the accepted frames. -/
theorem Round.history (round : Round chip receiver next) :
    next.arrived = receiver.arrived ∧ receiver.accepted <+: next.accepted := by
  cases round with
  | round running run inTime => exact ⟨rfl, List.prefix_append _ _⟩

/-- While the next frame is incomplete, a round changes nothing in the ring. -/
theorem Round.waits (round : Round chip receiver next)
    (refines : Refines receiver.comm.ring queue) (bufLen : receiver.comm.bufLen = 1024)
    (incomplete : Incomplete queue.items) :
    next.reset = false ∧ next.comm.ring = receiver.comm.ring ∧
      next.accepted = receiver.accepted := by
  obtain ⟨count, holds⟩ := received_bytes refines bufLen
  have fits := queue.fits
  cases round with
  | @round fuel stack now schedule rest processed flash running run inTime =>
      have none : acceptedFrames fuel receiver.comm.received.dest receiver.comm.received.count =
          [] := by
        rw [count]
        exact acceptedFrames_incomplete incomplete holds (by omega)
      have waits : can500ProtocolAnylise chip fuel receiver.ram stack
            receiver.comm.received.dest receiver.comm.received.count =
          .done ⟨⟨.waiting, 0⟩, receiver.ram, [], false⟩ := by
        rcases Nat.lt_or_ge receiver.comm.received.count commProtocolMinLen with short | long
        · exact protocolAnylise_waits (.inl short)
        · obtain ⟨budget, rfl⟩ := scanned run long
          rw [count]
          exact protocolAnylise_waits (incomplete.scan holds (by omega))
      obtain ⟨reset, ring⟩ := Prog.run_yields (process_waits refines waits) run
      exact ⟨reset, ring inTime, by rw [none, List.append_nil]⟩

/-- What the handler does with a whole frame at the start of the ring. -/
theorem handler_accepts {comm : CommDev} (isFrame : IsFrame .appCan500 frame)
    (begins : frame <+: queue.items) (refines : Refines comm.ring queue)
    (bufLen : comm.bufLen = 1024) (budget : Nat) (ram : Ram) (stack : Nat → UInt8) :
    can500ProtocolAnylise chip (budget + 1) ram stack comm.received.dest comm.received.count =
        canExecute chip ram stack comm.received.dest 0 frame.length ⟨.accept, frame.length⟩ ∧
      bytesFrom comm.received.dest 0 3 = bufferOf frame 3 ∧
      commProtocolMinLen ≤ frame.length ∧ frame.length ≤ comm.received.count ∧
      acceptedFrames (budget + 1) comm.received.dest comm.received.count = [frame] := by
  obtain ⟨count, holds⟩ := received_bytes refines bufLen
  have fits := queue.fits
  have minimum : commProtocolMinLen = 8 := rfl
  have lower := isFrame.lower
  have length := begins.length_le
  have accepted := isFrame.scan_whole holds begins (by omega) budget
  rw [count]
  refine ⟨?_, ?_, lower, length, acceptedFrames_whole isFrame holds begins (by omega)⟩
  · rw [can500_accepts (by omega) accepted, add32, Nat.add_zero, Nat.mod_eq_of_lt (by omega)]
  · obtain ⟨later, whole⟩ := begins
    rw [bytesFrom, holds 3 (by omega), ← whole, bufferOf_append_left (by omega)]

/-- A round accepts the whole frame at the start of the ring and deletes it, unless
it has reset the processor. -/
theorem Round.accepts (round : Round chip receiver next) (isFrame : IsFrame .appCan500 frame)
    (begins : frame <+: queue.items) (refines : Refines receiver.comm.ring queue)
    (bufLen : receiver.comm.bufLen = 1024) :
    next.accepted = receiver.accepted ++ [frame] ∧
      (next.reset = true → Resets (bufferOf frame 3)) ∧
      (next.reset = false → Refines next.comm.ring (queue.remove frame.length)) := by
  have minimum : commProtocolMinLen = 8 := rfl
  cases round with
  | @round fuel stack now schedule rest processed flash running run inTime =>
      obtain ⟨-, -, lower, upper, -⟩ := @handler_accepts chip queue frame receiver.comm isFrame
        begins refines bufLen 0 receiver.ram stack
      obtain ⟨budget, rfl⟩ := scanned run (lower.trans upper)
      obtain ⟨handler, code, -, -, accepted⟩ := @handler_accepts chip queue frame receiver.comm
        isFrame begins refines bufLen budget receiver.ram stack
      have answers := handler.symm ▸ code ▸ @canExecute_answers chip 0 frame.length receiver.ram
        stack receiver.comm.received.dest ⟨.accept, frame.length⟩
      obtain ⟨-, resets, removed⟩ :=
        Prog.run_yields (process_accepts refines (by omega) answers) run
      exact ⟨congrArg (receiver.accepted ++ ·) accepted, resets, removed⟩

/-- While the processor runs, a whole frame at the start of the ring makes a round
possible. -/
theorem exists_round (running : receiver.reset = false) (isFrame : IsFrame .appCan500 frame)
    (begins : frame <+: queue.items) (refines : Refines receiver.comm.ring queue)
    (bufLen : receiver.comm.bufLen = 1024) : ∃ next, Round chip receiver next := by
  have minimum : commProtocolMinLen = 8 := rfl
  obtain ⟨handler, code, lower, upper, -⟩ := @handler_accepts chip queue frame receiver.comm
    isFrame begins refines bufLen 0 receiver.ram fun _ => 0
  have answers := handler.symm ▸ code ▸ @canExecute_answers chip 0 frame.length receiver.ram
    (fun _ => 0) receiver.comm.received.dest ⟨.accept, frame.length⟩
  have halts := @halts_process chip 1 receiver.ram (fun _ => 0) 0 receiver.comm
    (handler.symm ▸ halts_canExecute)
  obtain ⟨processed, after, used, run⟩ :=
    Prog.run_halts halts faultless_powered receiver.flash
  obtain ⟨inTime, -, -⟩ := Prog.run_yields (process_accepts refines (by omega) answers) run
  exact ⟨_, .round running run inTime⟩

/-! ## Runs -/

/-- While the processor runs, the ring holds what has arrived behind the accepted
frames. -/
structure Receiving (frames : List (List UInt8)) (count : Nat) (receiver : Receiver) : Prop where
  running : receiver.reset = false
  bufLen : receiver.comm.bufLen = 1024
  accepted : receiver.accepted = frames.take count
  ring : ∃ queue : Fifo UInt8 1023, Refines receiver.comm.ring queue ∧
    (frames.take count).flatten ++ queue.items = receiver.arrived

theorem Receiver.Empty.receiving (empty : receiver.Empty) (frames : List (List UInt8)) :
    Receiving frames 0 receiver where
  running := empty.running
  bufLen := empty.bufLen
  accepted := empty.accepted
  ring := ⟨.empty, empty.ring, empty.arrived.symm⟩

variable {count : Nat} {data : List UInt8}

theorem Receiving.chunk (receiving : Receiving frames count receiver)
    (fits : Fits receiver data) : Receiving frames count (receiver.receive data) := by
  obtain ⟨queue, refines, arrived⟩ := receiving.ring
  refine ⟨receiving.running, receiving.bufLen, receiving.accepted, queue.push data,
    refines.add data, ?_⟩
  rw [Fits, refines.getLen] at fits
  rw [Fifo.push_items, newest_of_le (by rw [List.length_append]; exact fits),
    ← List.append_assoc, arrived]
  rfl

/-- The bytes in the ring begin the frames that are still to be accepted. -/
theorem Receiving.pending (receiving : Receiving frames count receiver)
    (within : receiver.arrived <+: frames.flatten) :
    ∃ queue : Fifo UInt8 1023, Refines receiver.comm.ring queue ∧
      (frames.take count).flatten ++ queue.items = receiver.arrived ∧
      queue.items <+: (frames.drop count).flatten := by
  obtain ⟨queue, refines, arrived⟩ := receiving.ring
  refine ⟨queue, refines, arrived, ?_⟩
  have split : frames.flatten = (frames.take count).flatten ++ (frames.drop count).flatten := by
    rw [← List.flatten_append, List.take_append_drop]
  rw [← arrived, split] at within
  exact (List.prefix_append_right_inj _).mp within

/-- What a round does to a receiver of the frames: it waits for the rest of a
frame, or accepts the next one. -/
inductive RoundEnds (frames : List (List UInt8)) (count : Nat) (receiver next : Receiver) : Prop
  | waits (receiving : Receiving frames count next)
  | accepts {frame : List UInt8} {later : List (List UInt8)}
      (pending : frames.drop count = frame :: later)
      (accepted : next.accepted = receiver.accepted ++ [frame])
      (resets : next.reset = true → Resets (bufferOf frame 3))
      (receiving : next.reset = false → Receiving frames (count + 1) next)

variable {later : List (List UInt8)}

theorem mem_of_pending (pending : frames.drop count = frame :: later) : frame ∈ frames :=
  List.mem_of_mem_drop (pending ▸ List.mem_cons_self)

/-- The first frames, followed by the next one. -/
theorem take_next (pending : frames.drop count = frame :: later) :
    frames.take (count + 1) = frames.take count ++ [frame] := by
  have inside : frames[count]? = some frame := by
    rw [← List.head?_drop, pending]
    rfl
  rw [List.take_add_one, inside]
  rfl

theorem Receiving.round (receiving : Receiving frames count receiver)
    (within : receiver.arrived <+: frames.flatten)
    (legal : ∀ frame ∈ frames, IsFrame .appCan500 frame) (round : Round chip receiver next) :
    RoundEnds frames count receiver next := by
  obtain ⟨queue, refines, arrived, begins⟩ := receiving.pending within
  obtain ⟨-, -, bufLen⟩ := round.keeps refines
  obtain ⟨same, -⟩ := round.history
  have lengths := bufLen.trans receiving.bufLen
  have waits (incomplete : Incomplete queue.items) : RoundEnds frames count receiver next := by
    obtain ⟨reset, ring, accepted⟩ := round.waits refines receiving.bufLen incomplete
    refine .waits ⟨reset, lengths, accepted.trans receiving.accepted, queue, ?_, ?_⟩
    · rw [ring]
      exact refines
    · rw [arrived, same]
  cases pending : frames.drop count with
  | nil =>
      rw [pending, List.flatten_nil, List.prefix_nil] at begins
      exact waits (.inl (by rw [begins]; decide))
  | cons frame later =>
      have isFrame := legal frame (mem_of_pending pending)
      rw [pending, List.flatten_cons] at begins
      have next' := List.prefix_append frame later.flatten
      rcases Nat.lt_or_ge queue.items.length frame.length with missing | complete
      · have part := List.prefix_of_prefix_length_le begins next' missing.le
        exact waits (.inr ⟨frame, isFrame, part, missing⟩)
      · have whole := List.prefix_of_prefix_length_le next' begins complete
        obtain ⟨accepted, resets, removed⟩ :=
          round.accepts isFrame whole refines receiving.bufLen
        refine .accepts pending accepted resets fun running => ?_
        refine ⟨running, lengths, ?_, queue.remove frame.length, removed running, ?_⟩
        · rw [accepted, receiving.accepted, take_next pending]
        · obtain ⟨rest, items⟩ := whole
          rw [take_next pending, List.flatten_append, List.flatten_singleton, Fifo.remove_items,
            ← items, List.drop_left, List.append_assoc, items, arrived, same]

/-- Without resets the receiver goes on. -/
theorem Receiving.continues (receiving : Receiving frames count receiver)
    (within : receiver.arrived <+: frames.flatten)
    (legal : ∀ frame ∈ frames, IsFrame .appCan500 frame ∧ ¬ Resets (bufferOf frame 3))
    (round : Round chip receiver next) : ∃ count, Receiving frames count next := by
  have isFrame : ∀ frame ∈ frames, IsFrame .appCan500 frame :=
    fun frame member => (legal frame member).1
  cases receiving.round within isFrame round with
  | waits receiving => exact ⟨count, receiving⟩
  | accepts pending accepted resets receiving =>
      have safe := (legal _ (mem_of_pending pending)).2
      have running : next.reset = false :=
        Bool.eq_false_iff.mpr fun reset => safe (resets reset)
      exact ⟨count + 1, receiving running⟩

/-- What chunks and rounds preserve along a stream holds in every run. -/
theorem run_invariant {admits : Receiver → List UInt8 → Prop} {start : Receiver}
    {stream : List UInt8} (invariant : Receiver → Prop)
    (chunk : ∀ before data, invariant before → admits before data →
      before.arrived ++ data <+: stream → invariant (before.receive data))
    (round : ∀ before after, invariant before → before.arrived <+: stream →
      Round chip before after → invariant after)
    (run : Relation.ReflTransGen (Step chip admits) start receiver) (begins : invariant start)
    (within : receiver.arrived <+: stream) : invariant receiver := by
  induction run with
  | refl => exact begins
  | tail earlier step ih =>
      cases step with
      | chunk running admitted =>
          have before := (List.prefix_append _ _).trans within
          exact chunk _ _ (ih before) admitted within
      | round round' =>
          have before := round'.history.1 ▸ within
          exact round _ _ (ih before) before round'

/-! ## All frames of a stream -/

/-- When everything has arrived, everything is accepted, or the next frame lies in
the ring. -/
theorem Receiving.whole (receiving : Receiving frames count receiver)
    (arrived : receiver.arrived = frames.flatten) :
    receiver.accepted = frames ∧ contents receiver.comm.ring = [] ∨
      ∃ frame later, frames.drop count = frame :: later ∧
        ∃ queue : Fifo UInt8 1023, Refines receiver.comm.ring queue ∧ frame <+: queue.items := by
  obtain ⟨queue, refines, split⟩ := receiving.ring
  have items : queue.items = (frames.drop count).flatten := by
    rw [arrived, ← List.take_append_drop count frames, List.flatten_append,
      List.take_append_drop] at split
    exact List.append_cancel_left split
  cases pending : frames.drop count with
  | nil =>
      rw [pending] at items
      refine .inl ⟨?_, refines.items.trans items⟩
      rw [receiving.accepted, ← List.append_nil (frames.take count), ← pending,
        List.take_append_drop]
  | cons frame later =>
      rw [pending, List.flatten_cons] at items
      exact .inr ⟨frame, later, rfl, queue, refines, items ▸ List.prefix_append _ _⟩

/-- Rounds accept frames until none is left. -/
theorem Receiving.inevitable (receiving : Receiving frames count receiver)
    (arrived : receiver.arrived = frames.flatten)
    (legal : ∀ frame ∈ frames, IsFrame .appCan500 frame ∧ ¬ Resets (bufferOf frame 3)) :
    Inevitable (Round chip)
      (fun final => final.accepted = frames ∧ contents final.comm.ring = []) receiver := by
  refine .of_measure
    (fun before => before.arrived = frames.flatten ∧ ∃ count, Receiving frames count before)
    (fun before => (contents before.comm.ring).length) ?_ ?_ ?_ ⟨arrived, count, receiving⟩
  · rintro before after ⟨arrived, count, receiving⟩ round
    have within : before.arrived <+: frames.flatten := by rw [arrived]
    exact ⟨round.history.1.trans arrived, receiving.continues within legal round⟩
  · rintro before ⟨arrived, count, receiving⟩ notDone
    obtain ⟨frame, later, pending, queue, refines, begins⟩ :=
      (receiving.whole arrived).resolve_left notDone
    have isFrame := (legal frame (mem_of_pending pending)).1
    exact exists_round receiving.running isFrame begins refines receiving.bufLen
  · rintro before after ⟨arrived, count, receiving⟩ notDone round
    obtain ⟨frame, later, pending, queue, refines, begins⟩ :=
      (receiving.whole arrived).resolve_left notDone
    obtain ⟨isFrame, safe⟩ := legal frame (mem_of_pending pending)
    obtain ⟨-, resets, removed⟩ := round.accepts isFrame begins refines receiving.bufLen
    have running : after.reset = false :=
      Bool.eq_false_iff.mpr fun reset => safe (resets reset)
    have lower := isFrame.lower
    have length := begins.length_le
    have minimum : commProtocolMinLen = 8 := rfl
    rw [refines.items, (removed running).items, Fifo.remove_items, List.length_drop]
    omega

/-- Frames that do not reset the processor may arrive in any chunks, with any rounds
of the analysis between them, as long as the ring does not overflow and no timeout
happens: the accepted frames are the first ones that were sent, and once all bytes
have arrived, rounds accept all of them and empty the ring. -/
theorem receive_chunks (chip : Chip) (frames : List (List UInt8))
    (legal : ∀ frame ∈ frames, IsFrame .appCan500 frame ∧ ¬ Resets (bufferOf frame 3))
    {start receiver : Receiver} (empty : start.Empty)
    (run : Relation.ReflTransGen (Step chip Fits) start receiver)
    (within : receiver.arrived <+: frames.flatten) :
    receiver.accepted <+: frames ∧ receiver.reset = false ∧
      (receiver.arrived = frames.flatten →
        Inevitable (Round chip)
          (fun final => final.accepted = frames ∧ contents final.comm.ring = []) receiver) := by
  obtain ⟨count, receiving⟩ : ∃ count, Receiving frames count receiver := by
    refine run_invariant (fun before => ∃ count, Receiving frames count before) ?_ ?_ run
      ⟨0, empty.receiving frames⟩ within
    · rintro before data ⟨count, receiving⟩ fits -
      exact ⟨count, receiving.chunk fits⟩
    · rintro before after ⟨count, receiving⟩ within round
      exact receiving.continues within legal round
  exact ⟨receiving.accepted ▸ List.take_prefix count frames, receiving.running,
    fun arrived => receiving.inevitable arrived legal⟩

/-- The receiver after `can_ota_init`, over cleared memories. -/
def initialReceiver : Receiver where
  comm := canOtaInit (fun _ => 0) fun _ => 0
  ram := sampleRam
  flash := ⟨fun _ => erasedByte, true, []⟩
  reset := false
  arrived := []
  accepted := []

theorem initialReceiver_empty : initialReceiver.Empty :=
  ⟨refines_init (fun _ => 0) (by decide) (by decide), rfl, rfl, rfl, rfl⟩

/-- A device search of all devices. -/
def searchFrame : List UInt8 := construct 0xB1 [0xFF, 0xFF, 0x01, 0x00]

theorem searchFrame_isFrame : IsFrame .appCan500 searchFrame :=
  (isFrame_construct 0xB1 [0xFF, 0xFF, 0x01, 0x00] (by decide) (by decide)).1

theorem receive_chunks_sample :
    let stream := searchFrame ++ searchFrame
    let receiver := (initialReceiver.receive (stream.take 5)).receive (stream.drop 5)
    receiver.accepted <+: [searchFrame, searchFrame] ∧ receiver.reset = false ∧
      (receiver.arrived = [searchFrame, searchFrame].flatten →
        Inevitable (Round sampleChip)
          (fun final => final.accepted = [searchFrame, searchFrame] ∧
            contents final.comm.ring = []) receiver) := by
  intro stream receiver
  have first : Fits initialReceiver (stream.take 5) := by
    unfold Fits
    decide
  have second : Fits (initialReceiver.receive (stream.take 5)) (stream.drop 5) := by
    unfold Fits
    decide
  refine receive_chunks sampleChip [searchFrame, searchFrame] ?_ initialReceiver_empty
    (.tail (.tail .refl (.chunk rfl first)) (.chunk rfl second)) (by decide)
  intro frame member
  rw [List.mem_pair, or_self] at member
  subst member
  exact ⟨searchFrame_isFrame, by unfold Resets; decide⟩

/-! ## Long frames -/

/-- A frame that arrives byte by byte in an empty receiver, with rounds anywhere in
between, is accepted after the last byte. -/
def GetsThrough (chip : Chip) (frame : List UInt8) : Prop :=
  ∀ start receiver : Receiver, start.Empty →
    Relation.ReflTransGen (Step chip fun _ data => data.length = 1) start receiver →
    receiver.arrived = frame →
    Inevitable (Round chip) (fun final => frame ∈ final.accepted) receiver

theorem getsThrough_of_short (isFrame : IsFrame .appCan500 frame)
    (short : frame.length ≤ 1023) : GetsThrough chip frame := by
  intro start receiver empty run arrived
  have single : [frame].flatten = frame := List.flatten_singleton
  have legal : ∀ one ∈ [frame], IsFrame .appCan500 one := fun one member =>
    List.mem_singleton.mp member ▸ isFrame
  have states : frame ∈ receiver.accepted ∨ Receiving [frame] 0 receiver := by
    refine run_invariant (fun before => frame ∈ before.accepted ∨ Receiving [frame] 0 before)
      ?_ ?_ run (.inr (empty.receiving [frame])) (by rw [arrived])
    · rintro before data (accepted | receiving) one within
      · exact .inl accepted
      · refine .inr (receiving.chunk ?_)
        obtain ⟨queue, refines, pending⟩ := receiving.ring
        rw [List.take_zero, List.flatten_nil, List.nil_append] at pending
        have length := within.length_le
        rw [List.length_append, ← pending] at length
        rw [Fits, refines.getLen]
        omega
    · rintro before after (accepted | receiving) within round
      · exact .inl (round.history.2.subset accepted)
      · cases receiving.round (single.symm ▸ within) legal round with
        | waits receiving => exact .inr receiving
        | accepts pending accepted resets receiving =>
            cases pending
            rw [accepted]
            exact .inl (List.mem_append_right _ List.mem_cons_self)
  rcases states with accepted | receiving
  · exact .here accepted
  · rcases receiving.whole (arrived.trans single.symm) with
      ⟨accepted, -⟩ | ⟨one, later, pending, queue, refines, begins⟩
    · exact .here (by rw [accepted]; exact List.mem_cons_self)
    · cases pending
      refine .later (exists_round receiving.running isFrame begins refines receiving.bufLen) ?_
      intro next round
      obtain ⟨accepted, -⟩ := round.accepts isFrame begins refines receiving.bufLen
      exact .here (accepted ▸ List.mem_append_right _ List.mem_cons_self)

/-- The ring holds no more than its capacity, and no tail lies in the buffer behind
what the ring can hold. -/
structure Bounded (receiver : Receiver) : Prop where
  ring : ∃ queue : Fifo UInt8 1023, Refines receiver.comm.ring queue
  behind : ∀ index, 1023 ≤ index → receiver.comm.buf index ≠ commProtocolTail
  accepted : ∀ frame ∈ receiver.accepted, frame.length ≤ 1023

/-- A frame ends with a tail. -/
theorem acceptedFrames_bounded {len : Nat}
    (behind : ∀ index, 1023 ≤ index → buf index ≠ commProtocolTail)
    (member : frame ∈ acceptedFrames fuel buf len) : frame.length ≤ 1023 := by
  rw [acceptedFrames] at member
  split at member
  · cases member
  · split at member
    · rename_i i dataLen ended
      obtain ⟨lower, -, -, tail⟩ := scan_accept ended
      have minimum : commProtocolMinLen = 8 := rfl
      have last := Option.some.inj tail
      have inside : i + dataLen - 1 < 1023 := by
        by_contra outside
        exact behind _ (Nat.not_lt.mp outside) last
      rw [List.mem_singleton.mp member, List.length_map, List.length_range]
      omega
    · cases member

theorem Bounded.round (bounded : Bounded receiver) (round : Round chip receiver next) :
    Bounded next := by
  obtain ⟨queue, refines⟩ := bounded.ring
  obtain ⟨ring, buf, -⟩ := round.keeps refines
  have fits := queue.fits
  have behind (index : Nat) (outside : 1023 ≤ index) :
      receiver.comm.received.dest index ≠ commProtocolTail := by
    rw [CommDev.received, refines.read_behind _ _ _ (by omega)]
    exact bounded.behind index outside
  refine ⟨ring, by rw [buf]; exact behind, ?_⟩
  cases round with
  | round running run inTime =>
      intro frame member
      rcases List.mem_append.mp member with old | new
      · exact bounded.accepted frame old
      · exact acceptedFrames_bounded behind new

/-- Any bytes may arrive one by one, before any round. -/
theorem exists_delivery (running : receiver.reset = false) (bounded : Bounded receiver) :
    ∃ final, Relation.ReflTransGen (Step chip fun _ data => data.length = 1) receiver final ∧
      final.arrived = receiver.arrived ++ bytes ∧ Bounded final := by
  induction bytes generalizing receiver with
  | nil => exact ⟨receiver, .refl, (List.append_nil _).symm, bounded⟩
  | cons byte later ih =>
      obtain ⟨queue, refines⟩ := bounded.ring
      have step : Step chip (fun _ data => data.length = 1) receiver (receiver.receive [byte]) :=
        .chunk running rfl
      obtain ⟨final, run, arrived, kept⟩ := @ih (receiver.receive [byte]) running
        ⟨⟨_, refines.add [byte]⟩, bounded.behind, bounded.accepted⟩
      refine ⟨final, .head step run, ?_, kept⟩
      rw [arrived, Receiver.receive, List.append_assoc, List.singleton_append]

theorem not_getsThrough (long : 1023 < frame.length) : ¬ GetsThrough chip frame := by
  intro getsThrough
  have bounded : Bounded initialReceiver :=
    ⟨⟨.empty, initialReceiver_empty.ring⟩, fun _ _ => show (0 : UInt8) ≠ 0xBE by decide, nofun⟩
  obtain ⟨final, run, arrived, kept⟩ :=
    @exists_delivery chip initialReceiver frame rfl bounded
  have accepted := getsThrough initialReceiver final initialReceiver_empty run arrived
  refine accepted.excluded Bounded (fun _ _ bounded round => bounded.round round) ?_ kept
  intro receiver bounded member
  have short := bounded.accepted frame member
  omega

/-- A well-formed frame gets through if and only if the ring can hold it. -/
theorem getsThrough_iff (chip : Chip) {frame : List UInt8} (isFrame : IsFrame .appCan500 frame) :
    GetsThrough chip frame ↔ frame.length ≤ 1023 := by
  refine ⟨fun getsThrough => ?_, getsThrough_of_short isFrame⟩
  by_contra long
  exact not_getsThrough (Nat.not_le.mp long) getsThrough

theorem getsThrough_iff_sample :
    GetsThrough sampleChip searchFrame ↔ searchFrame.length ≤ 1023 :=
  getsThrough_iff sampleChip searchFrame_isFrame

/-- An update frame one byte longer than the ring can hold. -/
def longFrame : List UInt8 := construct 0x02 (List.replicate 1018 0)

theorem longFrame_not_getsThrough :
    IsFrame .appCan500 longFrame ∧ ¬ GetsThrough sampleChip longFrame := by
  have fits : (List.replicate 1018 (0 : UInt8)).length + 6 ≤ Protocol.appCan500.maxLen := by
    rw [List.length_replicate]
    decide
  obtain ⟨isFrame, length⟩ := @isFrame_construct .appCan500 0x02 (List.replicate 1018 0) fits
    (by rw [List.length_replicate]; decide)
  refine ⟨isFrame, not_getsThrough ?_⟩
  rw [longFrame, length, List.length_replicate]
  decide

end LedFirmware.App
