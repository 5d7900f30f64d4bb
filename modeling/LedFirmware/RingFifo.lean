import LedFirmware.RingBuf

/-!
# The ring is a bounded queue

Used by one party at a time, the ring answers like a queue of one element less
than its size that drops its oldest element on overflow.
-/

namespace LedFirmware

open BoundedFifo

/-- The functions of `usdl_buf.c` with their arguments. -/
inductive RingOp
  | addByte (byte : UInt8)
  | addData (data : List UInt8)
  | getByte
  | delData (len : Nat)
  | readData (dest : Nat → UInt8) (len : Nat) (clear : Bool)
  | getLen
  | clearDate

/-- What a function returns to its caller. -/
inductive RingReply
  | added
  | byte (found : Option UInt8)
  | count (len : Nat)
  | data (len : Nat) (bytes : List UInt8)
  | cleared

/-- The bytes that a read has stored at the start of a buffer. -/
def ReadData.bytes (result : ReadData) : List UInt8 := (List.range result.count).map result.dest

def ringStep (buf : RingBufType) : RingOp → RingReply × RingBufType
  | .addByte byte => (.added, addByteToBuf buf byte)
  | .addData data => (.added, addDataToBuf buf data)
  | .getByte => (.byte (getByteFromBuf buf).1, (getByteFromBuf buf).2)
  | .delData len => (.count (delDataFromBuf buf len).1, (delDataFromBuf buf len).2)
  | .readData dest len clear =>
      let result := readDataFromBuf buf dest len clear
      (.data result.count result.bytes, result.buf)
  | .getLen => (.count (getLenFromBuf buf), buf)
  | .clearDate => (.cleared, clearDateFromBuf buf)

/-- The same functions on a queue. -/
def fifoStep {capacity : Nat} (queue : Fifo UInt8 capacity) :
    RingOp → RingReply × Fifo UInt8 capacity
  | .addByte byte => (.added, queue.push [byte])
  | .addData data => (.added, queue.push data)
  | .getByte => (.byte queue.items.head?, queue.remove 1)
  | .delData len => (.count (min len queue.items.length), queue.remove len)
  | .readData _ len clear =>
      (.data (min len queue.items.length) (queue.items.take len),
        if clear then queue.remove len else queue)
  | .getLen => (.count queue.items.length, queue)
  | .clearDate => (.cleared, .empty)

/-- Perform operations in turn and collect the replies. -/
def runOps {State : Type} (step : State → RingOp → RingReply × State) :
    List RingOp → State → List RingReply × State
  | [], state => ([], state)
  | op :: later, state =>
      let (reply, next) := step state op
      let (replies, final) := runOps step later next
      (reply :: replies, final)

/-- The ring holds what the queue holds. -/
structure Refines {capacity : Nat} (buf : RingBufType) (queue : Fifo UInt8 capacity) : Prop where
  size : buf.rxBufSize = capacity + 1
  valid : Valid buf
  items : contents buf = queue.items

variable {buf : RingBufType} {capacity : Nat} {queue : Fifo UInt8 capacity}

theorem Refines.tracks (refines : Refines buf queue) : Tracks buf buf.head queue.items 0 := by
  have tracks := refines.valid.tracks
  rw [refines.items] at tracks
  exact tracks

theorem Refines.getLen (refines : Refines buf queue) :
    getLenFromBuf buf = queue.items.length :=
  refines.tracks.getLen refines.valid.bound

/-- A ring that tracks a stream from a position on refines a queue with the rest
of the stream. -/
theorem Tracks.refines {base start : Nat} {stream : List UInt8} {next : Fifo UInt8 capacity}
    (tracks : Tracks buf base stream start) (size : buf.rxBufSize = capacity + 1)
    (bound : buf.rxBufSize < 2 ^ 31) (rest : stream.drop start = next.items) :
    Refines buf next :=
  ⟨size, tracks.valid bound, (tracks.contents bound).trans rest⟩

/-! ## Reads -/

/-- A read that keeps the bytes leaves the ring as it is. -/
theorem Refines.read_keep (refines : Refines buf queue) (dest : Nat → UInt8) (len : Nat) :
    (readDataFromBuf buf dest len false).buf = buf := by
  have tracks := refines.tracks
  have available := refines.getLen
  obtain ⟨after, -, -⟩ := @Tracks.readBytes buf buf.head 0 queue.items tracks refines.valid.bound
    (min len (getLenFromBuf buf)) (by omega) 0 dest
  simp only [readDataFromBuf, Bool.false_eq_true, if_false, after]

/-- A read that clears is a read that keeps, followed by a deletion of what was
read. -/
theorem Refines.read_clear (refines : Refines buf queue) (dest : Nat → UInt8) (len : Nat) :
    let kept := readDataFromBuf buf dest len false
    readDataFromBuf buf dest len true =
      { kept with buf := (delDataFromBuf kept.buf kept.count).2 } := by
  have tracks := refines.tracks
  have available := refines.getLen
  have head := tracks.head
  have fits := tracks.fits
  obtain ⟨after, -, -⟩ := @Tracks.readBytes buf buf.head 0 queue.items tracks refines.valid.bound
    (min len (getLenFromBuf buf)) (by omega) 0 dest
  have moved : add32 buf.head (min len (getLenFromBuf buf)) % buf.rxBufSize =
      (buf.head + (0 + min len (getLenFromBuf buf))) % buf.rxBufSize := by
    rw [Nat.zero_add]
    conv_lhs => rw [head, Nat.add_zero]
    exact advance_mod (by omega) refines.valid.bound tracks.positive
  have twice : min (min len (getLenFromBuf buf)) (getLenFromBuf buf) =
      min len (getLenFromBuf buf) := by omega
  intro kept
  have same : kept.buf = buf := refines.read_keep dest len
  have count : kept.count = min len (getLenFromBuf buf) := rfl
  rw [same, count, delDataFromBuf]
  simp only [readDataFromBuf, if_true, after, twice, moved]
  rfl

/-- A read returns the oldest bytes. -/
theorem Refines.read_bytes (refines : Refines buf queue) (dest : Nat → UInt8) (len : Nat)
    (clear : Bool) :
    (readDataFromBuf buf dest len clear).count = min len queue.items.length ∧
      (readDataFromBuf buf dest len clear).bytes = queue.items.take len := by
  have available := refines.getLen
  obtain ⟨-, stored, -⟩ := @Tracks.readBytes buf buf.head 0 queue.items refines.tracks
    refines.valid.bound (min len (getLenFromBuf buf)) (by omega) 0 dest
  have count : (readDataFromBuf buf dest len clear).count = min len (getLenFromBuf buf) := rfl
  refine ⟨by rw [count, available], ?_⟩
  apply List.ext_getElem
  · rw [ReadData.bytes, List.length_map, List.length_range, count, available, List.length_take]
  · intro index inside within
    rw [List.length_take] at within
    have byte := stored index (by omega)
    rw [Nat.zero_add, List.getD_eq_getElem _ _ (by omega)] at byte
    simp only [ReadData.bytes, List.getElem_map, List.getElem_range, List.getElem_take]
    exact byte

/-- A read stores nothing behind the bytes in the ring. -/
theorem Refines.read_behind (refines : Refines buf queue) (dest : Nat → UInt8) (len : Nat)
    (clear : Bool) {index : Nat} (behind : queue.items.length ≤ index) :
    (readDataFromBuf buf dest len clear).dest index = dest index := by
  have available := refines.getLen
  obtain ⟨-, -, outside⟩ := @Tracks.readBytes buf buf.head 0 queue.items refines.tracks
    refines.valid.bound (min len (getLenFromBuf buf)) (by omega) 0 dest
  exact outside index (by omega)

/-! ## Refinement -/

/-- The result of one operation on a ring and on the queue that it refines. -/
structure StepRefines (ring : RingReply × RingBufType)
    (queue : RingReply × Fifo UInt8 capacity) : Prop where
  reply : ring.1 = queue.1
  state : Refines ring.2 queue.2

theorem Refines.del (refines : Refines buf queue) (len : Nat) :
    (delDataFromBuf buf len).1 = min len queue.items.length ∧
      Refines (delDataFromBuf buf len).2 (queue.remove len) := by
  obtain ⟨count, tracks⟩ := refines.tracks.del refines.valid.bound len
  refine ⟨count, tracks.refines refines.size refines.valid.bound ?_⟩
  rw [Nat.zero_add, Nat.sub_zero, ← Fifo.remove_items, Fifo.remove_min]

theorem Refines.add (refines : Refines buf queue) (data : List UInt8) :
    Refines (addDataToBuf buf data) (queue.push data) := by
  have size := refines.size
  have bound := refines.valid.bound
  refine (refines.tracks.addData bound data).refines (by rw [addDataToBuf_size, size])
    (by rw [addDataToBuf_size]; exact bound) ?_
  rw [Fifo.push_items, newest, List.length_append, size]
  congr 1
  omega

theorem Refines.step (refines : Refines buf queue) (op : RingOp) :
    StepRefines (ringStep buf op) (fifoStep queue op) := by
  cases op with
  | addByte byte => exact ⟨rfl, refines.add [byte]⟩
  | addData data => exact ⟨rfl, refines.add data⟩
  | getByte =>
      have tracks := refines.tracks
      have bound := refines.valid.bound
      cases items : queue.items with
      | nil =>
          rw [items] at tracks
          have empty : buf.head = buf.tail := tracks.head.trans tracks.tail.symm
          have same : queue.remove 1 = queue := by
            ext1
            rw [Fifo.remove_items, items, List.drop_nil]
          rw [ringStep, fifoStep, getByteFromBuf, if_pos empty, items, same]
          exact ⟨rfl, refines⟩
      | cons first rest =>
          obtain ⟨byte, next, moved⟩ := tracks.getByte bound (by rw [items]; exact Nat.succ_pos _)
          rw [ringStep, fifoStep, byte, items]
          refine ⟨rfl, next.refines ?_ ?_ rfl⟩
          · rw [moved]
            exact refines.size
          · rw [moved]
            exact bound
  | delData len =>
      obtain ⟨count, removed⟩ := refines.del len
      exact ⟨congrArg RingReply.count count, removed⟩
  | readData dest len clear =>
      obtain ⟨count, bytes⟩ := refines.read_bytes dest len clear
      refine ⟨by rw [ringStep, fifoStep, count, bytes], ?_⟩
      cases clear with
      | false =>
          rw [ringStep, refines.read_keep dest len]
          exact refines
      | true =>
          obtain ⟨kept, -⟩ := refines.read_bytes dest len false
          have removed := (refines.del (min len queue.items.length)).2
          rw [ringStep, refines.read_clear dest len]
          simp only [fifoStep, if_true, refines.read_keep dest len, kept]
          rw [← Fifo.remove_min]
          exact removed
  | getLen => exact ⟨congrArg RingReply.count refines.getLen, refines⟩
  | clearDate =>
      have head := refines.valid.head
      have cleared : Valid (clearDateFromBuf buf) := ⟨head, head, refines.valid.bound⟩
      refine ⟨rfl, refines.size, cleared, ?_⟩
      have empty : getLenFromBuf (clearDateFromBuf buf) = 0 := by
        rw [getLenFromBuf_of_valid cleared]
        simp [clearDateFromBuf]
      rw [contents]
      simp only [ringStep, empty]
      rfl

theorem refines_init {size : Nat} (memory : Nat → UInt8) (positive : 1 ≤ size)
    (bound : size < 2 ^ 31) :
    Refines (rxBufInit memory size) (Fifo.empty : Fifo UInt8 (size - 1)) := by
  have valid : Valid (rxBufInit memory size) := ⟨positive, positive, bound⟩
  refine ⟨(Nat.sub_add_cancel positive).symm, valid, ?_⟩
  have empty : getLenFromBuf (rxBufInit memory size) = 0 := by
    rw [getLenFromBuf_of_valid valid]
    simp [rxBufInit]
  rw [contents, empty]
  rfl

theorem Refines.run (refines : Refines buf queue) (ops : List RingOp) :
    (runOps ringStep ops buf).1 = (runOps fifoStep ops queue).1 ∧
      Refines (runOps ringStep ops buf).2 (runOps fifoStep ops queue).2 := by
  induction ops generalizing buf queue with
  | nil => exact ⟨rfl, refines⟩
  | cons op later ih =>
      obtain ⟨reply, state⟩ := refines.step op
      obtain ⟨replies, final⟩ := ih state
      exact ⟨congrArg₂ List.cons reply replies, final⟩

/-- After any operations the ring has answered like the queue and holds what the
queue holds; reads with and without clearing differ by a deletion only. -/
theorem ring_refines_fifo (memory : Nat → UInt8) (size : Nat) (positive : 1 ≤ size)
    (bound : size < 2 ^ 31) (ops : List RingOp) :
    let ring := runOps ringStep ops (rxBufInit memory size)
    let fifo := runOps fifoStep ops (Fifo.empty : Fifo UInt8 (size - 1))
    ring.1 = fifo.1 ∧ contents ring.2 = fifo.2.items ∧
      ring.2.head < size ∧ ring.2.tail < size ∧
      ∀ (dest : Nat → UInt8) (len : Nat),
        let kept := readDataFromBuf ring.2 dest len false
        kept.buf = ring.2 ∧
          readDataFromBuf ring.2 dest len true =
            { kept with buf := (delDataFromBuf kept.buf kept.count).2 } := by
  intro ring fifo
  obtain ⟨replies, final⟩ := (refines_init memory positive bound).run ops
  have whole : ring.2.rxBufSize = size := final.size.trans (Nat.sub_add_cancel positive)
  have head : ring.2.head < ring.2.rxBufSize := final.valid.head
  have tail : ring.2.tail < ring.2.rxBufSize := final.valid.tail
  refine ⟨replies, final.items, by omega, by omega, fun dest len =>
    ⟨final.read_keep dest len, final.read_clear dest len⟩⟩

theorem ring_refines_fifo_sample :
    let ops : List RingOp := [.addData [1, 2, 3, 4], .getByte, .addByte 5, .delData 1]
    let ring := runOps ringStep ops (rxBufInit (fun _ => 0) 4)
    let fifo := runOps fifoStep ops (Fifo.empty : Fifo UInt8 3)
    ring.1 = fifo.1 ∧ contents ring.2 = fifo.2.items ∧
      ring.2.head < 4 ∧ ring.2.tail < 4 ∧
      ∀ (dest : Nat → UInt8) (len : Nat),
        let kept := readDataFromBuf ring.2 dest len false
        kept.buf = ring.2 ∧
          readDataFromBuf ring.2 dest len true =
            { kept with buf := (delDataFromBuf kept.buf kept.count).2 } :=
  ring_refines_fifo (fun _ => 0) 4 (by decide) (by decide) _

end LedFirmware
