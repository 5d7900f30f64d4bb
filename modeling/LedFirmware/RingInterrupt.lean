import LedFirmware.RingBuf

/-!
# The ring under its receive interrupt

A round of the frame analysis reads the ring without clearing it and deletes
what the analysis has used.  The receive interrupt may add bytes between any two
steps of the round; the read puts back the head index that it has saved, and the
deletion uses a length that it has computed earlier.
-/

namespace LedFirmware

/-- The bytes that arrive during one round: before the `GetByteFromBuf` of each
index and after the last one, between the read and the deletion, and between the
two halves of the deletion. -/
structure Arrivals where
  reading : Nat → List UInt8
  beforeDel : List UInt8
  duringDel : List UInt8

/-- All of them, for a read of `count` bytes. -/
def Arrivals.added (arrivals : Arrivals) (count : Nat) : List UInt8 :=
  (List.range (count + 1)).flatMap arrivals.reading ++ arrivals.beforeDel ++ arrivals.duringDel

/-- The loop of `ReadDataFromBuf` with its interrupts. -/
def readInterrupted (arrivals : Nat → List UInt8) :
    (count i : Nat) → (dest : Nat → UInt8) → RingBufType → (Nat → UInt8) × RingBufType
  | 0, i, dest, buf => (dest, addDataToBuf buf (arrivals i))
  | count + 1, i, dest, buf =>
      let (byte, buf) := getByteFromBuf (addDataToBuf buf (arrivals i))
      readInterrupted arrivals count (i + 1) (storeByte dest i byte) buf

/-- `ReadDataFromBuf` without clearing, with interrupts in its loop. -/
def readDataInterrupted (arrivals : Nat → List UInt8) (buf : RingBufType)
    (dest : Nat → UInt8) (len : Nat) : ReadData :=
  let len := min len (getLenFromBuf buf)
  let (bytes, after) := readInterrupted arrivals len 0 dest buf
  ⟨len, bytes, { after with head := buf.head }⟩

/-- `DelDataFromBuf` with interrupts between its length and its head update. -/
def delDataInterrupted (arrivals : List UInt8) (buf : RingBufType) (len : Nat) :
    Nat × RingBufType :=
  let len := min len (getLenFromBuf buf)
  let buf := addDataToBuf buf arrivals
  (len, { buf with head := add32 buf.head len % buf.rxBufSize })

/-- The ring after one round of the reader. -/
def roundInterrupted (arrivals : Arrivals) (buf : RingBufType) (dest : Nat → UInt8)
    (request del : Nat) : RingBufType :=
  let read := readDataInterrupted arrivals.reading buf dest request
  (delDataInterrupted arrivals.duringDel (addDataToBuf read.buf arrivals.beforeDel) del).2

/-- Only bytes that were read and then deleted, or that exceed the capacity, are
missing from the ring. -/
def RoundSound (arrivals : Arrivals) (buf : RingBufType) (dest : Nat → UInt8)
    (request del : Nat) : Prop :=
  let read := min request (getLenFromBuf buf)
  let stream := contents buf ++ arrivals.added read
  ∃ removed, contents (roundInterrupted arrivals buf dest request del) = stream.drop removed ∧
    removed ≤ max (min del read) (stream.length - (buf.rxBufSize - 1))

/-! ## Positions in the stream -/

variable {buf : RingBufType} {base start : Nat} {stream : List UInt8}

@[simp] theorem getByteFromBuf_size : (getByteFromBuf buf).2.rxBufSize = buf.rxBufSize := by
  unfold getByteFromBuf
  split <;> rfl

@[simp] theorem readInterrupted_size (arrivals : Nat → List UInt8) (count i : Nat)
    (dest : Nat → UInt8) :
    (readInterrupted arrivals count i dest buf).2.rxBufSize = buf.rxBufSize := by
  induction count generalizing i dest buf with
  | zero => exact addDataToBuf_size _
  | succ count ih =>
      rw [readInterrupted]
      exact (ih (i + 1) _).trans (getByteFromBuf_size.trans (addDataToBuf_size _))

/-- A read of one byte moves the start, if it does anything. -/
theorem Tracks.getByte_moves (tracks : Tracks buf base stream start)
    (bound : buf.rxBufSize < 2 ^ 31) :
    ∃ next, Tracks (getByteFromBuf buf).2 base stream next := by
  rcases Nat.lt_or_ge start stream.length with more | done
  · obtain ⟨-, next, -⟩ := tracks.getByte bound more
    exact ⟨start + 1, next⟩
  · have empty : buf.head = buf.tail := by
      rw [tracks.head, tracks.tail, Nat.le_antisymm tracks.ordered done]
    rw [getByteFromBuf, if_pos empty]
    exact ⟨start, tracks⟩

/-- Wherever the interrupts fall, the loop leaves the stream with the arrivals
behind it. -/
theorem Tracks.readInterrupted (arrivals : Nat → List UInt8)
    (tracks : Tracks buf base stream start) (bound : buf.rxBufSize < 2 ^ 31)
    (count i : Nat) (dest : Nat → UInt8) :
    ∃ next, Tracks (readInterrupted arrivals count i dest buf).2 base
      (stream ++ (List.range' i (count + 1)).flatMap arrivals) next := by
  induction count generalizing i dest buf stream start with
  | zero =>
      rw [LedFirmware.readInterrupted, List.range'_one, List.flatMap_singleton]
      exact ⟨_, tracks.addData bound (arrivals i)⟩
  | succ count ih =>
      have added := tracks.addData bound (arrivals i)
      obtain ⟨next, moved⟩ := added.getByte_moves (by rw [addDataToBuf_size]; exact bound)
      rw [LedFirmware.readInterrupted, List.range'_succ, List.flatMap_cons, ← List.append_assoc]
      exact ih moved (by rw [getByteFromBuf_size, addDataToBuf_size]; exact bound) (i + 1) _

/-- The position of the restored head: with `held` bytes behind it, whole
revolutions of the ring are lost. -/
def restored (size held : Nat) : Nat := size * (held / size)

/-- How many bytes of the stream a round removes, from the number of bytes held
when the head is restored, arrived before the deletion, and pending in all. -/
def removedByRound (size del held before total : Nat) : Nat :=
  let start := max (restored size held) (held + before + 1 - size)
  max start (total + 1 - size) + min del (held + before - start)

theorem restored_le (size held : Nat) : restored size held ≤ held := Nat.mul_div_le held size

theorem restored_mod (base size held : Nat) :
    (base + restored size held) % size = base % size := Nat.add_mul_mod_self_left _ _ _

theorem held_lt_restored {size : Nat} (held : Nat) (positive : 0 < size) :
    held < restored size held + size := Nat.lt_mul_div_succ held positive

/-- A read puts the head back to its old cell. -/
theorem Valid.readData_tracks (valid : Valid buf) (arrivals : Nat → List UInt8)
    (dest : Nat → UInt8) (request : Nat) :
    let held := contents buf ++
      (List.range (min request (getLenFromBuf buf) + 1)).flatMap arrivals
    Tracks (readDataInterrupted arrivals buf dest request).buf buf.head held
      (restored buf.rxBufSize held.length) := by
  intro held
  have positive := valid.tracks.positive
  obtain ⟨next, after⟩ := valid.tracks.readInterrupted arrivals valid.bound
    (min request (getLenFromBuf buf)) 0 dest
  rw [← List.range_eq_range'] at after
  have back := @Tracks.moveHead _ _ _ _ after (restored buf.rxBufSize held.length)
    (restored_le _ _) (by rw [readInterrupted_size]; exact held_lt_restored _ positive)
  have head : (buf.head + restored buf.rxBufSize held.length) %
      (readInterrupted arrivals (min request (getLenFromBuf buf)) 0 dest buf).2.rxBufSize =
      buf.head := by
    rw [readInterrupted_size, restored_mod, Nat.mod_eq_of_lt valid.head]
  rw [head] at back
  exact back

theorem Tracks.delInterrupted (tracks : Tracks buf base stream start)
    (bound : buf.rxBufSize < 2 ^ 31) (arrivals : List UInt8) (len : Nat) :
    Tracks (delDataInterrupted arrivals buf len).2 base (stream ++ arrivals)
      (max start (stream.length + arrivals.length + 1 - buf.rxBufSize) +
        min len (stream.length - start)) := by
  have ordered := tracks.ordered
  have fits := tracks.fits
  have added := tracks.addData bound arrivals
  have inside := added.ordered
  have recent := added.fits
  rw [List.length_append, addDataToBuf_size] at recent
  rw [List.length_append] at inside
  rw [delDataInterrupted, tracks.getLen bound]
  simp only
  rw [added.head, addDataToBuf_size, advance_mod (by omega) bound tracks.positive, Nat.add_assoc]
  have moved := @Tracks.moveHead _ _ _ _ added
    (max start (stream.length + arrivals.length + 1 - buf.rxBufSize) +
      min len (stream.length - start))
    (by rw [List.length_append]; omega)
    (by rw [List.length_append, addDataToBuf_size]; omega)
  rw [addDataToBuf_size] at moved
  exact moved

/-- What a round leaves in the ring, for every interleaving. -/
theorem Valid.round_contents (valid : Valid buf) (arrivals : Arrivals) (dest : Nat → UInt8)
    (request del : Nat) :
    let read := min request (getLenFromBuf buf)
    let held := getLenFromBuf buf + ((List.range (read + 1)).flatMap arrivals.reading).length
    let stream := contents buf ++ arrivals.added read
    let removed := removedByRound buf.rxBufSize del held arrivals.beforeDel.length stream.length
    contents (roundInterrupted arrivals buf dest request del) = stream.drop removed ∧
      removed ≤ stream.length := by
  intro read held stream removed
  have size : (readDataInterrupted arrivals.reading buf dest request).buf.rxBufSize =
      buf.rxBufSize := readInterrupted_size _ _ _ _
  have length : (contents buf).length = getLenFromBuf buf := by
    rw [contents, List.length_map, List.length_range]
  have reading := valid.readData_tracks arrivals.reading dest request
  have before := reading.addData (by rw [size]; exact valid.bound) arrivals.beforeDel
  have after := before.delInterrupted (by rw [addDataToBuf_size, size]; exact valid.bound)
    arrivals.duringDel del
  have whole : contents buf ++ (List.range (read + 1)).flatMap arrivals.reading ++
      arrivals.beforeDel ++ arrivals.duringDel = stream := by
    simp only [stream, Arrivals.added, List.append_assoc]
  rw [whole, addDataToBuf_size, size] at after
  simp only [List.length_append] at after
  have position : removed = max (max (restored buf.rxBufSize held)
        (held + arrivals.beforeDel.length + 1 - buf.rxBufSize))
      (held + arrivals.beforeDel.length + arrivals.duringDel.length + 1 - buf.rxBufSize) +
      min del (held + arrivals.beforeDel.length - max (restored buf.rxBufSize held)
        (held + arrivals.beforeDel.length + 1 - buf.rxBufSize)) := by
    have total : stream.length =
        held + arrivals.beforeDel.length + arrivals.duringDel.length := by
      rw [← whole]
      simp only [List.length_append, length]
      rfl
    rw [← total]
    rfl
  rw [length] at after
  have final : Tracks (roundInterrupted arrivals buf dest request del) buf.head stream removed := by
    rw [position]
    exact after
  have same : (roundInterrupted arrivals buf dest request del).rxBufSize = buf.rxBufSize := by
    simp only [roundInterrupted, delDataInterrupted, addDataToBuf_size, size]
  exact ⟨final.contents (by rw [same]; exact valid.bound), final.ordered⟩

/-! ## When a round is sound -/

/-- Either nothing is ever dropped and the deletion stays within what was read,
or nothing is deleted and putting the head back drops no more than the overflow. -/
def RoundKeeps (size read del held before total : Nat) : Prop :=
  (total < size ∧ (del ≤ read ∨ held + before ≤ read)) ∨
    ((del = 0 ∨ held % size + before = 0) ∧
      (held < size ∨ restored size held + size ≤ total + 1))

theorem removedByRound_le_iff {size read del held before total : Nat} (atLeastTwo : 2 ≤ size)
    (available : read ≤ held) (short : read < size) (ordered : held + before ≤ total) :
    removedByRound size del held before total ≤ max (min del read) (total - (size - 1)) ↔
      RoundKeeps size read del held before total := by
  have whole : restored size held + held % size = held := Nat.div_add_mod held size
  have remainder : held % size < size := Nat.mod_lt _ (by omega)
  have turns : restored size held = 0 ∨ size ≤ restored size held := by
    rcases Nat.eq_zero_or_pos (held / size) with none | some
    · left
      rw [restored, none, Nat.mul_zero]
    · right
      exact Nat.le_mul_of_pos_right size some
  unfold removedByRound RoundKeeps
  dsimp only
  generalize restored size held = back at *
  generalize held % size = rest at *
  subst whole
  rcases Nat.lt_or_ge total size with roomy | full
  · -- Nothing overflows, and the maxima with the overflow disappear.
    rw [Nat.sub_eq_zero_of_le (by omega : total + 1 ≤ size),
      Nat.sub_eq_zero_of_le (by omega : back + rest + before + 1 ≤ size), Nat.max_zero,
      Nat.max_zero, Nat.sub_eq_zero_of_le (by omega : total ≤ size - 1), Nat.max_zero]
    rcases turns with rfl | turned
    · omega
    · omega
  · rw [show total - (size - 1) = total + 1 - size by omega]
    rcases turns with rfl | turned
    · omega
    · omega

/-- The round is sound exactly in those cases. -/
theorem roundSound_iff (arrivals : Arrivals) (buf : RingBufType) (dest : Nat → UInt8)
    (request del : Nat) (valid : Valid buf) (atLeastTwo : 2 ≤ buf.rxBufSize) :
    let read := min request (getLenFromBuf buf)
    let held := getLenFromBuf buf + ((List.range (read + 1)).flatMap arrivals.reading).length
    let before := arrivals.beforeDel.length
    RoundSound arrivals buf dest request del ↔
      RoundKeeps buf.rxBufSize read del held before
        (held + before + arrivals.duringDel.length) := by
  intro read held before
  have length : (contents buf).length = getLenFromBuf buf := by
    rw [contents, List.length_map, List.length_range]
  have short := valid.tracks.fits
  have total : (contents buf ++ arrivals.added read).length =
      held + before + arrivals.duringDel.length := by
    simp only [Arrivals.added, List.length_append, length]
    omega
  obtain ⟨left, inside⟩ := valid.round_contents arrivals dest request del
  rw [total] at left inside
  rw [← removedByRound_le_iff atLeastTwo (by omega) (by omega) (by omega), RoundSound, left, total]
  generalize removedByRound buf.rxBufSize del held before
    (held + before + arrivals.duringDel.length) = removed at *
  constructor
  · rintro ⟨other, same, bound⟩
    have lengths := congrArg List.length same
    rw [List.length_drop, List.length_drop, total] at lengths
    have within : other ≤ held + before + arrivals.duringDel.length :=
      bound.trans (max_le ((min_le_right _ _).trans (by omega)) (Nat.sub_le _ _))
    rw [show removed = other by omega]
    exact bound
  · intro bound
    exact ⟨_, rfl, bound⟩

/-- A full ring of three cells. -/
def fullRing : RingBufType := addDataToBuf (rxBufInit (fun _ => 0) 3) [1, 2]

/-- One byte that arrives between the two steps of the read. -/
def midRead : Arrivals where
  reading i := if i = 1 then [3] else []
  beforeDel := []
  duringDel := []

theorem roundSound_iff_midRead :
    let read := min 2 (getLenFromBuf fullRing)
    let held := getLenFromBuf fullRing + ((List.range (read + 1)).flatMap midRead.reading).length
    let before := midRead.beforeDel.length
    RoundSound midRead fullRing (fun _ => 0) 2 0 ↔
      RoundKeeps fullRing.rxBufSize read 0 held before
        (held + before + midRead.duringDel.length) :=
  roundSound_iff midRead fullRing (fun _ => 0) 2 0
    ⟨by decide, by decide, by decide⟩ (by decide)

/-- The tail has reached the saved head, so that the restored ring looks empty:
all three bytes are gone, although nothing was to be deleted. -/
theorem midRead_not_roundSound : ¬ RoundSound midRead fullRing (fun _ => 0) 2 0 := by
  rintro ⟨removed, same, bound⟩
  have empty : contents (roundInterrupted midRead fullRing (fun _ => 0) 2 0) = [] := by decide
  have stream : contents fullRing ++ midRead.added (min 2 (getLenFromBuf fullRing)) =
      [1, 2, 3] := by decide
  have size : fullRing.rxBufSize = 3 := by decide
  rw [stream, size] at bound
  rw [stream, empty] at same
  have lengths := congrArg List.length same
  simp at lengths bound
  omega

end LedFirmware
