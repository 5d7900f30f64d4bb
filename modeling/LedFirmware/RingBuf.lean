import LedFirmware.BoundedFifo
import LedFirmware.FrameScan
import Mathlib.Data.List.GetD

/-!
# The receive ring

`usdl_buf.c` keeps received bytes between a head and a tail index that wrap at
the size of the buffer, one cell staying free.  `Tracks` relates a ring to the
stream of all bytes that were ever added: the indices are stream positions
modulo the size, and the last positions of the stream are in their cells.
-/

namespace LedFirmware

open BoundedFifo

structure RingBufType where
  head : Nat
  tail : Nat
  rxBuf : Nat → UInt8
  rxBufSize : Nat

/-- `RxBufInit`, with whatever the allocated memory contains. -/
def rxBufInit (memory : Nat → UInt8) (size : Nat) : RingBufType := ⟨0, 0, memory, size⟩

def addByteToBuf (buf : RingBufType) (byte : UInt8) : RingBufType :=
  let rxBuf := fun cell => if cell = buf.tail then byte else buf.rxBuf cell
  let tail := add32 buf.tail 1 % buf.rxBufSize
  if tail = buf.head then
    { buf with rxBuf, tail, head := add32 buf.head 1 % buf.rxBufSize }
  else { buf with rxBuf, tail }

def addDataToBuf (buf : RingBufType) (data : List UInt8) : RingBufType :=
  data.foldl addByteToBuf buf

def getLenFromBuf (buf : RingBufType) : Nat :=
  sub32 (add32 buf.rxBufSize buf.tail) buf.head % buf.rxBufSize

/-- The byte read, if there is one. -/
def getByteFromBuf (buf : RingBufType) : Option UInt8 × RingBufType :=
  if buf.head = buf.tail then (none, buf)
  else (some (buf.rxBuf buf.head), { buf with head := add32 buf.head 1 % buf.rxBufSize })

/-- The number of bytes deleted. -/
def delDataFromBuf (buf : RingBufType) (len : Nat) : Nat × RingBufType :=
  let len := min len (getLenFromBuf buf)
  (len, { buf with head := add32 buf.head len % buf.rxBufSize })

/-- Store a byte that was read; a failed read leaves its place as it is. -/
def storeByte (dest : Nat → UInt8) (i : Nat) (byte : Option UInt8) : Nat → UInt8 :=
  fun index => if index = i then byte.getD (dest i) else dest index

/-- The loop of `ReadDataFromBuf`: `count` bytes to `dest` from index `i` on. -/
def readBytes : (count i : Nat) → (dest : Nat → UInt8) → RingBufType →
    (Nat → UInt8) × RingBufType
  | 0, _, dest, buf => (dest, buf)
  | count + 1, i, dest, buf =>
      let (byte, buf) := getByteFromBuf buf
      readBytes count (i + 1) (storeByte dest i byte) buf

/-- What `ReadDataFromBuf` returns and leaves behind. -/
structure ReadData where
  count : Nat
  dest : Nat → UInt8
  buf : RingBufType

def readDataFromBuf (buf : RingBufType) (dest : Nat → UInt8) (len : Nat) (clear : Bool) :
    ReadData :=
  let len := min len (getLenFromBuf buf)
  let (bytes, after) := readBytes len 0 dest buf
  ⟨len, bytes, if clear then after else { after with head := buf.head }⟩

def clearDateFromBuf (buf : RingBufType) : RingBufType := { buf with tail := buf.head }

/-- The bytes in the ring, oldest first. -/
def contents (buf : RingBufType) : List UInt8 :=
  (List.range (getLenFromBuf buf)).map fun index =>
    buf.rxBuf ((buf.head + index) % buf.rxBufSize)

/-- Both indices lie in the buffer, and no index computation exceeds 32 bits. -/
structure Valid (buf : RingBufType) : Prop where
  head : buf.head < buf.rxBufSize
  tail : buf.tail < buf.rxBufSize
  bound : buf.rxBufSize < 2 ^ 31

/-- The ring holds the bytes of a stream from a position on; stream positions
are counted from the cell `base`. -/
structure Tracks (buf : RingBufType) (base : Nat) (stream : List UInt8) (start : Nat) : Prop where
  head : buf.head = (base + start) % buf.rxBufSize
  tail : buf.tail = (base + stream.length) % buf.rxBufSize
  ordered : start ≤ stream.length
  fits : stream.length < start + buf.rxBufSize
  cells : ∀ index < stream.length, stream.length ≤ index + buf.rxBufSize →
    buf.rxBuf ((base + index) % buf.rxBufSize) = stream.getD index 0

/-! ## Circular indices -/

theorem mod_add {size distance : Nat} (x : Nat) (short : distance < size) :
    (x + distance) % size = if x % size + distance < size then x % size + distance
      else x % size + distance - size := by
  have bound := Nat.mod_lt x (show 0 < size by omega)
  rw [Nat.add_mod, Nat.mod_eq_of_lt short]
  by_cases early : x % size + distance < size
  · rw [if_pos early, Nat.mod_eq_of_lt early]
  · rw [if_neg early, Nat.mod_eq_sub_mod (by omega), Nat.mod_eq_of_lt (by omega)]

/-- Positions less than one revolution apart have different cells. -/
theorem mod_add_ne {size distance : Nat} (x : Nat) (positive : 0 < distance)
    (short : distance < size) : (x + distance) % size ≠ x % size := by
  have bound := Nat.mod_lt x (show 0 < size by omega)
  rw [mod_add x short]
  split <;> omega

theorem add32_eq {a b : Nat} (bound : a + b < 2 ^ 32) : add32 a b = a + b :=
  Nat.mod_eq_of_lt bound

variable {buf : RingBufType} {base start : Nat} {stream : List UInt8}

theorem Tracks.positive (tracks : Tracks buf base stream start) : 0 < buf.rxBufSize := by
  have ordered := tracks.ordered
  have fits := tracks.fits
  omega

theorem Tracks.valid (tracks : Tracks buf base stream start) (bound : buf.rxBufSize < 2 ^ 31) :
    Valid buf := by
  have positive := tracks.positive
  refine ⟨?_, ?_, bound⟩
  · rw [tracks.head]
    exact Nat.mod_lt _ positive
  · rw [tracks.tail]
    exact Nat.mod_lt _ positive

/-- A step from a stream position. -/
theorem advance_mod {position count size : Nat} (step : count ≤ size) (bound : size < 2 ^ 31)
    (positive : 0 < size) :
    add32 (position % size) count % size = (position + count) % size := by
  have inside := Nat.mod_lt position positive
  rw [add32_eq (by omega), Nat.mod_add_mod]

theorem getLenFromBuf_of_valid (valid : Valid buf) :
    getLenFromBuf buf = (buf.rxBufSize + buf.tail - buf.head) % buf.rxBufSize := by
  obtain ⟨head, tail, bound⟩ := valid
  rw [getLenFromBuf, add32_eq (by omega), sub32_le (by omega) (by omega)]

theorem Tracks.getLen (tracks : Tracks buf base stream start) (bound : buf.rxBufSize < 2 ^ 31) :
    getLenFromBuf buf = stream.length - start := by
  have ordered := tracks.ordered
  have fits := tracks.fits
  have inside := Nat.mod_lt (base + start) tracks.positive
  have position : base + stream.length = base + start + (stream.length - start) := by omega
  rw [getLenFromBuf_of_valid (tracks.valid bound), tracks.head, tracks.tail, position,
    mod_add _ (by omega)]
  split
  · rw [show buf.rxBufSize + ((base + start) % buf.rxBufSize + (stream.length - start)) -
        (base + start) % buf.rxBufSize = stream.length - start + buf.rxBufSize by omega,
      Nat.add_mod_right, Nat.mod_eq_of_lt (by omega)]
  · rw [show buf.rxBufSize + ((base + start) % buf.rxBufSize + (stream.length - start) -
        buf.rxBufSize) - (base + start) % buf.rxBufSize = stream.length - start by omega,
      Nat.mod_eq_of_lt (by omega)]

/-- The contents are the stream from the start on. -/
theorem Tracks.contents (tracks : Tracks buf base stream start)
    (bound : buf.rxBufSize < 2 ^ 31) : contents buf = stream.drop start := by
  have fits := tracks.fits
  apply List.ext_getElem
  · rw [LedFirmware.contents, List.length_map, List.length_range, tracks.getLen bound,
      List.length_drop]
  · intro index inside within
    rw [List.length_drop] at within
    have cell := tracks.cells (start + index) (by omega) (by omega)
    rw [List.getD_eq_getElem _ _ (by omega)] at cell
    simp only [LedFirmware.contents, List.getElem_map, List.getElem_range, List.getElem_drop]
    rw [tracks.head, Nat.mod_add_mod, Nat.add_assoc, cell]

/-- A ring tracks its own contents. -/
theorem Valid.tracks (valid : Valid buf) : Tracks buf buf.head (contents buf) 0 := by
  have length : (contents buf).length = getLenFromBuf buf := by
    rw [contents, List.length_map, List.length_range]
  have size := getLenFromBuf_of_valid valid
  obtain ⟨head, tail, bound⟩ := valid
  have short : getLenFromBuf buf < buf.rxBufSize := by
    rw [size]
    exact Nat.mod_lt _ (by omega)
  refine ⟨?_, ?_, Nat.zero_le _, by omega, ?_⟩
  · rw [Nat.add_zero, Nat.mod_eq_of_lt head]
  · rw [length, mod_add _ short, Nat.mod_eq_of_lt head, size]
    by_cases wrapped : buf.head ≤ buf.tail
    · rw [show buf.rxBufSize + buf.tail - buf.head = buf.tail - buf.head + buf.rxBufSize by omega,
        Nat.add_mod_right, Nat.mod_eq_of_lt (by omega)]
      split <;> omega
    · rw [Nat.mod_eq_of_lt (by omega)]
      split <;> omega
  · intro index inside _
    rw [length] at inside
    rw [List.getD_eq_getElem _ _ (by rw [length]; exact inside)]
    simp only [contents, List.getElem_map, List.getElem_range]

/-! ## Operations on the stream -/

@[simp] theorem addByteToBuf_size (byte : UInt8) :
    (addByteToBuf buf byte).rxBufSize = buf.rxBufSize := by
  unfold addByteToBuf
  dsimp only
  split <;> rfl

@[simp] theorem addDataToBuf_size (data : List UInt8) :
    (addDataToBuf buf data).rxBufSize = buf.rxBufSize := by
  induction data generalizing buf with
  | nil => rfl
  | cons byte later ih => exact ih.trans (addByteToBuf_size byte)

/-- A byte is appended to the stream; in a full ring the oldest one is dropped. -/
theorem Tracks.addByte (tracks : Tracks buf base stream start) (bound : buf.rxBufSize < 2 ^ 31)
    (byte : UInt8) :
    Tracks (addByteToBuf buf byte) base (stream ++ [byte])
      (max start (stream.length + 2 - buf.rxBufSize)) := by
  have positive := tracks.positive
  have ordered := tracks.ordered
  have fits := tracks.fits
  have length : (stream ++ [byte]).length = stream.length + 1 := by simp
  have next : add32 buf.tail 1 % buf.rxBufSize =
      (base + start + (stream.length + 1 - start)) % buf.rxBufSize := by
    rw [tracks.tail, advance_mod (by omega) bound positive]
    congr 1
    omega
  have stored (index : Nat) (inside : index < (stream ++ [byte]).length)
      (recent : (stream ++ [byte]).length ≤ index + buf.rxBufSize) :
      (if (base + index) % buf.rxBufSize = buf.tail then byte
        else buf.rxBuf ((base + index) % buf.rxBufSize)) = (stream ++ [byte]).getD index 0 := by
    rw [length] at inside recent
    rcases Nat.eq_or_lt_of_le (Nat.lt_succ_iff.mp inside) with rfl | early
    · rw [if_pos tracks.tail.symm, List.getD_append_right _ _ _ _ le_rfl, Nat.sub_self]
      rfl
    · have other := @mod_add_ne buf.rxBufSize (stream.length - index) (base + index) (by omega)
        (by omega)
      rw [show base + index + (stream.length - index) = base + stream.length by omega,
        ← tracks.tail] at other
      rw [if_neg other.symm, tracks.cells index early (by omega), List.getD_append _ _ _ _ early]
  by_cases full : stream.length + 1 = start + buf.rxBufSize
  · have wrapped : add32 buf.tail 1 % buf.rxBufSize = buf.head := by
      rw [next, tracks.head, show stream.length + 1 - start = buf.rxBufSize by omega,
        Nat.add_mod_right]
    have dropped : max start (stream.length + 2 - buf.rxBufSize) = start + 1 := by omega
    rw [addByteToBuf]
    simp only [if_pos wrapped, dropped]
    refine ⟨?_, ?_, by omega, by simp only; omega, stored⟩
    · simp only
      rw [tracks.head, advance_mod (by omega) bound positive, Nat.add_assoc]
    · simp only
      rw [next, length]
      congr 1
      omega
  · have apart : add32 buf.tail 1 % buf.rxBufSize ≠ buf.head := by
      rw [next, tracks.head]
      exact mod_add_ne _ (by omega) (by omega)
    have kept : max start (stream.length + 2 - buf.rxBufSize) = start := by omega
    rw [addByteToBuf]
    simp only [if_neg apart, kept]
    refine ⟨tracks.head, ?_, by omega, by simp only; omega, stored⟩
    simp only
    rw [next, length]
    congr 1
    omega

/-- Bytes beyond the capacity drop the oldest ones. -/
theorem Tracks.addData (tracks : Tracks buf base stream start) (bound : buf.rxBufSize < 2 ^ 31)
    (data : List UInt8) :
    Tracks (addDataToBuf buf data) base (stream ++ data)
      (max start (stream.length + data.length + 1 - buf.rxBufSize)) := by
  induction data generalizing buf stream start with
  | nil =>
      have fits := tracks.fits
      rw [List.append_nil, List.length_nil, Nat.add_zero, Nat.max_eq_left (by omega)]
      exact tracks
  | cons byte later ih =>
      have rest := ih (tracks.addByte bound byte) (by rw [addByteToBuf_size]; exact bound)
      rw [List.append_assoc, List.singleton_append, List.length_append, addByteToBuf_size] at rest
      have total : max (max start (stream.length + 2 - buf.rxBufSize))
          (stream.length + [byte].length + later.length + 1 - buf.rxBufSize) =
          max start (stream.length + (byte :: later).length + 1 - buf.rxBufSize) := by
        simp only [List.length_cons, List.length_nil]
        omega
      rw [total] at rest
      exact rest

/-- The byte at the start is read. -/
theorem Tracks.getByte (tracks : Tracks buf base stream start) (bound : buf.rxBufSize < 2 ^ 31)
    (more : start < stream.length) :
    (getByteFromBuf buf).1 = some (stream.getD start 0) ∧
      Tracks (getByteFromBuf buf).2 base stream (start + 1) ∧
      (getByteFromBuf buf).2 = { buf with head := (base + (start + 1)) % buf.rxBufSize } := by
  have positive := tracks.positive
  have fits := tracks.fits
  have apart : buf.head ≠ buf.tail := by
    have other := @mod_add_ne buf.rxBufSize (stream.length - start) (base + start) (by omega)
      (by omega)
    rw [show base + start + (stream.length - start) = base + stream.length by omega,
      ← tracks.head, ← tracks.tail] at other
    exact other.symm
  have moved : add32 buf.head 1 % buf.rxBufSize = (base + (start + 1)) % buf.rxBufSize := by
    rw [tracks.head, advance_mod (by omega) bound positive, Nat.add_assoc]
  have byte : buf.rxBuf buf.head = stream.getD start 0 := by
    rw [tracks.head]
    exact tracks.cells start more (by omega)
  rw [getByteFromBuf, if_neg apart, moved, byte]
  exact ⟨rfl, ⟨rfl, tracks.tail, more, by simp only; omega, tracks.cells⟩, rfl⟩

/-- The head may be moved to any later position, and back to any position whose
byte has not been overwritten. -/
theorem Tracks.moveHead (tracks : Tracks buf base stream start) {position : Nat}
    (ordered : position ≤ stream.length) (fits : stream.length < position + buf.rxBufSize) :
    Tracks { buf with head := (base + position) % buf.rxBufSize } base stream position :=
  ⟨rfl, tracks.tail, ordered, fits, tracks.cells⟩

theorem Tracks.del (tracks : Tracks buf base stream start) (bound : buf.rxBufSize < 2 ^ 31)
    (len : Nat) :
    (delDataFromBuf buf len).1 = min len (stream.length - start) ∧
      Tracks (delDataFromBuf buf len).2 base stream (start + min len (stream.length - start)) := by
  have ordered := tracks.ordered
  have fits := tracks.fits
  rw [delDataFromBuf, tracks.getLen bound]
  refine ⟨rfl, ?_⟩
  simp only
  rw [tracks.head, advance_mod (by omega) bound tracks.positive, Nat.add_assoc]
  exact tracks.moveHead (by omega) (by omega)

/-- The read loop stores the bytes from the start on. -/
theorem Tracks.readBytes (tracks : Tracks buf base stream start)
    (bound : buf.rxBufSize < 2 ^ 31) {count : Nat} (available : start + count ≤ stream.length)
    (i : Nat) (dest : Nat → UInt8) :
    (readBytes count i dest buf).2 =
        { buf with head := (base + (start + count)) % buf.rxBufSize } ∧
      (∀ index < count, (LedFirmware.readBytes count i dest buf).1 (i + index) =
        stream.getD (start + index) 0) ∧
      ∀ index, index < i ∨ i + count ≤ index →
        (LedFirmware.readBytes count i dest buf).1 index = dest index := by
  induction count generalizing buf start i dest with
  | zero =>
      refine ⟨?_, by omega, fun _ _ => rfl⟩
      rw [Nat.add_zero, ← tracks.head]
      rfl
  | succ count ih =>
      obtain ⟨byte, next, moved⟩ := tracks.getByte bound (by omega)
      obtain ⟨after, inside, outside⟩ := ih next (by rw [moved]; exact bound)
        (by omega) (i + 1) (storeByte dest i (getByteFromBuf buf).1)
      rw [LedFirmware.readBytes]
      refine ⟨?_, ?_, ?_⟩
      · rw [after, moved]
        simp only
        rw [show start + 1 + count = start + (count + 1) by omega]
      · intro index within
        rcases Nat.eq_zero_or_pos index with rfl | positive
        · rw [outside (i + 0) (by omega), storeByte, if_pos (by omega), byte]
          rfl
        · rw [show i + index = i + 1 + (index - 1) by omega, inside _ (by omega)]
          congr 1
          omega
      · intro index away
        rw [outside index (by omega), storeByte, if_neg (by omega)]

end LedFirmware
