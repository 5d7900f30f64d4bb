import LedFirmware.RingBlocks

/-!
# Copies into and out of a circular buffer

`MemLineToCycle`, `MemCycleToLine` and `MemCycleSubToLine` copy blocks with `memcpy`.
A buffer is the list of its bytes, so that a copy that would leave it has no result.
All sums that the functions form are at most the size of a buffer.
-/

namespace LedFirmware

open RingBlocks

/-- Copy a block from one buffer to another, if it lies in both. -/
def memcpy (dst : List UInt8) (dstAt : Nat) (src : List UInt8) (srcAt len : Nat) :
    Option (List UInt8) :=
  if dstAt + len ≤ dst.length ∧ srcAt + len ≤ src.length then
    some (overwrite dst dstAt ((src.drop srcAt).take len))
  else none

/-- The loop of `MemLineToCycle` and its last copy.  `startOffset` is where the last copy
begins, and the returned pointer is its offset. -/
def lineToCycleLoop (dst : List UInt8) (dstSize startOffset : Nat) (src : List UInt8)
    (srcAt len copyLen : Nat) (positive : 0 < copyLen) : Option (List UInt8 × Nat) :=
  if copyLen < len then
    memcpy dst 0 src srcAt dstSize >>= fun dst =>
      lineToCycleLoop dst dstSize startOffset src (srcAt + copyLen) (len - copyLen) copyLen positive
  else
    memcpy dst startOffset src srcAt len >>= fun dst =>
      some (dst, (startOffset + len) % dstSize)
  termination_by len

def memLineToCycle (dst : List UInt8) (dstSize startOffset : Nat) (src : List UInt8) (len : Nat) :
    Option (List UInt8 × Nat) :=
  if valid : dstSize = 0 ∨ dstSize ≤ startOffset then some (dst, 0)
  else
    let copyLen := dstSize - startOffset
    if copyLen < len then
      memcpy dst startOffset src 0 (dstSize - startOffset) >>= fun dst =>
        lineToCycleLoop dst dstSize 0 src copyLen (len - copyLen) dstSize (by omega)
    else lineToCycleLoop dst dstSize startOffset src 0 len copyLen (by omega)

/-- The destination and the number of bytes written to it. -/
def memCycleToLine (dst src : List UInt8) (startPos endPos srcSize : Nat) :
    Option (List UInt8 × Nat) :=
  if startPos < endPos then
    let len := endPos - startPos
    memcpy dst 0 src startPos len >>= fun dst => some (dst, len)
  else if endPos < startPos then
    let len := srcSize - startPos
    memcpy dst 0 src startPos len >>= fun dst =>
      memcpy dst len src 0 endPos >>= fun dst => some (dst, len + endPos)
  else some (dst, 0)

def memCycleSubToLine (dst src : List UInt8) (startPos endPos srcSize requestLen : Nat) :
    Option (List UInt8 × Nat) :=
  if startPos < endPos then
    let headLen := endPos - startPos
    let headLen := if requestLen < headLen then requestLen else headLen
    memcpy dst 0 src startPos headLen >>= fun dst => some (dst, headLen)
  else if endPos < startPos then
    let headLen := srcSize - startPos
    if requestLen ≤ headLen then
      memcpy dst 0 src startPos requestLen >>= fun dst => some (dst, requestLen)
    else
      memcpy dst 0 src startPos headLen >>= fun dst =>
        if requestLen - headLen ≤ endPos then
          memcpy dst headLen src 0 (requestLen - headLen) >>= fun dst => some (dst, requestLen)
        else memcpy dst headLen src 0 endPos >>= fun dst => some (dst, headLen + endPos)
  else some (dst, 0)

/-- The bytes of a ring between two positions, in ring order. -/
def between (ring : List UInt8) (startPos endPos : Nat) : List UInt8 :=
  readEach ring startPos ((endPos + ring.length - startPos) % ring.length)

variable {ring dst src : List UInt8} {startPos endPos : Nat}

theorem memcpy_inside {dstAt srcAt len : Nat} (into : dstAt + len ≤ dst.length)
    (from' : srcAt + len ≤ src.length) :
    memcpy dst dstAt src srcAt len = some (overwrite dst dstAt ((src.drop srcAt).take len)) :=
  if_pos ⟨into, from'⟩

/-! ## From a line to the ring -/

/-- Writing the next `len` bytes is writing a block and then the bytes behind it. -/
theorem take_split {srcAt len : Nat} (block : Nat) (more : block ≤ len) :
    (src.drop srcAt).take len =
      (src.drop srcAt).take block ++ (src.drop (srcAt + block)).take (len - block) := by
  rw [← List.drop_drop, ← List.take_add, Nat.add_sub_cancel' more]

/-- A copy is the writing of its bytes, one at a time. -/
theorem memcpy_eq_writeEach {srcAt len : Nat} (inside : startPos < ring.length)
    (fits : startPos + len ≤ ring.length) (from' : srcAt + len ≤ src.length) :
    memcpy ring startPos src srcAt len =
        some (writeEach ring startPos ((src.drop srcAt).take len)).1 ∧
      (writeEach ring startPos ((src.drop srcAt).take len)).2 =
        (startPos + len) % ring.length ∧
      (writeEach ring startPos ((src.drop srcAt).take len)).1.length = ring.length := by
  have taken : ((src.drop srcAt).take len).length = len := by
    rw [List.length_take, List.length_drop]
    omega
  rw [writeEach_block inside (by omega), memcpy_inside fits from', taken]
  exact ⟨rfl, rfl, length_overwrite (by omega)⟩

/-- Once the writing has wrapped around, every iteration fills the whole ring. -/
theorem lineToCycleLoop_eq {srcAt len : Nat} (positive : 0 < ring.length)
    (from' : srcAt + len ≤ src.length) :
    lineToCycleLoop ring ring.length 0 src srcAt len ring.length positive =
      some (writeEach ring 0 ((src.drop srcAt).take len)) := by
  induction measured : len using Nat.strongRecOn generalizing ring srcAt len with
  | ind rank ih =>
      subst measured
      rw [lineToCycleLoop]
      by_cases more : ring.length < len
      · obtain ⟨copied, position, length⟩ := @memcpy_eq_writeEach ring src 0 srcAt ring.length
          positive (by omega) (by omega)
        rw [if_pos more, copied, take_split ring.length (Nat.le_of_lt more), writeEach_append,
          position]
        rw [Nat.zero_add, Nat.mod_self]
        have rest := @ih (len - ring.length) (by omega)
          (writeEach ring 0 ((src.drop srcAt).take ring.length)).1 (srcAt + ring.length)
          (len - ring.length) (by omega) (by omega) rfl
        simp only [length] at rest
        exact rest
      · obtain ⟨copied, position, -⟩ := @memcpy_eq_writeEach ring src 0 srcAt len
          positive (by omega) (by omega)
        rw [if_neg more, copied, ← position]
        rfl

theorem memLineToCycle_eq {len : Nat} (inside : startPos < ring.length)
    (from' : len ≤ src.length) :
    memLineToCycle ring ring.length startPos src len =
      some (writeEach ring startPos (src.take len)) := by
  have whole : src.take len = (src.drop 0).take len := by rw [List.drop_zero]
  rw [memLineToCycle, dif_neg (by omega)]
  dsimp only
  by_cases more : ring.length - startPos < len
  · obtain ⟨copied, position, length⟩ :=
      @memcpy_eq_writeEach ring src startPos 0 (ring.length - startPos) inside (by omega) (by omega)
    rw [if_pos more, copied, whole, take_split (ring.length - startPos) (Nat.le_of_lt more),
      writeEach_append, position, Nat.add_sub_cancel' (Nat.le_of_lt inside), Nat.mod_self,
      Nat.zero_add]
    have rest := @lineToCycleLoop_eq
      (writeEach ring startPos ((src.drop 0).take (ring.length - startPos))).1 src
      (ring.length - startPos) (len - (ring.length - startPos)) (by omega) (by omega)
    simp only [length] at rest
    exact rest
  · obtain ⟨copied, position, -⟩ := @memcpy_eq_writeEach ring src startPos 0 len
      inside (by omega) (by omega)
    rw [if_neg more, lineToCycleLoop, if_neg more, copied, whole, ← position]
    rfl

/-! ## From the ring to a line -/

/-- The number of bytes between two positions, by their order. -/
theorem between_count (inside : startPos < ring.length) (inside' : endPos < ring.length) :
    (endPos + ring.length - startPos) % ring.length =
      if startPos < endPos then endPos - startPos
      else if endPos < startPos then ring.length - startPos + endPos else 0 := by
  split
  · rw [show endPos + ring.length - startPos = endPos - startPos + ring.length by omega,
      Nat.add_mod_right, Nat.mod_eq_of_lt (by omega)]
  · split
    · rw [show endPos + ring.length - startPos = ring.length - startPos + endPos by omega,
        Nat.mod_eq_of_lt (by omega)]
    · rw [show endPos + ring.length - startPos = ring.length by omega, Nat.mod_self]

/-- The first block of a copy out of the ring. -/
theorem copy_head {count : Nat} (fits : startPos + count ≤ ring.length)
    (room : count ≤ dst.length) :
    memcpy dst 0 ring startPos count =
      some (readEach ring startPos count ++ dst.drop count) := by
  have taken : ((ring.drop startPos).take count).length = count := by
    rw [List.length_take, List.length_drop]
    omega
  rw [memcpy_inside (by omega) fits, readEach_block fits, overwrite, taken]
  simp

/-- The block behind it, from the start of the ring. -/
theorem copy_tail {count : Nat} (inside : startPos < ring.length) (fits : count ≤ ring.length)
    (room : ring.length - startPos + count ≤ dst.length) :
    memcpy (readEach ring startPos (ring.length - startPos) ++
        dst.drop (ring.length - startPos)) (ring.length - startPos) ring 0 count =
      some (readEach ring startPos (ring.length - startPos + count) ++
        dst.drop (ring.length - startPos + count)) := by
  have head := @length_readEach _ ring startPos (ring.length - startPos) inside
  have taken : ((ring.drop 0).take count).length = count := by
    rw [List.length_take, List.length_drop]
    omega
  have wrapped : (startPos + (ring.length - startPos)) % ring.length = 0 := by
    rw [Nat.add_sub_cancel' (Nat.le_of_lt inside), Nat.mod_self]
  have whole : (readEach ring startPos (ring.length - startPos) ++
      dst.drop (ring.length - startPos)).length = dst.length := by
    rw [List.length_append, head, List.length_drop]
    omega
  have block : readEach ring 0 count = (ring.drop 0).take count := readEach_block (by omega)
  have rest : (readEach ring startPos (ring.length - startPos) ++
      dst.drop (ring.length - startPos)).drop (ring.length - startPos + count) =
        dst.drop (ring.length - startPos + count) := by
    rw [List.drop_append, head, List.drop_drop, List.drop_of_length_le (by omega),
      List.nil_append, Nat.add_sub_cancel_left]
  rw [memcpy_inside (by rw [whole]; exact room) (by omega), overwrite, taken,
    List.take_left' head, rest, readEach_add inside, wrapped, block]

theorem memCycleToLine_eq (inside : startPos < ring.length) (inside' : endPos < ring.length)
    (room : (between ring startPos endPos).length ≤ dst.length) :
    memCycleToLine dst ring startPos endPos ring.length =
      some (between ring startPos endPos ++ dst.drop (between ring startPos endPos).length,
        (between ring startPos endPos).length) := by
  rw [between, length_readEach inside, between_count inside inside'] at room ⊢
  rw [memCycleToLine]
  by_cases straight : startPos < endPos
  · simp only [if_pos straight] at room ⊢
    rw [copy_head (by omega) room]
    rfl
  · by_cases wraps : endPos < startPos
    · simp only [if_neg straight, if_pos wraps] at room ⊢
      rw [copy_head (by omega) (by omega), Option.bind_eq_bind, Option.bind_some,
        copy_tail inside (by omega) room]
      rfl
    · simp only [if_neg straight, if_neg wraps]
      rfl

theorem memCycleSubToLine_eq {request : Nat} (inside : startPos < ring.length)
    (inside' : endPos < ring.length)
    (room : ((between ring startPos endPos).take request).length ≤ dst.length) :
    memCycleSubToLine dst ring startPos endPos ring.length request =
      some ((between ring startPos endPos).take request ++
          dst.drop ((between ring startPos endPos).take request).length,
        ((between ring startPos endPos).take request).length) := by
  rw [between, take_readEach inside, length_readEach inside, between_count inside inside']
    at room ⊢
  rw [memCycleSubToLine]
  by_cases straight : startPos < endPos
  · simp only [if_pos straight] at room ⊢
    have count : (if request < endPos - startPos then request else endPos - startPos) =
        min request (endPos - startPos) := by
      split <;> omega
    rw [count, copy_head (by omega) room]
    rfl
  · by_cases wraps : endPos < startPos
    · simp only [if_neg straight, if_pos wraps] at room ⊢
      by_cases head : request ≤ ring.length - startPos
      · have count : min request (ring.length - startPos + endPos) = request := by omega
        rw [count] at room ⊢
        rw [if_pos head, copy_head (by omega) room]
        rfl
      · rw [if_neg head, copy_head (by omega) (by omega), Option.bind_eq_bind, Option.bind_some]
        by_cases tail : request - (ring.length - startPos) ≤ endPos
        · have count : min request (ring.length - startPos + endPos) =
              ring.length - startPos + (request - (ring.length - startPos)) := by omega
          rw [count] at room ⊢
          rw [if_pos tail, copy_tail inside (by omega) room,
            Nat.add_sub_cancel' (Nat.le_of_not_le head)]
          rfl
        · have count : min request (ring.length - startPos + endPos) =
              ring.length - startPos + endPos := by omega
          rw [count] at room ⊢
          rw [if_neg tail, copy_tail inside (by omega) room]
          rfl
    · simp only [if_neg straight, if_neg wraps, Nat.min_zero]
      rfl

/-- From every position of a ring the copies agree with those of single bytes.  No copy
leaves a buffer: the ring is the list of its cells, the source need hold no more than `len`
bytes, and the destination no more than the bytes that are returned. -/
theorem circular_copies (ring : List UInt8) (startPos endPos : Nat)
    (inside : startPos < ring.length) (inside' : endPos < ring.length) :
    (∀ (src : List UInt8) (len : Nat), len ≤ src.length →
        memLineToCycle ring ring.length startPos src len =
          some (writeEach ring startPos (src.take len))) ∧
      (∀ dst : List UInt8, (between ring startPos endPos).length ≤ dst.length →
        memCycleToLine dst ring startPos endPos ring.length =
          some (between ring startPos endPos ++ dst.drop (between ring startPos endPos).length,
            (between ring startPos endPos).length)) ∧
      ∀ (dst : List UInt8) (request : Nat),
        ((between ring startPos endPos).take request).length ≤ dst.length →
          memCycleSubToLine dst ring startPos endPos ring.length request =
            some ((between ring startPos endPos).take request ++
                dst.drop ((between ring startPos endPos).take request).length,
              ((between ring startPos endPos).take request).length) :=
  ⟨fun _ _ from' => memLineToCycle_eq inside from',
    fun _ room => memCycleToLine_eq inside inside' room,
    fun _ _ room => memCycleSubToLine_eq inside inside' room⟩

/-- Three cells: written from the last one with more than the ring holds, and read from the
last one to the one behind it. -/
theorem circular_copies_three :
    memLineToCycle [1, 2, 3] 3 2 [4, 5, 6, 7, 8] 5 =
        some (writeEach [1, 2, 3] 2 [4, 5, 6, 7, 8]) ∧
      memCycleToLine [0, 0] [1, 2, 3] 2 1 3 = some ([3, 1], 2) ∧
        memCycleSubToLine [0, 0] [1, 2, 3] 2 1 3 1 = some ([3, 0], 1) :=
  ⟨(circular_copies [1, 2, 3] 2 1 (by decide) (by decide)).1 [4, 5, 6, 7, 8] 5 (by decide),
    (circular_copies [1, 2, 3] 2 1 (by decide) (by decide)).2.1 [0, 0] (by decide),
    (circular_copies [1, 2, 3] 2 1 (by decide) (by decide)).2.2 [0, 0] 1 (by decide)⟩

end LedFirmware
