import LedFirmware.FrameAccept
import Mathlib.Data.List.GetD

/-!
# Building a frame and finding it again

The frame that all constructors of both firmwares build, and the frames that a
sender may transmit.  A frame is found behind any bytes without a head, and its
own bytes decide that it is accepted.
-/

namespace LedFirmware

def lowByte (number : UInt16) : UInt8 := number.toUInt8

def highByte (number : UInt16) : UInt8 := (number >>> 8).toUInt8

def sum8 (bytes : List UInt8) : UInt8 := bytes.foldl (· + ·) 0

/-- A frame with the given function code and payload. -/
def construct (code : UInt8) (payload : List UInt8) : List UInt8 :=
  let dataLen := payload.length + 6
  let body := UInt8.ofNat dataLen :: UInt8.ofNat (dataLen / 256) :: code :: payload
  commProtocolHead :: body ++ [sum8 body, commProtocolTail]

/-- The bytes from an index of a buffer on. -/
def bytesFrom (buf : Nat → UInt8) (start : Nat) : Nat → UInt8 := fun index => buf (start + index)

/-- The bytes are one frame, with a length field that says so. -/
structure IsFrame (protocol : Protocol) (frame : List UInt8) : Prop where
  length : frameLen (bufferOf frame) 0 = frame.length
  whole : FrameAt protocol (bufferOf frame) frame.length 0

/-- The bytes of a list lie in a buffer from an index on. -/
def Holds (buf : Nat → UInt8) (start : Nat) (bytes : List UInt8) : Prop :=
  ∀ index < bytes.length, buf (start + index) = bufferOf bytes index

variable {protocol : Protocol} {buf : Nat → UInt8} {frame bytes : List UInt8}
  {len start : Nat}

theorem bytesFrom_zero (buf : Nat → UInt8) : bytesFrom buf 0 = buf := by
  funext index
  rw [bytesFrom, Nat.zero_add]

/-! ## Sums -/

theorem getSum8_shift (buf : Nat → UInt8) (count start offset : Nat) (sum : UInt8) :
    getSum8 (unchecked buf) count (start + offset) sum =
      getSum8 (unchecked (bytesFrom buf start)) count offset sum := by
  induction count generalizing offset sum with
  | zero => rfl
  | succ count ih =>
      simp only [getSum8, unchecked_apply, Option.bind_eq_bind, Option.bind_some]
      exact ih (offset + 1) _

/-- The sum over a list in a buffer. -/
theorem getSum8_list (sum : UInt8) (holds : Holds buf start bytes) :
    getSum8 (unchecked buf) bytes.length start sum = some (bytes.foldl (· + ·) sum) := by
  induction bytes generalizing start sum with
  | nil => rfl
  | cons byte later ih =>
      have first : buf start = byte := holds 0 (Nat.succ_pos _)
      rw [List.length_cons, getSum8, unchecked_apply, first, List.foldl_cons]
      refine ih _ fun index inside => ?_
      rw [Nat.add_assoc, Nat.add_comm 1]
      exact holds (index + 1) (Nat.succ_lt_succ inside)

/-! ## Frames in a buffer -/

theorem Holds.left {later : List UInt8} (holds : Holds buf start (bytes ++ later)) :
    Holds buf start bytes := by
  intro index inside
  rw [holds index (by rw [List.length_append]; omega), bufferOf_append_left inside]

theorem IsFrame.lower (isFrame : IsFrame protocol frame) : commProtocolMinLen ≤ frame.length := by
  rw [← isFrame.length]
  exact isFrame.whole.lower

/-- Where the bytes of a frame lie, there is a frame. -/
theorem IsFrame.frameAt (isFrame : IsFrame protocol frame) (holds : Holds buf start frame)
    (inside : start + frame.length ≤ len) :
    FrameAt protocol buf len start ∧ frameLen buf start = frame.length := by
  obtain ⟨length, head, lower, upper, -, tail, sum⟩ := isFrame
  have minimum : commProtocolMinLen = 8 := rfl
  rw [length] at lower upper tail sum
  have lengths : frameLen buf start = frame.length := by
    rw [← length, frameLen, frameLen, Nat.zero_add, Nat.zero_add, holds 1 (by omega),
      holds 2 (by omega)]
  refine ⟨⟨?_, by omega, by omega, by omega, ?_, ?_⟩, lengths⟩
  · rw [← head]
    exact holds 0 (by omega)
  · rw [lengths, ← tail, Nat.add_sub_assoc (by omega), Nat.zero_add]
    exact holds _ (by omega)
  · rw [lengths, getSum8_shift, Nat.add_sub_assoc (by omega), holds _ (by omega)]
    rw [Nat.zero_add, Nat.zero_add] at sum
    rw [← sum]
    exact getSum8_congr 0 fun index _ upper => holds index (by omega)

/-- A constructed frame is one. -/
theorem isFrame_construct (code : UInt8) (payload : List UInt8)
    (upper : payload.length + 6 ≤ protocol.maxLen) (lower : 2 ≤ payload.length) :
    IsFrame protocol (construct code payload) ∧
      (construct code payload).length = payload.length + 6 := by
  have minimum : commProtocolMinLen = 8 := rfl
  have maximum := (maxLen_le protocol).2
  set dataLen := payload.length + 6 with total
  set body := UInt8.ofNat dataLen :: UInt8.ofNat (dataLen / 256) :: code :: payload with bodyIs
  have bodyLength : body.length = payload.length + 3 := rfl
  have frameIs : construct code payload =
      (commProtocolHead :: body) ++ [sum8 body, commProtocolTail] := rfl
  have length : (construct code payload).length = dataLen := by
    rw [frameIs, List.length_append, List.length_cons, bodyLength]
    rfl
  have field : frameLen (bufferOf (construct code payload)) 0 = dataLen := by
    have low : (UInt8.ofNat dataLen).toNat = dataLen % 256 := UInt8.toNat_ofNat'
    have high : (UInt8.ofNat (dataLen / 256)).toNat = dataLen / 256 % 256 := UInt8.toNat_ofNat'
    change (UInt8.ofNat (dataLen / 256)).toNat * 256 + (UInt8.ofNat dataLen).toNat = dataLen
    omega
  have behind (index : Nat) : bufferOf (construct code payload) (payload.length + 4 + index) =
      bufferOf [sum8 body, commProtocolTail] index :=
    bufferOf_append_right (commProtocolHead :: body) _ index
  have inner : Holds (bufferOf (construct code payload)) 1 body := by
    intro index inside
    rw [frameIs, bufferOf_append_left (by rw [List.length_cons]; omega), Nat.add_comm]
    rfl
  refine ⟨⟨by rw [field, length], rfl, by omega, by omega, by omega, ?_, ?_⟩, length⟩
  · rw [field, show 0 + dataLen - 1 = payload.length + 4 + 1 by omega, behind]
    rfl
  · rw [field, show 0 + dataLen - 2 = payload.length + 4 + 0 by omega, behind,
      show dataLen - 3 = body.length by omega]
    exact getSum8_list 0 inner

/-! ## Resynchronisation -/

/-- At a frame the scan accepts. -/
theorem FrameAt.scanStep (found : FrameAt protocol buf len start) (bound : len < 2 ^ 32) :
    scanStep protocol (checked buf len) len start =
      some (.stop (.accept start (frameLen buf start))) := by
  obtain ⟨head, lower, upper, inside, closed⟩ := found
  have minimum : commProtocolMinLen = 8 := rfl
  obtain ⟨step, stepped, steps⟩ := @scanStep_checked protocol buf len start bound (by omega)
    (fun _ => by omega)
  rw [stepped]
  cases steps with
  | skip skipped later => exact absurd head (skipped start le_rfl later)
  | exhausted skipped later => exact absurd head (skipped start le_rfl later)
  | noFrame _ continues => exact absurd ⟨head, lower, upper, Or.inr closed⟩ continues
  | incomplete _ _ _ short => omega
  | complete => rfl

/-- The scan accepts the first frame when no head lies before it, in its second iteration
at the latest. -/
theorem FrameAt.scan (found : FrameAt protocol buf len start) (bound : len < 2 ^ 32)
    (noHead : ∀ index < start, buf index ≠ commProtocolHead) :
    scan protocol (checked buf len) len 2 0 = .ended (.accept start (frameLen buf start)) := by
  have accepts := found.scanStep bound
  obtain ⟨head, lower, upper, inside, closed⟩ := found
  have minimum : commProtocolMinLen = 8 := rfl
  rcases Nat.eq_zero_or_pos start with rfl | positive
  · rw [LedFirmware.scan, accepts]
  · have notFirst := noHead 0 positive
    obtain ⟨step, stepped, steps⟩ := @scanStep_checked protocol buf len 0 bound (by omega)
      (fun first => absurd first notFirst)
    rw [LedFirmware.scan, stepped]
    cases steps with
    | @skip next skipped later room reached =>
        have atStart : next = start := by
          rcases Nat.lt_trichotomy next start with early | same | late
          · exact absurd reached (noHead next early)
          · exact same
          · exact absurd head (skipped start (Nat.zero_le _) late)
        simp only [atStart, LedFirmware.scan, accepts]
    | @exhausted next skipped later within short =>
        exact absurd head (skipped start (Nat.zero_le _) (by omega))
    | noFrame first => exact absurd first notFirst
    | incomplete first => exact absurd first notFirst
    | complete frame => exact absurd frame.head notFirst

/-- The scan accepts a frame behind bytes without a head, whatever follows it. -/
theorem IsFrame.scan_behind (isFrame : IsFrame protocol frame) {before after : List UInt8}
    (noHead : commProtocolHead ∉ before) (bound : (before ++ frame ++ after).length < 2 ^ 32)
    {memory : Nat → UInt8} (holds : Holds memory 0 (before ++ frame ++ after)) (fuel : Nat) :
    scan protocol (unchecked memory) (before ++ frame ++ after).length (fuel + 2) 0 =
      .ended (.accept before.length frame.length) := by
  have lengths : (before ++ frame ++ after).length =
      before.length + frame.length + after.length := by
    rw [List.length_append, List.length_append]
  have frameHolds : Holds (bufferOf (before ++ frame ++ after)) before.length frame := by
    intro index inside
    rw [List.append_assoc, bufferOf_append_right, bufferOf_append_left inside]
  obtain ⟨found, field⟩ := @IsFrame.frameAt protocol _ frame (before ++ frame ++ after).length
    before.length isFrame frameHolds (by omega)
  have ended := found.scan bound fun index inside head => noHead (by
    rw [List.append_assoc, bufferOf_append_left inside, bufferOf,
      List.getD_eq_getElem _ _ inside] at head
    rw [← head]
    exact List.getElem_mem inside)
  have same : ∀ index < (before ++ frame ++ after).length,
      memory index = bufferOf (before ++ frame ++ after) index := by
    intro index inside
    rw [← holds index inside, Nat.zero_add]
  rw [field] at ended
  rw [Nat.add_comm fuel]
  exact scan_more ((checked_extends same).scan ended) fuel

/-- The handlers return after a frame that follows bytes without a head. -/
theorem IsFrame.returned (isFrame : IsFrame protocol frame) {before after : List UInt8}
    (noHead : commProtocolHead ∉ before)
    (bound : (before ++ frame ++ after).length < 2 ^ 32)
    {memory : Nat → UInt8} (holds : Holds memory 0 (before ++ frame ++ after)) :
    Returned protocol (before ++ frame ++ after).length memory
      ⟨.accept, before.length + frame.length⟩ := by
  refine ⟨2, _, isFrame.scan_behind noHead bound holds 0, ?_⟩
  simp only [List.length_append] at bound
  rw [ScanEnd.info, add32, Nat.mod_eq_of_lt (by omega), Nat.add_comm]

/-- Received bytes that begin with a frame are accepted at once. -/
theorem IsFrame.scan_whole (isFrame : IsFrame protocol frame) {memory : Nat → UInt8}
    (holds : Holds memory 0 bytes) (begins : frame <+: bytes) (bound : bytes.length < 2 ^ 32)
    (fuel : Nat) :
    scan protocol (unchecked memory) bytes.length (fuel + 1) 0 =
      .ended (.accept 0 frame.length) := by
  obtain ⟨later, rfl⟩ := begins
  rw [List.length_append] at bound ⊢
  obtain ⟨found, field⟩ := isFrame.frameAt holds.left
    (show 0 + frame.length ≤ frame.length + later.length by omega)
  have stepped := (@checked_extends memory memory _ fun _ _ => rfl).scanStep
    (found.scanStep bound)
  rw [scan, stepped, field]

/-- Of received bytes that begin a frame, the scan waits for the rest. -/
theorem IsFrame.scan_partial (isFrame : IsFrame protocol frame) {memory : Nat → UInt8}
    (holds : Holds memory 0 bytes) (begins : bytes <+: frame) (short : bytes.length < frame.length)
    (arrived : 3 ≤ bytes.length) (bound : bytes.length < 2 ^ 32) (fuel : Nat) :
    scan protocol (unchecked memory) bytes.length (fuel + 1) 0 = .ended .waiting := by
  obtain ⟨rest, rfl⟩ := begins
  obtain ⟨length, head, lower, upper, -, -⟩ := isFrame
  have same {index : Nat} (inside : index < bytes.length) :
      memory index = bufferOf (bytes ++ rest) index := by
    rw [← Nat.zero_add index, holds index inside, Nat.zero_add, bufferOf_append_left inside]
  have first : memory 0 = commProtocolHead := by rw [same (by omega), head]
  have field : frameLen memory 0 = (bytes ++ rest).length := by
    rw [← length, frameLen, frameLen, same (by omega), same (by omega)]
  rw [length] at lower upper
  obtain ⟨step, stepped, steps⟩ := @scanStep_checked protocol memory bytes.length 0 bound (by omega)
    (fun _ => by omega)
  have extended := (@checked_extends memory memory _ fun _ _ => rfl).scanStep stepped
  rw [scan, extended]
  cases steps with
  | skip skipped later => exact absurd first (skipped 0 le_rfl later)
  | exhausted skipped later => exact absurd first (skipped 0 le_rfl later)
  | noFrame _ continues =>
      exact absurd ⟨first, by omega, by omega, Or.inl (by omega)⟩ continues
  | incomplete => rfl
  | complete found =>
      have inside := found.inside
      omega

end LedFirmware
