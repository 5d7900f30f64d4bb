import LedFirmware.RtMemory

/-!
# Shifts of packed digits

`BCDLeftMov` and `BCDRightMov` move whole bytes with `MemCpy` and shift the rest by half a
byte.  The left shift clears as many bytes behind the moved ones as it has moved, from the
wrong place on; the right shift copies upwards within one array, which repeats its first
bytes.
-/

namespace LedFirmware

/-- The loop of `BCDLeftMov` over half bytes. -/
def leftMovLoop (data : Nat) : (count i : Nat) → (Nat → UInt8) → Nat → UInt8
  | 0, _, mem => mem
  | count + 1, i, mem =>
      leftMovLoop data count (i + 1)
        (Function.update mem (data + i) ((mem (data + i) <<< 4) ||| (mem (data + i + 1) >>> 4)))

/-- The part of `BCDLeftMov` for an odd number of digits. -/
def leftMovOdd (data validDataLen : Nat) (mem : Nat → UInt8) : Nat → UInt8 :=
  let last := validDataLen - 1
  let mem := leftMovLoop data last 0 mem
  Function.update mem (data + last) ((mem (data + last) <<< 4) ||| 0)

def bcdLeftMov (mem : Nat → UInt8) (bcdArray : Option Nat) (len movNum : UInt32) : Nat → UInt8 :=
  let movBytes := movNum / 2
  match bcdArray with
  | none => mem
  | some data =>
      if movNum = 0 then mem
      else if movBytes ≥ len then rtMemset mem data 0 len.toNat
      else
        let validDataLen := (len - movBytes).toNat
        let mem :=
          if movBytes > 0 then
            rtMemset (rtMemcpy mem data (data + movBytes.toNat) validDataLen)
              (data + movBytes.toNat) 0 validDataLen
          else mem
        if movNum &&& 1 = 1 then leftMovOdd data validDataLen mem else mem

/-- The loop of `BCDRightMov` over half bytes. -/
def rightMovLoop (data len : Nat) : (count i : Nat) → (Nat → UInt8) → Nat → UInt8
  | 0, _, mem => mem
  | count + 1, i, mem =>
      rightMovLoop data len count (i + 1)
        (Function.update mem (data + (len - i))
          ((mem (data + (len - i)) >>> 4) ||| (mem (data + (len - i - 1)) <<< 4)))

/-- The part of `BCDRightMov` for an odd number of digits. -/
def rightMovOdd (data len validDataLen : Nat) (mem : Nat → UInt8) : Nat → UInt8 :=
  let mem := rightMovLoop data len (validDataLen - 1) 1 mem
  let first := len - validDataLen
  Function.update mem (data + first) ((mem (data + first) >>> 4) ||| 0)

def bcdRightMov (mem : Nat → UInt8) (bcdArray : Option Nat) (len movNum : UInt32) : Nat → UInt8 :=
  let movBytes := movNum / 2
  match bcdArray with
  | none => mem
  | some data =>
      if movNum = 0 then mem
      else if movBytes ≥ len then rtMemset mem data 0 len.toNat
      else
        let validDataLen := (len - movBytes).toNat
        let mem :=
          if movBytes > 0 then
            rtMemset (rtMemcpy mem (data + movBytes.toNat) data validDataLen) data 0
              movBytes.toNat
          else mem
        if movNum &&& 1 = 1 then rightMovOdd data len.toNat validDataLen mem else mem

/-! ### Digits -/

/-- A digit of an array, the high half of each byte first. -/
def digitAt (mem : Nat → UInt8) (data position : Nat) : Nat :=
  if position % 2 = 0 then (mem (data + position / 2)).toNat / 16
  else (mem (data + position / 2)).toNat % 16

variable {mem : Nat → UInt8} {data : Nat}

theorem digitAt_congr {mem' : Nat → UInt8} {position position' : Nat}
    (half : position % 2 = position' % 2)
    (same : mem' (data + position / 2) = mem (data + position' / 2)) :
    digitAt mem' data position = digitAt mem data position' := by
  rw [digitAt, digitAt, half, same]

theorem digitAt_of_zero {position : Nat} (zero : mem (data + position / 2) = 0) :
    digitAt mem data position = 0 := by
  rw [digitAt, zero]
  split
  · rfl
  · rfl

theorem toNat_left_half (high low : UInt8) :
    ((high <<< 4) ||| (low >>> 4)).toNat = high.toNat % 16 * 16 + low.toNat / 16 := by
  have lowBound := low.toNat_lt
  have small : low.toNat / 16 < 2 ^ 4 := by omega
  have shifted : (high <<< 4).toNat = (high.toNat % 16) <<< 4 := by
    rw [UInt8.toNat_shiftLeft, Nat.shiftLeft_eq, Nat.shiftLeft_eq]
    change high.toNat * 2 ^ 4 % 2 ^ 8 = _
    omega
  rw [UInt8.toNat_or, shifted, UInt8.toNat_shiftRight]
  change (high.toNat % 16) <<< 4 ||| low.toNat >>> 4 = _
  rw [Nat.shiftRight_eq_div_pow]
  change (high.toNat % 16) <<< 4 ||| low.toNat / 16 = _
  rw [← Nat.shiftLeft_add_eq_or_of_lt small, Nat.shiftLeft_eq]

theorem toNat_right_half (low high : UInt8) :
    ((low >>> 4) ||| (high <<< 4)).toNat = high.toNat % 16 * 16 + low.toNat / 16 := by
  rw [UInt8.or_comm, toNat_left_half]

/-! ### Half a byte -/

section

variable {count i index place : Nat}

theorem leftMovLoop_outside (outside : place < data + i ∨ data + i + count ≤ place) :
    leftMovLoop data count i mem place = mem place := by
  induction count generalizing i mem with
  | zero => rfl
  | succ count ih => rw [leftMovLoop, ih (by omega), Function.update_of_ne (by omega)]

theorem leftMovLoop_inside (lower : i ≤ index) (upper : index < i + count) :
    leftMovLoop data count i mem (data + index) =
      (mem (data + index) <<< 4) ||| (mem (data + index + 1) >>> 4) := by
  induction count generalizing i mem with
  | zero => omega
  | succ count ih =>
      rw [leftMovLoop]
      by_cases here : index = i
      · subst here
        rw [leftMovLoop_outside (by omega), Function.update_self]
      · rw [ih (by omega) (by omega), Function.update_of_ne (by omega),
          Function.update_of_ne (by omega)]

theorem rightMovLoop_outside {len : Nat} (bound : i + count ≤ len)
    (outside : place + i + count ≤ data + len ∨ data + len < place + i) :
    rightMovLoop data len count i mem place = mem place := by
  induction count generalizing i mem with
  | zero => rfl
  | succ count ih =>
      rw [rightMovLoop, ih (by omega) (by omega), Function.update_of_ne (by omega)]

theorem rightMovLoop_inside {len : Nat} (bound : i + count ≤ len) (lower : len < index + i + count)
    (upper : index + i ≤ len) :
    rightMovLoop data len count i mem (data + index) =
      (mem (data + index) >>> 4) ||| (mem (data + (index - 1)) <<< 4) := by
  induction count generalizing i mem with
  | zero => omega
  | succ count ih =>
      rw [rightMovLoop]
      by_cases here : index = len - i
      · subst here
        rw [rightMovLoop_outside (by omega) (by omega), Function.update_self]
      · rw [ih (by omega) (by omega) (by omega), Function.update_of_ne (by omega),
          Function.update_of_ne (by omega)]

end

theorem leftMovOdd_outside {valid place : Nat} (positive : 0 < valid)
    (outside : place < data ∨ data + valid ≤ place) :
    leftMovOdd data valid mem place = mem place := by
  rw [leftMovOdd, Function.update_of_ne (by omega), leftMovLoop_outside (by omega)]

theorem leftMovOdd_byte {valid index : Nat} (inside : index < valid) :
    (leftMovOdd data valid mem (data + index)).toNat =
      (mem (data + index)).toNat % 16 * 16 +
        if index + 1 < valid then (mem (data + (index + 1))).toNat / 16 else 0 := by
  rw [leftMovOdd]
  by_cases last : index = valid - 1
  · subst last
    have none : (0 : UInt8) = (0 : UInt8) >>> 4 := by decide
    rw [Function.update_self, leftMovLoop_outside (by omega), if_neg (by omega), none,
      toNat_left_half]
    rfl
  · rw [Function.update_of_ne (by omega), leftMovLoop_inside (by omega) (by omega),
      if_pos (by omega), toNat_left_half, Nat.add_assoc]

/-- The valid digits move to the left by one place. -/
theorem digitAt_leftMovOdd {valid position : Nat} (positive : 0 < valid) :
    digitAt (leftMovOdd data valid mem) data position =
      if position + 1 < 2 * valid then digitAt mem data (position + 1)
      else if position + 1 = 2 * valid then 0 else digitAt mem data position := by
  have bound (place : Nat) : (mem place).toNat < 256 := (mem place).toNat_lt
  by_cases beyond : position < 2 * valid
  · obtain ⟨index, rfl | rfl⟩ := Nat.even_or_odd' position
    · have byte := @leftMovOdd_byte mem data valid index (by omega)
      rw [if_pos (by omega), digitAt, digitAt, if_pos (by omega), if_neg (by omega),
        show 2 * index / 2 = index by omega, show (2 * index + 1) / 2 = index by omega, byte]
      have next := bound (data + (index + 1))
      split
      · omega
      · omega
    · have byte := @leftMovOdd_byte mem data valid index (by omega)
      rw [digitAt, if_neg (by omega), show (2 * index + 1) / 2 = index by omega, byte]
      have next := bound (data + (index + 1))
      by_cases more : index + 1 < valid
      · rw [if_pos more, if_pos (by omega), digitAt, if_pos (by omega),
          show (2 * index + 1 + 1) / 2 = index + 1 by omega]
        omega
      · rw [if_neg more, if_neg (by omega), if_pos (by omega)]
        omega
  · rw [if_neg (by omega), if_neg (by omega)]
    exact digitAt_congr rfl (leftMovOdd_outside positive (by omega))

theorem rightMovOdd_outside {len valid place : Nat} (positive : 0 < valid) (fits : valid ≤ len)
    (outside : place + valid < data + len ∨ data + len ≤ place) :
    rightMovOdd data len valid mem place = mem place := by
  rw [rightMovOdd, Function.update_of_ne (by omega), rightMovLoop_outside (by omega) (by omega)]

theorem rightMovOdd_byte {len valid index : Nat} (positive : 0 < valid) (fits : valid ≤ len)
    (lower : len ≤ index + valid) (upper : index < len) :
    (rightMovOdd data len valid mem (data + index)).toNat =
      (if len < index + valid then (mem (data + (index - 1))).toNat % 16 else 0) * 16 +
        (mem (data + index)).toNat / 16 := by
  rw [rightMovOdd]
  by_cases first : index = len - valid
  · subst first
    have none : (0 : UInt8) = (0 : UInt8) <<< 4 := by decide
    rw [Function.update_self, rightMovLoop_outside (by omega) (by omega), if_neg (by omega), none,
      toNat_right_half]
    rfl
  · rw [Function.update_of_ne (by omega), rightMovLoop_inside (by omega) (by omega) (by omega),
      if_pos (by omega), toNat_right_half]

/-- The valid digits move to the right by one place. -/
theorem digitAt_rightMovOdd {len valid position : Nat} (positive : 0 < valid) (fits : valid ≤ len)
    (inside : position < 2 * len) :
    digitAt (rightMovOdd data len valid mem) data position =
      if 2 * len < position + 2 * valid then digitAt mem data (position - 1)
      else if 2 * len = position + 2 * valid then 0 else digitAt mem data position := by
  have bound (place : Nat) : (mem place).toNat < 256 := (mem place).toNat_lt
  by_cases moved : 2 * len ≤ position + 2 * valid
  · obtain ⟨index, rfl | rfl⟩ := Nat.even_or_odd' position
    · have byte := @rightMovOdd_byte mem data len valid index positive fits (by omega) (by omega)
      rw [digitAt, if_pos (by omega), show 2 * index / 2 = index by omega, byte]
      have here := bound (data + index)
      by_cases first : len = index + valid
      · rw [if_neg (by omega), if_neg (by omega), if_pos (by omega)]
        omega
      · rw [if_pos (by omega), if_pos (by omega), digitAt, if_neg (by omega),
          show (2 * index - 1) / 2 = index - 1 by omega]
        omega
    · have byte := @rightMovOdd_byte mem data len valid index positive fits (by omega) (by omega)
      rw [digitAt, if_neg (by omega), show (2 * index + 1) / 2 = index by omega, byte,
        if_pos (by omega : 2 * len < 2 * index + 1 + 2 * valid), digitAt,
        if_pos (by omega : (2 * index + 1 - 1) % 2 = 0),
        show (2 * index + 1 - 1) / 2 = index by omega]
      have here := bound (data + index)
      omega
  · rw [if_neg (by omega), if_neg (by omega)]
    exact digitAt_congr rfl (rightMovOdd_outside positive fits (by omega))

/-! ### Whole bytes -/

/-- The bytes that the whole-byte part of `BCDLeftMov` leaves. -/
theorem digitAt_leftBytes {moved valid position : Nat} (inside : position < 2 * (moved + valid)) :
    digitAt (Cells.fill (data + moved) valid 0 (Cells.copy valid data (data + moved) mem))
        data position =
      if 2 * moved ≤ position then 0
      else if position < 2 * valid then digitAt mem data (position + 2 * moved)
      else digitAt mem data position := by
  by_cases filled : 2 * moved ≤ position
  · rw [if_pos filled]
    exact digitAt_of_zero (if_pos (by omega))
  · have kept : Cells.fill (data + moved) valid 0 (Cells.copy valid data (data + moved) mem)
        (data + position / 2) = Cells.copy valid data (data + moved) mem (data + position / 2) :=
      if_neg (by omega)
    rw [if_neg filled]
    by_cases copied : position < 2 * valid
    · rw [if_pos copied]
      refine digitAt_congr (by omega) ?_
      rw [kept, Cells.copy_inside (by omega) (by omega)]
      congr 1
      omega
    · rw [if_neg copied]
      refine digitAt_congr rfl ?_
      rw [kept, Cells.copy_outside (by omega)]

/-- The bytes that the whole-byte part of `BCDRightMov` leaves: the first ones, again and
again. -/
theorem digitAt_rightBytes {moved valid position : Nat} (positive : 0 < moved)
    (inside : position < 2 * (moved + valid)) :
    digitAt (Cells.fill data moved 0 (Cells.copy valid (data + moved) data mem)) data position =
      if position < 2 * moved then 0 else digitAt mem data (position % (2 * moved)) := by
  by_cases filled : position < 2 * moved
  · rw [if_pos filled]
    exact digitAt_of_zero (if_pos (by omega))
  · have kept : Cells.fill data moved 0 (Cells.copy valid (data + moved) data mem)
        (data + position / 2) = Cells.copy valid (data + moved) data mem (data + position / 2) :=
      if_neg (by omega)
    have halves : position % (2 * moved) / 2 = position / 2 % moved :=
      (Nat.mod_mul_right_div_self position 2 moved)
    have parity : position % (2 * moved) % 2 = position % 2 := Nat.mod_mul_right_mod _ _ _
    rw [if_neg filled]
    refine digitAt_congr parity.symm ?_
    rw [kept, Cells.copy_repeats positive valid data mem (by omega), halves]

/-! ### When the digits are those of a shift -/

section

variable {digits result : Nat → Nat} {moved valid : Nat}

/-- The digits that the left shift neither moves nor needs to clear are already 0. -/
def ClearsLeft (digits : Nat → Nat) (moved valid : Nat) : Prop :=
  (∀ position, 4 * moved ≤ position → position < 2 * (moved + valid) → digits position = 0) ∧
    ∀ position, 2 * valid ≤ position → position < 2 * moved → digits position = 0

/-- The digits repeat themselves as often as the right shift repeats them. -/
def RepeatsRight (digits : Nat → Nat) (moved length count : Nat) : Prop :=
  ∀ position, 2 * moved ≤ position → position + count < length →
    digits position = digits (position - 2 * moved)

theorem leftEven_iff
    (bytes : ∀ position < 2 * (moved + valid), result position =
      if 2 * moved ≤ position then 0
      else if position < 2 * valid then digits (position + 2 * moved) else digits position) :
    (∀ position < 2 * (moved + valid), result position =
        if position + 2 * moved < 2 * (moved + valid) then digits (position + 2 * moved) else 0) ↔
      ClearsLeft digits moved valid := by
  constructor
  · intro shifts
    refine ⟨fun position lower upper => ?_, fun position lower upper => ?_⟩
    · have here := shifts (position - 2 * moved) (by omega)
      rw [bytes _ (by omega), if_pos (by omega), if_pos (by omega),
        Nat.sub_add_cancel (by omega)] at here
      exact here.symm
    · have here := shifts position (by omega)
      rwa [bytes _ (by omega), if_neg (by omega), if_neg (by omega), if_neg (by omega)] at here
  · rintro ⟨beyond, between⟩ position inside
    rw [bytes position inside]
    by_cases cleared : 2 * moved ≤ position
    · rw [if_pos cleared]
      by_cases needed : position + 2 * moved < 2 * (moved + valid)
      · rw [if_pos needed, beyond _ (by omega) needed]
      · rw [if_neg needed]
    · rw [if_neg cleared]
      by_cases copied : position < 2 * valid
      · rw [if_pos copied, if_pos (by omega)]
      · rw [if_neg copied, if_neg (by omega), between position (by omega) (by omega)]

theorem leftOdd_iff {half : Nat → Nat} (positive : 0 < moved)
    (bytes : ∀ position < 2 * (moved + valid), result position =
      if 2 * moved ≤ position then 0
      else if position < 2 * valid then digits (position + 2 * moved) else digits position)
    (halves : ∀ position, half position =
      if position + 1 < 2 * valid then result (position + 1)
      else if position + 1 = 2 * valid then 0 else result position) :
    (∀ position < 2 * (moved + valid), half position =
        if position + (2 * moved + 1) < 2 * (moved + valid) then
          digits (position + (2 * moved + 1))
        else 0) ↔
      ClearsLeft digits moved valid := by
  have next (position : Nat) : position + 1 + 2 * moved = position + (2 * moved + 1) := by omega
  constructor
  · intro shifts
    refine ⟨fun position lower upper => ?_, fun position lower upper => ?_⟩
    · have here := shifts (position - (2 * moved + 1)) (by omega)
      rw [halves, if_pos (by omega), bytes _ (by omega), if_pos (by omega), if_pos (by omega),
        Nat.sub_add_cancel (by omega)] at here
      exact here.symm
    · have here := shifts position (by omega)
      rwa [halves, if_neg (by omega), if_neg (by omega), bytes _ (by omega), if_neg (by omega),
        if_neg (by omega), if_neg (by omega)] at here
  · rintro ⟨beyond, between⟩ position inside
    rw [halves]
    by_cases inValid : position + 1 < 2 * valid
    · rw [if_pos inValid, bytes _ (by omega), if_pos (by omega : _ < 2 * (moved + valid))]
      by_cases cleared : 2 * moved ≤ position + 1
      · rw [if_pos cleared, beyond _ (by omega) (by omega)]
      · rw [if_neg cleared, if_pos inValid, next]
    · rw [if_neg inValid, if_neg (by omega : ¬ position + (2 * moved + 1) < 2 * (moved + valid))]
      by_cases last : position + 1 = 2 * valid
      · rw [if_pos last]
      · rw [if_neg last, bytes position inside]
        by_cases cleared : 2 * moved ≤ position
        · rw [if_pos cleared]
        · rw [if_neg cleared, if_neg (by omega), between position (by omega) (by omega)]

/-- Digits that repeat at one distance are those of their first period. -/
theorem repeatsRight_iff {length count : Nat} (positive : 0 < moved) :
    RepeatsRight digits moved length count ↔
      ∀ position, position + count < length →
        digits (position % (2 * moved)) = digits position := by
  constructor
  · intro repeats position inside
    induction position using Nat.strong_induction_on with
    | _ position ih =>
        by_cases first : position < 2 * moved
        · rw [Nat.mod_eq_of_lt first]
        · rw [repeats position (by omega) inside, ← ih (position - 2 * moved) (by omega) (by omega),
            Nat.mod_eq_sub_mod (by omega)]
  · intro same position behind inside
    rw [← same position inside, ← same (position - 2 * moved) (by omega),
      Nat.mod_eq_sub_mod (by omega)]

theorem rightEven_iff (positive : 0 < moved)
    (bytes : ∀ position < 2 * (moved + valid), result position =
      if position < 2 * moved then 0 else digits (position % (2 * moved))) :
    (∀ position < 2 * (moved + valid), result position =
        if 2 * moved ≤ position then digits (position - 2 * moved) else 0) ↔
      RepeatsRight digits moved (2 * (moved + valid)) (2 * moved) := by
  rw [repeatsRight_iff positive]
  constructor
  · intro shifts position inside
    have here := shifts (position + 2 * moved) inside
    rwa [bytes _ inside, if_neg (by omega), if_pos (by omega), Nat.add_sub_cancel,
      Nat.add_mod_right] at here
  · intro same position inside
    rw [bytes position inside]
    by_cases cleared : position < 2 * moved
    · rw [if_pos cleared, if_neg (by omega)]
    · rw [if_neg cleared, if_pos (by omega), ← same (position - 2 * moved) (by omega),
        Nat.mod_eq_sub_mod (by omega)]

theorem rightOdd_iff {half : Nat → Nat} (positive : 0 < moved)
    (bytes : ∀ position < 2 * (moved + valid), result position =
      if position < 2 * moved then 0 else digits (position % (2 * moved)))
    (halves : ∀ position < 2 * (moved + valid), half position =
      if 2 * (moved + valid) < position + 2 * valid then result (position - 1)
      else if 2 * (moved + valid) = position + 2 * valid then 0 else result position) :
    (∀ position < 2 * (moved + valid), half position =
        if 2 * moved + 1 ≤ position then digits (position - (2 * moved + 1)) else 0) ↔
      RepeatsRight digits moved (2 * (moved + valid)) (2 * moved + 1) := by
  rw [repeatsRight_iff positive]
  constructor
  · intro shifts position inside
    have here := shifts (position + (2 * moved + 1)) inside
    rw [halves _ inside, if_pos (by omega), bytes _ (by omega), if_neg (by omega),
      if_pos (by omega), Nat.add_sub_cancel] at here
    rw [← here, ← Nat.add_assoc, Nat.add_sub_cancel, Nat.add_mod_right]
  · intro same position inside
    rw [halves position inside]
    by_cases shifted : 2 * moved + 1 ≤ position
    · rw [if_pos (by omega), if_pos shifted, bytes _ (by omega), if_neg (by omega),
        ← same (position - (2 * moved + 1)) (by omega), Nat.mod_eq_sub_mod (by omega), Nat.sub_sub,
        Nat.add_comm 1]
    · rw [if_neg (by omega), if_neg shifted]
      by_cases first : 2 * (moved + valid) = position + 2 * valid
      · rw [if_pos first]
      · rw [if_neg first, bytes position inside, if_pos (by omega)]

end

/-! ### The shifts -/

/-- An array has become its digits shifted to the left, and nothing else has changed. -/
def ShiftsLeft (mem mem' : Nat → UInt8) (data len count : Nat) : Prop :=
  (∀ position < 2 * len, digitAt mem' data position =
    if position + count < 2 * len then digitAt mem data (position + count) else 0) ∧
  ∀ place, place < data ∨ data + len ≤ place → mem' place = mem place

/-- An array has become its digits shifted to the right, and nothing else has changed. -/
def ShiftsRight (mem mem' : Nat → UInt8) (data len count : Nat) : Prop :=
  (∀ position < 2 * len, digitAt mem' data position =
    if count ≤ position then digitAt mem data (position - count) else 0) ∧
  ∀ place, place < data ∨ data + len ≤ place → mem' place = mem place

section

variable {len movNum : UInt32}

theorem movBytes_toNat : (movNum / 2).toNat = movNum.toNat / 2 := by
  rw [UInt32.toNat_div]
  rfl

theorem movBytes_ge_iff : movNum / 2 ≥ len ↔ len.toNat ≤ movNum.toNat / 2 := by
  rw [ge_iff_le, UInt32.le_iff_toNat_le, movBytes_toNat]

theorem movBytes_pos_iff : movNum / 2 > 0 ↔ 0 < movNum.toNat / 2 := by
  rw [gt_iff_lt, UInt32.lt_iff_toNat_lt, movBytes_toNat]
  rfl

theorem validDataLen_toNat (inside : movNum.toNat / 2 < len.toNat) :
    (len - movNum / 2).toNat = len.toNat - movNum.toNat / 2 := by
  have less : movNum / 2 ≤ len := by
    rw [UInt32.le_iff_toNat_le, movBytes_toNat]
    exact Nat.le_of_lt inside
  rw [UInt32.toNat_sub_of_le _ _ less, movBytes_toNat]

theorem movNum_odd_iff : movNum &&& 1 = 1 ↔ movNum.toNat % 2 = 1 := by
  rw [← UInt32.toNat_inj, UInt32.toNat_and]
  change movNum.toNat &&& 1 = 1 ↔ _
  rw [Nat.and_one_is_mod]

/-- A movement empties the array, or is by one digit, or by whole bytes with or without one more
digit. -/
theorem movement_cases (len : UInt32) (nonzero : movNum ≠ 0) :
    len.toNat ≤ movNum.toNat / 2 ∨ (0 < len.toNat ∧ movNum.toNat = 1) ∨
      ∃ moved > 0, ∃ valid > 0, len.toNat = moved + valid ∧ movNum.toNat / 2 = moved ∧
        (movNum.toNat = 2 * moved ∨ movNum.toNat = 2 * moved + 1) := by
  have positive : movNum.toNat ≠ 0 := fun zero => nonzero (UInt32.toNat_inj.mp zero)
  by_cases whole : len.toNat ≤ movNum.toNat / 2
  · exact .inl whole
  · by_cases single : movNum.toNat / 2 = 0
    · exact .inr (.inl ⟨by omega, by omega⟩)
    · exact .inr (.inr ⟨movNum.toNat / 2, by omega, len.toNat - movNum.toNat / 2, by omega,
        by omega, rfl, by omega⟩)

/-- The cases of `BCDLeftMov` on an array. -/
theorem bcdLeftMov_eq (mem : Nat → UInt8) (data : Nat) (len movNum : UInt32) :
    bcdLeftMov mem (some data) len movNum =
      if movNum = 0 then mem
      else if len.toNat ≤ movNum.toNat / 2 then Cells.fill data len.toNat 0 mem
      else
        let moved := movNum.toNat / 2
        let valid := len.toNat - moved
        let bytes :=
          if 0 < moved then
            Cells.fill (data + moved) valid 0 (Cells.copy valid data (data + moved) mem)
          else mem
        if movNum.toNat % 2 = 1 then leftMovOdd data valid bytes else bytes := by
  rw [bcdLeftMov]
  simp only [rtMemset_eq, rtMemcpy_eq, movBytes_ge_iff, movBytes_toNat, movBytes_pos_iff,
    movNum_odd_iff]
  split
  · rfl
  · split
    · rfl
    · rename_i inside
      rw [validDataLen_toNat (Nat.lt_of_not_le inside)]

theorem bcdRightMov_eq (mem : Nat → UInt8) (data : Nat) (len movNum : UInt32) :
    bcdRightMov mem (some data) len movNum =
      if movNum = 0 then mem
      else if len.toNat ≤ movNum.toNat / 2 then Cells.fill data len.toNat 0 mem
      else
        let moved := movNum.toNat / 2
        let valid := len.toNat - moved
        let bytes :=
          if 0 < moved then
            Cells.fill data moved 0 (Cells.copy valid (data + moved) data mem)
          else mem
        if movNum.toNat % 2 = 1 then rightMovOdd data len.toNat valid bytes else bytes := by
  rw [bcdRightMov]
  simp only [rtMemset_eq, rtMemcpy_eq, movBytes_ge_iff, movBytes_toNat, movBytes_pos_iff,
    movNum_odd_iff]
  split
  · rfl
  · split
    · rfl
    · rename_i inside
      rw [validDataLen_toNat (Nat.lt_of_not_le inside)]

end

section

variable {moved valid place : Nat}

theorem leftBytes_outside (outside : place < data ∨ data + (moved + valid) ≤ place) :
    Cells.fill (data + moved) valid 0 (Cells.copy valid data (data + moved) mem) place =
      mem place :=
  (if_neg (by omega)).trans (Cells.copy_outside (by omega))

theorem rightBytes_outside (outside : place < data ∨ data + (moved + valid) ≤ place) :
    Cells.fill data moved 0 (Cells.copy valid (data + moved) data mem) place = mem place :=
  (if_neg (by omega)).trans (Cells.copy_outside (by omega))

theorem shiftsLeft_even_iff :
    ShiftsLeft mem (Cells.fill (data + moved) valid 0 (Cells.copy valid data (data + moved) mem))
        data (moved + valid) (2 * moved) ↔ ClearsLeft (digitAt mem data) moved valid := by
  rw [← leftEven_iff fun position inside => digitAt_leftBytes inside]
  exact and_iff_left fun place outside => leftBytes_outside outside

theorem shiftsLeft_odd_iff (positive : 0 < moved) (some : 0 < valid) :
    ShiftsLeft mem (leftMovOdd data valid
        (Cells.fill (data + moved) valid 0 (Cells.copy valid data (data + moved) mem)))
        data (moved + valid) (2 * moved + 1) ↔ ClearsLeft (digitAt mem data) moved valid := by
  rw [← leftOdd_iff positive (fun position inside => digitAt_leftBytes inside)
    fun position => digitAt_leftMovOdd some]
  refine and_iff_left fun place outside => ?_
  rw [leftMovOdd_outside some (by omega), leftBytes_outside outside]

theorem shiftsLeft_one {len : Nat} (some : 0 < len) :
    ShiftsLeft mem (leftMovOdd data len mem) data len 1 := by
  refine ⟨fun position inside => ?_, fun place outside => leftMovOdd_outside some outside⟩
  rw [digitAt_leftMovOdd some]
  by_cases more : position + 1 < 2 * len
  · rw [if_pos more, if_pos more]
  · rw [if_neg more, if_neg more, if_pos (by omega)]

theorem shiftsRight_even_iff (positive : 0 < moved) :
    ShiftsRight mem (Cells.fill data moved 0 (Cells.copy valid (data + moved) data mem))
        data (moved + valid) (2 * moved) ↔
      RepeatsRight (digitAt mem data) moved (2 * (moved + valid)) (2 * moved) := by
  rw [← rightEven_iff positive fun position inside => digitAt_rightBytes positive inside]
  exact and_iff_left fun place outside => rightBytes_outside outside

theorem shiftsRight_odd_iff (positive : 0 < moved) (some : 0 < valid) :
    ShiftsRight mem (rightMovOdd data (moved + valid) valid
        (Cells.fill data moved 0 (Cells.copy valid (data + moved) data mem)))
        data (moved + valid) (2 * moved + 1) ↔
      RepeatsRight (digitAt mem data) moved (2 * (moved + valid)) (2 * moved + 1) := by
  rw [← rightOdd_iff positive (fun position inside => digitAt_rightBytes positive inside)
    fun position inside => digitAt_rightMovOdd some (Nat.le_add_left _ _) inside]
  refine and_iff_left fun place outside => ?_
  rw [rightMovOdd_outside some (Nat.le_add_left _ _) (by omega), rightBytes_outside outside]

theorem shiftsRight_one {len : Nat} (some : 0 < len) :
    ShiftsRight mem (rightMovOdd data len len mem) data len 1 := by
  refine ⟨fun position inside => ?_, fun place outside =>
    rightMovOdd_outside some (Nat.le_refl len) (by omega)⟩
  rw [digitAt_rightMovOdd some (Nat.le_refl len) inside]
  by_cases first : position = 0
  · rw [if_neg (by omega), if_pos (by omega), if_neg (by omega)]
  · rw [if_pos (by omega), if_pos (by omega)]

theorem digitAt_cleared {len position : Nat} (inside : position < 2 * len) :
    digitAt (Cells.fill data len 0 mem) data position = 0 :=
  digitAt_of_zero (if_pos (by omega))

theorem fill_outside {len : Nat} (outside : place < data ∨ data + len ≤ place) :
    Cells.fill data len 0 mem place = mem place :=
  if_neg (by omega)

end

/-- `BCDLeftMov` shifts where the digits behind twice the moved ones, and those between the
valid ones and the moved ones, are 0. -/
theorem bcdLeftMov_shiftsLeft_iff (mem : Nat → UInt8) (data : Nat) (len movNum : UInt32) :
    ShiftsLeft mem (bcdLeftMov mem (some data) len movNum) data len.toNat movNum.toNat ↔
      (0 < movNum.toNat / 2 → movNum.toNat / 2 < len.toNat →
        ClearsLeft (digitAt mem data) (movNum.toNat / 2) (len.toNat - movNum.toNat / 2)) := by
  rw [bcdLeftMov_eq]
  by_cases still : movNum = 0
  · subst still
    rw [if_pos rfl]
    refine iff_of_true ⟨fun position inside => ?_, fun place outside => rfl⟩ nofun
    exact (if_pos inside).symm
  rw [if_neg still]
  obtain whole | ⟨some, one⟩ | ⟨moved, positive, valid, some, length, half, count⟩ :=
    movement_cases len still
  · rw [if_pos whole]
    refine iff_of_true ⟨fun position inside => ?_, fun place outside => fill_outside outside⟩
      fun _ inside => absurd whole (Nat.not_le.mpr inside)
    rw [digitAt_cleared inside, if_neg (by omega)]
  · rw [if_neg (by omega)]
    simp only [one]
    exact iff_of_true (shiftsLeft_one some) nofun
  · rw [if_neg (by omega), half, length, imp_iff_right positive, imp_iff_right (by omega)]
    simp only [if_pos positive, Nat.add_sub_cancel_left]
    obtain even | odd := count
    · rw [if_neg (by omega), even, shiftsLeft_even_iff]
    · rw [if_pos (by omega), odd, shiftsLeft_odd_iff positive some]

/-- `BCDRightMov` shifts where the digits repeat themselves at the distance of the moved
bytes. -/
theorem bcdRightMov_shiftsRight_iff (mem : Nat → UInt8) (data : Nat) (len movNum : UInt32) :
    ShiftsRight mem (bcdRightMov mem (some data) len movNum) data len.toNat movNum.toNat ↔
      RepeatsRight (digitAt mem data) (movNum.toNat / 2) (2 * len.toNat) movNum.toNat := by
  rw [bcdRightMov_eq]
  by_cases still : movNum = 0
  · subst still
    rw [if_pos rfl]
    exact iff_of_true ⟨fun position inside => rfl, fun place outside => rfl⟩
      fun position _ _ => rfl
  rw [if_neg still]
  obtain whole | ⟨some, one⟩ | ⟨moved, positive, valid, some, length, half, count⟩ :=
    movement_cases len still
  · rw [if_pos whole]
    refine iff_of_true ⟨fun position inside => ?_, fun place outside => fill_outside outside⟩
      fun position _ inside => by omega
    rw [digitAt_cleared inside, if_neg (by omega)]
  · rw [if_neg (by omega)]
    simp only [one]
    exact iff_of_true (shiftsRight_one some) fun position _ _ => rfl
  · rw [if_neg (by omega), half, length]
    simp only [if_pos positive, Nat.add_sub_cancel_left]
    obtain even | odd := count
    · rw [if_neg (by omega), even, shiftsRight_even_iff positive]
    · rw [if_pos (by omega), odd, shiftsRight_odd_iff positive some]

/-- When the two functions shift the digits of an array. -/
theorem bcdMov_shifts_iff (mem : Nat → UInt8) (data : Nat) (len movNum : UInt32) :
    (ShiftsLeft mem (bcdLeftMov mem (some data) len movNum) data len.toNat movNum.toNat ↔
        (0 < movNum.toNat / 2 → movNum.toNat / 2 < len.toNat →
          ClearsLeft (digitAt mem data) (movNum.toNat / 2) (len.toNat - movNum.toNat / 2))) ∧
      (ShiftsRight mem (bcdRightMov mem (some data) len movNum) data len.toNat movNum.toNat ↔
        RepeatsRight (digitAt mem data) (movNum.toNat / 2) (2 * len.toNat) movNum.toNat) :=
  ⟨bcdLeftMov_shiftsLeft_iff mem data len movNum, bcdRightMov_shiftsRight_iff mem data len movNum⟩

/-- Two places to the left, the third byte of `12 34 56` is lost. -/
theorem bcdLeftMov_loses :
    let mem : Nat → UInt8 := fun place => [0x12, 0x34, 0x56].getD place 0
    ¬ ShiftsLeft mem (bcdLeftMov mem (some 0) 3 2) 0 3 2 := by
  intro mem shifts
  have clears := (bcdLeftMov_shiftsLeft_iff mem 0 3 2).mp shifts (by decide) (by decide)
  exact absurd (clears.1 4 (by decide) (by decide)) (by decide)

end LedFirmware
