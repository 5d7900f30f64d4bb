import LedFirmware.TimeCheck

/-!
# Adding to times and subtracting from them

The functions of `usdl_time.c` that move a decimal time by years, months, days, hours,
minutes or seconds.  Each returns whether it has succeeded, and the time as it has left
it in either case.
-/

namespace LedFirmware

/-! ## Bytes beside values -/

section Bytes

variable {byte : UInt8} {value : UInt32}

theorem byte_le_value : byte.toUInt32 ≤ value ↔ byte.toNat ≤ value.toNat := by
  rw [UInt32.le_iff_toNat_le, UInt8.toNat_toUInt32]

theorem byte_lt_value : byte.toUInt32 < value ↔ byte.toNat < value.toNat := by
  rw [UInt32.lt_iff_toNat_lt, UInt8.toNat_toUInt32]

theorem toNat_value_add_byte :
    (value + byte.toUInt32).toNat = (value.toNat + byte.toNat) % 2 ^ 32 := by
  rw [UInt32.toNat_add, UInt8.toNat_toUInt32]

theorem toNat_value_sub_byte (enough : byte.toUInt32 ≤ value) :
    (value - byte.toUInt32).toNat = value.toNat - byte.toNat := by
  rw [UInt32.toNat_sub_of_le _ _ enough, UInt8.toNat_toUInt32]

/-- A value that is not larger than a byte is one. -/
theorem toNat_byte_sub_value (inside : value.toNat ≤ byte.toNat) :
    (byte - value.toUInt8).toNat = byte.toNat - value.toNat := by
  have small := byte.toNat_lt
  rw [UInt8.toNat_sub, UInt32.toNat_toUInt8]
  omega

end Bytes

/-! ## The functions -/

/-- A day behind the 28th is put right where the month or the year has changed. -/
def fixLateDay (time : Time) : Time :=
  if time.day > 28 then (timeDECFix time).2 else time

def timeDECAddYear (time : Time) (value : UInt32) : Bool × Time :=
  if timeDECCheck time = false then (false, time)
  else
    let time := { time with year := ((value + time.year.toUInt32) % 100).toUInt8 }
    (true, fixLateDay time)

def timeDECAddMonth (time : Time) (value : UInt32) : Bool × Time :=
  if timeDECCheck time = false then (false, time)
  else if value + time.month.toUInt32 > 12 then
    let value := value + time.month.toUInt32
    let time := { time with month := (value % 12).toUInt8 }
    match (if time.month = 0 then timeDECAddYear { time with month := 12 } (value / 12 - 1)
      else timeDECAddYear time (value / 12)) with
    | (false, time) => (false, time)
    | (true, time) => (true, fixLateDay time)
  else
    let time := { time with month := time.month + value.toUInt8 }
    (true, fixLateDay time)

def timeDECSubYear (time : Time) (value : UInt32) : Bool × Time :=
  if timeDECCheck time = false then (false, time)
  else
    let time :=
      if time.year.toUInt32 ≥ value % 100 then
        { time with year := time.year - (value % 100).toUInt8 }
      else { time with year := time.year + 100 - (value % 100).toUInt8 }
    (true, fixLateDay time)

def timeDECSubMonth (time : Time) (value : UInt32) : Bool × Time :=
  if timeDECCheck time = false then (false, time)
  else if value ≥ time.month.toUInt32 then
    let value := value - time.month.toUInt32
    match timeDECSubYear time (1 + value / 12) with
    | (false, time) => (false, time)
    | (true, time) => (true, fixLateDay { time with month := (12 - value % 12).toUInt8 })
  else
    let time := { time with month := time.month - value.toUInt8 }
    (true, fixLateDay time)

/-- A month has days. -/
theorem timeMonthDays_pos {time : Time} (valid : timeDECCheck time = true) :
    28 ≤ (timeMonthDays time.year time.month).toNat := by
  have numbers := timeDECCheck_iff.mp valid
  rw [timeMonthDays_toNat numbers.year numbers.month_pos (Nat.lt_succ_of_le numbers.month_le)]
  exact Gregorian.monthDays_ge _ _

theorem timeDECAddMonth_check {time next : Time} {value : UInt32}
    (added : timeDECAddMonth time value = (true, next)) : timeDECCheck time = true := by
  unfold timeDECAddMonth at added
  cases valid : timeDECCheck time with
  | true => rfl
  | false =>
      rw [if_pos valid] at added
      cases added

theorem timeDECSubMonth_check {time next : Time} {value : UInt32}
    (taken : timeDECSubMonth time value = (true, next)) : timeDECCheck time = true := by
  unfold timeDECSubMonth at taken
  cases valid : timeDECCheck time with
  | true => rfl
  | false =>
      rw [if_pos valid] at taken
      cases taken

/-- A month's days are taken from a value that is not less. -/
theorem sub_days_lt {time : Time} {value : UInt32} (valid : timeDECCheck time = true)
    (enough : (timeMonthDays time.year time.month).toUInt32 ≤ value) :
    (value - (timeMonthDays time.year time.month).toUInt32).toNat < value.toNat := by
  have days := timeMonthDays_pos valid
  have bound := byte_le_value.mp enough
  rw [toNat_value_sub_byte enough]
  omega

/-- The loop of `TimeDECAddDay`.  It ends since an addition that succeeds has found the
time valid. -/
def timeDECAddDays (time : Time) (value : UInt32) : Bool × Time :=
  let daysInMonth := timeMonthDays time.year time.month
  if daysInMonth.toUInt32 < value then
    match _ : timeDECAddMonth time 1 with
    | (false, time) => (false, time)
    | (true, next) => timeDECAddDays next (value - daysInMonth.toUInt32)
  else (true, { time with day := value.toUInt8 })
termination_by value.toNat
decreasing_by exact sub_days_lt (timeDECAddMonth_check ‹_›) (UInt32.le_of_lt ‹_›)

def timeDECAddDay (time : Time) (value : UInt32) : Bool × Time :=
  if timeDECCheck time = false then (false, time)
  else timeDECAddDays { time with day := 1 } (value + time.day.toUInt32)

/-- The loop of `TimeDECSubDay`, with the length of the month as `day`. -/
def timeDECSubDays (time : Time) (value : UInt32) : Bool × Time :=
  let day := timeMonthDays time.year time.month
  if day.toUInt32 ≤ value then
    match _ : timeDECSubMonth time 1 with
    | (false, time) => (false, time)
    | (true, next) => timeDECSubDays next (value - day.toUInt32)
  else (true, { time with day := day - value.toUInt8 })
termination_by value.toNat
decreasing_by exact sub_days_lt (timeDECSubMonth_check ‹_›) ‹_›

/-- If the first month is not left, the loop is not entered. -/
def timeDECSubDay (time : Time) (value : UInt32) : Bool × Time :=
  if timeDECCheck time = false then (false, time)
  else
    let day := time.day
    let time := { time with day := 1 }
    if day.toUInt32 ≤ value then
      match timeDECSubMonth time 1 with
      | (false, time) => (false, time)
      | (true, next) => timeDECSubDays next (value - day.toUInt32)
    else (true, { time with day := day - value.toUInt8 })

/-- A field of the time of day, with its range. -/
structure ClockField where
  get : Time → UInt8
  set : Time → UInt8 → Time
  range : UInt32

def ClockField.hour : ClockField := ⟨Time.hour, fun time hour => { time with hour }, 24⟩

def ClockField.minute : ClockField := ⟨Time.minute, fun time minute => { time with minute }, 60⟩

def ClockField.second : ClockField := ⟨Time.second, fun time second => { time with second }, 60⟩

/-- Add to a field, and carry to the next one. -/
def timeDECAddTo (field : ClockField) (carry : Time → UInt32 → Bool × Time) (time : Time)
    (value : UInt32) : Bool × Time :=
  if timeDECCheck time = false then (false, time)
  else if value + (field.get time).toUInt32 ≥ field.range then
    let value := value + (field.get time).toUInt32
    match carry time (value / field.range) with
    | (false, time) => (false, time)
    | (true, time) => (true, field.set time (value % field.range).toUInt8)
  else (true, field.set time (field.get time + value.toUInt8))

def timeDECAddHour : Time → UInt32 → Bool × Time := timeDECAddTo .hour timeDECAddDay

def timeDECAddMinute : Time → UInt32 → Bool × Time := timeDECAddTo .minute timeDECAddHour

def timeDECAddSecond : Time → UInt32 → Bool × Time := timeDECAddTo .second timeDECAddMinute

/-- Subtract from a field, and borrow from the next one.  The field keeps the remainder
meanwhile. -/
def timeDECSubFrom (field : ClockField) (borrow : Time → UInt32 → Bool × Time) (time : Time)
    (value : UInt32) : Bool × Time :=
  if timeDECCheck time = false then (false, time)
  else if value > (field.get time).toUInt32 then
    let value := value - (field.get time).toUInt32
    let time := field.set time (value % field.range).toUInt8
    match borrow time ((if field.get time ≠ 0 then 1 else 0) + value / field.range) with
    | (false, time) => (false, time)
    | (true, time) =>
        (true, if field.get time ≠ 0 then field.set time (field.range - value % field.range).toUInt8
          else time)
  else (true, field.set time (field.get time - value.toUInt8))

def timeDECSubHour : Time → UInt32 → Bool × Time := timeDECSubFrom .hour timeDECSubDay

def timeDECSubMinute : Time → UInt32 → Bool × Time := timeDECSubFrom .minute timeDECSubHour

def timeDECSubSecond : Time → UInt32 → Bool × Time := timeDECSubFrom .second timeDECSubMinute

end LedFirmware
