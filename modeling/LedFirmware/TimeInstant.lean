import LedFirmware.Odometer
import LedFirmware.TimeCheck
import Mathlib.Tactic.NormNum

/-!
# The instant of a time

The days of the century are counted from the first of January 2000, and the hours,
minutes and seconds of a time are wheels below them.  The order of the fields is the order
of the instants.
-/

namespace LedFirmware

open Gregorian Odometer

/-- The days from 2000 to 2099. -/
def centuryDays : Nat := 36525

namespace Time

/-- The date of a valid time. -/
def date (time : Time) (valid : time.Valid) : Date where
  year := 2000 + time.year.toNat
  month := time.month.toNat
  day := time.day.toNat
  month_pos := valid.month_pos
  month_le := valid.month_le
  day_pos := valid.day_pos
  day_le := valid.day_le

/-- The day of a time. -/
def number (time : Time) : Nat :=
  dayNumber (2000 + time.year.toNat) time.month.toNat time.day.toNat

/-- The months of the century before the month of a time. -/
def monthIndex (time : Time) : Nat := 12 * time.year.toNat + (time.month.toNat - 1)

def days (time : Time) : Nat := time.number - monthNumber (12 * 2000)

def hours (time : Time) : Nat := reading 24 time.days time.hour.toNat

def minutes (time : Time) : Nat := reading 60 time.hours time.minute.toNat

/-- The instant, in seconds of the century. -/
def seconds (time : Time) : Nat := reading 60 time.minutes time.second.toNat

/-- The bytes of a time, in their order. -/
def bytes (time : Time) : List UInt8 :=
  [time.year, time.month, time.day, time.hour, time.minute, time.second]

theorem ext_bytes {time other : Time} (same : time.bytes = other.bytes) : time = other := by
  simp only [bytes, List.cons.injEq] at same
  obtain ⟨year, month, day, hour, minute, second, -⟩ := same
  exact Time.ext year month day hour minute second

/-- The seconds of the century. -/
def centurySeconds : Nat := centuryDays * 24 * 60 * 60

theorem centurySeconds_eq : centurySeconds = 3155760000 :=
  rfl

/-- The century ends its days after it has begun. -/
theorem monthNumber_century :
    monthNumber (12 * 2000 + 1200) = monthNumber (12 * 2000) + centuryDays := by
  have last : 12 * 2000 + 1200 = 12 * (2099 + 1) := by norm_num
  have first : 12 * 2000 = 12 * (1999 + 1) := by norm_num
  rw [last, first, monthNumber_year, monthNumber_year, yearStart_eq, yearStart_eq]
  rfl

variable {time other : Time}

theorem monthIndex_lt (valid : time.Valid) : time.monthIndex < 1200 := by
  have century := valid.year
  have monthLe := valid.month_le
  unfold monthIndex
  omega

theorem date_monthIndex (valid : time.Valid) :
    (time.date valid).monthIndex = 12 * 2000 + time.monthIndex := by
  simp only [Date.monthIndex, date, monthIndex, Nat.mul_add, Nat.add_assoc]

/-- The days of the months before it, and those of its month. -/
theorem number_eq (valid : time.Valid) :
    time.number = monthNumber (12 * 2000 + time.monthIndex) + (time.day.toNat - 1) := by
  rw [← date_monthIndex valid]
  exact (time.date valid).number_eq

theorem monthNumber_next (valid : time.Valid) :
    monthNumber (12 * 2000 + time.monthIndex + 1) =
      monthNumber (12 * 2000 + time.monthIndex) +
        monthDays (2000 + time.year.toNat) time.month.toNat := by
  rw [← date_monthIndex valid]
  exact (time.date valid).monthNumber_next

/-- A valid time is in its month. -/
theorem number_lt_next (valid : time.Valid) :
    time.number < monthNumber (12 * 2000 + time.monthIndex + 1) := by
  rw [← date_monthIndex valid]
  exact (time.date valid).number_lt_next

theorem number_eq_days (valid : time.Valid) :
    time.number = monthNumber (12 * 2000) + time.days := by
  have start : monthNumber (12 * 2000) ≤ monthNumber (12 * 2000 + time.monthIndex) :=
    monthNumber_strictMono.monotone (Nat.le_add_right _ _)
  have number := number_eq valid
  unfold days
  omega

theorem days_lt (valid : time.Valid) : time.days < centuryDays := by
  have index := monthIndex_lt valid
  have last : monthNumber (12 * 2000 + time.monthIndex + 1) ≤ monthNumber (12 * 2000 + 1200) :=
    monthNumber_strictMono.monotone (by omega)
  have below := number_lt_next valid
  have number := number_eq_days valid
  rw [monthNumber_century] at last
  omega

theorem hours_lt (valid : time.Valid) : time.hours < centuryDays * 24 :=
  reading_lt (days_lt valid) valid.hour

theorem minutes_lt (valid : time.Valid) : time.minutes < centuryDays * 24 * 60 :=
  reading_lt (hours_lt valid) valid.minute

theorem seconds_lt (valid : time.Valid) : time.seconds < centurySeconds :=
  reading_lt (minutes_lt valid) valid.second

/-! ## Order -/

/-- The days are in the order of the numbers. -/
theorem days_lt_of_number (valid : time.Valid) (valid' : other.Valid)
    (later : time.number < other.number) : time.days < other.days := by
  rw [number_eq_days valid, number_eq_days valid'] at later
  exact Nat.lt_of_add_lt_add_left later

theorem days_lt_of_monthIndex (valid : time.Valid) (valid' : other.Valid)
    (later : time.monthIndex < other.monthIndex) : time.days < other.days := by
  apply days_lt_of_number valid valid'
  apply @Date.number_lt_of_monthIndex (time.date valid) (other.date valid')
  rw [date_monthIndex, date_monthIndex]
  exact Nat.add_lt_add_left later _

theorem days_lt_of_day (valid : time.Valid) (valid' : other.Valid)
    (same : time.monthIndex = other.monthIndex) (later : time.day.toNat < other.day.toNat) :
    time.days < other.days := by
  apply days_lt_of_number valid valid'
  apply @Date.number_lt_of_day (time.date valid) (other.date valid') _ later
  rw [date_monthIndex, date_monthIndex, same]

/-- An earlier time is an earlier instant. -/
theorem seconds_lt_of_bytes (valid : time.Valid) (valid' : other.Valid)
    (earlier : time.bytes < other.bytes) : time.seconds < other.seconds := by
  have monthPos := valid.month_pos
  have monthLe := valid.month_le
  have monthPos' := valid'.month_pos
  simp only [bytes, List.cons_lt_cons_iff, UInt8.lt_iff_toNat_lt] at earlier
  have ofDays (later : time.days < other.days) : time.seconds < other.seconds :=
    reading_lt_of_count valid.second (reading_lt_of_count valid.minute
      (reading_lt_of_count valid.hour later))
  rcases earlier with year | ⟨year, month | ⟨month, day | ⟨day, hour | ⟨hour, minute |
    ⟨minute, second | ⟨-, none⟩⟩⟩⟩⟩⟩
  · apply ofDays (days_lt_of_monthIndex valid valid' _)
    unfold monthIndex
    omega
  · apply ofDays (days_lt_of_monthIndex valid valid' _)
    unfold monthIndex
    rw [year]
    omega
  · apply ofDays (days_lt_of_day valid valid' _ day)
    unfold monthIndex
    rw [year, month]
  · have sameDays : time.days = other.days := by simp only [days, number, year, month, day]
    apply reading_lt_of_count valid.second (reading_lt_of_count valid.minute _)
    rw [hours, hours, sameDays]
    exact reading_lt_of_digit hour
  · have sameHours : time.hours = other.hours := by
      simp only [hours, days, number, year, month, day, hour]
    apply reading_lt_of_count valid.second
    rw [minutes, minutes, sameHours]
    exact reading_lt_of_digit minute
  · have sameMinutes : time.minutes = other.minutes := by
      simp only [minutes, hours, days, number, year, month, day, hour, minute]
    rw [seconds, seconds, sameMinutes]
    exact reading_lt_of_digit second
  · exact absurd none (List.not_lt_nil _)

/-- Every instant is that of one valid time. -/
theorem eq_of_seconds (valid : time.Valid) (valid' : other.Valid)
    (same : time.seconds = other.seconds) : time = other := by
  have first : other.bytes ≤ time.bytes := List.not_lt.mp fun earlier =>
    (seconds_lt_of_bytes valid valid' earlier).ne same
  have second : time.bytes ≤ other.bytes := List.not_lt.mp fun earlier =>
    (seconds_lt_of_bytes valid' valid earlier).ne same.symm
  exact ext_bytes (List.le_antisymm second first)

end Time

end LedFirmware
