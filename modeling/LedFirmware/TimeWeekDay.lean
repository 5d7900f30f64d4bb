import LedFirmware.TimeSeconds

/-!
# The day of the week

`TimeDECWeekDay` computes the day of the week of a date by Zeller's formula.
-/

namespace LedFirmware

open Gregorian

/-- The days are numbered from Monday on, and seven is for a time that is not valid. -/
def timeDECWeekDay (time : Time) : UInt8 :=
  if timeDECCheck time = false then 7
  else
    let year : UInt16 := 2000 + time.year.toUInt16
    let early := time.month = 1 ∨ time.month = 2
    let month := if early then time.month + 12 else time.month
    let year := if early then year - 1 else year
    let day := time.day.toNat
    let month := month.toNat
    let year := year.toNat
    UInt8.ofNat ((day + 2 * month + 3 * (month + 1) / 5 + year + year / 4 - year / 100 +
      year / 400) % 7)

variable {time : Time}

theorem timeDECWeekDay_eq (valid : time.Valid) :
    (timeDECWeekDay time).toNat = (time.number + 5) % 7 := by
  have century := valid.year
  have monthLe := valid.month_le
  have year : ((2000 : UInt16) + time.year.toUInt16).toNat = 2000 + time.year.toNat := by
    rw [UInt16.toNat_add, UInt8.toNat_toUInt16]
    change (2000 + time.year.toNat) % 2 ^ 16 = _
    omega
  have early : (time.month = 1 ∨ time.month = 2) ↔ time.month.toNat ≤ 2 := by
    have monthPos := valid.month_pos
    rw [← UInt8.toNat_inj, ← UInt8.toNat_inj]
    change time.month.toNat = 1 ∨ time.month.toNat = 2 ↔ _
    omega
  have earlier : 2000 + time.year.toNat = 1999 + time.year.toNat + 1 := by omega
  rw [Time.number, earlier, dayNumber_zeller _ valid.month_pos monthLe valid.day_pos,
    timeDECWeekDay, if_neg valid.checked]
  dsimp only
  by_cases first : time.month.toNat ≤ 2
  · have month : (time.month + 12).toNat = time.month.toNat + 12 := by
      rw [UInt8.toNat_add]
      change (time.month.toNat + 12) % 2 ^ 8 = _
      omega
    have before : ((2000 : UInt16) + time.year.toUInt16 - 1).toNat = 1999 + time.year.toNat := by
      rw [UInt16.toNat_sub, year]
      change (2 ^ 16 - 1 + (2000 + time.year.toNat)) % 2 ^ 16 = _
      omega
    rw [if_pos (early.mpr first), if_pos (early.mpr first), if_pos first, month, before, zeller,
      UInt8.toNat_ofNat']
    omega
  · rw [if_neg (mt early.mp first), if_neg (mt early.mp first), if_neg first, year, zeller,
      UInt8.toNat_ofNat', earlier]
    omega

/-- Only the last day of the century is the last one. -/
theorem Time.days_lt_last (valid : time.Valid)
    (more : ¬ (time.year = 99 ∧ time.month = 12 ∧ time.day = 31)) :
    time.days + 1 < centuryDays := by
  have index := Time.monthIndex_lt valid
  have below := Time.number_lt_next valid
  have number := Time.number_eq_days valid
  have length := Time.monthNumber_next valid
  have here := Time.number_eq valid
  have dayPos := valid.day_pos
  have century := Time.monthNumber_century
  by_cases last : time.monthIndex = 1199
  · have year : time.year.toNat = 99 := by
      have monthLe := valid.month_le
      unfold Time.monthIndex at last
      omega
    have month : time.month.toNat = 12 := by
      have monthLe := valid.month_le
      unfold Time.monthIndex at last
      omega
    have day : time.day.toNat ≠ 31 := fun day =>
      more ⟨UInt8.toNat_inj.mp year, UInt8.toNat_inj.mp month, UInt8.toNat_inj.mp day⟩
    have dayLe := valid.day_le
    have days : monthDays (2000 + time.year.toNat) time.month.toNat = 31 := by
      rw [year, month]
      rfl
    rw [last] at here length
    have ends : 12 * 2000 + 1199 + 1 = 12 * 2000 + 1200 := rfl
    rw [ends, century, days] at length
    omega
  · have mono : monthNumber (12 * 2000 + time.monthIndex + 1) <
        monthNumber (12 * 2000 + 1200) := monthNumber_strictMono (by omega)
    omega

/-- One day more is the next date. -/
theorem timeDECAddDay_one (valid : time.Valid)
    (more : ¬ (time.year = 99 ∧ time.month = 12 ∧ time.day = 31)) :
    ∃ next, timeDECAddDay time 1 = (true, next) ∧
      ∃ arrived : next.Valid, next.date arrived = (time.date valid).next := by
  have inside := Time.days_lt_last valid more
  obtain ⟨next, added, arrived, -, counted⟩ := timeDECAddDay_adds time 1 valid (by decide)
  have exactly : next.days % centuryDays = (time.days + 1) % centuryDays := counted
  rw [Nat.mod_eq_of_lt (Time.days_lt arrived), Nat.mod_eq_of_lt inside] at exactly
  have number : (time.date valid).number = _ := Time.number_eq_days valid
  have number' : (next.date arrived).number = _ := Time.number_eq_days arrived
  refine ⟨next, added, arrived, ?_⟩
  apply Date.eq_of_number
  rw [Date.number_next]
  omega

/-- The day of the week is the one of the calendar, and goes on with the days. -/
theorem week_day (time : Time) (valid : timeDECCheck time = true) :
    (timeDECWeekDay time).toNat ≤ 6 ∧
    (timeDECWeekDay time).toNat = (time.date (timeDECCheck_iff.mp valid)).weekday ∧
    timeDECWeekDay initTime = 5 ∧
    (¬ (time.year = 99 ∧ time.month = 12 ∧ time.day = 31) →
      (timeDECAddDay time 1).1 = true ∧
      (timeDECWeekDay (timeDECAddDay time 1).2).toNat = ((timeDECWeekDay time).toNat + 1) % 7) := by
  have numbers := timeDECCheck_iff.mp valid
  have today := timeDECWeekDay_eq numbers
  refine ⟨by omega, today, by decide, ?_⟩
  intro more
  obtain ⟨next, added, arrived, date⟩ := timeDECAddDay_one numbers more
  have tomorrow : (timeDECWeekDay next).toNat = (next.date arrived).weekday :=
    timeDECWeekDay_eq arrived
  rw [added]
  refine ⟨rfl, ?_⟩
  dsimp only
  rw [tomorrow, date, Date.weekday_next, today]
  rfl

theorem week_day_leap : ((timeDECWeekDay ⟨24, 2, 28, 12, 0, 0⟩).toNat ≤ 6 ∧
    (timeDECWeekDay (timeDECAddDay ⟨24, 2, 28, 12, 0, 0⟩ 1).2).toNat =
      ((timeDECWeekDay ⟨24, 2, 28, 12, 0, 0⟩).toNat + 1) % 7) :=
  have facts := week_day ⟨24, 2, 28, 12, 0, 0⟩ (by decide)
  ⟨facts.1, (facts.2.2.2 (by decide)).2⟩

end LedFirmware
