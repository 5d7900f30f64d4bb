import LedFirmware.TimeInstant
import LedFirmware.TimeMonths

/-!
# Days and the time of the day

The days are added and subtracted month by month, always from the first of a month, and
each field of the time of the day carries to the next one or borrows from it.  The instant
moves by what is added, in the cycle of the century.
-/

namespace LedFirmware

open Gregorian Odometer

variable {time next : Time} {value : UInt32}

/-! ## Months from the first of a month -/

theorem Lands.monthIndex {year month : Nat} (lands : Lands time year month next) :
    next.monthIndex = 12 * year + (month - 1) := by
  rw [Time.monthIndex, lands.year, lands.month]

/-- Every month has the first 28 days. -/
theorem MonthOp.right_of_day_le (op : MonthOp) (valid : time.Valid) (early : time.day.toNat ≤ 28)
    (fits : op.Fits time value) : op.Right time value := by
  cases op with
  | addYear => exact MonthOp.addYear_right valid fits
  | addMonth =>
      apply (MonthOp.addMonth_right valid fits).mpr
      exact Or.inr (early.trans (monthDays_ge _ _))
  | subYear => exact MonthOp.subYear_right valid value
  | subMonth =>
      apply (MonthOp.subMonth_right valid value).mpr
      exact Or.inr ((Nat.min_le_left _ _).trans (early.trans (monthDays_ge _ _)))

/-- From the first of a month to that of another one. -/
theorem MonthOp.right_first (op : MonthOp) (valid : time.Valid) (first : time.day = 1)
    (fits : op.Fits time value) : ∃ next, op.run time value = (true, next) ∧ next.Valid ∧
      next.day = 1 ∧ next.monthIndex = op.target time value ∧ next.hour = time.hour ∧
      next.minute = time.minute ∧ next.second = time.second := by
  have one : time.day.toNat = 1 := congrArg UInt8.toNat first
  obtain ⟨next, ran, arrived, lands⟩ := op.right_of_day_le valid (by omega) fits
  have days := monthDays_ge (2000 + op.target time value / 12) (op.target time value % 12 + 1)
  have day : next.day.toNat = 1 := by
    rw [lands.day]
    omega
  refine ⟨next, ran, timeDECCheck_iff.mp arrived, UInt8.toNat_inj.mp day, ?_, lands.hour,
    lands.minute, lands.second⟩
  rw [lands.monthIndex]
  omega

/-- The days of a time before the first of its month. -/
theorem Time.days_first (valid : time.Valid) :
    monthNumber (12 * 2000) + time.days =
      monthNumber (12 * 2000 + time.monthIndex) + (time.day.toNat - 1) := by
  rw [← Time.number_eq_days valid, Time.number_eq valid]

/-- The month after one begins when its days are over; the century runs round. -/
theorem Time.days_succ (valid : time.Valid) (valid' : next.Valid) (first : time.day = 1)
    (first' : next.day = 1) (later : next.monthIndex = (time.monthIndex + 1) % 1200) :
    next.days ≡ time.days + monthDays (2000 + time.year.toNat) time.month.toNat
      [MOD centuryDays] := by
  have index := Time.monthIndex_lt valid
  have here := Time.days_first valid
  have there := Time.days_first valid'
  have length := Time.monthNumber_next valid
  rw [first] at here
  rw [first'] at there
  simp only [UInt8.toNat_one, Nat.sub_self, Nat.add_zero] at here there
  by_cases last : time.monthIndex + 1 = 1200
  · have again : next.monthIndex = 0 := by rw [later, last]
    have century := Time.monthNumber_century
    rw [again, Nat.add_zero] at there
    rw [Nat.add_assoc, last, century] at length
    have round : time.days + monthDays (2000 + time.year.toNat) time.month.toNat =
        next.days + centuryDays := by omega
    rw [round]
    exact (Nat.add_modEq_right).symm
  · have inside : next.monthIndex = time.monthIndex + 1 := by omega
    rw [inside, ← Nat.add_assoc, length] at there
    have exactly : next.days =
        time.days + monthDays (2000 + time.year.toNat) time.month.toNat := by omega
    rw [exactly]

/-! ## Days -/

/-- What is below the minutes, the hours and the days. -/
def Time.belowMinutes (time : Time) : UInt8 × Unit := (time.second, ())

def Time.belowHours (time : Time) : UInt8 × UInt8 × Unit := (time.minute, time.belowMinutes)

def Time.belowDays (time : Time) : UInt8 × UInt8 × UInt8 × Unit := (time.hour, time.belowHours)

theorem Time.belowDays_eq (hour : next.hour = time.hour) (minute : next.minute = time.minute)
    (second : next.second = time.second) : next.belowDays = time.belowDays := by
  simp only [belowDays, belowHours, belowMinutes, hour, minute, second]

/-- Another day of the month. -/
theorem Time.valid_setDay (valid : time.Valid) {day : UInt8} (positive : 1 ≤ day.toNat)
    (inside : day.toNat ≤ monthDays (2000 + time.year.toNat) time.month.toNat) :
    { time with day }.Valid :=
  ⟨valid.year, valid.month_pos, valid.month_le, positive, inside, valid.hour, valid.minute,
    valid.second⟩

theorem Time.days_setDay (valid : time.Valid) {day : UInt8} (moved : { time with day }.Valid) :
    { time with day }.days + time.day.toNat = time.days + day.toNat := by
  have here := Time.days_first valid
  have there := Time.days_first moved
  have dayPos := valid.day_pos
  have dayPos' : 1 ≤ day.toNat := moved.day_pos
  have sameMonth : { time with day }.monthIndex = time.monthIndex := rfl
  rw [sameMonth] at there
  dsimp only at there
  omega

theorem timeDECAddMonth_first (valid : time.Valid) (first : time.day = 1) :
    ∃ next, timeDECAddMonth time 1 = (true, next) ∧ next.Valid ∧ next.day = 1 ∧
      next.belowDays = time.belowDays ∧
      next.days ≡ time.days + (timeMonthDays time.year time.month).toNat [MOD centuryDays] := by
  have monthLe := valid.month_le
  have fits : MonthOp.addMonth.Fits time 1 := by
    change 1 + time.month.toNat < 2 ^ 32
    omega
  obtain ⟨next, added, valid', first', index, hour, minute, second⟩ :=
    MonthOp.addMonth.right_first valid first fits
  have later : next.monthIndex = (time.monthIndex + 1) % 1200 := by
    have monthPos := valid.month_pos
    rw [index, Time.monthIndex]
    simp only [MonthOp.target, MonthOp.months, UInt32.toNat_one]
    omega
  refine ⟨next, added, valid', first', Time.belowDays_eq hour minute second, ?_⟩
  rw [timeMonthDays_toNat valid.year valid.month_pos (Nat.lt_succ_of_le monthLe)]
  exact Time.days_succ valid valid' first first' later

theorem timeDECSubMonth_first (valid : time.Valid) (first : time.day = 1) :
    ∃ next, timeDECSubMonth time 1 = (true, next) ∧ next.Valid ∧ next.day = 1 ∧
      next.belowDays = time.belowDays ∧
      time.days ≡ next.days + (timeMonthDays next.year next.month).toNat [MOD centuryDays] := by
  obtain ⟨next, taken, valid', first', index, hour, minute, second⟩ :=
    @MonthOp.right_first time 1 .subMonth valid first trivial
  have later : time.monthIndex = (next.monthIndex + 1) % 1200 := by
    have monthPos := valid.month_pos
    have bound := Time.monthIndex_lt valid
    rw [index]
    simp only [Time.monthIndex] at bound ⊢
    simp only [MonthOp.target, MonthOp.months, UInt32.toNat_one]
    omega
  refine ⟨next, taken, valid', first', Time.belowDays_eq hour minute second, ?_⟩
  rw [timeMonthDays_toNat valid'.year valid'.month_pos (Nat.lt_succ_of_le valid'.month_le)]
  exact Time.days_succ valid' valid first' first later

/-- The loop of the addition, from the first of a month, for a day counted from it. -/
theorem timeDECAddDays_moves (time : Time) (value : UInt32) (valid : time.Valid)
    (first : time.day = 1) (positive : 1 ≤ value.toNat) :
    ∃ next, timeDECAddDays time value = (true, next) ∧ next.Valid ∧
      next.belowDays = time.belowDays ∧
      next.days + 1 ≡ time.days + value.toNat [MOD centuryDays] := by
  induction measured : value.toNat using Nat.strongRecOn generalizing time value with
  | ind rank ih =>
      have length := timeMonthDays_toNat valid.year valid.month_pos
        (Nat.lt_succ_of_le valid.month_le)
      have days := monthDays_ge (2000 + time.year.toNat) time.month.toNat
      have days' := monthDays_le (2000 + time.year.toNat) time.month.toNat
      rw [timeDECAddDays]
      by_cases more : (timeMonthDays time.year time.month).toUInt32 < value
      · have left := toNat_value_sub_byte (UInt32.le_of_lt more)
        have less := byte_lt_value.mp more
        obtain ⟨middle, added, valid', first', kept, later⟩ := timeDECAddMonth_first valid first
        obtain ⟨next, ran, arrived, kept', counted⟩ := ih _ (by omega) middle
          (value - (timeMonthDays time.year time.month).toUInt32) valid' first' (by omega) rfl
        rw [if_pos more]
        split
        · rename_i failed
          cases added.symm.trans failed
        · rename_i other added'
          cases added.symm.trans added'
          refine ⟨next, ran, arrived, kept'.trans kept, ?_⟩
          rw [left] at counted
          have rest := later.add_right
            (value.toNat - (timeMonthDays time.year time.month).toNat)
          have whole : time.days + (timeMonthDays time.year time.month).toNat +
              (value.toNat - (timeMonthDays time.year time.month).toNat) =
                time.days + value.toNat := by omega
          rw [whole] at rest
          rw [← measured]
          exact counted.trans rest
      · have most : value.toNat ≤ (timeMonthDays time.year time.month).toNat :=
          Nat.le_of_not_lt (mt byte_lt_value.mpr more)
        have day : value.toUInt8.toNat = value.toNat := by
          rw [UInt32.toNat_toUInt8]
          omega
        have moved := @Time.valid_setDay time valid value.toUInt8 (by omega) (by omega)
        have counted := Time.days_setDay valid moved
        rw [if_neg more]
        refine ⟨_, rfl, moved, rfl, ?_⟩
        rw [first, day, measured] at counted
        rw [← counted]
        rfl

/-- The loop of the subtraction, from the first of a month, for a day counted back from the
last of it. -/
theorem timeDECSubDays_moves (time : Time) (value : UInt32) (valid : time.Valid)
    (first : time.day = 1) :
    ∃ next, timeDECSubDays time value = (true, next) ∧ next.Valid ∧
      next.belowDays = time.belowDays ∧
      next.days + value.toNat + 1 ≡
        time.days + (timeMonthDays time.year time.month).toNat [MOD centuryDays] := by
  induction measured : value.toNat using Nat.strongRecOn generalizing time value with
  | ind rank ih =>
      have length := timeMonthDays_toNat valid.year valid.month_pos
        (Nat.lt_succ_of_le valid.month_le)
      have days := monthDays_ge (2000 + time.year.toNat) time.month.toNat
      have days' := monthDays_le (2000 + time.year.toNat) time.month.toNat
      rw [timeDECSubDays]
      by_cases more : (timeMonthDays time.year time.month).toUInt32 ≤ value
      · have left := toNat_value_sub_byte more
        have enough := byte_le_value.mp more
        obtain ⟨middle, taken, valid', first', kept, earlier⟩ := timeDECSubMonth_first valid first
        obtain ⟨next, ran, arrived, kept', counted⟩ := ih _ (by omega) middle
          (value - (timeMonthDays time.year time.month).toUInt32) valid' first' rfl
        rw [if_pos more]
        split
        · rename_i failed
          cases taken.symm.trans failed
        · rename_i other taken'
          cases taken.symm.trans taken'
          refine ⟨next, ran, arrived, kept'.trans kept, ?_⟩
          rw [left] at counted
          have rest := (counted.trans earlier.symm).add_right
            (timeMonthDays time.year time.month).toNat
          have whole : next.days + (value.toNat - (timeMonthDays time.year time.month).toNat) + 1 +
              (timeMonthDays time.year time.month).toNat = next.days + value.toNat + 1 := by omega
          rw [whole] at rest
          rw [← measured]
          exact rest
      · have less : value.toNat < (timeMonthDays time.year time.month).toNat :=
          Nat.lt_of_not_le (mt byte_le_value.mpr more)
        have day := toNat_byte_sub_value less.le
        have moved := @Time.valid_setDay time valid
          (timeMonthDays time.year time.month - value.toUInt8) (by omega) (by omega)
        have counted := Time.days_setDay valid moved
        rw [if_neg more]
        refine ⟨_, rfl, moved, rfl, ?_⟩
        rw [first, day, UInt8.toNat_one] at counted
        have whole : { time with day := timeMonthDays time.year time.month -
            value.toUInt8 }.days + rank + 1 =
              time.days + (timeMonthDays time.year time.month).toNat := by omega
        rw [whole]

/-- The days are counted from the first of the month, in 32 bits. -/
theorem timeDECAddDay_moves (valid : time.Valid)
    (positive : 1 ≤ (value.toNat + time.day.toNat) % 2 ^ 32) :
    ∃ next, timeDECAddDay time value = (true, next) ∧ next.Valid ∧
      next.belowDays = time.belowDays ∧
      next.days + time.day.toNat ≡
        time.days + (value.toNat + time.day.toNat) % 2 ^ 32 [MOD centuryDays] := by
  have sum : (value + time.day.toUInt32).toNat = (value.toNat + time.day.toNat) % 2 ^ 32 :=
    toNat_value_add_byte
  have dayPos := valid.day_pos
  have moved := @Time.valid_setDay time valid 1 le_rfl (dayPos.trans valid.day_le)
  have start := Time.days_setDay valid moved
  obtain ⟨next, ran, arrived, kept, counted⟩ := timeDECAddDays_moves { time with day := 1 }
    (value + time.day.toUInt32) moved rfl (by rwa [sum])
  refine ⟨next, ?_, arrived, kept, ?_⟩
  · rw [timeDECAddDay, if_neg valid.checked]
    exact ran
  · rw [sum] at counted
    have both := counted.add_right time.day.toNat
    apply Nat.ModEq.add_right_cancel' 1
    have left : next.days + time.day.toNat + 1 = next.days + 1 + time.day.toNat := by omega
    have right : time.days + (value.toNat + time.day.toNat) % 2 ^ 32 + 1 =
        { time with day := 1 }.days + (value.toNat + time.day.toNat) % 2 ^ 32 +
          time.day.toNat := by
      rw [UInt8.toNat_one] at start
      omega
    rw [left, right]
    exact both

theorem timeDECSubDay_moves (valid : time.Valid) :
    ∃ next, timeDECSubDay time value = (true, next) ∧ next.Valid ∧
      next.belowDays = time.belowDays ∧
      next.days + value.toNat ≡ time.days [MOD centuryDays] := by
  have dayPos := valid.day_pos
  have dayLe := valid.day_le
  have month := monthDays_le (2000 + time.year.toNat) time.month.toNat
  have moved := @Time.valid_setDay time valid 1 le_rfl (dayPos.trans dayLe)
  have start := Time.days_setDay valid moved
  rw [UInt8.toNat_one] at start
  rw [timeDECSubDay, if_neg valid.checked]
  dsimp only
  by_cases more : time.day.toUInt32 ≤ value
  · have left := toNat_value_sub_byte more
    have enough := byte_le_value.mp more
    obtain ⟨middle, taken, valid', first', kept, earlier⟩ := timeDECSubMonth_first moved rfl
    obtain ⟨next, ran, arrived, kept', counted⟩ :=
      timeDECSubDays_moves middle (value - time.day.toUInt32) valid' first'
    refine ⟨next, ?_, arrived, kept'.trans kept, ?_⟩
    · rw [if_pos more, taken]
      exact ran
    · rw [left] at counted
      have both := (counted.trans earlier.symm).add_right time.day.toNat
      apply Nat.ModEq.add_right_cancel' 1
      have whole : next.days + value.toNat + 1 =
          next.days + (value.toNat - time.day.toNat) + 1 + time.day.toNat := by omega
      rw [whole, ← start]
      exact both
  · have less : value.toNat < time.day.toNat := Nat.lt_of_not_le (mt byte_le_value.mpr more)
    have day := toNat_byte_sub_value less.le
    have moved' := @Time.valid_setDay time valid (time.day - value.toUInt8) (by omega) (by omega)
    have counted := Time.days_setDay valid moved'
    refine ⟨_, if_neg more, moved', rfl, ?_⟩
    rw [day] at counted
    have whole : { time with day := time.day - value.toUInt8 }.days + value.toNat = time.days := by
      omega
    rw [whole]

/-! ## The wheels of the time of the day -/

variable {Rest : Type} {field : ClockField} {base size : Nat} {count : Time → Nat}
  {below : Time → Rest} {move : Time → UInt32 → Bool × Time}

/-- A function adds to what is counted, as far as its first addition stays in 32 bits, and
leaves what is below. -/
def Adds (size : Nat) (count : Time → Nat) (below : Time → Rest)
    (add : Time → UInt32 → Bool × Time) : Prop :=
  ∀ time value, time.Valid → value.toNat + 60 ≤ 2 ^ 32 →
    ∃ next, add time value = (true, next) ∧ next.Valid ∧ below next = below time ∧
      count next ≡ count time + value.toNat [MOD size]

def Subtracts (size : Nat) (count : Time → Nat) (below : Time → Rest)
    (subtract : Time → UInt32 → Bool × Time) : Prop :=
  ∀ time value, time.Valid →
    ∃ next, subtract time value = (true, next) ∧ next.Valid ∧ below next = below time ∧
      count next + value.toNat ≡ count time [MOD size]

/-- A field is a wheel below what is counted. -/
structure ClockField.Wheel (field : ClockField) (base : Nat) (count : Time → Nat)
    (below : Time → Rest) : Prop where
  range : field.range.toNat = base
  two_le : 2 ≤ base
  base_le : base ≤ 60
  get_lt : ∀ {time}, time.Valid → (field.get time).toNat < base
  get_set : ∀ {time digit}, field.get (field.set time digit) = digit
  set_valid : ∀ {time digit}, time.Valid → digit.toNat < base → (field.set time digit).Valid
  set_count : ∀ {time digit}, count (field.set time digit) = count time
  set_below : ∀ {time digit}, below (field.set time digit) = below time

theorem hour_wheel : ClockField.hour.Wheel 24 Time.days Time.belowHours where
  range := rfl
  two_le := by decide
  base_le := by decide
  get_lt valid := valid.hour
  get_set := rfl
  set_valid valid less := ⟨valid.year, valid.month_pos, valid.month_le, valid.day_pos,
    valid.day_le, less, valid.minute, valid.second⟩
  set_count := rfl
  set_below := rfl

theorem minute_wheel : ClockField.minute.Wheel 60 Time.hours Time.belowMinutes where
  range := rfl
  two_le := by decide
  base_le := by decide
  get_lt valid := valid.minute
  get_set := rfl
  set_valid valid less := ⟨valid.year, valid.month_pos, valid.month_le, valid.day_pos,
    valid.day_le, valid.hour, less, valid.second⟩
  set_count := rfl
  set_below := rfl

theorem second_wheel : ClockField.second.Wheel 60 Time.minutes fun _ => () where
  range := rfl
  two_le := by decide
  base_le := by decide
  get_lt valid := valid.second
  get_set := rfl
  set_valid valid less := ⟨valid.year, valid.month_pos, valid.month_le, valid.day_pos,
    valid.day_le, valid.hour, valid.minute, less⟩
  set_count := rfl
  set_below := rfl

/-- The wheel is set, and what is above it has been moved. -/
theorem ClockField.Wheel.set_arrives (wheel : field.Wheel base count below) (digit : UInt8)
    (arrived : next.Valid) (kept : below next = below time) (less : digit.toNat < base) :
    (field.set next digit).Valid ∧ below (field.set next digit) = below time ∧
      reading base (count (field.set next digit)) (field.get (field.set next digit)).toNat =
        reading base (count next) digit.toNat := by
  rw [wheel.set_count, wheel.get_set, wheel.set_below]
  exact ⟨wheel.set_valid arrived less, kept, rfl⟩

/-! ### Quotient and remainder in 32 bits -/

namespace ClockField.Wheel

theorem pos (wheel : field.Wheel base count below) : 0 < base :=
  Nat.lt_of_lt_of_le (by decide) wheel.two_le

theorem toNat_mod (wheel : field.Wheel base count below) (rest : UInt32) :
    (rest % field.range).toUInt8.toNat = rest.toNat % base := by
  have small := Nat.mod_lt rest.toNat wheel.pos
  have baseLe := wheel.base_le
  rw [UInt32.toNat_toUInt8, UInt32.toNat_mod, wheel.range]
  omega

theorem toNat_div (wheel : field.Wheel base count below) (rest : UInt32) :
    (rest / field.range).toNat = rest.toNat / base := by
  rw [UInt32.toNat_div, wheel.range]

/-- The turns of a wheel are few enough for the next addition. -/
theorem div_le (wheel : field.Wheel base count below) (rest : UInt32) :
    rest.toNat / base ≤ 2 ^ 32 / 2 :=
  (Nat.div_le_div_left wheel.two_le (by decide)).trans (Nat.div_le_div_right rest.toNat_lt.le)

theorem mod_ne_zero (wheel : field.Wheel base count below) {rest : UInt32} :
    (rest % field.range).toUInt8 ≠ 0 ↔ rest.toNat % base ≠ 0 := by
  rw [← wheel.toNat_mod]
  exact not_congr UInt8.toNat_inj.symm

/-- The turns to borrow. -/
theorem toNat_turns (wheel : field.Wheel base count below) (rest : UInt32) :
    ((if (rest % field.range).toUInt8 ≠ 0 then 1 else 0) + rest / field.range).toNat =
      (if rest.toNat % base ≠ 0 then 1 else 0) + rest.toNat / base := by
  have few := wheel.div_le rest
  rw [UInt32.toNat_add, wheel.toNat_div, apply_ite UInt32.toNat, UInt32.toNat_one,
    UInt32.toNat_zero, if_congr wheel.mod_ne_zero rfl rfl]
  generalize rest.toNat / base = turns at few ⊢
  split_ifs <;> omega

/-- What a borrowed turn leaves. -/
theorem toNat_complement (wheel : field.Wheel base count below) (rest : UInt32) :
    (field.range - rest % field.range).toUInt8.toNat = base - rest.toNat % base := by
  have small := Nat.mod_lt rest.toNat wheel.pos
  have baseLe := wheel.base_le
  have inside : rest % field.range ≤ field.range := by
    rw [UInt32.le_iff_toNat_le, UInt32.toNat_mod, wheel.range]
    exact small.le
  rw [UInt32.toNat_toUInt8, UInt32.toNat_sub_of_le _ _ inside, UInt32.toNat_mod, wheel.range]
  omega

end ClockField.Wheel

/-- An addition to a wheel, in 32 bits. -/
theorem timeDECAddTo_moves (wheel : field.Wheel base count below)
    (carries : Adds size count (fun time => (field.get time, below time)) move) (time : Time)
    (value : UInt32) (valid : time.Valid) :
    ∃ next, timeDECAddTo field move time value = (true, next) ∧ next.Valid ∧
      below next = below time ∧
      reading base (count next) (field.get next).toNat ≡
        reading base (count time) 0 + (value.toNat + (field.get time).toNat) % 2 ^ 32
          [MOD size * base] := by
  have digit := wheel.get_lt valid
  have baseLe := wheel.base_le
  rw [timeDECAddTo, if_neg valid.checked, ← toNat_value_add_byte]
  by_cases more : value + (field.get time).toUInt32 ≥ field.range
  · rw [if_pos more]
    generalize value + (field.get time).toUInt32 = sum
    have few := wheel.div_le sum
    have rest := wheel.toNat_mod sum
    have turns := wheel.toNat_div sum
    obtain ⟨middle, carried, arrived, kept, counted⟩ :=
      carries time (sum / field.range) valid (by omega)
    have less := rest.trans_lt (Nat.mod_lt sum.toNat wheel.pos)
    obtain ⟨set, unchanged, shown⟩ := wheel.set_arrives _ arrived (Prod.mk.inj kept).2 less
    refine ⟨field.set middle (sum % field.range).toUInt8, ?_, set, unchanged, ?_⟩
    · dsimp only
      rw [carried]
    · rw [turns] at counted
      rw [shown, rest]
      exact carry _ counted
  · have inside : (value + (field.get time).toUInt32).toNat < base := by
      rw [← wheel.range]
      exact Nat.lt_of_not_le more
    have whole : (field.get time + value.toUInt8).toNat =
        (value + (field.get time).toUInt32).toNat := by
      rw [toNat_value_add_byte] at inside ⊢
      rw [UInt8.toNat_add, UInt32.toNat_toUInt8]
      omega
    obtain ⟨set, unchanged, shown⟩ :=
      wheel.set_arrives (field.get time + value.toUInt8) valid rfl (whole.trans_lt inside)
    refine ⟨_, if_neg more, set, unchanged, ?_⟩
    rw [shown, whole]
    rfl

theorem timeDECAddTo_adds (wheel : field.Wheel base count below)
    (carries : Adds size count (fun time => (field.get time, below time)) move) :
    Adds (size * base) (fun time => reading base (count time) (field.get time).toNat) below
      (timeDECAddTo field move) := by
  intro time value valid bound
  have digit := wheel.get_lt valid
  have baseLe := wheel.base_le
  have unwrapped : value.toNat + (field.get time).toNat < 2 ^ 32 := by omega
  obtain ⟨next, added, arrived, kept, counted⟩ := timeDECAddTo_moves wheel carries time value valid
  rw [Nat.mod_eq_of_lt unwrapped, Nat.add_comm value.toNat, ← Nat.add_assoc] at counted
  exact ⟨next, added, arrived, kept, counted⟩

/-- Without a borrow. -/
theorem timeDECSubFrom_within (wheel : field.Wheel base count below) (valid : time.Valid)
    (within : ¬ value > (field.get time).toUInt32) :
    ∃ next, timeDECSubFrom field move time value = (true, next) ∧ next.Valid ∧
      below next = below time ∧ reading base (count next) (field.get next).toNat + value.toNat =
        reading base (count time) (field.get time).toNat := by
  have digit := wheel.get_lt valid
  have less : value.toNat ≤ (field.get time).toNat :=
    Nat.le_of_not_lt (mt byte_lt_value.mpr within)
  have whole := toNat_byte_sub_value less
  obtain ⟨set, unchanged, shown⟩ :=
    wheel.set_arrives (field.get time - value.toUInt8) valid rfl (by omega)
  refine ⟨field.set time (field.get time - value.toUInt8), ?_, set, unchanged, ?_⟩
  · rw [timeDECSubFrom, if_neg valid.checked, if_neg within]
  · rw [shown, whole]
    unfold reading
    omega

/-- With a borrow: the wheel stands at the complement, or at zero if turns are taken as a
whole. -/
theorem timeDECSubFrom_across (wheel : field.Wheel base count below)
    (borrows : Subtracts size count (fun time => (field.get time, below time)) move)
    (valid : time.Valid) (across : value > (field.get time).toUInt32) {rest : UInt32}
    (isRest : value - (field.get time).toUInt32 = rest) :
    ∃ next, timeDECSubFrom field move time value = (true, next) ∧ next.Valid ∧
      below next = below time ∧ reading base (count next) (field.get next).toNat + rest.toNat ≡
        reading base (count time) 0 [MOD size * base] := by
  have small := Nat.mod_lt rest.toNat wheel.pos
  have stored := wheel.toNat_mod rest
  have complement := wheel.toNat_complement rest
  obtain ⟨middle, borrowed, arrived, kept, counted⟩ :=
    borrows (field.set time (rest % field.range).toUInt8)
      ((if (rest % field.range).toUInt8 ≠ 0 then 1 else 0) + rest / field.range)
      (wheel.set_valid valid (stored.trans_lt small))
  obtain ⟨get, unchanged⟩ := Prod.mk.inj kept
  rw [wheel.get_set] at get
  rw [wheel.set_below] at unchanged
  rw [wheel.toNat_turns, wheel.set_count] at counted
  have shown := borrow wheel.pos counted
  rw [timeDECSubFrom, if_neg valid.checked, if_pos across]
  dsimp only
  rw [isRest, wheel.get_set, borrowed]
  dsimp only
  rw [get]
  by_cases whole : rest.toNat % base = 0
  · rw [if_neg (not_not.mpr whole)] at shown
    rw [if_neg (mt wheel.mod_ne_zero.mp (not_not.mpr whole))]
    refine ⟨middle, rfl, arrived, unchanged, ?_⟩
    rw [get, stored, whole]
    exact shown
  · rw [if_pos whole] at shown
    rw [if_pos (wheel.mod_ne_zero.mpr whole)]
    obtain ⟨set, unchanged', shown'⟩ :=
      wheel.set_arrives (field.range - rest % field.range).toUInt8 arrived unchanged (by omega)
    refine ⟨_, rfl, set, unchanged', ?_⟩
    rw [shown', complement]
    exact shown

/-- A subtraction from a wheel. -/
theorem timeDECSubFrom_subtracts (wheel : field.Wheel base count below)
    (borrows : Subtracts size count (fun time => (field.get time, below time)) move) :
    Subtracts (size * base) (fun time => reading base (count time) (field.get time).toNat) below
      (timeDECSubFrom field move) := by
  intro time value valid
  by_cases across : value > (field.get time).toUInt32
  · have left := toNat_value_sub_byte (UInt32.le_of_lt across)
    have enough := byte_lt_value.mp across
    obtain ⟨next, taken, arrived, kept, counted⟩ :=
      timeDECSubFrom_across wheel borrows valid across rfl
    refine ⟨next, taken, arrived, kept, ?_⟩
    have both := counted.add_right (field.get time).toNat
    rw [left, Nat.add_assoc, Nat.sub_add_cancel enough.le] at both
    exact both
  · obtain ⟨next, taken, arrived, kept, counted⟩ := timeDECSubFrom_within wheel valid across
    exact ⟨next, taken, arrived, kept, congrArg (· % (size * base)) counted⟩

/-! ## From the days to the seconds -/

theorem timeDECAddDay_adds : Adds centuryDays Time.days Time.belowDays timeDECAddDay := by
  intro time value valid bound
  have dayPos := valid.day_pos
  have dayLe := valid.day_le
  have month := monthDays_le (2000 + time.year.toNat) time.month.toNat
  have unwrapped : value.toNat + time.day.toNat < 2 ^ 32 := by omega
  obtain ⟨next, added, arrived, kept, counted⟩ := @timeDECAddDay_moves time value valid (by omega)
  rw [Nat.mod_eq_of_lt unwrapped, ← Nat.add_assoc] at counted
  exact ⟨next, added, arrived, kept, counted.add_right_cancel' _⟩

theorem timeDECAddHour_adds :
    Adds (centuryDays * 24) Time.hours Time.belowHours timeDECAddHour :=
  timeDECAddTo_adds hour_wheel timeDECAddDay_adds

theorem timeDECAddMinute_adds :
    Adds (centuryDays * 24 * 60) Time.minutes Time.belowMinutes timeDECAddMinute :=
  timeDECAddTo_adds minute_wheel timeDECAddHour_adds

theorem timeDECAddSecond_adds :
    Adds Time.centurySeconds Time.seconds (fun _ => ()) timeDECAddSecond :=
  timeDECAddTo_adds second_wheel timeDECAddMinute_adds

theorem timeDECSubDay_subtracts :
    Subtracts centuryDays Time.days Time.belowDays timeDECSubDay :=
  fun _ _ valid => timeDECSubDay_moves valid

theorem timeDECSubHour_subtracts :
    Subtracts (centuryDays * 24) Time.hours Time.belowHours timeDECSubHour :=
  timeDECSubFrom_subtracts hour_wheel timeDECSubDay_subtracts

theorem timeDECSubMinute_subtracts :
    Subtracts (centuryDays * 24 * 60) Time.minutes Time.belowMinutes timeDECSubMinute :=
  timeDECSubFrom_subtracts minute_wheel timeDECSubHour_subtracts

theorem timeDECSubSecond_subtracts :
    Subtracts Time.centurySeconds Time.seconds (fun _ => ()) timeDECSubSecond :=
  timeDECSubFrom_subtracts second_wheel timeDECSubMinute_subtracts

/-- Valid times whose instants agree in the cycle are the same. -/
theorem Time.eq_of_seconds_modEq {other : Time} (valid : time.Valid) (valid' : other.Valid)
    (same : time.seconds ≡ other.seconds [MOD centurySeconds]) : time = other := by
  apply Time.eq_of_seconds valid valid'
  have instants : time.seconds % centurySeconds = other.seconds % centurySeconds := same
  rwa [Nat.mod_eq_of_lt (Time.seconds_lt valid), Nat.mod_eq_of_lt (Time.seconds_lt valid')]
    at instants

/-- Seconds are added to the instant in the cycle of the century, and a subtraction takes
them back. -/
theorem addSecond_subSecond (time : Time) (value : UInt32) (valid : timeDECCheck time = true)
    (bound : value.toNat ≤ 2 ^ 32 - 60) :
    ((timeDECAddSecond time value).1 = true ∧
      timeDECCheck (timeDECAddSecond time value).2 = true) ∧
    ((timeDECSubSecond time value).1 = true ∧
      timeDECCheck (timeDECSubSecond time value).2 = true) ∧
    (timeDECAddSecond time value).2.seconds =
      (time.seconds + value.toNat) % Time.centurySeconds ∧
    (timeDECSubSecond (timeDECAddSecond time value).2 value).2 = time := by
  have numbers := timeDECCheck_iff.mp valid
  obtain ⟨later, added, arrived, -, counted⟩ :=
    timeDECAddSecond_adds time value numbers (by omega)
  obtain ⟨earlier, taken, arrived', -, -⟩ := timeDECSubSecond_subtracts time value numbers
  obtain ⟨back, returned, arrived'', -, recounted⟩ :=
    timeDECSubSecond_subtracts later value arrived
  have same : back.seconds ≡ time.seconds [MOD Time.centurySeconds] :=
    (recounted.trans counted).add_right_cancel' value.toNat
  have instant : later.seconds % Time.centurySeconds =
      (time.seconds + value.toNat) % Time.centurySeconds := counted
  rw [Nat.mod_eq_of_lt (Time.seconds_lt arrived)] at instant
  rw [added, taken]
  dsimp only
  rw [returned]
  exact ⟨⟨rfl, timeDECCheck_iff.mpr arrived⟩, ⟨rfl, timeDECCheck_iff.mpr arrived'⟩, instant,
    Time.eq_of_seconds_modEq arrived'' numbers same⟩

theorem addSecond_subSecond_end :
    timeDECCheck ⟨99, 12, 31, 23, 59, 59⟩ = true ∧
    (timeDECSubSecond (timeDECAddSecond ⟨99, 12, 31, 23, 59, 59⟩ 4294967236).2 4294967236).2 =
      ⟨99, 12, 31, 23, 59, 59⟩ :=
  ⟨by decide, (addSecond_subSecond ⟨99, 12, 31, 23, 59, 59⟩ 4294967236 (by decide)
    (by decide)).2.2.2⟩

end LedFirmware
