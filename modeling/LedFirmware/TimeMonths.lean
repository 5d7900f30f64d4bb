import LedFirmware.TimeArithmetic

/-!
# Months and years

A move by years or months leads to the same day of the target month, or to its last
day if it has no such day.  Two of the four functions limit the day to a month on the
way as well, and miss the target day, or give up, where that month is shorter.
-/

namespace LedFirmware

/-- The next time lies in a month of the century, at the same day or at the last one of
the month, and at the same time of the day. -/
structure Lands (time : Time) (inYear inMonth : Nat) (next : Time) : Prop where
  year : next.year.toNat = inYear
  month : next.month.toNat = inMonth
  day : next.day.toNat = min time.day.toNat (Gregorian.monthDays (2000 + inYear) inMonth)
  hour : next.hour = time.hour
  minute : next.minute = time.minute
  second : next.second = time.second

theorem Lands.valid {time next : Time} {year month : Nat} (valid : time.Valid)
    (lands : Lands time year month next) (century : year < 100) (first : 1 ≤ month)
    (last : month ≤ 12) : next.Valid := by
  have days := Gregorian.monthDays_ge (2000 + year) month
  have dayPos := valid.day_pos
  refine ⟨?_, ?_, ?_, ?_, ?_, ?_, ?_, ?_⟩
  · rwa [lands.year]
  · rwa [lands.month]
  · rwa [lands.month]
  · rw [lands.day]
    omega
  · rw [lands.day, lands.year, lands.month]
    exact Nat.min_le_right _ _
  · rw [lands.hour]
    exact valid.hour
  · rw [lands.minute]
    exact valid.minute
  · rw [lands.second]
    exact valid.second

/-- The check of a function lets a valid time pass. -/
theorem Time.Valid.checked {time : Time} (valid : time.Valid) : ¬ timeDECCheck time = false := by
  rw [timeDECCheck_iff.mpr valid]
  exact Bool.noConfusion

/-- Behind the 28th or not, only the day changes, and to the length of the month at
most. -/
theorem fixLateDay_eq {time : Time} (century : time.year.toNat < 100)
    (first : 1 ≤ time.month.toNat) (last : time.month.toNat ≤ 12) (dayPos : 1 ≤ time.day.toNat)
    (hour : time.hour.toNat < 24) (minute : time.minute.toNat < 60)
    (second : time.second.toNat < 60) :
    fixLateDay time = { time with
      day := if timeMonthDays time.year time.month < time.day then
        timeMonthDays time.year time.month else time.day } := by
  have year' : ¬ time.year > 99 := Nat.not_lt.mpr (Nat.le_of_lt_succ century)
  have first' : ¬ time.month = 0 := fun zero => by simp [zero] at first
  have last' : ¬ time.month > 12 := Nat.not_lt.mpr last
  have day' : ¬ time.day = 0 := fun zero => by simp [zero] at dayPos
  have hour' : ¬ time.hour ≥ 24 := Nat.not_le.mpr hour
  have minute' : ¬ time.minute ≥ 60 := Nat.not_le.mpr minute
  have second' : ¬ time.second ≥ 60 := Nat.not_le.mpr second
  have days := timeMonthDays_ge year' first' last'
  unfold fixLateDay
  split
  · rw [timeDECFix_eq]
    ext1 <;> simp only [decFixed] <;> grind
  · ext1 <;> grind

theorem fixLateDay_lands {time moved : Time} (valid : time.Valid)
    (century : moved.year.toNat < 100) (first : 1 ≤ moved.month.toNat)
    (last : moved.month.toNat ≤ 12) (day : moved.day = time.day) (hour : moved.hour = time.hour)
    (minute : moved.minute = time.minute) (second : moved.second = time.second) :
    Lands time moved.year.toNat moved.month.toNat (fixLateDay moved) := by
  have length := timeMonthDays_toNat century first (Nat.lt_succ_of_le last)
  rw [fixLateDay_eq century first last (day ▸ valid.day_pos) (hour ▸ valid.hour)
    (minute ▸ valid.minute) (second ▸ valid.second)]
  refine ⟨rfl, rfl, ?_, hour, minute, second⟩
  dsimp only
  simp only [apply_ite UInt8.toNat, UInt8.lt_iff_toNat_lt, length, day]
  split <;> omega

variable {time next : Time} {value : UInt32}

/-! ## Years -/

theorem timeDECAddYear_lands (valid : time.Valid) (value : UInt32) :
    ∃ next, timeDECAddYear time value = (true, next) ∧
      Lands time ((value.toNat + time.year.toNat) % 2 ^ 32 % 100) time.month.toNat next := by
  have year : ((value + time.year.toUInt32) % 100).toUInt8.toNat =
      (value.toNat + time.year.toNat) % 2 ^ 32 % 100 := by
    simp
    omega
  have lands := @fixLateDay_lands time
    { time with year := ((value + time.year.toUInt32) % 100).toUInt8 } valid
    (by rw [year]; omega) valid.month_pos valid.month_le rfl rfl rfl rfl
  refine ⟨_, ?_, year ▸ lands⟩
  rw [timeDECAddYear, if_neg valid.checked]

theorem timeDECSubYear_lands (valid : time.Valid) (value : UInt32) :
    ∃ next, timeDECSubYear time value = (true, next) ∧
      Lands time ((time.year.toNat + 100 - value.toNat % 100) % 100) time.month.toNat next := by
  have century := valid.year
  have rest : (value % 100).toUInt8.toNat = value.toNat % 100 := by
    simp
    omega
  have compare : time.year.toUInt32 ≥ value % 100 ↔ value.toNat % 100 ≤ time.year.toNat := by
    simp [UInt32.le_iff_toNat_le]
  rw [timeDECSubYear, if_neg valid.checked]
  dsimp only
  split
  · rename_i enough
    have kept := compare.mp enough
    have year : (time.year - (value % 100).toUInt8).toNat =
        (time.year.toNat + 100 - value.toNat % 100) % 100 := by
      rw [UInt8.toNat_sub, rest]
      omega
    have lands := @fixLateDay_lands time { time with year := time.year - (value % 100).toUInt8 }
      valid (by rw [year]; omega) valid.month_pos valid.month_le rfl rfl rfl rfl
    exact ⟨_, rfl, year ▸ lands⟩
  · rename_i short
    have borrowed : time.year.toNat < value.toNat % 100 := Nat.lt_of_not_le fun kept =>
      short (compare.mpr kept)
    have year : (time.year + 100 - (value % 100).toUInt8).toNat =
        (time.year.toNat + 100 - value.toNat % 100) % 100 := by
      rw [UInt8.toNat_sub, UInt8.toNat_add, rest, show (100 : UInt8).toNat = 100 from rfl]
      omega
    have lands := @fixLateDay_lands time
      { time with year := time.year + 100 - (value % 100).toUInt8 } valid (by rw [year]; omega)
      valid.month_pos valid.month_le rfl rfl rfl rfl
    exact ⟨_, rfl, year ▸ lands⟩

/-! ## Months -/

theorem fixLateDay_of_valid (valid : time.Valid) : fixLateDay time = time := by
  have length := timeMonthDays_toNat valid.year valid.month_pos (Nat.lt_succ_of_le valid.month_le)
  have fits : ¬ timeMonthDays time.year time.month < time.day := by
    rw [UInt8.lt_iff_toNat_lt, length]
    exact Nat.not_lt.mpr valid.day_le
  rw [fixLateDay_eq valid.year valid.month_pos valid.month_le valid.day_pos valid.hour valid.minute
    valid.second, if_neg fits]

/-- A time whose month has been set is valid if the month has its day. -/
theorem valid_setMonth (valid : time.Valid) {month : UInt8} (first : 1 ≤ month.toNat)
    (last : month.toNat ≤ 12) : { time with month }.Valid ↔
      time.day.toNat ≤ Gregorian.monthDays (2000 + time.year.toNat) month.toNat :=
  ⟨fun moved => moved.day_le, fun has => ⟨valid.year, first, last, valid.day_pos, has, valid.hour,
    valid.minute, valid.second⟩⟩

/-- The years are added once the month has been set, and the time is checked again. -/
theorem timeDECAddYear_setMonth (valid : time.Valid) (value : UInt32) {month : UInt8}
    (first : 1 ≤ month.toNat) (last : month.toNat ≤ 12) :
    (time.day.toNat ≤ Gregorian.monthDays (2000 + time.year.toNat) month.toNat →
      ∃ next, timeDECAddYear { time with month } value = (true, next) ∧
        fixLateDay next = next ∧
        Lands time ((value.toNat + time.year.toNat) % 2 ^ 32 % 100) month.toNat next) ∧
    (¬ time.day.toNat ≤ Gregorian.monthDays (2000 + time.year.toNat) month.toNat →
      timeDECAddYear { time with month } value = (false, { time with month })) := by
  constructor
  · intro has
    have moved := (valid_setMonth valid first last).mpr has
    obtain ⟨next, added, lands⟩ := timeDECAddYear_lands moved value
    have arrived := lands.valid moved (Nat.mod_lt _ (by decide)) first last
    exact ⟨next, added, fixLateDay_of_valid arrived, lands.year, lands.month, lands.day, lands.hour,
      lands.minute, lands.second⟩
  · intro short
    have invalid : timeDECCheck { time with month } = false := by
      rw [← Bool.not_eq_true, timeDECCheck_iff]
      exact fun moved => short ((valid_setMonth valid first last).mp moved)
    rw [timeDECAddYear, if_pos invalid]

/-- How the months that lead into another year are split into a month and years. -/
theorem timeDECAddMonth_split (valid : time.Valid) {sum : Nat}
    (isSum : (value.toNat + time.month.toNat) % 2 ^ 32 = sum) (across : 12 < sum) :
    ∃ (month : UInt8) (years : UInt32), month.toNat = (sum - 1) % 12 + 1 ∧
      years.toNat = (sum - 1) / 12 ∧
      (∀ next, timeDECAddYear { time with month } years = (true, next) →
        timeDECAddMonth time value = (true, fixLateDay next)) ∧
      (∀ next, timeDECAddYear { time with month } years = (false, next) →
        timeDECAddMonth time value = (false, next)) := by
  have bound : sum < 2 ^ 32 := isSum ▸ Nat.mod_lt _ (by decide)
  have twelve : (12 : UInt32).toNat = 12 := rfl
  have total : (value + time.month.toUInt32).toNat = sum := by
    rw [toNat_value_add_byte, isSum]
  have above : value + time.month.toUInt32 > 12 := by
    rw [gt_iff_lt, UInt32.lt_iff_toNat_lt, total, twelve]
    exact across
  have rest : ((value + time.month.toUInt32) % 12).toUInt8.toNat = sum % 12 := by
    rw [UInt32.toNat_toUInt8, UInt32.toNat_mod, total, twelve]
    omega
  have whole : ((value + time.month.toUInt32) / 12).toNat = sum / 12 := by
    rw [UInt32.toNat_div, total, twelve]
  rw [timeDECAddMonth, if_neg valid.checked, if_pos above]
  dsimp only
  by_cases december : ((value + time.month.toUInt32) % 12).toUInt8 = 0
  · have zero : sum % 12 = 0 := rest.symm.trans (congrArg UInt8.toNat december)
    have one : (1 : UInt32) ≤ (value + time.month.toUInt32) / 12 := by
      rw [UInt32.le_iff_toNat_le, whole]
      change 1 ≤ sum / 12
      omega
    refine ⟨12, (value + time.month.toUInt32) / 12 - 1, ?_, ?_, ?_, ?_⟩
    · change 12 = (sum - 1) % 12 + 1
      omega
    · rw [UInt32.toNat_sub_of_le _ _ one, whole]
      change sum / 12 - 1 = (sum - 1) / 12
      omega
    · intro next added
      rw [if_pos december, added]
    · intro next failed
      rw [if_pos december, failed]
  · have positive : sum % 12 ≠ 0 := fun zero => december (UInt8.toNat_inj.mp (rest.trans zero))
    refine ⟨_, _, rest.trans (by omega), whole.trans (by omega), ?_, ?_⟩
    · intro next added
      rw [if_neg december, added]
    · intro next failed
      rw [if_neg december, failed]

/-- Into another year: the time has to be valid in the target month of its own year. -/
theorem timeDECAddMonth_across (valid : time.Valid) {sum : Nat}
    (isSum : (value.toNat + time.month.toNat) % 2 ^ 32 = sum) (across : 12 < sum) :
    (time.day.toNat ≤ Gregorian.monthDays (2000 + time.year.toNat) ((sum - 1) % 12 + 1) →
      ∃ next, timeDECAddMonth time value = (true, next) ∧
        Lands time ((time.year.toNat + (sum - 1) / 12) % 100) ((sum - 1) % 12 + 1) next) ∧
    (¬ time.day.toNat ≤ Gregorian.monthDays (2000 + time.year.toNat) ((sum - 1) % 12 + 1) →
      ∃ next, timeDECAddMonth time value = (false, next) ∧ next.day = time.day) := by
  have bound : sum < 2 ^ 32 := isSum ▸ Nat.mod_lt _ (by decide)
  have century := valid.year
  obtain ⟨month, years, monthEq, yearsEq, carried, stuck⟩ :=
    timeDECAddMonth_split valid isSum across
  obtain ⟨fits, short⟩ := @timeDECAddYear_setMonth time valid years month (by omega) (by omega)
  rw [monthEq] at fits short
  constructor
  · intro has
    obtain ⟨next, added, fixed, lands⟩ := fits has
    have year : (years.toNat + time.year.toNat) % 2 ^ 32 % 100 =
        (time.year.toNat + (sum - 1) / 12) % 100 := by
      rw [yearsEq]
      omega
    exact ⟨next, (carried next added).trans (by rw [fixed]), year ▸ lands⟩
  · intro misses
    exact ⟨_, stuck _ (short misses), rfl⟩

/-- Within the year. -/
theorem timeDECAddMonth_within (valid : time.Valid) {sum : Nat}
    (isSum : (value.toNat + time.month.toNat) % 2 ^ 32 = sum) (within : sum ≤ 12) :
    ∃ month : UInt8, month.toNat = sum ∧
      timeDECAddMonth time value = (true, fixLateDay { time with month }) := by
  have total : (value + time.month.toUInt32).toNat = sum := by
    rw [toNat_value_add_byte, isSum]
  have below : ¬ value + time.month.toUInt32 > 12 := by
    rw [gt_iff_lt, UInt32.lt_iff_toNat_lt, total]
    exact Nat.not_lt.mpr within
  refine ⟨time.month + value.toUInt8, ?_, ?_⟩
  · rw [UInt8.toNat_add, UInt32.toNat_toUInt8]
    omega
  · rw [timeDECAddMonth, if_neg valid.checked, if_neg below]

theorem timeDECAddMonth_within_lands (valid : time.Valid) {sum : Nat}
    (isSum : (value.toNat + time.month.toNat) % 2 ^ 32 = sum) (within : sum ≤ 12)
    (positive : 1 ≤ sum) : ∃ next, timeDECAddMonth time value = (true, next) ∧
      Lands time time.year.toNat sum next := by
  obtain ⟨month, rfl, added⟩ := timeDECAddMonth_within valid isSum within
  exact ⟨_, added, @fixLateDay_lands time { time with month } valid valid.year positive within rfl
    rfl rfl rfl⟩

/-- Within the year. -/
theorem timeDECSubMonth_within (valid : time.Valid) (within : value.toNat < time.month.toNat) :
    ∃ next, timeDECSubMonth time value = (true, next) ∧
      Lands time time.year.toNat (time.month.toNat - value.toNat) next := by
  have last := valid.month_le
  have month : (time.month - value.toUInt8).toNat = time.month.toNat - value.toNat :=
    toNat_byte_sub_value within.le
  have below : ¬ value ≥ time.month.toUInt32 := mt byte_le_value.mp (Nat.not_le.mpr within)
  have lands := @fixLateDay_lands time { time with month := time.month - value.toUInt8 } valid
    valid.year (by rw [month]; omega) (by rw [month]; omega) rfl rfl rfl rfl
  refine ⟨_, ?_, month ▸ lands⟩
  rw [timeDECSubMonth, if_neg valid.checked, if_neg below]

/-- Into another year: the day is limited to the month of the time first, and to the target
month then. -/
theorem timeDECSubMonth_across (valid : time.Valid) (across : time.month.toNat ≤ value.toNat)
    {year month : Nat}
    (isYear : (time.year.toNat + 100 - (1 + (value.toNat - time.month.toNat) / 12) % 100) % 100 =
      year) (isMonth : 12 - (value.toNat - time.month.toNat) % 12 = month) :
    ∃ next, timeDECSubMonth time value = (true, next) ∧ next.year.toNat = year ∧
      next.month.toNat = month ∧
      next.day.toNat = min (min time.day.toNat
        (Gregorian.monthDays (2000 + year) time.month.toNat))
        (Gregorian.monthDays (2000 + year) month) ∧
      next.hour = time.hour ∧ next.minute = time.minute ∧ next.second = time.second := by
  have monthPos := valid.month_pos
  have monthLe := valid.month_le
  have bound := value.toNat_lt
  have twelve : (12 : UInt32).toNat = 12 := rfl
  have enough : time.month.toUInt32 ≤ value := byte_le_value.mpr across
  have left := toNat_value_sub_byte enough
  have years : (1 + (value - time.month.toUInt32) / 12).toNat =
      1 + (value.toNat - time.month.toNat) / 12 := by
    rw [UInt32.toNat_add, UInt32.toNat_div, left, twelve]
    change (1 + (value.toNat - time.month.toNat) / 12) % 2 ^ 32 = _
    omega
  have target : (12 - (value - time.month.toUInt32) % 12).toUInt8.toNat = month := by
    have small : (value - time.month.toUInt32) % 12 ≤ 12 := by
      rw [UInt32.le_iff_toNat_le, UInt32.toNat_mod, twelve]
      omega
    rw [UInt32.toNat_toUInt8, UInt32.toNat_sub_of_le _ _ small, UInt32.toNat_mod, left, twelve,
      isMonth]
    omega
  obtain ⟨middle, taken, lands⟩ :=
    timeDECSubYear_lands valid (1 + (value - time.month.toUInt32) / 12)
  rw [years, isYear] at lands
  have arrived := lands.valid valid (by omega) monthPos monthLe
  have final := @fixLateDay_lands middle
    { middle with month := (12 - (value - time.month.toUInt32) % 12).toUInt8 } arrived arrived.year
    (by rw [target]; omega) (by rw [target]; omega) rfl rfl rfl rfl
  rw [lands.year, target] at final
  refine ⟨_, ?_, final.year, final.month, ?_, final.hour.trans lands.hour,
    final.minute.trans lands.minute, final.second.trans lands.second⟩
  · rw [timeDECSubMonth, if_neg valid.checked, if_pos enough]
    dsimp only
    rw [taken]
  · rw [final.day, lands.day]

/-! ## The four functions -/

/-- The functions that move a time by years or months. -/
inductive MonthOp
  | addYear
  | addMonth
  | subYear
  | subMonth
  deriving DecidableEq, Repr

namespace MonthOp

def run : MonthOp → Time → UInt32 → Bool × Time
  | addYear => timeDECAddYear
  | addMonth => timeDECAddMonth
  | subYear => timeDECSubYear
  | subMonth => timeDECSubMonth

/-- The months by which a time is to be moved. -/
def months (value : UInt32) : MonthOp → Int
  | addYear => 12 * value.toNat
  | addMonth => value.toNat
  | subYear => -(12 * value.toNat)
  | subMonth => -value.toNat

/-- The month to arrive at, in the months of the century. -/
def target (op : MonthOp) (time : Time) (value : UInt32) : Nat :=
  ((12 * time.year.toNat + (time.month.toNat - 1) + op.months value) % 1200).toNat

/-- The addition that a function makes first stays in 32 bits. -/
def Fits (time : Time) (value : UInt32) : MonthOp → Prop
  | addYear => value.toNat + time.year.toNat < 2 ^ 32
  | addMonth => value.toNat + time.month.toNat < 2 ^ 32
  | subYear | subMonth => True

/-- What a function is to do: succeed, and lead to a valid time in the target month. -/
def Right (op : MonthOp) (time : Time) (value : UInt32) : Prop :=
  ∃ next, op.run time value = (true, next) ∧ timeDECCheck next = true ∧
    Lands time (op.target time value / 12) (op.target time value % 12 + 1) next

/-- The months on the way have the day.  An addition into another year asks for it in the
target month of the year it comes from, and a subtraction into another year limits it to
the month it comes from in the target year. -/
def DayKept (time : Time) (value : UInt32) : MonthOp → Prop
  | addYear | subYear => True
  | addMonth => value.toNat + time.month.toNat ≤ 12 ∨
      time.day.toNat ≤ Gregorian.monthDays (2000 + time.year.toNat)
        (addMonth.target time value % 12 + 1)
  | subMonth => value.toNat < time.month.toNat ∨
      min time.day.toNat (Gregorian.monthDays (2000 + subMonth.target time value / 12)
          (subMonth.target time value % 12 + 1)) ≤
        Gregorian.monthDays (2000 + subMonth.target time value / 12) time.month.toNat

theorem target_lt (op : MonthOp) (time : Time) (value : UInt32) : op.target time value < 1200 := by
  unfold target
  omega

/-- To land in the target month is all that is asked for. -/
theorem right_iff {op : MonthOp} (valid : time.Valid) {year month : Nat}
    (inYear : op.target time value / 12 = year) (inMonth : op.target time value % 12 + 1 = month) :
    op.Right time value ↔
      ∃ next, op.run time value = (true, next) ∧ Lands time year month next := by
  have bound := op.target_lt time value
  subst inYear inMonth
  constructor
  · rintro ⟨next, ran, -, lands⟩
    exact ⟨next, ran, lands⟩
  · rintro ⟨next, ran, lands⟩
    have arrived := lands.valid valid (by omega) (by omega) (by omega)
    exact ⟨next, ran, timeDECCheck_iff.mpr arrived, lands⟩

theorem addYear_right (valid : time.Valid) (fits : addYear.Fits time value) :
    addYear.Right time value := by
  have century := valid.year
  have monthPos := valid.month_pos
  have monthLe := valid.month_le
  have unwrapped : value.toNat + time.year.toNat < 2 ^ 32 := fits
  have inYear : addYear.target time value / 12 =
      (value.toNat + time.year.toNat) % 2 ^ 32 % 100 := by
    rw [Nat.mod_eq_of_lt unwrapped]
    simp only [target, months]
    omega
  have inMonth : addYear.target time value % 12 + 1 = time.month.toNat := by
    simp only [target, months]
    omega
  exact (right_iff valid inYear inMonth).mpr (timeDECAddYear_lands valid value)

theorem subYear_right (valid : time.Valid) (value : UInt32) : subYear.Right time value := by
  have century := valid.year
  have monthPos := valid.month_pos
  have monthLe := valid.month_le
  have inYear : subYear.target time value / 12 =
      (time.year.toNat + 100 - value.toNat % 100) % 100 := by
    simp only [target, months]
    omega
  have inMonth : subYear.target time value % 12 + 1 = time.month.toNat := by
    simp only [target, months]
    omega
  exact (right_iff valid inYear inMonth).mpr (timeDECSubYear_lands valid value)

theorem addMonth_right (valid : time.Valid) (fits : addMonth.Fits time value) :
    addMonth.Right time value ↔ addMonth.DayKept time value := by
  have century := valid.year
  have monthPos := valid.month_pos
  have monthLe := valid.month_le
  have unwrapped : value.toNat + time.month.toNat < 2 ^ 32 := fits
  have isSum := Nat.mod_eq_of_lt unwrapped
  have inMonth : addMonth.target time value % 12 + 1 =
      (value.toNat + time.month.toNat - 1) % 12 + 1 := by
    simp only [target, months]
    omega
  have inYear : addMonth.target time value / 12 =
      (time.year.toNat + (value.toNat + time.month.toNat - 1) / 12) % 100 := by
    simp only [target, months]
    omega
  rw [right_iff valid inYear inMonth, DayKept, inMonth]
  by_cases within : value.toNat + time.month.toNat ≤ 12
  · have lands := timeDECAddMonth_within_lands valid isSum within (by omega)
    have sameYear : (time.year.toNat + (value.toNat + time.month.toNat - 1) / 12) % 100 =
        time.year.toNat := by omega
    have month : (value.toNat + time.month.toNat - 1) % 12 + 1 =
        value.toNat + time.month.toNat := by omega
    rw [sameYear, month]
    exact ⟨fun _ => Or.inl within, fun _ => lands⟩
  · obtain ⟨fit, short⟩ := timeDECAddMonth_across valid isSum (Nat.lt_of_not_le within)
    constructor
    · rintro ⟨next, ran, -⟩
      by_contra misses
      obtain ⟨stuck, failed, -⟩ := short fun has => misses (Or.inr has)
      have ran' : timeDECAddMonth time value = (true, next) := ran
      rw [failed] at ran'
      cases ran'
    · rintro (inside | has)
      · exact absurd inside within
      · exact fit has

theorem subMonth_right (valid : time.Valid) (value : UInt32) :
    subMonth.Right time value ↔ subMonth.DayKept time value := by
  have century := valid.year
  have monthPos := valid.month_pos
  have monthLe := valid.month_le
  by_cases within : value.toNat < time.month.toNat
  · have lands := timeDECSubMonth_within valid within
    have inMonth : subMonth.target time value % 12 + 1 = time.month.toNat - value.toNat := by
      simp only [target, months]
      omega
    have inYear : subMonth.target time value / 12 = time.year.toNat := by
      simp only [target, months]
      omega
    rw [right_iff valid inYear inMonth]
    exact ⟨fun _ => Or.inl within, fun _ => lands⟩
  · have across := Nat.le_of_not_lt within
    have inMonth : subMonth.target time value % 12 + 1 =
        12 - (value.toNat - time.month.toNat) % 12 := by
      simp only [target, months]
      omega
    have inYear : subMonth.target time value / 12 =
        (time.year.toNat + 100 - (1 + (value.toNat - time.month.toNat) / 12) % 100) % 100 := by
      simp only [target, months]
      omega
    obtain ⟨next, taken, year, month, day, hour, minute, second⟩ :=
      timeDECSubMonth_across valid across inYear.symm inMonth.symm
    rw [right_iff valid rfl rfl, DayKept]
    constructor
    · rintro ⟨other, ran, lands⟩
      have same : next = other := (Prod.mk.inj (taken.symm.trans ran)).2
      subst same
      have landed := lands.day
      right
      omega
    · rintro (inside | kept)
      · exact absurd inside within
      · exact ⟨next, taken, year, month, by omega, hour, minute, second⟩

end MonthOp

/-- A valid time is moved to the target month if and only if the months on the way have its
day. -/
theorem months_right_iff (op : MonthOp) (time : Time) (value : UInt32)
    (valid : timeDECCheck time = true) (fits : op.Fits time value) :
    op.Right time value ↔ op.DayKept time value := by
  have numbers := timeDECCheck_iff.mp valid
  cases op with
  | addYear => exact iff_of_true (MonthOp.addYear_right numbers fits) trivial
  | addMonth => exact MonthOp.addMonth_right numbers fits
  | subYear => exact iff_of_true (MonthOp.subYear_right numbers value) trivial
  | subMonth => exact MonthOp.subMonth_right numbers value

theorem months_right_leap : MonthOp.Right .addMonth ⟨0, 1, 29, 6, 30, 0⟩ 13 ↔
    MonthOp.DayKept ⟨0, 1, 29, 6, 30, 0⟩ 13 .addMonth :=
  months_right_iff .addMonth ⟨0, 1, 29, 6, 30, 0⟩ 13 (by decide)
    (by decide : (13 : UInt32).toNat + (1 : UInt8).toNat < 2 ^ 32)

/-- Thirteen months after the 31st of January 2020, and two months before the 29th of
February. -/
theorem months_short :
    timeDECAddMonth ⟨20, 1, 31, 0, 0, 0⟩ 13 = (false, ⟨20, 2, 31, 0, 0, 0⟩) ∧
    ¬ MonthOp.Right .addMonth ⟨20, 1, 31, 0, 0, 0⟩ 13 ∧
    timeDECSubMonth ⟨20, 2, 29, 0, 0, 0⟩ 2 = (true, ⟨19, 12, 28, 0, 0, 0⟩) ∧
    ¬ MonthOp.Right .subMonth ⟨20, 2, 29, 0, 0, 0⟩ 2 := by
  have added : timeDECAddMonth ⟨20, 1, 31, 0, 0, 0⟩ 13 = (false, ⟨20, 2, 31, 0, 0, 0⟩) := rfl
  have taken : timeDECSubMonth ⟨20, 2, 29, 0, 0, 0⟩ 2 = (true, ⟨19, 12, 28, 0, 0, 0⟩) := by
    simp only [timeDECSubMonth, timeDECSubYear, fixLateDay, timeDECFix_eq]
    rfl
  refine ⟨added, ?_, taken, ?_⟩
  · rintro ⟨next, ran, -⟩
    cases added.symm.trans ran
  · rintro ⟨next, ran, -, lands⟩
    cases taken.symm.trans ran
    exact absurd lands.day (by decide)

end LedFirmware
