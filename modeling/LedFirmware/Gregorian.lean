import Mathlib.Algebra.BigOperators.Group.Finset.Basic
import Mathlib.Algebra.BigOperators.Intervals
import Mathlib.Order.Interval.Finset.Nat
import Mathlib.Tactic.IntervalCases

/-!
# The Gregorian calendar

Days are numbered from the first day of the year zero on, by the lengths of the years
and months before them.  The number of the next date is one more, later dates have
larger numbers, and the day of the week follows the number.
-/

namespace Gregorian

/-- The leap years. -/
def Leap (year : Nat) : Prop := year % 4 = 0 ∧ (year % 100 ≠ 0 ∨ year % 400 = 0)

instance (year : Nat) : Decidable (Leap year) := inferInstanceAs (Decidable (_ ∧ _))

def yearDays (year : Nat) : Nat := if Leap year then 366 else 365

def monthDays (year month : Nat) : Nat :=
  if month = 2 then if Leap year then 29 else 28
  else if month = 4 ∨ month = 6 ∨ month = 9 ∨ month = 11 then 30
  else 31

theorem monthDays_ge (year month : Nat) : 28 ≤ monthDays year month := by
  unfold monthDays
  split_ifs <;> omega

theorem monthDays_le (year month : Nat) : monthDays year month ≤ 31 := by
  unfold monthDays
  split_ifs <;> omega

/-- The days before a year. -/
def yearStart (year : Nat) : Nat := ∑ earlier ∈ Finset.range year, yearDays earlier

/-- The days of a year before a month. -/
def monthStart (year month : Nat) : Nat :=
  ∑ earlier ∈ Finset.Ico 1 month, monthDays year earlier

/-- The number of a day. -/
def dayNumber (year month day : Nat) : Nat := yearStart year + monthStart year month + day - 1

@[simp]
theorem yearStart_succ (year : Nat) : yearStart (year + 1) = yearStart year + yearDays year :=
  Finset.sum_range_succ _ _

@[simp]
theorem monthStart_one (year : Nat) : monthStart year 1 = 0 :=
  rfl

theorem monthStart_succ (year : Nat) {month : Nat} (positive : 1 ≤ month) :
    monthStart year (month + 1) = monthStart year month + monthDays year month :=
  Finset.sum_Ico_succ_top positive _

/-- Twelve months make a year. -/
theorem monthStart_thirteen (year : Nat) : monthStart year 13 = yearDays year := by
  by_cases leap : Leap year
  · simp only [monthStart, yearDays, monthDays, if_pos leap]
    rfl
  · simp only [monthStart, yearDays, monthDays, if_neg leap]
    rfl

/-- The leap years from the year one on. -/
def leapYears (year : Nat) : Nat := year / 4 - year / 100 + year / 400

theorem leapYears_succ (year : Nat) :
    leapYears (year + 1) = leapYears year + if Leap (year + 1) then 1 else 0 := by
  have fewer : year / 100 ≤ year / 4 := Nat.div_le_div_left (by decide) (by decide)
  unfold leapYears
  rw [Nat.succ_div, Nat.succ_div, Nat.succ_div]
  generalize year / 4 = fours at fewer ⊢
  generalize year / 100 = hundreds at fewer ⊢
  by_cases leap : Leap (year + 1)
  · rw [if_pos leap]
    unfold Leap at leap
    split_ifs <;> omega
  · rw [if_neg leap]
    unfold Leap at leap
    split_ifs <;> omega

/-- The days before a year in closed form.  The year zero is a leap year. -/
theorem yearStart_eq (year : Nat) :
    yearStart (year + 1) = 365 * (year + 1) + 1 + leapYears year := by
  induction year with
  | zero => rfl
  | succ year ih =>
      rw [yearStart_succ, ih, leapYears_succ, yearDays]
      split_ifs <;> omega

/-- The days of a year before a month in closed form. -/
theorem monthStart_eq (year : Nat) {month : Nat} (first : 1 ≤ month) (last : month ≤ 12) :
    monthStart year month =
      (367 * month - 362) / 12 - (if month ≤ 2 then 0 else if Leap year then 1 else 2) := by
  by_cases leap : Leap year
  · interval_cases month <;> simp only [monthStart, monthDays, if_pos leap] <;> rfl
  · interval_cases month <;> simp only [monthStart, monthDays, if_neg leap] <;> rfl

/-! ## Months in turn -/

theorem dayNumber_first (year month : Nat) :
    dayNumber year month 1 = yearStart year + monthStart year month :=
  rfl

theorem dayNumber_eq (year month : Nat) {day : Nat} (positive : 1 ≤ day) :
    dayNumber year month day = dayNumber year month 1 + (day - 1) := by
  unfold dayNumber
  omega

theorem dayNumber_month_succ (year : Nat) {month : Nat} (positive : 1 ≤ month) :
    dayNumber year (month + 1) 1 = dayNumber year month 1 + monthDays year month := by
  rw [dayNumber_first, dayNumber_first, monthStart_succ year positive, Nat.add_assoc]

theorem dayNumber_year_succ (year : Nat) :
    dayNumber (year + 1) 1 1 = dayNumber year 12 1 + monthDays year 12 := by
  rw [dayNumber_first, dayNumber_first, yearStart_succ, ← monthStart_thirteen,
    monthStart_succ year (by decide), monthStart_one, Nat.add_zero, Nat.add_assoc]

/-- The first day of a month, the months being counted from the year zero on. -/
def monthNumber (index : Nat) : Nat := dayNumber (index / 12) (index % 12 + 1) 1

theorem monthNumber_succ (index : Nat) :
    monthNumber (index + 1) = monthNumber index + monthDays (index / 12) (index % 12 + 1) := by
  unfold monthNumber
  by_cases last : index % 12 = 11
  · have year : (index + 1) / 12 = index / 12 + 1 := by omega
    have month : (index + 1) % 12 = 0 := by omega
    rw [year, month, last]
    exact dayNumber_year_succ _
  · have year : (index + 1) / 12 = index / 12 := by omega
    have month : (index + 1) % 12 = index % 12 + 1 := by omega
    rw [year, month]
    exact dayNumber_month_succ _ (Nat.le_add_left 1 _)

theorem monthNumber_year (year : Nat) : monthNumber (12 * year) = yearStart year := by
  have whole : 12 * year / 12 = year := Nat.mul_div_cancel_left year (by decide)
  rw [monthNumber, whole, Nat.mul_mod_right, dayNumber_first, monthStart_one, Nat.add_zero]

theorem monthNumber_strictMono : StrictMono monthNumber := by
  apply strictMono_nat_of_lt_succ
  intro index
  have days := monthDays_ge (index / 12) (index % 12 + 1)
  rw [monthNumber_succ]
  omega

/-! ## Dates -/

@[ext]
structure Date where
  year : Nat
  month : Nat
  day : Nat
  month_pos : 1 ≤ month
  month_le : month ≤ 12
  day_pos : 1 ≤ day
  day_le : day ≤ monthDays year month

namespace Date

variable {first second : Date}

def number (date : Date) : Nat := dayNumber date.year date.month date.day

/-- The months before the month of a date. -/
def monthIndex (date : Date) : Nat := 12 * date.year + (date.month - 1)

theorem monthIndex_div (date : Date) : date.monthIndex / 12 = date.year := by
  have monthLe := date.month_le
  unfold monthIndex
  omega

theorem monthIndex_mod (date : Date) : date.monthIndex % 12 + 1 = date.month := by
  have monthPos := date.month_pos
  have monthLe := date.month_le
  unfold monthIndex
  omega

/-- The days of the months before it, and those of its month. -/
theorem number_eq (date : Date) : date.number = monthNumber date.monthIndex + (date.day - 1) := by
  rw [monthNumber, monthIndex_div, monthIndex_mod]
  exact dayNumber_eq _ _ date.day_pos

theorem monthNumber_next (date : Date) : monthNumber (date.monthIndex + 1) =
    monthNumber date.monthIndex + monthDays date.year date.month := by
  rw [monthNumber_succ, monthIndex_div, monthIndex_mod]

/-- A date is in its month. -/
theorem number_lt_next (date : Date) : date.number < monthNumber (date.monthIndex + 1) := by
  have dayPos := date.day_pos
  have dayLe := date.day_le
  rw [monthNumber_next, number_eq]
  omega

/-- A later month has later days. -/
theorem number_lt_of_monthIndex (later : first.monthIndex < second.monthIndex) :
    first.number < second.number :=
  calc
    first.number < monthNumber (first.monthIndex + 1) := first.number_lt_next
    _ ≤ monthNumber second.monthIndex := monthNumber_strictMono.monotone later
    _ ≤ second.number := (Nat.le_add_right _ _).trans second.number_eq.ge

theorem number_lt_of_day (same : first.monthIndex = second.monthIndex)
    (later : first.day < second.day) : first.number < second.number := by
  have dayPos := first.day_pos
  rw [number_eq, number_eq, same]
  omega

/-- Dates have different numbers. -/
theorem eq_of_number (same : first.number = second.number) : first = second := by
  have index : first.monthIndex = second.monthIndex := by
    rcases lt_trichotomy first.monthIndex second.monthIndex with less | equal | more
    · exact absurd same (number_lt_of_monthIndex less).ne
    · exact equal
    · exact absurd same (number_lt_of_monthIndex more).ne'
  have dayPos := first.day_pos
  have dayPos' := second.day_pos
  rw [number_eq, number_eq, index] at same
  ext
  · rw [← monthIndex_div, index, monthIndex_div]
  · rw [← monthIndex_mod, index, monthIndex_mod]
  · omega

/-- The date after a date. -/
def next (date : Date) : Date :=
  if more : date.day < monthDays date.year date.month then
    { date with day := date.day + 1, day_pos := Nat.le_add_left 1 _, day_le := more }
  else if inside : date.month < 12 then
    ⟨date.year, date.month + 1, 1, Nat.le_add_left 1 _, inside, le_rfl,
      (by decide : 1 ≤ 28).trans (monthDays_ge _ _)⟩
  else ⟨date.year + 1, 1, 1, le_rfl, by decide, le_rfl,
    (by decide : 1 ≤ 28).trans (monthDays_ge _ _)⟩

/-- The numbers follow each other. -/
theorem number_next (date : Date) : date.next.number = date.number + 1 := by
  have dayPos := date.day_pos
  have dayLe := date.day_le
  unfold next
  split_ifs with more inside
  · simp only [number, dayNumber]
    omega
  · have last : date.day = monthDays date.year date.month := by omega
    have step := dayNumber_month_succ date.year date.month_pos
    have here := dayNumber_eq date.year date.month dayPos
    simp only [number]
    omega
  · have last : date.day = monthDays date.year date.month := by omega
    have december : date.month = 12 := le_antisymm date.month_le (Nat.le_of_not_lt inside)
    have step := dayNumber_year_succ date.year
    have here := dayNumber_eq date.year date.month dayPos
    simp only [number]
    rw [december] at here last ⊢
    omega

/-- The day of the week, with Monday as zero; the first of January 2000 is a Saturday. -/
def weekday (date : Date) : Nat := (date.number + 5) % 7

theorem weekday_next (date : Date) : date.next.weekday = (date.weekday + 1) % 7 := by
  unfold weekday
  rw [number_next]
  omega

end Date

/-! ## Zeller's formula -/

/-- The formula for the day of the week, in which January and February are months of the
year before. -/
def zeller (year month day : Nat) : Nat :=
  (day + 2 * month + 3 * (month + 1) / 5 + year + year / 4 - year / 100 + year / 400) % 7

theorem zeller_eq (year month day : Nat) : zeller year month day =
    (day + 2 * month + 3 * (month + 1) / 5 + year + leapYears year) % 7 := by
  unfold zeller leapYears
  omega

/-- The days before a month, up to whole weeks, as the formula counts them. -/
theorem monthStart_zeller : ∀ month < 13,
    (1 ≤ month → month ≤ 2 → (367 * month - 362) / 12 % 7 =
      (2 * (month + 12) + 3 * (month + 12 + 1) / 5 + 1) % 7) ∧
    (3 ≤ month → (367 * month - 362) / 12 % 7 = (2 * month + 3 * (month + 1) / 5 + 4) % 7 ∧
      2 ≤ (367 * month - 362) / 12) := by
  decide

/-- The formula follows the number of the day. -/
theorem dayNumber_zeller (year : Nat) {month day : Nat} (first : 1 ≤ month) (last : month ≤ 12)
    (dayPos : 1 ≤ day) : (dayNumber (year + 1) month day + 5) % 7 =
      if month ≤ 2 then zeller year (month + 12) day else zeller (year + 1) month day := by
  obtain ⟨ofEarly, ofLate⟩ := monthStart_zeller month (Nat.lt_succ_of_le last)
  rw [dayNumber, yearStart_eq, monthStart_eq (year + 1) first last, zeller_eq, zeller_eq,
    leapYears_succ]
  by_cases early : month ≤ 2
  · have weeks := ofEarly first early
    rw [if_pos early, if_pos early]
    generalize (367 * month - 362) / 12 = before at weeks ⊢
    generalize 3 * (month + 12 + 1) / 5 = fifths at weeks ⊢
    omega
  · obtain ⟨weeks, enough⟩ := ofLate (Nat.lt_of_not_le early)
    rw [if_neg early, if_neg early]
    generalize (367 * month - 362) / 12 = before at weeks enough ⊢
    generalize 3 * (month + 1) / 5 = fifths at weeks ⊢
    split_ifs <;> omega

end Gregorian
