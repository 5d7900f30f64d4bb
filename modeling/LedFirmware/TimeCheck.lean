import LedFirmware.Gregorian
import LedFirmware.LittleEndian
import LedFirmware.RepairLoop
import Mathlib.Data.UInt

/-!
# Times of the century

`TIME` of `usdl_time.h` with its check and its repair in decimal numbers.  The years
run from 2000 to 2099, in which every fourth one is a leap year.
-/

namespace LedFirmware

/-- `TIME`. -/
@[ext]
structure Time where
  year : UInt8
  month : UInt8
  day : UInt8
  hour : UInt8
  minute : UInt8
  second : UInt8
  deriving DecidableEq, Repr

/-- `INIT_TIME` -/
def initTime : Time := ⟨0, 1, 1, 0, 0, 0⟩

def centuryYearTable : List UInt8 :=
  [1, 0, 0, 0, 1, 0, 0, 0, 1, 0, 0, 0, 1, 0, 0, 0, 1, 0, 0, 0,
   1, 0, 0, 0, 1, 0, 0, 0, 1, 0, 0, 0, 1, 0, 0, 0, 1, 0, 0, 0,
   1, 0, 0, 0, 1, 0, 0, 0, 1, 0, 0, 0, 1, 0, 0, 0, 1, 0, 0, 0,
   1, 0, 0, 0, 1, 0, 0, 0, 1, 0, 0, 0, 1, 0, 0, 0, 1, 0, 0, 0,
   1, 0, 0, 0, 1, 0, 0, 0, 1, 0, 0, 0, 1, 0, 0, 0, 1, 0, 0, 0]

/-- The table is not read behind its end by any caller. -/
def timeMonthDays (year month : UInt8) : UInt8 :=
  match month with
  | 1 | 3 | 5 | 7 | 8 | 10 | 12 => 31
  | 2 => 28 + centuryYearTable.getD year.toNat 0
  | 4 | 6 | 9 | 11 => 30
  | _ => 0

def timeDECCheck (time : Time) : Bool :=
  time.year ≤ 99 && 1 ≤ time.month && time.month ≤ 12 && 1 ≤ time.day &&
    time.day ≤ timeMonthDays time.year time.month && time.hour < 24 && time.minute < 60 &&
    time.second < 60

/-- `BitSet` of one flag. -/
def fixBit (pos : UInt8) : UInt8 := 1 <<< pos

/-- One pass of the loop of `TimeDECFix`. -/
def timeDECFixPass (time : Time) : Option (UInt8 × Time) :=
  if time.year > 99 then some (fixBit 5, { time with year := 99 })
  else if time.month = 0 then some (fixBit 4, { time with month := 1 })
  else if time.month > 12 then some (fixBit 4, { time with month := 12 })
  else if time.day = 0 then some (fixBit 3, { time with day := 1 })
  else if time.day > timeMonthDays time.year time.month then
    some (fixBit 3, { time with day := timeMonthDays time.year time.month })
  else if time.hour ≥ 24 then some (fixBit 2, { time with hour := 23 })
  else if time.minute ≥ 60 then some (fixBit 1, { time with minute := 59 })
  else if time.second ≥ 60 then some (fixBit 0, { time with second := 59 })
  else none

/-! ## The lengths of the months -/

/-- The table gives the months of the century their lengths. -/
theorem timeMonthDays_table : ∀ year < 100, ∀ month < 13, 1 ≤ month →
    (timeMonthDays (UInt8.ofNat year) (UInt8.ofNat month)).toNat =
      Gregorian.monthDays (2000 + year) month := by
  decide +kernel

theorem timeMonthDays_toNat {year month : UInt8} (century : year.toNat < 100)
    (first : 1 ≤ month.toNat) (last : month.toNat < 13) :
    (timeMonthDays year month).toNat = Gregorian.monthDays (2000 + year.toNat) month.toNat := by
  have entry := timeMonthDays_table year.toNat century month.toNat last first
  rwa [UInt8.ofNat_toNat, UInt8.ofNat_toNat] at entry

/-! ## Valid times -/

/-- The numbers of a valid time. -/
structure Time.Valid (time : Time) : Prop where
  year : time.year.toNat < 100
  month_pos : 1 ≤ time.month.toNat
  month_le : time.month.toNat ≤ 12
  day_pos : 1 ≤ time.day.toNat
  day_le : time.day.toNat ≤ Gregorian.monthDays (2000 + time.year.toNat) time.month.toNat
  hour : time.hour.toNat < 24
  minute : time.minute.toNat < 60
  second : time.second.toNat < 60

theorem timeDECCheck_iff {time : Time} : timeDECCheck time = true ↔ time.Valid := by
  have lengths (valid : time.year.toNat < 100 ∧ 1 ≤ time.month.toNat ∧ time.month.toNat < 13) :=
    timeMonthDays_toNat valid.1 valid.2.1 valid.2.2
  simp only [timeDECCheck, Bool.and_eq_true, decide_eq_true_eq, UInt8.le_iff_toNat_le,
    UInt8.lt_iff_toNat_lt, UInt8.reduceToNat]
  constructor
  · rintro ⟨⟨⟨⟨⟨⟨⟨year, monthPos⟩, monthLe⟩, dayPos⟩, dayLe⟩, hour⟩, minute⟩, second⟩
    rw [lengths ⟨by omega, monthPos, by omega⟩] at dayLe
    exact ⟨by omega, monthPos, monthLe, dayPos, dayLe, hour, minute, second⟩
  · rintro ⟨year, monthPos, monthLe, dayPos, dayLe, hour, minute, second⟩
    rw [lengths ⟨year, monthPos, by omega⟩]
    exact ⟨⟨⟨⟨⟨⟨⟨by omega, monthPos⟩, monthLe⟩, dayPos⟩, dayLe⟩, hour⟩, minute⟩, second⟩

/-! ## The repair -/

theorem timeMonthDays_ge {year month : UInt8} (century : ¬ year > 99) (first : ¬ month = 0)
    (last : ¬ month > 12) : 28 ≤ timeMonthDays year month := by
  have positive : month.toNat ≠ 0 := fun zero => first (UInt8.toNat_inj.mp zero)
  have upper : year.toNat ≤ 99 := Nat.le_of_not_lt century
  have lower : month.toNat ≤ 12 := Nat.le_of_not_lt last
  rw [UInt8.le_iff_toNat_le, timeMonthDays_toNat (by omega) (by omega) (by omega)]
  exact Gregorian.monthDays_ge _ _

/-- What one pass does: it puts the first field that is out of its range to its limit. -/
inductive DecFixPass (time : Time) : Option (UInt8 × Time) → Prop
  | year (late : time.year > 99) : DecFixPass time (some (fixBit 5, { time with year := 99 }))
  | monthZero (year : ¬ time.year > 99) (zero : time.month = 0) :
      DecFixPass time (some (fixBit 4, { time with month := 1 }))
  | month (year : ¬ time.year > 99) (zero : ¬ time.month = 0) (late : time.month > 12) :
      DecFixPass time (some (fixBit 4, { time with month := 12 }))
  | dayZero (year : ¬ time.year > 99) (month : ¬ time.month = 0 ∧ ¬ time.month > 12)
      (zero : time.day = 0) : DecFixPass time (some (fixBit 3, { time with day := 1 }))
  | day (year : ¬ time.year > 99) (month : ¬ time.month = 0 ∧ ¬ time.month > 12)
      (zero : ¬ time.day = 0) (late : time.day > timeMonthDays time.year time.month) :
      DecFixPass time
        (some (fixBit 3, { time with day := timeMonthDays time.year time.month }))
  | hour (year : ¬ time.year > 99) (month : ¬ time.month = 0 ∧ ¬ time.month > 12)
      (day : ¬ time.day = 0 ∧ ¬ time.day > timeMonthDays time.year time.month)
      (late : time.hour ≥ 24) : DecFixPass time (some (fixBit 2, { time with hour := 23 }))
  | minute (year : ¬ time.year > 99) (month : ¬ time.month = 0 ∧ ¬ time.month > 12)
      (day : ¬ time.day = 0 ∧ ¬ time.day > timeMonthDays time.year time.month)
      (hour : ¬ time.hour ≥ 24) (late : time.minute ≥ 60) :
      DecFixPass time (some (fixBit 1, { time with minute := 59 }))
  | second (year : ¬ time.year > 99) (month : ¬ time.month = 0 ∧ ¬ time.month > 12)
      (day : ¬ time.day = 0 ∧ ¬ time.day > timeMonthDays time.year time.month)
      (hour : ¬ time.hour ≥ 24) (minute : ¬ time.minute ≥ 60) (late : time.second ≥ 60) :
      DecFixPass time (some (fixBit 0, { time with second := 59 }))
  | right (year : ¬ time.year > 99) (month : ¬ time.month = 0 ∧ ¬ time.month > 12)
      (day : ¬ time.day = 0 ∧ ¬ time.day > timeMonthDays time.year time.month)
      (hour : ¬ time.hour ≥ 24) (minute : ¬ time.minute ≥ 60) (second : ¬ time.second ≥ 60) :
      DecFixPass time none

theorem timeDECFixPass_cases (time : Time) : DecFixPass time (timeDECFixPass time) := by
  unfold timeDECFixPass
  by_cases year : time.year > 99
  · rw [if_pos year]
    exact .year year
  rw [if_neg year]
  by_cases monthZero : time.month = 0
  · rw [if_pos monthZero]
    exact .monthZero year monthZero
  rw [if_neg monthZero]
  by_cases month : time.month > 12
  · rw [if_pos month]
    exact .month year monthZero month
  rw [if_neg month]
  by_cases dayZero : time.day = 0
  · rw [if_pos dayZero]
    exact .dayZero year ⟨monthZero, month⟩ dayZero
  rw [if_neg dayZero]
  by_cases day : time.day > timeMonthDays time.year time.month
  · rw [if_pos day]
    exact .day year ⟨monthZero, month⟩ dayZero day
  rw [if_neg day]
  by_cases hour : time.hour ≥ 24
  · rw [if_pos hour]
    exact .hour year ⟨monthZero, month⟩ ⟨dayZero, day⟩ hour
  rw [if_neg hour]
  by_cases minute : time.minute ≥ 60
  · rw [if_pos minute]
    exact .minute year ⟨monthZero, month⟩ ⟨dayZero, day⟩ hour minute
  rw [if_neg minute]
  by_cases second : time.second ≥ 60
  · rw [if_pos second]
    exact .second year ⟨monthZero, month⟩ ⟨dayZero, day⟩ hour minute second
  rw [if_neg second]
  exact .right year ⟨monthZero, month⟩ ⟨dayZero, day⟩ hour minute second

/-- How far the first field out of range is from the end, in the order of a pass. -/
def decRank (time : Time) : Nat :=
  if time.year > 99 then 6
  else if time.month = 0 ∨ time.month > 12 then 5
  else if time.day = 0 ∨ time.day > timeMonthDays time.year time.month then 4
  else if time.hour ≥ 24 then 3
  else if time.minute ≥ 60 then 2
  else if time.second ≥ 60 then 1
  else 0

theorem decRank_pass {time next : Time} {mark : UInt8}
    (wrong : timeDECFixPass time = some (mark, next)) : decRank next < decRank time := by
  have days := @timeMonthDays_ge time.year time.month
  cases wrong ▸ timeDECFixPass_cases time <;> simp only [decRank] <;> grind

/-- The loop of `TimeDECFix`. -/
def decFixLoop : RepairLoop Time := ⟨timeDECFixPass, decRank, decRank_pass⟩

/-- The bits returned and the time left. -/
def timeDECFix (time : Time) : UInt8 × Time := decFixLoop.run 0 time

/-- The set of the bits of the fields that are told. -/
def fixBits (year month day hour minute second : Bool) : UInt8 :=
  (bif year then fixBit 5 else 0) ||| (bif month then fixBit 4 else 0) |||
    (bif day then fixBit 3 else 0) ||| (bif hour then fixBit 2 else 0) |||
    (bif minute then fixBit 1 else 0) ||| (bif second then fixBit 0 else 0)

/-- The bits of the fields in which two times differ. -/
def changes (before after : Time) : UInt8 :=
  fixBits (before.year != after.year) (before.month != after.month) (before.day != after.day)
    (before.hour != after.hour) (before.minute != after.minute) (before.second != after.second)

/-- One bit more. -/
theorem fixBits_or (year month day hour minute second : Bool) :
    fixBit 5 ||| fixBits year month day hour minute second =
        fixBits true month day hour minute second ∧
      fixBit 4 ||| fixBits year month day hour minute second =
        fixBits year true day hour minute second ∧
      fixBit 3 ||| fixBits year month day hour minute second =
        fixBits year month true hour minute second ∧
      fixBit 2 ||| fixBits year month day hour minute second =
        fixBits year month day true minute second ∧
      fixBit 1 ||| fixBits year month day hour minute second =
        fixBits year month day hour true second ∧
      fixBit 0 ||| fixBits year month day hour minute second =
        fixBits year month day hour minute true := by
  revert year month day hour minute second
  decide

@[simp]
theorem changes_self (time : Time) : changes time time = 0 := by
  simp only [changes, bne_self_eq_false]
  rfl

/-- What the repair leaves: each field at its limit if it is beyond it. -/
def decFixed (time : Time) : Time :=
  let year := if time.year > 99 then 99 else time.year
  let month := if time.month = 0 then 1 else if time.month > 12 then 12 else time.month
  let day := if time.day = 0 then 1
    else if time.day > timeMonthDays year month then timeMonthDays year month else time.day
  { year, month, day
    hour := if time.hour ≥ 24 then 23 else time.hour
    minute := if time.minute ≥ 60 then 59 else time.minute
    second := if time.second ≥ 60 then 59 else time.second }

theorem decFixed_pass {time next : Time} {mark : UInt8}
    (wrong : timeDECFixPass time = some (mark, next)) : decFixed next = decFixed time := by
  have days := @timeMonthDays_ge time.year time.month
  cases wrong ▸ timeDECFixPass_cases time <;> simp only [decFixed] <;> grind

theorem changes_decFixed_pass {time next : Time} {mark : UInt8}
    (wrong : timeDECFixPass time = some (mark, next)) :
    changes time (decFixed time) = mark ||| changes next (decFixed next) := by
  have days := @timeMonthDays_ge time.year time.month
  rw [decFixed_pass wrong]
  -- The field of the mark is beyond its limit, the others are those of the next time.
  cases wrong ▸ timeDECFixPass_cases time <;> simp only [changes, fixBits_or] <;>
    congr 1 <;> simp only [decFixed] <;> grind

theorem decFixed_of_right {time : Time} (right : timeDECFixPass time = none) :
    decFixed time = time := by
  cases right ▸ timeDECFixPass_cases time
  ext1 <;> simp only [decFixed] <;> grind

/-- The loop ends with each field in its range, and returns the bits of those it has
changed. -/
theorem timeDECFix_eq (time : Time) :
    timeDECFix time = (changes time (decFixed time), decFixed time) := by
  have closed := @RepairLoop.run_eq Time decFixLoop decFixed
    (fun time => changes time (decFixed time))
    (fun time right => ⟨decFixed_of_right right, by rw [decFixed_of_right right, changes_self]⟩)
    (fun _ _ _ wrong => ⟨decFixed_pass wrong, changes_decFixed_pass wrong⟩) 0 time
  rw [timeDECFix, closed, UInt8.zero_or]

theorem timeDECFixPass_eq_none {time : Time} :
    timeDECFixPass time = none ↔ timeDECCheck time = true := by
  have passed := timeDECFixPass_cases time
  simp only [timeDECCheck, Bool.and_eq_true, decide_eq_true_eq]
  constructor
  · intro right
    cases right ▸ passed
    grind
  · intro valid
    generalize timeDECFixPass time = after at passed
    cases passed <;> grind

theorem timeDECFix_check (time : Time) : timeDECCheck (timeDECFix time).2 = true :=
  timeDECFixPass_eq_none.mp (decFixLoop.pass_run 0 time)

end LedFirmware
