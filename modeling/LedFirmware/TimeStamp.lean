import LedFirmware.TimeBcd

/-!
# Stamps

The stamp of a time is the number of its second in the century, counted from one on.  It
is found by summing the months between two times, and led back by adding the seconds to
the first time.
-/

namespace LedFirmware

open Gregorian Odometer

def timeEarly : UInt8 := (1 : UInt8) <<< 0

def timeLate : UInt8 := (1 : UInt8) <<< 1

def timeEqual : UInt8 := (1 : UInt8) <<< 2

def compBytes : List UInt8 → List UInt8 → UInt8
  | byte1 :: bytes1, byte2 :: bytes2 =>
      if byte1 < byte2 then timeEarly
      else if byte1 > byte2 then timeLate
      else compBytes bytes1 bytes2
  | _, _ => timeEqual

def timeComp (time1 time2 : Time) : UInt8 := compBytes time1.bytes time2.bytes

/-- `Swap` of two bytes. -/
def swap (a b : UInt8) : UInt8 × UInt8 :=
  let a := a ^^^ b
  let b := b ^^^ a
  let a := a ^^^ b
  (a, b)

def timeSwap (time1 time2 : Time) : Time × Time :=
  let year := swap time1.year time2.year
  let month := swap time1.month time2.month
  let day := swap time1.day time2.day
  let hour := swap time1.hour time2.hour
  let minute := swap time1.minute time2.minute
  let second := swap time1.second time2.second
  (⟨year.1, month.1, day.1, hour.1, minute.1, second.1⟩,
    ⟨year.2, month.2, day.2, hour.2, minute.2, second.2⟩)

variable {time time1 time2 : Time}

/-! ## The order of two times -/

theorem compBytes_spec {bytes1 bytes2 : List UInt8} (lengths : bytes1.length = bytes2.length) :
    (compBytes bytes1 bytes2 = timeEarly ∧ bytes1 < bytes2) ∨
    (compBytes bytes1 bytes2 = timeLate ∧ bytes2 < bytes1) ∨
    (compBytes bytes1 bytes2 = timeEqual ∧ bytes1 = bytes2) := by
  induction bytes1 generalizing bytes2 with
  | nil =>
      cases bytes2 with
      | nil => exact Or.inr (Or.inr ⟨rfl, rfl⟩)
      | cons byte2 bytes2 => cases lengths
  | cons byte1 bytes1 ih =>
      cases bytes2 with
      | nil => cases lengths
      | cons byte2 bytes2 =>
          rw [compBytes, List.cons_lt_cons_iff, List.cons_lt_cons_iff, List.cons.injEq]
          by_cases less : byte1 < byte2
          · exact Or.inl ⟨if_pos less, Or.inl less⟩
          · by_cases more : byte1 > byte2
            · exact Or.inr (Or.inl ⟨(if_neg less).trans (if_pos more), Or.inl more⟩)
            · have same : byte1 = byte2 :=
                UInt8.le_antisymm (UInt8.not_lt.mp more) (UInt8.not_lt.mp less)
              rw [if_neg less, if_neg more]
              rcases ih (Nat.succ.inj lengths) with ⟨early, before⟩ | ⟨late, after⟩ | ⟨equal, all⟩
              · exact Or.inl ⟨early, Or.inr ⟨same, before⟩⟩
              · exact Or.inr (Or.inl ⟨late, Or.inr ⟨same.symm, after⟩⟩)
              · exact Or.inr (Or.inr ⟨equal, same, all⟩)

theorem timeComp_late (valid1 : time1.Valid) (valid2 : time2.Valid) :
    timeComp time1 time2 &&& timeLate ≠ 0 ↔ time2.seconds < time1.seconds := by
  have lengths : time1.bytes.length = time2.bytes.length := rfl
  unfold timeComp
  rcases compBytes_spec lengths with ⟨early, before⟩ | ⟨late, after⟩ | ⟨equal, same⟩
  · have less := Time.seconds_lt_of_bytes valid1 valid2 before
    rw [early]
    exact iff_of_false (by decide) (Nat.lt_asymm less)
  · rw [late]
    exact iff_of_true (by decide) (Time.seconds_lt_of_bytes valid2 valid1 after)
  · rw [equal, Time.ext_bytes same]
    exact iff_of_false (by decide) (Nat.lt_irrefl _)

theorem swap_eq (a b : UInt8) : swap a b = (b, a) := by
  have second : b ^^^ (a ^^^ b) = a := by
    rw [UInt8.xor_comm a b, ← UInt8.xor_assoc, UInt8.xor_self, UInt8.zero_xor]
  have first : a ^^^ b ^^^ a = b := by
    rw [UInt8.xor_comm a b, UInt8.xor_assoc, UInt8.xor_self, UInt8.xor_zero]
  simp only [swap, second, first]

theorem timeSwap_eq (time1 time2 : Time) : timeSwap time1 time2 = (time2, time1) := by
  simp only [timeSwap, swap_eq]

/-! ## The seconds between two times -/

/-- `ONE_DAY`, `ONE_HOUR` and `ONE_MINUTE` -/
def oneDay : Nat := 60 * 60 * 24

def oneHour : Nat := 60 * 60

def oneMinute : Nat := 60

/-- The months of two times are in this order, and are months. -/
structure MonthsUpTo (time1 time2 : Time) : Prop where
  first1 : 1 ≤ time1.month.toNat
  last1 : time1.month.toNat ≤ 12
  first2 : 1 ≤ time2.month.toNat
  last2 : time2.month.toNat ≤ 12
  century : time2.year.toNat < 100
  order : time1.monthIndex ≤ time2.monthIndex

/-- The next month, as the loop steps to it. -/
def stepMonth (time : Time) : Time :=
  let time := if time.month = 12 then { time with year := time.year + 1, month := 0 } else time
  { time with month := time.month + 1 }

theorem stepMonth_index (first : 1 ≤ time.month.toNat) (last : time.month.toNat ≤ 12)
    (century : time.year.toNat < 100) :
    (stepMonth time).monthIndex = time.monthIndex + 1 ∧ 1 ≤ (stepMonth time).month.toNat ∧
      (stepMonth time).month.toNat ≤ 12 := by
  unfold stepMonth Time.monthIndex
  by_cases december : time.month = 12
  · have year : (time.year + 1).toNat = time.year.toNat + 1 := by
      rw [UInt8.toNat_add]
      change (time.year.toNat + 1) % 2 ^ 8 = _
      omega
    have month : ((0 : UInt8) + 1).toNat = 1 := rfl
    have here : time.month.toNat = 12 := congrArg UInt8.toNat december
    simp only [if_pos december, year, month]
    omega
  · have notLast : time.month.toNat ≠ 12 := fun here => december (UInt8.toNat_inj.mp here)
    have month : (time.month + 1).toNat = time.month.toNat + 1 := by
      rw [UInt8.toNat_add]
      change (time.month.toNat + 1) % 2 ^ 8 = _
      omega
    simp only [if_neg december, month]
    omega

namespace MonthsUpTo

theorem year1 (order : MonthsUpTo time1 time2) : time1.year.toNat < 100 := by
  have ⟨first1, last1, first2, last2, century, index⟩ := order
  unfold Time.monthIndex at index
  omega

/-- As long as the months differ, the later one is not reached. -/
theorem lt_of_ne (order : MonthsUpTo time1 time2)
    (differ : ¬ (time1.year = time2.year ∧ time1.month = time2.month)) :
    time1.monthIndex < time2.monthIndex := by
  have ⟨first1, last1, first2, last2, century, index⟩ := order
  apply lt_of_le_of_ne index
  intro same
  unfold Time.monthIndex at same
  exact differ ⟨UInt8.toNat_inj.mp (by omega), UInt8.toNat_inj.mp (by omega)⟩

theorem step (order : MonthsUpTo time1 time2)
    (differ : ¬ (time1.year = time2.year ∧ time1.month = time2.month)) :
    MonthsUpTo (stepMonth time1) time2 := by
  have less := order.lt_of_ne differ
  obtain ⟨index, first, last⟩ := stepMonth_index order.first1 order.last1 order.year1
  exact ⟨first, last, order.first2, order.last2, order.century, index ▸ less⟩

end MonthsUpTo

/-- The loop of `TimeDECSubTime` over the months. -/
def monthSeconds (time1 time2 : Time) (sum : UInt32) (order : MonthsUpTo time1 time2) : UInt32 :=
  if same : time1.year = time2.year ∧ time1.month = time2.month then sum
  else monthSeconds (stepMonth time1) time2
    (sum + UInt32.ofNat ((timeMonthDays time1.year time1.month).toNat * oneDay)) (order.step same)
termination_by time2.monthIndex - time1.monthIndex
decreasing_by
  have less := order.lt_of_ne same
  have index := (stepMonth_index order.first1 order.last1 order.year1).1
  omega

/-- A valid time and one that is not earlier. -/
theorem monthsUpTo_of_valid (valid1 : time1.Valid) (valid2 : time2.Valid)
    (order : time1.seconds ≤ time2.seconds) : MonthsUpTo time1 time2 where
  first1 := valid1.month_pos
  last1 := valid1.month_le
  first2 := valid2.month_pos
  last2 := valid2.month_le
  century := valid2.year
  order := by
    by_contra more
    have later := Time.days_lt_of_monthIndex valid2 valid1 (Nat.lt_of_not_le more)
    have after : time2.seconds < time1.seconds :=
      reading_lt_of_count valid2.second (reading_lt_of_count valid2.minute
        (reading_lt_of_count valid2.hour later))
    omega

/-- The signed number of a byte, `(s8)`. -/
def signed (byte : UInt8) : Int := byte.toInt8.toInt

/-- What is left of the difference in the month. -/
def fieldSeconds (time1 time2 : Time) : Int :=
  (signed time2.day - signed time1.day) * oneDay +
    (signed time2.hour - signed time1.hour) * oneHour +
    (signed time2.minute - signed time1.minute) * oneMinute +
    (signed time2.second - signed time1.second)

/-- The earlier time comes first. -/
def inOrder (time1 time2 : Time) : Time × Time :=
  if timeComp time1 time2 &&& timeLate ≠ 0 then timeSwap time1 time2 else (time1, time2)

theorem inOrder_eq (valid1 : time1.Valid) (valid2 : time2.Valid) : inOrder time1 time2 =
    if time2.seconds < time1.seconds then (time2, time1) else (time1, time2) := by
  rw [inOrder, timeSwap_eq]
  exact if_congr (timeComp_late valid1 valid2) rfl rfl

theorem inOrder_spec (valid1 : time1.Valid) (valid2 : time2.Valid) :
    (inOrder time1 time2).1.Valid ∧ (inOrder time1 time2).2.Valid ∧
      (inOrder time1 time2).1.seconds = min time1.seconds time2.seconds ∧
      (inOrder time1 time2).2.seconds = max time1.seconds time2.seconds := by
  rw [inOrder_eq valid1 valid2]
  by_cases late : time2.seconds < time1.seconds
  · rw [if_pos late]
    exact ⟨valid2, valid1, (Nat.min_eq_right late.le).symm, (Nat.max_eq_left late.le).symm⟩
  · rw [if_neg late]
    have early := Nat.le_of_not_lt late
    exact ⟨valid1, valid2, (Nat.min_eq_left early).symm, (Nat.max_eq_right early).symm⟩

theorem inOrder_months
    (right : ¬ (timeDECCheck time1 = false ∨ timeDECCheck time2 = false)) :
    MonthsUpTo (inOrder time1 time2).1 (inOrder time1 time2).2 := by
  rw [not_or, Bool.not_eq_false, Bool.not_eq_false] at right
  obtain ⟨valid1, valid2, first, second⟩ :=
    inOrder_spec (timeDECCheck_iff.mp right.1) (timeDECCheck_iff.mp right.2)
  apply monthsUpTo_of_valid valid1 valid2
  rw [first, second]
  exact min_le_max

def timeDECSubTime (time1 time2 : Time) : UInt32 :=
  if right : timeDECCheck time1 = false ∨ timeDECCheck time2 = false then 0
  else
    let sum := monthSeconds (inOrder time1 time2).1 (inOrder time1 time2).2 0
      (inOrder_months right)
    UInt32.ofInt (sum.toNat + fieldSeconds (inOrder time1 time2).1 (inOrder time1 time2).2)

def timeBCDSubTime (time1 time2 : Time) : UInt32 :=
  if (timeBCDToDEC time1).1 = false ∨ (timeBCDToDEC time2).1 = false then 0
  else timeDECSubTime (timeBCDToDEC time1).2 (timeBCDToDEC time2).2

/-! ## Stamps -/

/-- `ERROR_STAMP` -/
def errorStamp : UInt32 := 0

def timeDECToStamp (time : Time) : UInt32 :=
  if timeDECCheck time = false then errorStamp else timeDECSubTime time initTime + 1

def timeBCDToStamp (time : Time) : UInt32 :=
  if timeBCDCheck time = false then errorStamp else timeBCDSubTime time initTime + 1

def timeDECStampToTime (stamp : UInt32) : Time :=
  if stamp ≠ errorStamp then (timeDECAddSecond initTime (stamp - 1)).2 else initTime

def timeBCDStampToTime (stamp : UInt32) : Time :=
  if stamp ≠ errorStamp then (timeBCDAddSecond initTime (stamp - 1)).2 else initTime

/-! ## The difference -/

theorem signed_of_lt : ∀ byte : UInt8, byte.toNat < 128 → signed byte = byte.toNat := by
  apply LittleEndian.forall_byte
  decide +kernel

/-- A month of the loop. -/
theorem stepMonth_seconds (order : MonthsUpTo time1 time2) :
    (timeMonthDays time1.year time1.month).toNat +
      monthNumber (12 * 2000 + time1.monthIndex) =
        monthNumber (12 * 2000 + (stepMonth time1).monthIndex) := by
  have first := order.first1
  have last := order.last1
  have index := (stepMonth_index first last order.year1).1
  have year : (12 * 2000 + time1.monthIndex) / 12 = 2000 + time1.year.toNat := by
    unfold Time.monthIndex
    omega
  have month : (12 * 2000 + time1.monthIndex) % 12 + 1 = time1.month.toNat := by
    unfold Time.monthIndex
    omega
  rw [index, ← Nat.add_assoc, monthNumber_succ, year, month,
    timeMonthDays_toNat order.year1 first (Nat.lt_succ_of_le last), Nat.add_comm]

/-- The loop sums the days of the months between. -/
theorem monthSeconds_eq (time1 time2 : Time) (sum : UInt32) (order : MonthsUpTo time1 time2)
    {total : Nat} (bound : total < 2 ^ 32)
    (isTotal : total + monthNumber (12 * 2000 + time1.monthIndex) * oneDay =
      sum.toNat + monthNumber (12 * 2000 + time2.monthIndex) * oneDay) :
    (monthSeconds time1 time2 sum order).toNat = total := by
  induction gap : time2.monthIndex - time1.monthIndex generalizing time1 sum with
  | zero =>
      have same : time1.year = time2.year ∧ time1.month = time2.month := by
        by_contra differ
        have less := order.lt_of_ne differ
        omega
      have index : time1.monthIndex = time2.monthIndex := by
        simp only [Time.monthIndex, same]
      rw [monthSeconds, dif_pos same]
      rw [index] at isTotal
      omega
  | succ gap ih =>
      have index := (stepMonth_index order.first1 order.last1 order.year1).1
      have differ : ¬ (time1.year = time2.year ∧ time1.month = time2.month) := by
        intro same
        simp only [Time.monthIndex, same] at gap
        omega
      have month := congrArg (· * oneDay) (stepMonth_seconds order)
      have rest : monthNumber (12 * 2000 + (stepMonth time1).monthIndex) * oneDay ≤
          monthNumber (12 * 2000 + time2.monthIndex) * oneDay :=
        Nat.mul_le_mul_right _ (monthNumber_strictMono.monotone
          (Nat.add_le_add_left (order.step differ).order _))
      simp only [Nat.add_mul] at month
      rw [monthSeconds, dif_neg differ]
      have added : (sum + UInt32.ofNat
          ((timeMonthDays time1.year time1.month).toNat * oneDay)).toNat =
            sum.toNat + (timeMonthDays time1.year time1.month).toNat * oneDay := by
        rw [UInt32.toNat_add, UInt32.toNat_ofNat']
        omega
      apply ih (stepMonth time1) _ (order.step differ)
      · rw [added]
        omega
      · omega

/-- A valid time has small numbers in its bytes. -/
theorem fieldSeconds_eq (valid1 : time1.Valid) (valid2 : time2.Valid) :
    fieldSeconds time1 time2 =
      ((time2.day.toNat : Int) - time1.day.toNat) * oneDay +
        ((time2.hour.toNat : Int) - time1.hour.toNat) * oneHour +
        ((time2.minute.toNat : Int) - time1.minute.toNat) * oneMinute +
        ((time2.second.toNat : Int) - time1.second.toNat) := by
  have month1 := monthDays_le (2000 + time1.year.toNat) time1.month.toNat
  have month2 := monthDays_le (2000 + time2.year.toNat) time2.month.toNat
  have ⟨_, _, _, _, day1, hour1, minute1, second1⟩ := valid1
  have ⟨_, _, _, _, day2, hour2, minute2, second2⟩ := valid2
  simp only [fieldSeconds]
  rw [signed_of_lt time1.day (by omega), signed_of_lt time2.day (by omega),
    signed_of_lt time1.hour (by omega), signed_of_lt time2.hour (by omega),
    signed_of_lt time1.minute (by omega), signed_of_lt time2.minute (by omega),
    signed_of_lt time1.second (by omega), signed_of_lt time2.second (by omega)]

/-- The seconds of a time from the first of its month on. -/
theorem Time.seconds_eq (valid : time.Valid) :
    time.seconds + monthNumber (12 * 2000) * oneDay + oneDay =
      monthNumber (12 * 2000 + time.monthIndex) * oneDay + time.day.toNat * oneDay +
        time.hour.toNat * oneHour + time.minute.toNat * oneMinute + time.second.toNat := by
  have dayPos := valid.day_pos
  have days := Time.days_first valid
  simp only [Time.seconds, Time.minutes, Time.hours, reading, oneDay, oneHour, oneMinute]
  generalize monthNumber (12 * 2000 + time.monthIndex) = month at days ⊢
  generalize monthNumber (12 * 2000) = start at days ⊢
  omega

/-- The difference of an earlier time and a later one. -/
theorem timeDECSubTime_ordered (valid1 : time1.Valid) (valid2 : time2.Valid)
    (order : MonthsUpTo time1 time2) (early : time1.seconds ≤ time2.seconds) :
    (UInt32.ofInt ((monthSeconds time1 time2 0 order).toNat +
      fieldSeconds time1 time2)).toNat = time2.seconds - time1.seconds := by
  have first := Time.seconds_eq valid1
  have second := Time.seconds_eq valid2
  have small := Time.seconds_lt valid2
  have months : monthNumber (12 * 2000 + time1.monthIndex) ≤
      monthNumber (12 * 2000 + time2.monthIndex) :=
    monthNumber_strictMono.monotone (Nat.add_le_add_left order.order _)
  have century : monthNumber (12 * 2000 + time2.monthIndex) ≤
      monthNumber (12 * 2000) + centuryDays := by
    have days := Time.days_first valid2
    have less := Time.days_lt valid2
    omega
  have start : monthNumber (12 * 2000) ≤ monthNumber (12 * 2000 + time1.monthIndex) :=
    monthNumber_strictMono.monotone (Nat.le_add_right _ _)
  have sum := @monthSeconds_eq time1 time2 0 order
    ((monthNumber (12 * 2000 + time2.monthIndex) -
      monthNumber (12 * 2000 + time1.monthIndex)) * oneDay)
  have zero : (0 : UInt32).toNat = 0 := rfl
  rw [zero] at sum
  rw [Time.centurySeconds_eq] at small
  simp only [oneDay, centuryDays] at first second century sum
  generalize monthNumber (12 * 2000 + time1.monthIndex) = month1 at *
  generalize monthNumber (12 * 2000 + time2.monthIndex) = month2 at *
  generalize monthNumber (12 * 2000) = month0 at *
  rw [sum (by omega) (by omega), fieldSeconds_eq valid1 valid2, UInt32.ofInt, UInt32.toNat_ofNat']
  simp only [oneDay, oneHour, oneMinute] at first second ⊢
  omega

theorem timeDECSubTime_eq (valid1 : time1.Valid) (valid2 : time2.Valid) :
    (timeDECSubTime time1 time2).toNat =
      max time1.seconds time2.seconds - min time1.seconds time2.seconds := by
  have right : ¬ (timeDECCheck time1 = false ∨ timeDECCheck time2 = false) :=
    not_or.mpr ⟨valid1.checked, valid2.checked⟩
  obtain ⟨validFirst, validSecond, first, second⟩ := inOrder_spec valid1 valid2
  have early : (inOrder time1 time2).1.seconds ≤ (inOrder time1 time2).2.seconds := by
    rw [first, second]
    exact min_le_max
  rw [timeDECSubTime, dif_neg right,
    timeDECSubTime_ordered validFirst validSecond (inOrder_months right) early, first, second]

/-! ## There and back -/

theorem initTime_valid : initTime.Valid :=
  timeDECCheck_iff.mp (by decide)

theorem initTime_seconds : initTime.seconds = 0 := by
  have instant := Time.seconds_eq initTime_valid
  have index : initTime.monthIndex = 0 := rfl
  have day : initTime.day.toNat = 1 := rfl
  have hour : initTime.hour.toNat = 0 := rfl
  have minute : initTime.minute.toNat = 0 := rfl
  have second : initTime.second.toNat = 0 := rfl
  rw [index, day, hour, minute, second, Nat.add_zero (12 * 2000)] at instant
  omega

/-- The stamp of a valid time is its second, counted from one. -/
theorem timeDECToStamp_eq (valid : time.Valid) :
    (timeDECToStamp time).toNat = time.seconds + 1 := by
  have small := Time.seconds_lt valid
  have difference := timeDECSubTime_eq valid initTime_valid
  rw [initTime_seconds, Nat.max_zero, Nat.min_zero, Nat.sub_zero] at difference
  rw [timeDECToStamp, if_neg valid.checked, UInt32.toNat_add, difference]
  rw [Time.centurySeconds_eq] at small
  rw [UInt32.toNat_one]
  omega

/-- The seconds of a stamp lead from the first time to its time. -/
theorem timeDECAddSecond_stamp {stamp : UInt32} (first : stamp ≠ errorStamp)
    (last : stamp.toNat ≤ Time.centurySeconds) :
    ∃ next, timeDECAddSecond initTime (stamp - 1) = (true, next) ∧ next.Valid ∧
      next.seconds + 1 = stamp.toNat := by
  have positive : stamp.toNat ≠ 0 := fun zero => first (UInt32.toNat_inj.mp zero)
  have one : (1 : UInt32) ≤ stamp := Nat.one_le_iff_ne_zero.mpr positive
  have before : (stamp - 1).toNat = stamp.toNat - 1 := by
    rw [UInt32.toNat_sub_of_le _ _ one, UInt32.toNat_one]
  have small := last
  rw [Time.centurySeconds_eq] at small
  obtain ⟨next, added, arrived, -, counted⟩ :=
    timeDECAddSecond_adds initTime (stamp - 1) initTime_valid (by omega)
  rw [initTime_seconds, Nat.zero_add, before] at counted
  have instant : next.seconds % Time.centurySeconds =
    (stamp.toNat - 1) % Time.centurySeconds := counted
  rw [Nat.mod_eq_of_lt (Time.seconds_lt arrived), Nat.mod_eq_of_lt (by omega)] at instant
  exact ⟨next, added, arrived, by omega⟩

theorem timeDECToStamp_range (valid : time.Valid) : timeDECToStamp time ≠ errorStamp ∧
    (timeDECToStamp time).toNat ≤ Time.centurySeconds := by
  have stamp := timeDECToStamp_eq valid
  refine ⟨?_, stamp.trans_le (Time.seconds_lt valid)⟩
  intro none
  rw [none] at stamp
  exact absurd stamp (Nat.succ_ne_zero _).symm

theorem timeDECToStamp_stampToTime {stamp : UInt32} (first : stamp ≠ errorStamp)
    (last : stamp.toNat ≤ Time.centurySeconds) :
    (timeDECStampToTime stamp).Valid ∧ timeDECToStamp (timeDECStampToTime stamp) = stamp := by
  obtain ⟨next, added, arrived, instant⟩ := timeDECAddSecond_stamp first last
  rw [timeDECStampToTime, if_pos first, added]
  exact ⟨arrived, UInt32.toNat_inj.mp ((timeDECToStamp_eq arrived).trans instant)⟩

/-- The seconds of the stamp of a time lead from the first time to it. -/
theorem timeDECAddSecond_toStamp (valid : time.Valid) :
    timeDECAddSecond initTime (timeDECToStamp time - 1) = (true, time) := by
  obtain ⟨first, last⟩ := timeDECToStamp_range valid
  obtain ⟨next, added, arrived, instant⟩ := timeDECAddSecond_stamp first last
  rw [timeDECToStamp_eq valid] at instant
  rw [added, Time.eq_of_seconds arrived valid (Nat.succ.inj instant)]

theorem timeDECStampToTime_toStamp (valid : time.Valid) :
    timeDECStampToTime (timeDECToStamp time) = time := by
  rw [timeDECStampToTime, if_pos (timeDECToStamp_range valid).1, timeDECAddSecond_toStamp valid]

/-- Times in packed digits have the stamps of the decimal ones. -/
theorem timeBCDToStamp_eq (valid : timeBCDCheck time = true) :
    timeBCDToStamp time = timeDECToStamp (time.mapBytes bcdToDECU8) := by
  obtain ⟨digits, numbers⟩ := timeBCDCheck_iff.mp valid
  have converted := timeBCDToDEC_of_digits digits
  have start : timeBCDToDEC initTime = (true, initTime) := rfl
  have checked := timeDECCheck_iff.mpr numbers
  rw [checked] at converted
  have checked' : ¬ timeBCDCheck time = false := by
    rw [valid]
    exact Bool.noConfusion
  have neither : ¬ (true = false ∨ true = false) := by decide
  rw [timeBCDToStamp, if_neg checked', timeBCDSubTime, converted, start, if_neg neither,
    timeDECToStamp, if_neg numbers.checked]

/-- The work on the decimal time, if it leads to a valid one. -/
theorem timeBCDBy_of_valid {work : Time → UInt32 → Bool × Time} {value : UInt32} {next : Time}
    (valid : timeBCDCheck time = true)
    (worked : work (time.mapBytes bcdToDECU8) value = (true, next)) (arrived : next.Valid) :
    timeBCDBy work time value = (true, next.mapBytes decToBCDU8) := by
  obtain ⟨digits, numbers⟩ := timeBCDCheck_iff.mp valid
  have converted := timeBCDToDEC_of_digits digits
  rw [timeDECCheck_iff.mpr numbers] at converted
  rw [timeBCDBy, converted]
  dsimp only
  rw [worked]
  exact timeDECToBCD_of_valid arrived

theorem timeBCDStampToTime_toStamp (valid : timeBCDCheck time = true) :
    timeBCDStampToTime (timeBCDToStamp time) = time := by
  obtain ⟨digits, numbers⟩ := timeBCDCheck_iff.mp valid
  have worked := @timeBCDBy_of_valid initTime timeDECAddSecond
    (timeDECToStamp (time.mapBytes bcdToDECU8) - 1) _ rfl (timeDECAddSecond_toStamp numbers) numbers
  rw [timeBCDToStamp_eq valid, timeBCDStampToTime, if_pos (timeDECToStamp_range numbers).1,
    timeBCDAddSecond, worked]
  exact mapBytes_of_digits digits

theorem timeDECToStamp_lt (valid1 : time1.Valid) (valid2 : time2.Valid)
    (earlier : time1.bytes < time2.bytes) : timeDECToStamp time1 < timeDECToStamp time2 := by
  rw [UInt32.lt_iff_toNat_lt, timeDECToStamp_eq valid1, timeDECToStamp_eq valid2]
  exact Nat.add_lt_add_right (Time.seconds_lt_of_bytes valid1 valid2 earlier) 1

/-- The stamps of valid times are those of the century. -/
theorem timeDECToStamp_mem {stamp : UInt32} :
    (∃ time, timeDECCheck time = true ∧ timeDECToStamp time = stamp) ↔
      stamp ≠ errorStamp ∧ stamp.toNat ≤ Time.centurySeconds := by
  constructor
  · rintro ⟨time, valid, rfl⟩
    exact timeDECToStamp_range (timeDECCheck_iff.mp valid)
  · rintro ⟨first, last⟩
    obtain ⟨valid, back⟩ := timeDECToStamp_stampToTime first last
    exact ⟨_, timeDECCheck_iff.mpr valid, back⟩

/-- Stamps and valid times are in bijection, in their order, and the difference of two times
is that of their instants. -/
theorem stamp_bijection :
    (∀ time, timeDECCheck time = true → timeDECStampToTime (timeDECToStamp time) = time) ∧
    (∀ stamp, (∃ time, timeDECCheck time = true ∧ timeDECToStamp time = stamp) →
      timeDECToStamp (timeDECStampToTime stamp) = stamp) ∧
    (∀ stamp : UInt32, (∃ time, timeDECCheck time = true ∧ timeDECToStamp time = stamp) ↔
      stamp ≠ errorStamp ∧ stamp.toNat ≤ Time.centurySeconds) ∧
    (∀ time1 time2, timeDECCheck time1 = true → timeDECCheck time2 = true →
      time1.bytes < time2.bytes → timeDECToStamp time1 < timeDECToStamp time2) ∧
    (∀ time, timeBCDCheck time = true → timeBCDStampToTime (timeBCDToStamp time) = time) ∧
    (∀ time1 time2, timeDECCheck time1 = true → timeDECCheck time2 = true →
      (timeDECSubTime time1 time2).toNat = ((time1.seconds : Int) - time2.seconds).natAbs ∧
      timeDECSubTime time1 time2 = timeDECSubTime time2 time1) := by
  refine ⟨?_, ?_, fun _ => timeDECToStamp_mem, ?_, fun _ => timeBCDStampToTime_toStamp, ?_⟩
  · intro time valid
    exact timeDECStampToTime_toStamp (timeDECCheck_iff.mp valid)
  · intro stamp ranged
    obtain ⟨first, last⟩ := timeDECToStamp_mem.mp ranged
    exact (timeDECToStamp_stampToTime first last).2
  · intro time1 time2 valid1 valid2 earlier
    exact timeDECToStamp_lt (timeDECCheck_iff.mp valid1) (timeDECCheck_iff.mp valid2) earlier
  · intro time1 time2 valid1 valid2
    have difference := timeDECSubTime_eq (timeDECCheck_iff.mp valid1) (timeDECCheck_iff.mp valid2)
    have exchanged := timeDECSubTime_eq (timeDECCheck_iff.mp valid2) (timeDECCheck_iff.mp valid1)
    constructor
    · rw [difference]
      generalize time1.seconds = first
      generalize time2.seconds = second
      omega
    · rw [max_comm, min_comm, ← difference] at exchanged
      exact (UInt32.toNat_inj.mp exchanged).symm

end LedFirmware
