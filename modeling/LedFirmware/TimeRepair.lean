import LedFirmware.TimeBcd

/-!
# The repair of times

`TimeDECFix` and `TimeBCDFix` put a time right field by field.  The one for packed digits
also rounds up a byte whose low half is not a digit, and does so for the minutes and the
seconds before it finds them beyond the limit.
-/

namespace LedFirmware

def getU8LowU4 (value : UInt8) : UInt8 := value &&& 0x0F

def setU8LowU4 (value halfWord : UInt8) : UInt8 := (value &&& 0xF0) ||| (halfWord &&& 0x0F)

def setU8HighU4 (value halfWord : UInt8) : UInt8 :=
  (value &&& 0x0F) ||| ((halfWord <<< (4 : UInt8)) &&& (0xF0 : UInt8))

def getU8HighU4 (value : UInt8) : UInt8 := (value >>> 4) &&& 0x0F

/-- Whether the byte has been changed, and the byte. -/
def bcdFix (bcd : UInt8) : Bool × UInt8 :=
  if checkBCD bcd = true then (false, bcd)
  else if bcd > 0x99 then (true, 0)
  else if getU8LowU4 bcd > 0x09 then
    -- The high half takes the carry.
    let bcd := setU8LowU4 bcd 0
    (true, setU8HighU4 bcd (getU8HighU4 bcd + 1))
  else (false, bcd)

/-- `DECToBCD` for a destination of one byte: two digits, or zero. -/
def getDECToBCDU8 (dec : UInt8) : UInt8 :=
  if dec > 0 then ((dec / 10 % 10) <<< 4) ||| (dec % 10) else 0

/-- The last day of a month, in packed digits. -/
def bcdMonthDays (year month : UInt8) : UInt8 :=
  timeMonthDays (bcdToDECU8 year) (bcdToDECU8 month)

/-- The year in a pass of the loop of `TimeBCDFix`. -/
def bcdFixYear (time : Time) : Option (UInt8 × Time) :=
  if time.year > 0x99 then some (fixBit 5, { time with year := 0x99 })
  else if (bcdFix time.year).1 then some (fixBit 5, { time with year := (bcdFix time.year).2 })
  else none

def bcdFixMonth (time : Time) : Option (UInt8 × Time) :=
  if time.month = 0 then some (fixBit 4, { time with month := 1 })
  else if time.month > 0x12 then some (fixBit 4, { time with month := 0x12 })
  else if (bcdFix time.month).1 then some (fixBit 4, { time with month := (bcdFix time.month).2 })
  else none

def bcdFixDay (time : Time) : Option (UInt8 × Time) :=
  if time.day = 0 then some (fixBit 3, { time with day := 1 })
  else if bcdToDECU8 time.day > bcdMonthDays time.year time.month then
    some (fixBit 3, { time with day := getDECToBCDU8 (bcdMonthDays time.year time.month) })
  else if (bcdFix time.day).1 then some (fixBit 3, { time with day := (bcdFix time.day).2 })
  else none

def bcdFixHour (time : Time) : Option (UInt8 × Time) :=
  if time.hour ≥ 0x24 then some (fixBit 2, { time with hour := 0x23 })
  else if (bcdFix time.hour).1 then some (fixBit 2, { time with hour := (bcdFix time.hour).2 })
  else none

def bcdFixMinute (time : Time) : Option (UInt8 × Time) :=
  if time.minute ≥ 0x60 then some (fixBit 1, { time with minute := 0x59 })
  else if (bcdFix time.minute).1 then
    some (fixBit 1, { time with minute := (bcdFix time.minute).2 })
  else none

def bcdFixSecond (time : Time) : Option (UInt8 × Time) :=
  if time.second ≥ 0x60 then some (fixBit 0, { time with second := 0x59 })
  else if (bcdFix time.second).1 then
    some (fixBit 0, { time with second := (bcdFix time.second).2 })
  else none

/-- One pass of the loop of `TimeBCDFix`: the first field that is wrong. -/
def timeBCDFixPass (time : Time) : Option (UInt8 × Time) :=
  (bcdFixYear time).or <| (bcdFixMonth time).or <| (bcdFixDay time).or <|
    (bcdFixHour time).or <| (bcdFixMinute time).or <| bcdFixSecond time

/-! ## What a field is put to -/

def bcdYear (year : UInt8) : UInt8 := if year > 0x99 then 0x99 else (bcdFix year).2

def bcdMonth (month : UInt8) : UInt8 :=
  if month = 0 then 1 else if month > 0x12 then 0x12 else (bcdFix month).2

def bcdDay (days day : UInt8) : UInt8 :=
  if day = 0 then 1 else if bcdToDECU8 day > days then getDECToBCDU8 days else (bcdFix day).2

def bcdHour (hour : UInt8) : UInt8 := if hour ≥ 0x24 then 0x23 else (bcdFix hour).2

/-- Minutes or seconds after one pass. -/
def bcdSixty (byte : UInt8) : UInt8 := if byte ≥ 0x60 then 0x59 else (bcdFix byte).2

theorem bcdFix_changes : ∀ bcd, (bcdFix bcd).1 = true ↔ (bcdFix bcd).2 ≠ bcd := by
  apply LittleEndian.forall_byte
  decide +kernel

theorem bcdYear_spec : ∀ year, bcdYear (bcdYear year) = bcdYear year ∧
    (bcdYear year = year ↔ checkBCD year = true) := by
  apply LittleEndian.forall_byte
  decide +kernel

theorem bcdMonth_spec : ∀ month, bcdMonth (bcdMonth month) = bcdMonth month ∧
    (bcdMonth month = month ↔
      checkBCD month = true ∧ 1 ≤ bcdToDECU8 month ∧ bcdToDECU8 month ≤ 12) := by
  apply LittleEndian.forall_byte
  decide +kernel

theorem bcdDay_spec {days : UInt8} (least : 28 ≤ days) (most : days ≤ 31) :
    ∀ day, bcdDay days (bcdDay days day) = bcdDay days day ∧
      (bcdDay days day = day ↔
        checkBCD day = true ∧ 1 ≤ bcdToDECU8 day ∧ bcdToDECU8 day ≤ days) := by
  have few : days = 28 ∨ days = 29 ∨ days = 30 ∨ days = 31 := by
    have lower : 28 ≤ days.toNat := least
    have upper : days.toNat ≤ 31 := most
    simp only [← UInt8.toNat_inj]
    change days.toNat = 28 ∨ days.toNat = 29 ∨ days.toNat = 30 ∨ days.toNat = 31
    omega
  rcases few with rfl | rfl | rfl | rfl
  all_goals
    apply LittleEndian.forall_byte
    decide +kernel

theorem bcdHour_spec : ∀ hour, bcdHour (bcdHour hour) = bcdHour hour ∧
    (bcdHour hour = hour ↔ checkBCD hour = true ∧ bcdToDECU8 hour < 24) := by
  apply LittleEndian.forall_byte
  decide +kernel

/-- A byte of the fifties that is no number is rounded up to sixty first. -/
theorem bcdSixty_spec : ∀ byte,
    bcdSixty (bcdSixty (bcdSixty byte)) = bcdSixty (bcdSixty byte) ∧
    (bcdSixty (bcdSixty byte) = byte ↔ bcdSixty byte = byte) ∧
    (bcdSixty byte = byte ↔ checkBCD byte = true ∧ bcdToDECU8 byte < 60) := by
  apply LittleEndian.forall_byte
  decide +kernel

/-- Days of a month in packed digits. -/
theorem getDECToBCDU8_day : ∀ dec, 28 ≤ dec → dec ≤ 31 →
    bcdToDECU8 (getDECToBCDU8 dec) = dec := by
  apply LittleEndian.forall_byte
  decide +kernel

/-- The length of a month that has been put right. -/
theorem bcdMonthDays_range {year month : UInt8} (yearRight : bcdYear year = year)
    (monthRight : bcdMonth month = month) :
    28 ≤ bcdMonthDays year month ∧ bcdMonthDays year month ≤ 31 := by
  have digits := (bcdYear_spec year).2.mp yearRight
  obtain ⟨-, first, last⟩ := (bcdMonth_spec month).2.mp monthRight
  obtain ⟨years, yearLow, yearHigh⟩ := bcdToDECU8_toNat year digits
  have lower : 1 ≤ (bcdToDECU8 month).toNat := first
  have upper : (bcdToDECU8 month).toNat ≤ 12 := last
  have length := @timeMonthDays_toNat (bcdToDECU8 year) (bcdToDECU8 month) (by omega) lower
    (by omega)
  rw [UInt8.le_iff_toNat_le, UInt8.le_iff_toNat_le, bcdMonthDays, length]
  exact ⟨Gregorian.monthDays_ge _ _, Gregorian.monthDays_le _ _⟩

/-! ## The fields in a pass -/

/-- A byte at its limit, or else a rounded one, is a repair if it differs. -/
theorem ite_bcdFix {limited : Prop} [Decidable limited] {limit byte : UInt8}
    (result : UInt8 → UInt8 × Time) (differs : limited → limit ≠ byte) :
    (if limited then some (result limit)
      else if (bcdFix byte).1 then some (result (bcdFix byte).2) else none) =
      if (if limited then limit else (bcdFix byte).2) = byte then none
      else some (result (if limited then limit else (bcdFix byte).2)) := by
  by_cases beyond : limited
  · simp only [if_pos beyond, if_neg (differs beyond)]
  · simp only [if_neg beyond, bcdFix_changes, ite_not]

theorem bcdFixYear_eq (time : Time) : bcdFixYear time =
    if bcdYear time.year = time.year then none
    else some (fixBit 5, { time with year := bcdYear time.year }) := by
  apply ite_bcdFix fun year => (fixBit 5, { time with year })
  exact UInt8.ne_of_lt

theorem bcdFixHour_eq (time : Time) : bcdFixHour time =
    if bcdHour time.hour = time.hour then none
    else some (fixBit 2, { time with hour := bcdHour time.hour }) := by
  apply ite_bcdFix fun hour => (fixBit 2, { time with hour })
  exact fun beyond => UInt8.ne_of_lt (UInt8.lt_of_lt_of_le (by decide) beyond)

theorem bcdFixMinute_eq (time : Time) : bcdFixMinute time =
    if bcdSixty time.minute = time.minute then none
    else some (fixBit 1, { time with minute := bcdSixty time.minute }) := by
  apply ite_bcdFix fun minute => (fixBit 1, { time with minute })
  exact fun beyond => UInt8.ne_of_lt (UInt8.lt_of_lt_of_le (by decide) beyond)

theorem bcdFixSecond_eq (time : Time) : bcdFixSecond time =
    if bcdSixty time.second = time.second then none
    else some (fixBit 0, { time with second := bcdSixty time.second }) := by
  apply ite_bcdFix fun second => (fixBit 0, { time with second })
  exact fun beyond => UInt8.ne_of_lt (UInt8.lt_of_lt_of_le (by decide) beyond)

theorem bcdFixMonth_eq (time : Time) : bcdFixMonth time =
    if bcdMonth time.month = time.month then none
    else some (fixBit 4, { time with month := bcdMonth time.month }) := by
  unfold bcdFixMonth bcdMonth
  by_cases zero : time.month = 0
  · rw [if_pos zero, if_pos zero, zero]
    rfl
  · rw [if_neg zero, if_neg zero]
    apply ite_bcdFix fun month => (fixBit 4, { time with month })
    exact UInt8.ne_of_lt

/-- The year and the month are right then. -/
theorem bcdFixDay_eq {time : Time} (least : 28 ≤ bcdMonthDays time.year time.month)
    (most : bcdMonthDays time.year time.month ≤ 31) : bcdFixDay time =
    if bcdDay (bcdMonthDays time.year time.month) time.day = time.day then none
    else some (fixBit 3,
      { time with day := bcdDay (bcdMonthDays time.year time.month) time.day }) := by
  unfold bcdFixDay bcdDay
  by_cases zero : time.day = 0
  · rw [if_pos zero, if_pos zero, zero]
    rfl
  · rw [if_neg zero, if_neg zero]
    apply ite_bcdFix fun day => (fixBit 3, { time with day })
    rintro beyond same
    have back := getDECToBCDU8_day (bcdMonthDays time.year time.month) least most
    rw [← same, back] at beyond
    exact absurd beyond (UInt8.lt_irrefl _)

/-! ## The loop -/

/-- How far the first field that is wrong is from the end; minutes or seconds that are
rounded up to sixty take one pass more. -/
def bcdRank (time : Time) : Nat :=
  if bcdYear time.year ≠ time.year then 8
  else if bcdMonth time.month ≠ time.month then 7
  else if bcdDay (bcdMonthDays time.year time.month) time.day ≠ time.day then 6
  else if bcdHour time.hour ≠ time.hour then 5
  else if bcdSixty time.minute ≠ time.minute then
    if bcdSixty (bcdSixty time.minute) = bcdSixty time.minute then 3 else 4
  else if bcdSixty time.second ≠ time.second then
    if bcdSixty (bcdSixty time.second) = bcdSixty time.second then 1 else 2
  else 0

/-- What the repair leaves. -/
def bcdFixed (time : Time) : Time :=
  let year := bcdYear time.year
  let month := bcdMonth time.month
  { year, month
    day := bcdDay (bcdMonthDays year month) time.day
    hour := bcdHour time.hour
    minute := bcdSixty (bcdSixty time.minute)
    second := bcdSixty (bcdSixty time.second) }

/-- A pass puts the first field that is wrong to its value. -/
theorem timeBCDFixPass_eq (time : Time) : timeBCDFixPass time =
    if bcdYear time.year ≠ time.year then
      some (fixBit 5, { time with year := bcdYear time.year })
    else if bcdMonth time.month ≠ time.month then
      some (fixBit 4, { time with month := bcdMonth time.month })
    else if bcdDay (bcdMonthDays time.year time.month) time.day ≠ time.day then
      some (fixBit 3, { time with day := bcdDay (bcdMonthDays time.year time.month) time.day })
    else if bcdHour time.hour ≠ time.hour then
      some (fixBit 2, { time with hour := bcdHour time.hour })
    else if bcdSixty time.minute ≠ time.minute then
      some (fixBit 1, { time with minute := bcdSixty time.minute })
    else if bcdSixty time.second ≠ time.second then
      some (fixBit 0, { time with second := bcdSixty time.second })
    else none := by
  rw [timeBCDFixPass, bcdFixYear_eq, bcdFixMonth_eq, bcdFixHour_eq, bcdFixMinute_eq,
    bcdFixSecond_eq]
  by_cases year : bcdYear time.year = time.year
  · by_cases month : bcdMonth time.month = time.month
    · obtain ⟨least, most⟩ := bcdMonthDays_range year month
      rw [bcdFixDay_eq least most]
      simp only [year, month, ite_not, if_true, Option.none_or]
      split_ifs <;> rfl
    · simp [year, month]
  · simp [year]

/-- What one pass does: it puts the first field that is wrong to its value. -/
inductive BcdFixPass (time : Time) : Option (UInt8 × Time) → Prop
  | year (wrong : bcdYear time.year ≠ time.year) :
      BcdFixPass time (some (fixBit 5, { time with year := bcdYear time.year }))
  | month (year : bcdYear time.year = time.year) (wrong : bcdMonth time.month ≠ time.month) :
      BcdFixPass time (some (fixBit 4, { time with month := bcdMonth time.month }))
  | day (year : bcdYear time.year = time.year) (month : bcdMonth time.month = time.month)
      (wrong : bcdDay (bcdMonthDays time.year time.month) time.day ≠ time.day) :
      BcdFixPass time (some (fixBit 3,
        { time with day := bcdDay (bcdMonthDays time.year time.month) time.day }))
  | hour (year : bcdYear time.year = time.year) (month : bcdMonth time.month = time.month)
      (day : bcdDay (bcdMonthDays time.year time.month) time.day = time.day)
      (wrong : bcdHour time.hour ≠ time.hour) :
      BcdFixPass time (some (fixBit 2, { time with hour := bcdHour time.hour }))
  | minute (year : bcdYear time.year = time.year) (month : bcdMonth time.month = time.month)
      (day : bcdDay (bcdMonthDays time.year time.month) time.day = time.day)
      (hour : bcdHour time.hour = time.hour) (wrong : bcdSixty time.minute ≠ time.minute) :
      BcdFixPass time (some (fixBit 1, { time with minute := bcdSixty time.minute }))
  | second (year : bcdYear time.year = time.year) (month : bcdMonth time.month = time.month)
      (day : bcdDay (bcdMonthDays time.year time.month) time.day = time.day)
      (hour : bcdHour time.hour = time.hour) (minute : bcdSixty time.minute = time.minute)
      (wrong : bcdSixty time.second ≠ time.second) :
      BcdFixPass time (some (fixBit 0, { time with second := bcdSixty time.second }))
  | right (year : bcdYear time.year = time.year) (month : bcdMonth time.month = time.month)
      (day : bcdDay (bcdMonthDays time.year time.month) time.day = time.day)
      (hour : bcdHour time.hour = time.hour) (minute : bcdSixty time.minute = time.minute)
      (second : bcdSixty time.second = time.second) : BcdFixPass time none

theorem timeBCDFixPass_cases (time : Time) : BcdFixPass time (timeBCDFixPass time) := by
  rw [timeBCDFixPass_eq]
  by_cases year : bcdYear time.year = time.year
  case neg =>
    rw [if_pos year]
    exact .year year
  rw [if_neg (not_not.mpr year)]
  by_cases month : bcdMonth time.month = time.month
  case neg =>
    rw [if_pos month]
    exact .month year month
  rw [if_neg (not_not.mpr month)]
  by_cases day : bcdDay (bcdMonthDays time.year time.month) time.day = time.day
  case neg =>
    rw [if_pos day]
    exact .day year month day
  rw [if_neg (not_not.mpr day)]
  by_cases hour : bcdHour time.hour = time.hour
  case neg =>
    rw [if_pos hour]
    exact .hour year month day hour
  rw [if_neg (not_not.mpr hour)]
  by_cases minute : bcdSixty time.minute = time.minute
  case neg =>
    rw [if_pos minute]
    exact .minute year month day hour minute
  rw [if_neg (not_not.mpr minute)]
  by_cases second : bcdSixty time.second = time.second
  case neg =>
    rw [if_pos second]
    exact .second year month day hour minute second
  rw [if_neg (not_not.mpr second)]
  exact .right year month day hour minute second

theorem bcdRank_pass {time next : Time} {mark : UInt8}
    (wrong : timeBCDFixPass time = some (mark, next)) : bcdRank next < bcdRank time := by
  have days := @bcdMonthDays_range time.year time.month
  have day := @bcdDay_spec (bcdMonthDays time.year time.month)
  have minute := bcdSixty_spec time.minute
  have second := bcdSixty_spec time.second
  cases wrong ▸ timeBCDFixPass_cases time <;>
    simp only [bcdRank, bcdYear_spec, bcdMonth_spec, bcdHour_spec] <;> grind

/-- The loop of `TimeBCDFix`. -/
def bcdFixLoop : RepairLoop Time := ⟨timeBCDFixPass, bcdRank, bcdRank_pass⟩

/-- The bits returned and the time left. -/
def timeBCDFix (time : Time) : UInt8 × Time := bcdFixLoop.run 0 time

theorem bcdFixed_pass {time next : Time} {mark : UInt8}
    (wrong : timeBCDFixPass time = some (mark, next)) : bcdFixed next = bcdFixed time := by
  have days := @bcdMonthDays_range time.year time.month
  have day := @bcdDay_spec (bcdMonthDays time.year time.month)
  have year := bcdYear_spec time.year
  have month := bcdMonth_spec time.month
  have hour := bcdHour_spec time.hour
  have minute := bcdSixty_spec time.minute
  have second := bcdSixty_spec time.second
  cases wrong ▸ timeBCDFixPass_cases time <;> simp only [bcdFixed] <;> grind

theorem changes_bcdFixed_pass {time next : Time} {mark : UInt8}
    (wrong : timeBCDFixPass time = some (mark, next)) :
    changes time (bcdFixed time) = mark ||| changes next (bcdFixed next) := by
  have days := @bcdMonthDays_range time.year time.month
  have day := @bcdDay_spec (bcdMonthDays time.year time.month)
  have minute := bcdSixty_spec time.minute
  have second := bcdSixty_spec time.second
  rw [bcdFixed_pass wrong]
  -- The field of the mark ends in another value, the others are those of the next time.
  cases wrong ▸ timeBCDFixPass_cases time <;> simp only [changes, fixBits_or] <;>
    congr 1 <;> simp only [bcdFixed] <;> grind

theorem bcdFixed_of_right {time : Time} (right : timeBCDFixPass time = none) :
    bcdFixed time = time := by
  cases right ▸ timeBCDFixPass_cases time
  ext1 <;> simp only [bcdFixed] <;> grind

theorem timeBCDFix_eq (time : Time) :
    timeBCDFix time = (changes time (bcdFixed time), bcdFixed time) := by
  have closed := @RepairLoop.run_eq Time bcdFixLoop bcdFixed
    (fun time => changes time (bcdFixed time))
    (fun time right => ⟨bcdFixed_of_right right, by rw [bcdFixed_of_right right, changes_self]⟩)
    (fun _ _ _ wrong => ⟨bcdFixed_pass wrong, changes_bcdFixed_pass wrong⟩) 0 time
  rw [timeBCDFix, closed, UInt8.zero_or]

theorem timeBCDCheck_eq (time : Time) : timeBCDCheck time =
    (memBCDCheck time.bytes && timeDECCheck (time.mapBytes bcdToDECU8)) := by
  rw [timeBCDCheck]
  cases digits : memBCDCheck time.bytes with
  | false => rw [timeBCDToDEC_of_not_digits digits, Bool.false_and]
  | true => rw [timeBCDToDEC_of_digits digits, Bool.true_and]

theorem bcdToDECU8_le : ∀ bcd, checkBCD bcd = true → bcdToDECU8 bcd ≤ 99 := by
  apply LittleEndian.forall_byte
  decide +kernel

theorem timeBCDFixPass_eq_none {time : Time} :
    timeBCDFixPass time = none ↔ timeBCDCheck time = true := by
  have days := @bcdMonthDays_range time.year time.month
  have day := @bcdDay_spec (bcdMonthDays time.year time.month)
  have century := bcdToDECU8_le time.year
  have year := (bcdYear_spec time.year).2
  have month := (bcdMonth_spec time.month).2
  have hour := (bcdHour_spec time.hour).2
  have minute := (bcdSixty_spec time.minute).2.2
  have second := (bcdSixty_spec time.second).2.2
  have length : timeMonthDays (bcdToDECU8 time.year) (bcdToDECU8 time.month) =
      bcdMonthDays time.year time.month := rfl
  have passed := timeBCDFixPass_cases time
  rw [timeBCDCheck_eq]
  simp only [memBCDCheck, Time.bytes, List.all_cons, List.all_nil, Bool.and_true, timeDECCheck,
    Time.mapBytes, Bool.and_eq_true, decide_eq_true_eq, length]
  constructor
  · intro right
    cases right ▸ passed
    grind
  · intro valid
    generalize timeBCDFixPass time = after at passed
    cases passed <;> grind

/-! ## Both repairs -/

/-- The fields of a time, with the bits they have in the set that a repair returns. -/
inductive TimeField
  | year
  | month
  | day
  | hour
  | minute
  | second
  deriving DecidableEq, Repr

def TimeField.pos : TimeField → UInt8
  | year => 5
  | month => 4
  | day => 3
  | hour => 2
  | minute => 1
  | second => 0

def TimeField.get : TimeField → Time → UInt8
  | year => Time.year
  | month => Time.month
  | day => Time.day
  | hour => Time.hour
  | minute => Time.minute
  | second => Time.second

/-- The set has the bits of the fields told, and no others. -/
theorem fixBits_bits (year month day hour minute second : Bool) :
    (fixBits year month day hour minute second &&& fixBit 5 ≠ 0 ↔ year = true) ∧
    (fixBits year month day hour minute second &&& fixBit 4 ≠ 0 ↔ month = true) ∧
    (fixBits year month day hour minute second &&& fixBit 3 ≠ 0 ↔ day = true) ∧
    (fixBits year month day hour minute second &&& fixBit 2 ≠ 0 ↔ hour = true) ∧
    (fixBits year month day hour minute second &&& fixBit 1 ≠ 0 ↔ minute = true) ∧
    (fixBits year month day hour minute second &&& fixBit 0 ≠ 0 ↔ second = true) ∧
    fixBits year month day hour minute second < fixBit 6 := by
  revert year month day hour minute second
  decide

/-- The bit of a field tells whether it differs. -/
theorem changes_bit (before after : Time) (field : TimeField) :
    changes before after &&& fixBit field.pos ≠ 0 ↔ field.get before ≠ field.get after := by
  have bits := fixBits_bits (before.year != after.year) (before.month != after.month)
    (before.day != after.day) (before.hour != after.hour) (before.minute != after.minute)
    (before.second != after.second)
  simp only [bne_iff_ne] at bits
  obtain ⟨year, month, day, hour, minute, second, -⟩ := bits
  cases field with
  | year => exact year
  | month => exact month
  | day => exact day
  | hour => exact hour
  | minute => exact minute
  | second => exact second

theorem changes_eq_zero {before after : Time} : changes before after = 0 ↔ after = before := by
  constructor
  · intro none
    have same (field : TimeField) : field.get before = field.get after := by
      by_contra differs
      apply (changes_bit before after field).mpr differs
      rw [none, UInt8.zero_and]
    exact Time.ext (same .year).symm (same .month).symm (same .day).symm (same .hour).symm
      (same .minute).symm (same .second).symm
  · rintro rfl
    exact changes_self after

/-- What a repair is to do on every six bytes: end with a valid time, and tell by the bits
returned what it has changed. -/
structure Repairs (fix : Time → UInt8 × Time) (check : Time → Bool) : Prop where
  right : ∀ time, check (fix time).2 = true
  none_iff : ∀ time, (fix time).1 = 0 ↔ check time = true
  same_iff : ∀ time, (fix time).2 = time ↔ check time = true
  bit_iff : ∀ time (field : TimeField),
    (fix time).1 &&& fixBit field.pos ≠ 0 ↔ field.get (fix time).2 ≠ field.get time
  no_more : ∀ time, (fix time).1 < fixBit 6
  again : ∀ time, fix (fix time).2 = (0, (fix time).2)

/-- A loop that returns what it has changed repairs. -/
theorem repairs_of_closed (loop : RepairLoop Time) {check : Time → Bool} {fixed : Time → Time}
    (none_iff : ∀ time, loop.pass time = none ↔ check time = true)
    (closed : ∀ time, loop.run 0 time = (changes time (fixed time), fixed time)) :
    Repairs (loop.run 0) check := by
  have kept {time : Time} : fixed time = time ↔ check time = true := by
    constructor
    · intro same
      have right := loop.pass_run 0 time
      rw [closed, same] at right
      exact (none_iff time).mp right
    · intro valid
      have same := @RepairLoop.run_none Time loop 0 time ((none_iff time).mpr valid)
      rw [closed] at same
      exact (Prod.mk.inj same).2
  constructor
  · intro time
    exact (none_iff _).mp (loop.pass_run 0 time)
  · intro time
    rw [closed]
    exact changes_eq_zero.trans kept
  · intro time
    rw [closed]
    exact kept
  · intro time field
    rw [closed]
    exact (changes_bit time (fixed time) field).trans ne_comm
  · intro time
    rw [closed]
    exact (fixBits_bits _ _ _ _ _ _).2.2.2.2.2.2
  · intro time
    exact loop.run_run 0 0 time

theorem decRank_lt (time : Time) : decRank time < 7 := by
  unfold decRank
  split_ifs <;> decide

theorem bcdRank_lt (time : Time) : bcdRank time < 9 := by
  unfold bcdRank
  split_ifs <;> decide

/-- The loops end after seven and nine looks at the time at most, and repair it. -/
theorem time_repairs :
    (∀ time, decFixLoop.runWithin 7 0 time = some (timeDECFix time)) ∧
    Repairs timeDECFix timeDECCheck ∧
    (∀ time, bcdFixLoop.runWithin 9 0 time = some (timeBCDFix time)) ∧
    Repairs timeBCDFix timeBCDCheck :=
  ⟨fun time => RepairLoop.runWithin_eq (decRank_lt time),
    repairs_of_closed decFixLoop (fun _ => timeDECFixPass_eq_none) timeDECFix_eq,
    fun time => RepairLoop.runWithin_eq (bcdRank_lt time),
    repairs_of_closed bcdFixLoop (fun _ => timeBCDFixPass_eq_none) timeBCDFix_eq⟩

end LedFirmware
