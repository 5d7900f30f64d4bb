import LedFirmware.TimeBcd

/-!
# What a failure leaves behind

A function on a time in packed digits converts it in place before it can fail.  Which of
the failures leave the time as it was is told by its bytes alone.
-/

namespace LedFirmware

open Gregorian

/-- The functions that move a time, in both kinds of numbers. -/
inductive TimeMove
  | addYear
  | addMonth
  | addDay
  | addHour
  | addMinute
  | addSecond
  | subYear
  | subMonth
  | subDay
  | subHour
  | subMinute
  | subSecond
  deriving DecidableEq, Repr

namespace TimeMove

def dec : TimeMove → Time → UInt32 → Bool × Time
  | addYear => timeDECAddYear
  | addMonth => timeDECAddMonth
  | addDay => timeDECAddDay
  | addHour => timeDECAddHour
  | addMinute => timeDECAddMinute
  | addSecond => timeDECAddSecond
  | subYear => timeDECSubYear
  | subMonth => timeDECSubMonth
  | subDay => timeDECSubDay
  | subHour => timeDECSubHour
  | subMinute => timeDECSubMinute
  | subSecond => timeDECSubSecond

def bcd : TimeMove → Time → UInt32 → Bool × Time
  | addYear => timeBCDAddYear
  | addMonth => timeBCDAddMonth
  | addDay => timeBCDAddDay
  | addHour => timeBCDAddHour
  | addMinute => timeBCDAddMinute
  | addSecond => timeBCDAddSecond
  | subYear => timeBCDSubYear
  | subMonth => timeBCDSubMonth
  | subDay => timeBCDSubDay
  | subHour => timeBCDSubHour
  | subMinute => timeBCDSubMinute
  | subSecond => timeBCDSubSecond

theorem bcd_eq (move : TimeMove) : move.bcd = timeBCDBy move.dec := by
  cases move <;> rfl

/-- A valid time is moved to a valid one: the sum of the days is not zero in 32 bits, and
that of the months neither or put right with a late day, and a move into another year
finds the day in the target month of the year it comes from. -/
def Safe (time : Time) (value : UInt32) : TimeMove → Prop
  | addMonth =>
      (12 < (value.toNat + time.month.toNat) % 2 ^ 32 →
        time.day.toNat ≤ monthDays (2000 + time.year.toNat)
          (((value.toNat + time.month.toNat) % 2 ^ 32 - 1) % 12 + 1)) ∧
      ((value.toNat + time.month.toNat) % 2 ^ 32 = 0 → 28 < time.day.toNat)
  | addDay => (value.toNat + time.day.toNat) % 2 ^ 32 ≠ 0
  | _ => True

variable {time next : Time} {value : UInt32}

/-- Whatever has been set, a late day has it put right, and an early one leaves it. -/
theorem fixLateDay_late (late : 28 < time.day.toNat) : (fixLateDay time).Valid := by
  have behind : time.day > 28 := late
  rw [fixLateDay, if_pos behind]
  exact timeDECCheck_iff.mp (timeDECFix_check time)

theorem fixLateDay_early (early : time.day.toNat ≤ 28) : fixLateDay time = time :=
  if_neg (Nat.not_lt.mpr early)

theorem subMonth_valid (valid : time.Valid) (value : UInt32) :
    ∃ next, timeDECSubMonth time value = (true, next) ∧ next.Valid := by
  have century := valid.year
  have monthPos := valid.month_pos
  have monthLe := valid.month_le
  have dayPos := valid.day_pos
  by_cases within : value.toNat < time.month.toNat
  · obtain ⟨next, taken, lands⟩ := timeDECSubMonth_within valid within
    exact ⟨next, taken, lands.valid valid century (by omega) (by omega)⟩
  · obtain ⟨next, taken, year, month, day, hour, minute, second⟩ :=
      timeDECSubMonth_across valid (Nat.le_of_not_lt within) rfl rfl
    have target := monthDays_ge (2000 + next.year.toNat) next.month.toNat
    have source := monthDays_ge (2000 + next.year.toNat) time.month.toNat
    rw [← year, ← month] at day
    refine ⟨next, taken, by omega, by omega, by omega, by omega, by omega, ?_, ?_, ?_⟩
    · rw [hour]
      exact valid.hour
    · rw [minute]
      exact valid.minute
    · rw [second]
      exact valid.second

theorem addMonth_valid (valid : time.Valid) (safe : addMonth.Safe time value) :
    ∃ next, timeDECAddMonth time value = (true, next) ∧ next.Valid := by
  obtain ⟨has, late⟩ := safe
  by_cases across : 12 < (value.toNat + time.month.toNat) % 2 ^ 32
  · obtain ⟨next, added, lands⟩ :=
      (@timeDECAddMonth_across time value valid _ rfl across).1 (has across)
    exact ⟨next, added, lands.valid valid (Nat.mod_lt _ (by decide)) (by omega) (by omega)⟩
  · by_cases zero : (value.toNat + time.month.toNat) % 2 ^ 32 = 0
    · obtain ⟨month, -, added⟩ := timeDECAddMonth_within valid zero (by decide)
      exact ⟨_, added, @fixLateDay_late { time with month } (late zero)⟩
    · obtain ⟨next, added, lands⟩ :=
        @timeDECAddMonth_within_lands time value valid _ rfl (by omega) (by omega)
      exact ⟨next, added, lands.valid valid valid.year (by omega) (by omega)⟩

/-- A safe move succeeds. -/
theorem dec_of_safe (move : TimeMove) (valid : time.Valid) (safe : move.Safe time value) :
    ∃ next, move.dec time value = (true, next) ∧ next.Valid := by
  have ofMoves {Kept Counted : Time → Prop} {result : Bool × Time}
      (moved : ∃ next, result = (true, next) ∧ next.Valid ∧ Kept next ∧ Counted next) :
      ∃ next, result = (true, next) ∧ next.Valid :=
    moved.imp fun _ facts => ⟨facts.1, facts.2.1⟩
  cases move with
  | addYear =>
      obtain ⟨next, added, lands⟩ := timeDECAddYear_lands valid value
      exact ⟨next, added, lands.valid valid (Nat.mod_lt _ (by decide)) valid.month_pos
        valid.month_le⟩
  | addMonth => exact addMonth_valid valid safe
  | addDay => exact ofMoves (timeDECAddDay_moves valid (Nat.one_le_iff_ne_zero.mpr safe))
  | addHour => exact ofMoves (timeDECAddTo_moves hour_wheel timeDECAddDay_adds time value valid)
  | addMinute =>
      exact ofMoves (timeDECAddTo_moves minute_wheel timeDECAddHour_adds time value valid)
  | addSecond =>
      exact ofMoves (timeDECAddTo_moves second_wheel timeDECAddMinute_adds time value valid)
  | subYear =>
      obtain ⟨next, taken, lands⟩ := timeDECSubYear_lands valid value
      exact ⟨next, taken, lands.valid valid (Nat.mod_lt _ (by decide)) valid.month_pos
        valid.month_le⟩
  | subMonth => exact subMonth_valid valid value
  | subDay => exact ofMoves (timeDECSubDay_subtracts time value valid)
  | subHour => exact ofMoves (timeDECSubHour_subtracts time value valid)
  | subMinute => exact ofMoves (timeDECSubMinute_subtracts time value valid)
  | subSecond => exact ofMoves (timeDECSubSecond_subtracts time value valid)

theorem addMonth_not_valid (valid : time.Valid) (risky : ¬ addMonth.Safe time value) :
    ∃ done next, timeDECAddMonth time value = (done, next) ∧ (done = true → ¬ next.Valid) ∧
      (next.day = time.day ∧ 28 < time.day.toNat ∨ next.month = 0) := by
  by_cases across : 12 < (value.toNat + time.month.toNat) % 2 ^ 32
  · have short : ¬ time.day.toNat ≤ monthDays (2000 + time.year.toNat)
        (((value.toNat + time.month.toNat) % 2 ^ 32 - 1) % 12 + 1) := fun has =>
      risky ⟨fun _ => has, fun zero => by omega⟩
    obtain ⟨next, failed, day⟩ := (@timeDECAddMonth_across time value valid _ rfl across).2 short
    have days := monthDays_ge (2000 + time.year.toNat)
      (((value.toNat + time.month.toNat) % 2 ^ 32 - 1) % 12 + 1)
    exact ⟨false, next, failed, fun done => absurd done (by decide), Or.inl ⟨day, by omega⟩⟩
  · have zero : (value.toNat + time.month.toNat) % 2 ^ 32 = 0 := by
      by_contra positive
      exact risky ⟨fun more => absurd more across, fun zero => absurd zero positive⟩
    have early : time.day.toNat ≤ 28 := Nat.le_of_not_lt fun late =>
      risky ⟨fun more => absurd more across, fun _ => late⟩
    obtain ⟨month, isMonth, added⟩ := timeDECAddMonth_within valid zero (by decide)
    rw [@fixLateDay_early { time with month } early] at added
    refine ⟨true, _, added, ?_, Or.inr (UInt8.toNat_inj.mp isMonth)⟩
    intro _ moved
    have monthPos := moved.month_pos
    exact absurd (isMonth.symm.trans_ge monthPos) (by decide)

/-- The sum of the days is zero: the loop is not entered, and the day becomes the sum. -/
theorem addDay_not_valid (valid : time.Valid) (risky : ¬ addDay.Safe time value) :
    timeDECAddDay time value = (true, { time with day := 0 }) := by
  have zero : (value.toNat + time.day.toNat) % 2 ^ 32 = 0 := not_not.mp risky
  have sum : value + time.day.toUInt32 = 0 := by
    rw [← UInt32.toNat_inj, toNat_value_add_byte, zero]
    rfl
  rw [timeDECAddDay, if_neg valid.checked, sum, timeDECAddDays]
  exact if_neg (Nat.not_lt_zero _)

/-- A move that is not safe fails, or leaves a time that is not valid; it keeps a late day
then, or leaves a month or a day of zero. -/
theorem dec_of_not_safe (move : TimeMove) (valid : time.Valid)
    (risky : ¬ move.Safe time value) : ∃ done next, move.dec time value = (done, next) ∧
      (done = true → ¬ next.Valid) ∧
      (next.day = time.day ∧ 28 < time.day.toNat ∨ next.month = 0 ∨ next.day = 0) := by
  cases move with
  | addMonth =>
      obtain ⟨done, next, moved, invalid, late | zero⟩ := addMonth_not_valid valid risky
      · exact ⟨done, next, moved, invalid, Or.inl late⟩
      · exact ⟨done, next, moved, invalid, Or.inr (Or.inl zero)⟩
  | addDay =>
      refine ⟨true, _, addDay_not_valid valid risky, ?_, Or.inr (Or.inr rfl)⟩
      intro _ moved
      exact absurd moved.day_pos (Nat.not_succ_le_zero 0)
  | _ => exact absurd trivial risky

end TimeMove

/-! ## Times in packed digits -/

/-- The functions on a time in packed digits that can fail. -/
inductive BcdFunction
  | toDEC
  | moveBy (move : TimeMove)
  deriving DecidableEq, Repr

namespace BcdFunction

def run : BcdFunction → Time → UInt32 → Bool × Time
  | toDEC => fun time _ => timeBCDToDEC time
  | moveBy move => move.bcd

/-- A failure leaves the time unchanged. -/
def FailsClean (function : BcdFunction) (time : Time) (value : UInt32) : Prop :=
  (function.run time value).1 = false → (function.run time value).2 = time

/-- What a function asks for, given a time of valid digits. -/
def Asks (time : Time) (value : UInt32) : BcdFunction → Prop
  | toDEC => True
  | moveBy move => move.Safe time value

variable {time next : Time} {value : UInt32}

/-- The digits are wrong: nothing is converted. -/
theorem run_of_not_digits (function : BcdFunction) (wrong : memBCDCheck time.bytes = false) :
    function.run time value = (false, time) := by
  have stays := timeBCDToDEC_of_not_digits wrong
  cases function with
  | toDEC => exact stays
  | moveBy move =>
      simp only [run, TimeMove.bcd_eq, timeBCDBy]
      rw [stays]

/-- The date is wrong: the digits have been converted. -/
theorem run_of_not_valid (function : BcdFunction) (digits : memBCDCheck time.bytes = true)
    (invalid : timeDECCheck (time.mapBytes bcdToDECU8) = false) :
    function.run time value = (false, time.mapBytes bcdToDECU8) := by
  have converted := timeBCDToDEC_of_digits digits
  rw [invalid] at converted
  cases function with
  | toDEC => exact converted
  | moveBy move =>
      simp only [run, TimeMove.bcd_eq, timeBCDBy]
      rw [converted]

/-- The conversion only keeps bytes of one digit. -/
theorem mapBytes_eq_self (digits : memBCDCheck time.bytes = true) :
    time.mapBytes bcdToDECU8 = time ↔ ∀ byte ∈ time.bytes, byte ≤ 9 := by
  have each := List.all_eq_true.mp digits
  constructor
  · intro same byte inside
    have bytes : time.bytes.map bcdToDECU8 = time.bytes := congrArg Time.bytes same
    have kept := List.map_eq_map_iff.mp (bytes.trans (List.map_id _).symm) byte inside
    exact (bcdToDECU8_eq_self (each byte inside)).mp kept
  · intro single
    apply Time.ext_bytes
    have kept : ∀ byte ∈ time.bytes, bcdToDECU8 byte = id byte := fun byte inside =>
      (bcdToDECU8_eq_self (each byte inside)).mpr (single byte inside)
    exact (List.map_congr_left kept).trans (List.map_id _)

/-- The time is valid, and the function is asked for what it can do. -/
theorem done_of_asks (function : BcdFunction) (digits : memBCDCheck time.bytes = true)
    (valid : timeDECCheck (time.mapBytes bcdToDECU8) = true)
    (asks : function.Asks (time.mapBytes bcdToDECU8) value) :
    (function.run time value).1 = true := by
  have converted := timeBCDToDEC_of_digits digits
  rw [valid] at converted
  cases function with
  | toDEC => exact congrArg Prod.fst converted
  | moveBy move =>
      obtain ⟨next, moved, arrived⟩ := move.dec_of_safe (timeDECCheck_iff.mp valid) asks
      simp only [run, TimeMove.bcd_eq, timeBCDBy]
      rw [converted]
      dsimp only
      rw [moved]
      dsimp only
      rw [timeDECToBCD_of_valid arrived]

/-- Otherwise the decimal time is left, with another day or month. -/
theorem changed_of_not_asks (function : BcdFunction) (digits : memBCDCheck time.bytes = true)
    (valid : timeDECCheck (time.mapBytes bcdToDECU8) = true)
    (risky : ¬ function.Asks (time.mapBytes bcdToDECU8) value) :
    ¬ function.FailsClean time value := by
  have converted := timeBCDToDEC_of_digits digits
  rw [valid] at converted
  have numbers := timeDECCheck_iff.mp valid
  have each := List.all_eq_true.mp digits
  cases function with
  | toDEC => exact absurd trivial risky
  | moveBy move =>
      obtain ⟨done, next, moved, invalid, changed⟩ := move.dec_of_not_safe numbers risky
      have left : run (.moveBy move) time value = (false, next) := by
        simp only [run, TimeMove.bcd_eq, timeBCDBy]
        rw [converted]
        dsimp only
        rw [moved]
        cases done with
        | false => rfl
        | true => exact timeDECToBCD_of_not_valid (invalid rfl)
      intro clean
      have same : next = time := by
        rw [FailsClean, left] at clean
        exact clean rfl
      subst same
      rcases changed with ⟨kept, late⟩ | zero | zero
      · have single := (bcdToDECU8_eq_self (each next.day (by simp [Time.bytes]))).mp kept.symm
        have few : next.day.toNat ≤ 9 := single
        rw [← kept] at late
        omega
      · have month := numbers.month_pos
        simp only [Time.mapBytes, zero] at month
        exact absurd month (by decide)
      · have day := numbers.day_pos
        simp only [Time.mapBytes, zero] at day
        exact absurd day (by decide)

end BcdFunction

/-- A failure leaves the time unchanged if and only if its digits are wrong, or its date is
wrong and it has no number of two digits, or the decimal function can do what it is asked
for. -/
theorem bcd_fails_clean_iff (function : BcdFunction) (time : Time) (value : UInt32) :
    function.FailsClean time value ↔ (memBCDCheck time.bytes = true →
      (timeDECCheck (time.mapBytes bcdToDECU8) = true →
        function.Asks (time.mapBytes bcdToDECU8) value) ∧
      (timeDECCheck (time.mapBytes bcdToDECU8) = false → ∀ byte ∈ time.bytes, byte ≤ 9)) := by
  cases digits : memBCDCheck time.bytes with
  | false =>
      have stays := @BcdFunction.run_of_not_digits time value function digits
      simp [BcdFunction.FailsClean, stays]
  | true =>
      cases valid : timeDECCheck (time.mapBytes bcdToDECU8) with
      | false =>
          have left := @BcdFunction.run_of_not_valid time value function digits valid
          simp [BcdFunction.FailsClean, left, BcdFunction.mapBytes_eq_self digits]
      | true =>
          have asked : function.FailsClean time value ↔
              function.Asks (time.mapBytes bcdToDECU8) value := by
            constructor
            · intro clean
              by_contra risky
              exact function.changed_of_not_asks digits valid risky clean
            · intro asks failed
              exact absurd (function.done_of_asks digits valid asks) (by simp [failed])
          simp [asked]

/-- The thirteenth month in digits, and the 31st of January with thirteen months more. -/
theorem bcd_failure_changes :
    timeBCDToDEC ⟨0x24, 0x13, 0x01, 0, 0, 0⟩ = (false, ⟨24, 13, 1, 0, 0, 0⟩) ∧
    timeBCDAddMonth ⟨0x20, 0x01, 0x31, 0, 0, 0⟩ 13 = (false, ⟨20, 2, 31, 0, 0, 0⟩) ∧
    ¬ BcdFunction.FailsClean .toDEC ⟨0x24, 0x13, 0x01, 0, 0, 0⟩ 0 ∧
    ¬ BcdFunction.FailsClean (.moveBy .addMonth) ⟨0x20, 0x01, 0x31, 0, 0, 0⟩ 13 := by
  have converted : timeBCDToDEC ⟨0x24, 0x13, 0x01, 0, 0, 0⟩ = (false, ⟨24, 13, 1, 0, 0, 0⟩) := rfl
  have added : timeBCDAddMonth ⟨0x20, 0x01, 0x31, 0, 0, 0⟩ 13 = (false, ⟨20, 2, 31, 0, 0, 0⟩) := rfl
  refine ⟨converted, added, ?_, ?_⟩
  · intro clean
    exact absurd (clean rfl) (by decide)
  · intro clean
    exact absurd (clean rfl) (by decide)

end LedFirmware
