import LedFirmware.TimeSeconds

/-!
# Times in packed decimal digits

The two digits of a number are the two halves of its byte.  A function on such a time
converts it in place, does its work on the decimal time, and converts it back.
-/

namespace LedFirmware

def checkBCD (bcd : UInt8) : Bool := ((bcd >>> 4) &&& 0x0F) < 10 && (bcd &&& 0x0F) < 10

def checkDECToBCD (dec : UInt8) : Bool := dec ≤ 99

def memBCDCheck (src : List UInt8) : Bool := src.all checkBCD

def bcdToDECU8 (bcd : UInt8) : UInt8 := ((bcd >>> 4) &&& 0x0F) * 10 + (bcd &&& 0x0F)

def decToBCDU8 (dec : UInt8) : UInt8 :=
  let quotient := dec / 10 % 10
  (quotient <<< 4) + dec - 10 * quotient

/-- A loop over the six bytes. -/
def Time.mapBytes (convert : UInt8 → UInt8) (time : Time) : Time :=
  ⟨convert time.year, convert time.month, convert time.day, convert time.hour,
    convert time.minute, convert time.second⟩

def timeBCDToDEC (time : Time) : Bool × Time :=
  if memBCDCheck time.bytes = false then (false, time)
  else
    let time := time.mapBytes bcdToDECU8
    if timeDECCheck time = false then (false, time) else (true, time)

def timeDECToBCD (time : Time) : Bool × Time :=
  if time.bytes.all checkDECToBCD = false then (false, time)
  else if timeDECCheck time = false then (false, time)
  else (true, time.mapBytes decToBCDU8)

def timeBCDCheck (time : Time) : Bool := (timeBCDToDEC time).1

/-- Do the work of a function on the decimal time. -/
def timeBCDBy (work : Time → UInt32 → Bool × Time) (time : Time) (value : UInt32) :
    Bool × Time :=
  match timeBCDToDEC time with
  | (false, time) => (false, time)
  | (true, time) =>
      match work time value with
      | (false, time) => (false, time)
      | (true, time) => timeDECToBCD time

def timeBCDAddYear : Time → UInt32 → Bool × Time := timeBCDBy timeDECAddYear

def timeBCDAddMonth : Time → UInt32 → Bool × Time := timeBCDBy timeDECAddMonth

def timeBCDAddDay : Time → UInt32 → Bool × Time := timeBCDBy timeDECAddDay

def timeBCDAddHour : Time → UInt32 → Bool × Time := timeBCDBy timeDECAddHour

def timeBCDAddMinute : Time → UInt32 → Bool × Time := timeBCDBy timeDECAddMinute

def timeBCDAddSecond : Time → UInt32 → Bool × Time := timeBCDBy timeDECAddSecond

def timeBCDSubYear : Time → UInt32 → Bool × Time := timeBCDBy timeDECSubYear

def timeBCDSubMonth : Time → UInt32 → Bool × Time := timeBCDBy timeDECSubMonth

def timeBCDSubDay : Time → UInt32 → Bool × Time := timeBCDBy timeDECSubDay

def timeBCDSubHour : Time → UInt32 → Bool × Time := timeBCDBy timeDECSubHour

def timeBCDSubMinute : Time → UInt32 → Bool × Time := timeBCDBy timeDECSubMinute

def timeBCDSubSecond : Time → UInt32 → Bool × Time := timeBCDBy timeDECSubSecond

/-! ## The digits of a byte -/

/-- Both halves of a byte are decimal digits. -/
def DecimalByte (byte : UInt8) : Prop := byte.toNat / 16 ≤ 9 ∧ byte.toNat % 16 ≤ 9

instance (byte : UInt8) : Decidable (DecimalByte byte) := inferInstanceAs (Decidable (_ ∧ _))

theorem checkBCD_iff (byte : UInt8) : checkBCD byte = true ↔ DecimalByte byte := by
  revert byte
  apply LittleEndian.forall_byte
  decide +kernel

theorem bcdToDECU8_toNat : ∀ bcd, checkBCD bcd = true →
    (bcdToDECU8 bcd).toNat = bcd.toNat / 16 * 10 + bcd.toNat % 16 ∧ bcd.toNat % 16 < 10 ∧
      bcd.toNat / 16 < 10 := by
  apply LittleEndian.forall_byte
  decide +kernel

/-- The digits of a byte are those of its number. -/
theorem decToBCDU8_bcdToDECU8 : ∀ bcd, checkBCD bcd = true →
    decToBCDU8 (bcdToDECU8 bcd) = bcd := by
  apply LittleEndian.forall_byte
  decide +kernel

theorem bcdToDECU8_decToBCDU8 : ∀ dec, checkDECToBCD dec = true →
    checkBCD (decToBCDU8 dec) = true ∧ bcdToDECU8 (decToBCDU8 dec) = dec := by
  apply LittleEndian.forall_byte
  decide +kernel

/-- Only a single digit is its own number. -/
theorem bcdToDECU8_eq_self {bcd : UInt8} (digits : checkBCD bcd = true) :
    bcdToDECU8 bcd = bcd ↔ bcd ≤ 9 := by
  obtain ⟨number, low, high⟩ := bcdToDECU8_toNat bcd digits
  rw [← UInt8.toNat_inj, number, UInt8.le_iff_toNat_le]
  change _ ↔ bcd.toNat ≤ 9
  omega

/-! ## The digits of a time -/

variable {time next : Time} {value : UInt32} {work : Time → UInt32 → Bool × Time}

@[simp]
theorem Time.bytes_mapBytes (convert : UInt8 → UInt8) (time : Time) :
    (time.mapBytes convert).bytes = time.bytes.map convert :=
  rfl

/-- A valid time has two digits for each number. -/
theorem Time.Valid.digits (valid : time.Valid) : time.bytes.all checkDECToBCD = true := by
  have month := Gregorian.monthDays_le (2000 + time.year.toNat) time.month.toNat
  have ⟨year, monthPos, monthLe, dayPos, dayLe, hour, minute, second⟩ := valid
  have few {number : UInt8} (less : number.toNat < 100) : checkDECToBCD number = true :=
    decide_eq_true (Nat.le_of_lt_succ less : number ≤ 99)
  simp only [Time.bytes, List.all_cons, List.all_nil, Bool.and_true, Bool.and_eq_true]
  exact ⟨few year, few (by omega), few (by omega), few (by omega), few (by omega), few (by omega)⟩

theorem timeDECToBCD_of_valid (valid : time.Valid) :
    timeDECToBCD time = (true, time.mapBytes decToBCDU8) := by
  have digits : ¬ time.bytes.all checkDECToBCD = false := by
    rw [valid.digits]
    exact Bool.noConfusion
  rw [timeDECToBCD, if_neg digits, if_neg valid.checked]

/-- A time that is not valid is not converted back. -/
theorem timeDECToBCD_of_not_valid (invalid : ¬ time.Valid) : timeDECToBCD time = (false, time) := by
  have unchecked : timeDECCheck time = false := by
    rw [← Bool.not_eq_true, timeDECCheck_iff]
    exact invalid
  rw [timeDECToBCD, if_pos unchecked]
  split_ifs <;> rfl

/-- The three ways of the conversion. -/
theorem timeBCDToDEC_of_not_digits (wrong : memBCDCheck time.bytes = false) :
    timeBCDToDEC time = (false, time) := by
  rw [timeBCDToDEC, if_pos wrong]

theorem timeBCDToDEC_of_digits (digits : memBCDCheck time.bytes = true) :
    timeBCDToDEC time = (timeDECCheck (time.mapBytes bcdToDECU8), time.mapBytes bcdToDECU8) := by
  have right : ¬ memBCDCheck time.bytes = false := by
    rw [digits]
    exact Bool.noConfusion
  rw [timeBCDToDEC, if_neg right]
  cases checked : timeDECCheck (time.mapBytes bcdToDECU8) with
  | false => exact if_pos checked
  | true => exact if_neg (by rw [checked]; exact Bool.noConfusion)

theorem timeBCDCheck_iff : timeBCDCheck time = true ↔
    memBCDCheck time.bytes = true ∧ (time.mapBytes bcdToDECU8).Valid := by
  rw [timeBCDCheck]
  cases digits : memBCDCheck time.bytes with
  | false => simp [timeBCDToDEC_of_not_digits digits]
  | true => simp [timeBCDToDEC_of_digits digits, timeDECCheck_iff]

/-- A valid time in packed digits is converted to itself. -/
theorem timeBCDToDEC_mapBytes (valid : time.Valid) :
    timeBCDToDEC (time.mapBytes decToBCDU8) = (true, time) := by
  have each := List.all_eq_true.mp valid.digits
  have digits : memBCDCheck (time.mapBytes decToBCDU8).bytes = true := by
    apply List.all_eq_true.mpr
    rw [Time.bytes_mapBytes, List.forall_mem_map]
    exact fun byte inside => (bcdToDECU8_decToBCDU8 byte (each byte inside)).1
  have back : (time.mapBytes decToBCDU8).mapBytes bcdToDECU8 = time := by
    apply Time.ext_bytes
    rw [Time.bytes_mapBytes, Time.bytes_mapBytes, List.map_map]
    have same : ∀ byte ∈ time.bytes, (bcdToDECU8 ∘ decToBCDU8) byte = id byte :=
      fun byte inside => (bcdToDECU8_decToBCDU8 byte (each byte inside)).2
    exact (List.map_congr_left same).trans (List.map_id _)
  rw [timeBCDToDEC_of_digits digits, back, timeDECCheck_iff.mpr valid]

/-- Converted and converted back. -/
theorem mapBytes_of_digits (digits : memBCDCheck time.bytes = true) :
    (time.mapBytes bcdToDECU8).mapBytes decToBCDU8 = time := by
  apply Time.ext_bytes
  rw [Time.bytes_mapBytes, Time.bytes_mapBytes, List.map_map]
  have back : ∀ byte ∈ time.bytes, (decToBCDU8 ∘ bcdToDECU8) byte = id byte :=
    fun byte inside => decToBCDU8_bcdToDECU8 byte (List.all_eq_true.mp digits byte inside)
  exact (List.map_congr_left back).trans (List.map_id _)

end LedFirmware
