import LedFirmware.Numerals
import LedFirmware.RtMemory
import LedFirmware.TimeBcd

/-!
# Arithmetic on packed digits

`BCDAdd` and `BCDSub` convert a number of sixteen packed digits, add or subtract, and convert
it back.  They check the lowest two digits only.
-/

namespace LedFirmware

/-- A digit of a packed number, as the conversions take it. -/
def bcdDigit (bcd shift : UInt64) : UInt64 := (bcd >>> shift) &&& 0x0F

def bcdToDECU64 (bcd : UInt64) : UInt64 :=
  bcdDigit bcd 60 * 1000000000000000 +
  bcdDigit bcd 56 * 100000000000000 +
  bcdDigit bcd 52 * 10000000000000 +
  bcdDigit bcd 48 * 1000000000000 +
  bcdDigit bcd 44 * 100000000000 +
  bcdDigit bcd 40 * 10000000000 +
  bcdDigit bcd 36 * 1000000000 +
  bcdDigit bcd 32 * 100000000 +
  bcdDigit bcd 28 * 10000000 +
  bcdDigit bcd 24 * 1000000 +
  bcdDigit bcd 20 * 100000 +
  bcdDigit bcd 16 * 10000 +
  bcdDigit bcd 12 * 1000 +
  bcdDigit bcd 8 * 100 +
  bcdDigit bcd 4 * 10 +
  bcdDigit bcd 0 * 1

/-- The loop of `DECToBCD`: the memory and the number of bytes behind `dst` it returns. -/
def decToBCDLoop (len : UInt8) (dst : Nat) (mem : Nat → UInt8) (index : UInt8) (dec : UInt64) :
    (Nat → UInt8) × UInt8 :=
  if dec > 0 then
    let l := (dec % 10).toUInt8
    let h := (dec / 10 % 10).toUInt8
    let mem := Function.update mem (dst + index.toNat) ((h <<< 4) ||| l)
    if index + 1 ≥ len then (mem, len)
    else decToBCDLoop len dst mem (index + 1) (dec / 10 / 10)
  else (mem, index)
termination_by dec.toNat
decreasing_by
  have nonzero : 0 < dec.toNat := UInt64.lt_iff_toNat_lt.mp ‹dec > 0›
  rw [UInt64.toNat_div, UInt64.toNat_div]
  change dec.toNat / 10 / 10 < dec.toNat
  omega

def decToBCD (mem : Nat → UInt8) (dst : Nat) (len : UInt8) (dec : UInt64) :
    (Nat → UInt8) × UInt8 :=
  decToBCDLoop len dst (rtMemset mem dst 0 len.toNat) 0 dec

/-- `GetDECToBCDU64` writes the digits over its own argument, here at the start of a memory. -/
def getDECToBCDU64 (dec : UInt64) : UInt64 :=
  UInt64.ofNat (LittleEndian.value 8 (decToBCD (LittleEndian.byte dec.toNat) 0 8 dec).1)

def bcdAdd (bcd value : UInt64) : UInt64 :=
  if checkBCD bcd.toUInt8 = false then bcd
  else getDECToBCDU64 (bcdToDECU64 bcd + value)

def bcdSub (bcd value : UInt64) : UInt64 :=
  if checkBCD bcd.toUInt8 = false then bcd
  else getDECToBCDU64 (bcdToDECU64 bcd - value)

theorem bcdDigit_toNat (bcd : UInt64) {shift : UInt64} (small : shift.toNat < 64) :
    (bcdDigit bcd shift).toNat = bcd.toNat / 2 ^ shift.toNat % 16 := by
  rw [bcdDigit, UInt64.toNat_and, UInt64.toNat_shiftRight, Nat.mod_eq_of_lt small,
    Nat.shiftRight_eq_div_pow]
  exact Nat.and_two_pow_sub_one_eq_mod _ 4

/-- A sum of digits stands for a number below a bound. -/
def Sums (sum : UInt64) (number bound : Nat) : Prop := sum.toNat = number ∧ number ≤ bound

theorem sums_digit (bcd : UInt64) {shift weight : UInt64} (place factor : Nat)
    (isPlace : shift.toNat = place) (isFactor : weight.toNat = factor) (small : place < 64)
    (fits : 15 * factor < 2 ^ 64) :
    Sums (bcdDigit bcd shift * weight) (bcd.toNat / 2 ^ place % 16 * factor) (15 * factor) := by
  subst isPlace isFactor
  have digit : bcd.toNat / 2 ^ shift.toNat % 16 ≤ 15 := by omega
  have product := Nat.mul_le_mul_right weight.toNat digit
  refine ⟨?_, product⟩
  rw [UInt64.toNat_mul, bcdDigit_toNat bcd small]
  exact Nat.mod_eq_of_lt (by omega)

/-- One more digit does not wrap while the largest sum fits. -/
theorem Sums.add {sum bcd shift weight : UInt64} {number bound : Nat}
    (known : Sums sum number bound) (place factor : Nat) (isPlace : shift.toNat = place)
    (isFactor : weight.toNat = factor) (small : place < 64)
    (fits : bound + 15 * factor < 2 ^ 64) :
    Sums (sum + bcdDigit bcd shift * weight) (number + bcd.toNat / 2 ^ place % 16 * factor)
      (bound + 15 * factor) := by
  have digit := sums_digit bcd place factor isPlace isFactor small (by omega)
  refine ⟨?_, Nat.add_le_add known.2 digit.2⟩
  rw [UInt64.toNat_add, known.1, digit.1]
  exact Nat.mod_eq_of_lt (Nat.lt_of_le_of_lt (Nat.add_le_add known.2 digit.2) fits)

/-- The digits of a number of sixteen digits, one by one. -/
theorem rebase_sixteen {number : Nat} (fits : number < 2 ^ 64) :
    Numerals.rebase 16 10 number =
      number / 2 ^ 60 % 16 * 1000000000000000 + number / 2 ^ 56 % 16 * 100000000000000 +
      number / 2 ^ 52 % 16 * 10000000000000 + number / 2 ^ 48 % 16 * 1000000000000 +
      number / 2 ^ 44 % 16 * 100000000000 + number / 2 ^ 40 % 16 * 10000000000 +
      number / 2 ^ 36 % 16 * 1000000000 + number / 2 ^ 32 % 16 * 100000000 +
      number / 2 ^ 28 % 16 * 10000000 + number / 2 ^ 24 % 16 * 1000000 +
      number / 2 ^ 20 % 16 * 100000 + number / 2 ^ 16 % 16 * 10000 +
      number / 2 ^ 12 % 16 * 1000 + number / 2 ^ 8 % 16 * 100 +
      number / 2 ^ 4 % 16 * 10 + number / 2 ^ 0 % 16 * 1 := by
  have highest : number / 18446744073709551616 = 0 := by omega
  have none : Numerals.rebase 16 10 0 = 0 := by simp [Numerals.rebase]
  iterate 16 rw [Numerals.rebase_step (by decide) 10]
  simp only [Nat.div_div_eq_div_mul, Nat.reduceMul, Nat.reducePow, highest, none, Nat.div_one]
  ring

theorem bcdToDECU64_toNat (bcd : UInt64) :
    (bcdToDECU64 bcd).toNat = Numerals.rebase 16 10 bcd.toNat := by
  rw [rebase_sixteen bcd.toNat_lt]
  exact ((((((((((((((((sums_digit bcd 60 1000000000000000 rfl rfl (by decide) (by decide)).add
    56 100000000000000 rfl rfl (by decide) (by decide)).add
    52 10000000000000 rfl rfl (by decide) (by decide)).add
    48 1000000000000 rfl rfl (by decide) (by decide)).add
    44 100000000000 rfl rfl (by decide) (by decide)).add
    40 10000000000 rfl rfl (by decide) (by decide)).add
    36 1000000000 rfl rfl (by decide) (by decide)).add
    32 100000000 rfl rfl (by decide) (by decide)).add
    28 10000000 rfl rfl (by decide) (by decide)).add
    24 1000000 rfl rfl (by decide) (by decide)).add
    20 100000 rfl rfl (by decide) (by decide)).add
    16 10000 rfl rfl (by decide) (by decide)).add
    12 1000 rfl rfl (by decide) (by decide)).add
    8 100 rfl rfl (by decide) (by decide)).add
    4 10 rfl rfl (by decide) (by decide)).add
    0 1 rfl rfl (by decide) (by decide)).1

/-! ### The digits of a number as bytes -/

/-- Two digits of a number in one byte. -/
def packedByte (number : Nat) : UInt8 := UInt8.ofNat (number % 10 + 16 * (number / 10 % 10))

theorem packedByte_zero : packedByte 0 = 0 := by decide

theorem halves_eq_packedByte (dec : UInt64) :
    ((dec / 10 % 10).toUInt8 <<< 4) ||| (dec % 10).toUInt8 = packedByte dec.toNat := by
  have all : ∀ high < 10, ∀ low < 10,
      (UInt8.ofNat high <<< 4) ||| UInt8.ofNat low = UInt8.ofNat (low + 16 * high) := by
    decide
  have high : (dec / 10 % 10).toUInt8 = UInt8.ofNat (dec.toNat / 10 % 10) := by
    rw [UInt64.toUInt8, UInt64.toNat_mod, UInt64.toNat_div]
    rfl
  have low : (dec % 10).toUInt8 = UInt8.ofNat (dec.toNat % 10) := by
    rw [UInt64.toUInt8, UInt64.toNat_mod]
    rfl
  rw [high, low]
  exact all _ (Nat.mod_lt _ (by decide)) _ (Nat.mod_lt _ (by decide))

section

variable {len : UInt8} {dst : Nat}

/-- Into cleared bytes the loop writes the digits of a number, two in each byte. -/
theorem decToBCDLoop_eq (mem : Nat → UInt8) (index : UInt8) (dec : UInt64)
    (inside : index.toNat < len.toNat)
    (clear : ∀ place, index.toNat ≤ place → place < len.toNat → mem (dst + place) = 0) :
    (∀ place, index.toNat ≤ place → place < len.toNat →
      (decToBCDLoop len dst mem index dec).1 (dst + place) =
        packedByte (dec.toNat / 100 ^ (place - index.toNat))) ∧
    ∀ place, place < dst + index.toNat ∨ dst + len.toNat ≤ place →
      (decToBCDLoop len dst mem index dec).1 place = mem place := by
  induction size : dec.toNat using Nat.strong_induction_on generalizing mem index dec with
  | _ size ih =>
  subst size
  rw [decToBCDLoop]
  by_cases positive : dec > 0
  · have nonzero : 0 < dec.toNat := UInt64.lt_iff_toNat_lt.mp positive
    have next : (index + 1).toNat = index.toNat + 1 := by
      have bound := len.toNat_lt
      rw [UInt8.toNat_add]
      exact Nat.mod_eq_of_lt (by change index.toNat + 1 < 256; omega)
    have full : index + 1 ≥ len ↔ len.toNat ≤ index.toNat + 1 := by
      rw [ge_iff_le, UInt8.le_iff_toNat_le, next]
    simp only [if_pos positive, halves_eq_packedByte, full]
    by_cases last : len.toNat ≤ index.toNat + 1
    · rw [if_pos last]
      refine ⟨fun place lower upper => ?_, fun place outside => ?_⟩
      · have only : place = index.toNat := by omega
        rw [only, Nat.sub_self, pow_zero, Nat.div_one]
        exact Function.update_self _ _ _
      · exact Function.update_of_ne (by omega) _ _
    · rw [if_neg last]
      have quotient : (dec / 10 / 10).toNat = dec.toNat / 100 := by
        rw [UInt64.toNat_div, UInt64.toNat_div]
        exact Nat.div_div_eq_div_mul _ 10 10
      have rest := ih _ (by omega : dec.toNat / 100 < dec.toNat)
        (Function.update mem (dst + index.toNat) (packedByte dec.toNat)) (index + 1)
        (dec / 10 / 10) (by omega) (fun place lower upper => by
          rw [Function.update_of_ne (by omega)]
          exact clear place (by omega) upper) quotient
      refine ⟨fun place lower upper => ?_, fun place outside => ?_⟩
      · by_cases here : place = index.toNat
        · rw [here, rest.2 _ (by omega), Function.update_self, Nat.sub_self, pow_zero, Nat.div_one]
        · rw [rest.1 place (by omega) upper, next,
            show place - index.toNat = place - (index.toNat + 1) + 1 by omega, pow_succ',
            Nat.div_div_eq_div_mul]
      · rw [rest.2 place (by omega), Function.update_of_ne (by omega)]
  · have zero : dec.toNat = 0 := by
      have bound : ¬ 0 < dec.toNat := fun more => positive (UInt64.lt_iff_toNat_lt.mpr more)
      omega
    rw [if_neg positive]
    refine ⟨fun place lower upper => ?_, fun place outside => rfl⟩
    rw [zero, Nat.zero_div, packedByte_zero]
    exact clear place lower upper

end

/-- The packed digits of a number, as one number. -/
theorem value_packedByte (width number : Nat) :
    LittleEndian.value width (fun index => packedByte (number / 100 ^ index)) =
      Numerals.rebase 10 16 (number % 100 ^ width) := by
  induction width generalizing number with
  | zero => simp [LittleEndian.value, Numerals.rebase, Nat.mod_one]
  | succ width ih =>
      have rest (index : Nat) : number / 100 ^ (index + 1) = number / 100 / 100 ^ index := by
        rw [pow_succ', Nat.div_div_eq_div_mul]
      have split : number % 100 ^ (width + 1) =
          number % 100 + 100 * (number / 100 % 100 ^ width) := by
        rw [pow_succ', Nat.mod_mul]
      have byte : (packedByte number).toNat = number % 10 + 16 * (number / 10 % 10) := by
        rw [packedByte, UInt8.toNat_ofNat']
        omega
      have low (high : Nat) : (number % 100 + 100 * high) % 10 = number % 10 := by omega
      have second (high : Nat) :
          (number % 100 + 100 * high) / 10 % 10 = number / 10 % 10 := by omega
      have above (high : Nat) : (number % 100 + 100 * high) / 10 / 10 = high := by omega
      simp only [LittleEndian.value, pow_zero, Nat.div_one, rest, ih, byte]
      rw [Numerals.rebase_step (by decide) 16 (number % 100 ^ (width + 1)),
        Numerals.rebase_step (by decide) 16 (number % 100 ^ (width + 1) / 10), split, low, second,
        above]
      ring

section

variable {mem : Nat → UInt8} {dst : Nat} {len : UInt8} {dec : UInt64}

/-- `DECToBCD` writes the digits of a number, two in each byte, and nothing else. -/
theorem decToBCD_bytes (room : len = 0 → dec = 0) :
    (∀ place < len.toNat,
      (decToBCD mem dst len dec).1 (dst + place) = packedByte (dec.toNat / 100 ^ place)) ∧
    ∀ place, place < dst ∨ dst + len.toNat ≤ place →
      (decToBCD mem dst len dec).1 place = mem place := by
  have kept : ∀ place, place < dst ∨ dst + len.toNat ≤ place →
      rtMemset mem dst 0 len.toNat place = mem place := by
    intro place outside
    rw [rtMemset_eq]
    exact if_neg (by omega)
  by_cases empty : len = 0
  · subst empty
    rw [room rfl, decToBCD, decToBCDLoop, if_neg (by decide)]
    exact ⟨fun place inside => absurd inside (Nat.not_lt_zero place), kept⟩
  · have positive : (0 : UInt8).toNat < len.toNat :=
      Nat.pos_of_ne_zero fun zero => empty (UInt8.toNat_inj.mp zero)
    have cleared : ∀ place, (0 : UInt8).toNat ≤ place → place < len.toNat →
        rtMemset mem dst 0 len.toNat (dst + place) = 0 := by
      intro place _ inside
      rw [rtMemset_eq]
      exact if_pos ⟨Nat.le_add_right _ _, by omega⟩
    have loop := decToBCDLoop_eq (rtMemset mem dst 0 len.toNat) 0 dec positive cleared
    exact ⟨fun place inside => loop.1 place (Nat.zero_le _) inside, fun place outside =>
      (loop.2 place outside).trans (kept place outside)⟩

/-- The bytes that `DECToBCD` writes, as one number. -/
theorem value_decToBCD (room : len = 0 → dec = 0) :
    LittleEndian.value len.toNat (fun place => (decToBCD mem dst len dec).1 (dst + place)) =
      Numerals.rebase 10 16 (dec.toNat % 100 ^ len.toNat) := by
  rw [← value_packedByte]
  exact LittleEndian.value_congr (decToBCD_bytes room).1

end

theorem getDECToBCDU64_toNat (dec : UInt64) :
    (getDECToBCDU64 dec).toNat = Numerals.rebase 10 16 (dec.toNat % 10 ^ 16) := by
  have written := @value_decToBCD (LittleEndian.byte dec.toNat) 0 8 dec nofun
  simp only [Nat.zero_add] at written
  rw [getDECToBCDU64, UInt64.toNat_ofNat_of_lt' (LittleEndian.value_lt 8 _)]
  exact written

/-! ### Sums and differences -/

/-- No digit of a packed number exceeds 9. -/
def ValidBCD (bcd : UInt64) : Prop := ∀ position < 16, bcd.toNat / 16 ^ position % 16 ≤ 9

instance (bcd : UInt64) : Decidable (ValidBCD bcd) :=
  inferInstanceAs (Decidable (∀ position < 16, bcd.toNat / 16 ^ position % 16 ≤ 9))

/-- The number that the digits of a packed number stand for. -/
def bcdValue (bcd : UInt64) : Nat := Numerals.rebase 16 10 bcd.toNat

/-- The packed digits of a number. -/
def bcdEncoding (number : Nat) : Nat := Numerals.rebase 10 16 number

theorem validBCD_iff (bcd : UInt64) :
    ValidBCD bcd ↔ ∀ digit ∈ Nat.digits 16 bcd.toNat, digit < 10 := by
  have fits : bcd.toNat < 16 ^ 16 := bcd.toNat_lt
  rw [Numerals.forall_digits_iff (by decide) (by decide) fits]
  exact forall₂_congr fun position inside => Nat.lt_succ_iff.symm

theorem getDECToBCDU64_valid (dec : UInt64) : ValidBCD (getDECToBCDU64 dec) := by
  have decimal : ∀ digit ∈ Nat.digits 10 (dec.toNat % 10 ^ 16), digit < 10 :=
    fun digit member => Nat.digits_lt_base (by decide) member
  rw [validBCD_iff, getDECToBCDU64_toNat, Numerals.digits_rebase (by decide) fun digit member =>
    Nat.lt_trans (decimal digit member) (by decide)]
  exact decimal

theorem bcdValue_lt {bcd : UInt64} (valid : ValidBCD bcd) : bcdValue bcd < 10 ^ 16 := by
  have fits : bcd.toNat < 16 ^ 16 := bcd.toNat_lt
  exact Numerals.rebase_lt (by decide) (by decide) ((validBCD_iff bcd).mp valid) fits

theorem checkBCD_of_valid {bcd : UInt64} (valid : ValidBCD bcd) :
    checkBCD bcd.toUInt8 = true := by
  have low := valid 0 (by decide)
  have high := valid 1 (by decide)
  have all : ∀ high < 10, ∀ low < 10, checkBCD (UInt8.ofNat (low + 16 * high)) = true := by
    decide
  have byte : bcd.toUInt8 = UInt8.ofNat (bcd.toNat % 16 + 16 * (bcd.toNat / 16 % 16)) := by
    apply UInt8.toNat_inj.mp
    rw [UInt64.toNat_toUInt8, UInt8.toNat_ofNat']
    omega
  rw [pow_zero, Nat.div_one] at low
  rw [pow_one] at high
  rw [byte]
  exact all _ (by omega) _ (by omega)

/-- `BCDAdd` does what its note and its name say: a wrong number is returned as it is, and
otherwise the sum, where it has sixteen digits. -/
def AddsRight (bcd value : UInt64) : Prop :=
  (¬ ValidBCD bcd → bcdAdd bcd value = bcd) ∧
    (ValidBCD bcd → bcdValue bcd + value.toNat < 10 ^ 16 →
      (bcdAdd bcd value).toNat = bcdEncoding (bcdValue bcd + value.toNat))

def SubsRight (bcd value : UInt64) : Prop :=
  (¬ ValidBCD bcd → bcdSub bcd value = bcd) ∧
    (ValidBCD bcd → value.toNat ≤ bcdValue bcd →
      (bcdSub bcd value).toNat = bcdEncoding (bcdValue bcd - value.toNat))

section

variable {bcd value : UInt64}

theorem bcdAdd_eq (valid : ValidBCD bcd) (fits : bcdValue bcd + value.toNat < 10 ^ 16) :
    (bcdAdd bcd value).toNat = bcdEncoding (bcdValue bcd + value.toNat) := by
  have sum : (bcdToDECU64 bcd + value).toNat = bcdValue bcd + value.toNat := by
    rw [UInt64.toNat_add, bcdToDECU64_toNat]
    exact Nat.mod_eq_of_lt (Nat.lt_trans fits (by decide))
  rw [bcdAdd, if_neg (by rw [checkBCD_of_valid valid]; exact Bool.noConfusion),
    getDECToBCDU64_toNat, sum, Nat.mod_eq_of_lt fits, bcdEncoding]

theorem bcdSub_eq (valid : ValidBCD bcd) (enough : value.toNat ≤ bcdValue bcd) :
    (bcdSub bcd value).toNat = bcdEncoding (bcdValue bcd - value.toNat) := by
  have difference : (bcdToDECU64 bcd - value).toNat = bcdValue bcd - value.toNat := by
    rw [UInt64.toNat_sub_of_le, bcdToDECU64_toNat]
    · rfl
    · rw [UInt64.le_iff_toNat_le, bcdToDECU64_toNat]
      exact enough
  have fits : bcdValue bcd - value.toNat < 10 ^ 16 :=
    Nat.lt_of_le_of_lt (Nat.sub_le _ _) (bcdValue_lt valid)
  rw [bcdSub, if_neg (by rw [checkBCD_of_valid valid]; exact Bool.noConfusion),
    getDECToBCDU64_toNat, difference, Nat.mod_eq_of_lt fits, bcdEncoding]

/-- A wrong number whose lowest two digits are right is not returned as it is. -/
theorem converted_ne {dec : UInt64} (wrong : ¬ ValidBCD bcd) : getDECToBCDU64 dec ≠ bcd :=
  fun same => wrong (same ▸ getDECToBCDU64_valid dec)

end

/-- Both functions are right where the lowest two digits are wrong or all sixteen are right. -/
theorem bcdAdd_bcdSub_right_iff (bcd value : UInt64) :
    (AddsRight bcd value ↔ checkBCD bcd.toUInt8 = false ∨ ValidBCD bcd) ∧
      (SubsRight bcd value ↔ checkBCD bcd.toUInt8 = false ∨ ValidBCD bcd) := by
  by_cases valid : ValidBCD bcd
  · exact ⟨iff_of_true ⟨fun wrong => absurd valid wrong, bcdAdd_eq⟩ (Or.inr valid),
      iff_of_true ⟨fun wrong => absurd valid wrong, bcdSub_eq⟩ (Or.inr valid)⟩
  · by_cases refused : checkBCD bcd.toUInt8 = false
    · refine ⟨iff_of_true ⟨fun _ => if_pos refused, fun right => absurd right valid⟩
        (Or.inl refused), iff_of_true ⟨fun _ => if_pos refused, fun right => absurd right valid⟩
        (Or.inl refused)⟩
    · have neither : ¬ (checkBCD bcd.toUInt8 = false ∨ ValidBCD bcd) := not_or.mpr ⟨refused, valid⟩
      refine ⟨iff_of_false (fun right => ?_) neither, iff_of_false (fun right => ?_) neither⟩
      · exact converted_ne valid ((if_neg refused).symm.trans (right.1 valid))
      · exact converted_ne valid ((if_neg refused).symm.trans (right.1 valid))

/-- The third digit of `A00` is wrong, and 0 added to it makes `1000`. -/
theorem bcdAdd_third_digit : ¬ AddsRight 0xA00 0 := by
  intro right
  have wrong : ¬ ValidBCD 0xA00 := by decide
  have accepted : ¬ checkBCD (0xA00 : UInt64).toUInt8 = false := by decide
  exact converted_ne wrong ((if_neg accepted).symm.trans (right.1 wrong))

end LedFirmware
