import LedFirmware.StrToXL

/-!
# Writing an integer

`XToA` with its two uses, and `AToI`, which reads back what they write.  A buffer is a
memory, of which they write the start; the digits are put there in the reverse order and
then reversed in place.
-/

namespace LedFirmware

open NorFlash Numerals

/-- The bases from 2 to 36, for which the division ends. -/
structure Radix where
  value : UInt32
  atLeastTwo : 2 ≤ value.toNat
  atMost : value.toNat ≤ 36

def Radix.ten : Radix := ⟨10, by decide, by decide⟩

/-- The character of a digit. -/
def digitChar (digval : UInt32) : UInt8 :=
  if digval > 9 then (digval - 10 + 0x61).toUInt8 else (digval + 0x30).toUInt8

theorem quotient_lt {radix : Radix} {val : UInt64} (more : 0 < val / radix.value.toUInt64) :
    (val / radix.value.toUInt64).toNat < val.toNat := by
  have two := radix.atLeastTwo
  have quotient := UInt64.lt_iff_toNat_lt.mp more
  rw [UInt64.toNat_div, UInt32.toNat_toUInt64] at quotient ⊢
  have positive : 0 < val.toNat := by
    by_contra none
    rw [Nat.eq_zero_of_not_pos none, Nat.zero_div] at quotient
    exact absurd quotient (by decide)
  exact Nat.div_lt_self positive (by omega)

/-- The loop that stores the digits from the last one on, and the position behind them. -/
def digitsLoop (radix : Radix) (val : UInt64) (buf : Nat → UInt8) (p : Nat) :
    (Nat → UInt8) × Nat :=
  let digval := (val % radix.value.toUInt64).toUInt32
  let buf := Function.update buf p (digitChar digval)
  if more : 0 < val / radix.value.toUInt64 then
    digitsLoop radix (val / radix.value.toUInt64) buf (p + 1)
  else (buf, p + 1)
  termination_by val.toNat
  decreasing_by exact quotient_lt more

/-- The loop that reverses the cells from `firstdig` to `p`. -/
def reverseLoop (buf : Nat → UInt8) (firstdig p : Nat) : Nat → UInt8 :=
  let temp := buf p
  let buf := Function.update buf p (buf firstdig)
  let buf := Function.update buf firstdig temp
  if firstdig + 1 < p - 1 then reverseLoop buf (firstdig + 1) (p - 1) else buf
  termination_by p

def xToA (val : UInt64) (buf : Nat → UInt8) (radix : Radix) (isNeg : Bool) : Nat → UInt8 :=
  let firstdig := if isNeg then 1 else 0
  let val := if isNeg then (-val.toInt64).toUInt64 else val
  let buf := if isNeg then Function.update buf 0 0x2D else buf
  let (buf, p) := digitsLoop radix val buf firstdig
  reverseLoop (Function.update buf p 0) firstdig (p - 1)

def iToA (val : Int64) (buf : Nat → UInt8) (radix : Radix) : Nat → UInt8 :=
  if radix.value = 10 ∧ val < 0 then xToA val.toUInt64 buf radix true
  else xToA val.toUInt64 buf radix false

def uToA (val : Int64) (buf : Nat → UInt8) (radix : Radix) : Nat → UInt8 :=
  xToA val.toUInt64 buf radix false

/-- The loop of `AToI`. -/
def aToILoop : (str : List UInt8) → (total : Int64) → Int64
  | [], total => total
  | c :: str, total =>
      if isDigit c then aToILoop str (10 * total + Int64.ofNat (c.toNat - 0x30)) else total

def aToI (str : CString) : Int64 :=
  let text := str.chars.dropWhile isSpace
  let sign := text.headD 0
  let text := if sign = 0x2D ∨ sign = 0x2B then text.tail else text
  let total := aToILoop text 0
  if sign = 0x2D then -total else total

variable {radix : Radix} {buf : Nat → UInt8}

/-! ## The digits of a number -/

/-- The digits that the loop finds, the last one first. -/
def loopDigits (base number : Nat) : List Nat :=
  if number = 0 then [0] else Nat.digits base number

theorem loopDigits_eq {base number : Nat} (two : 2 ≤ base) :
    loopDigits base number = number % base ::
      if 0 < number / base then loopDigits base (number / base) else [] := by
  rw [loopDigits]
  rcases Nat.eq_zero_or_pos number with rfl | positive
  · simp
  · rw [if_neg positive.ne', Nat.digits_def' two positive]
    rcases Nat.eq_zero_or_pos (number / base) with zero | more
    · rw [zero, if_neg (Nat.lt_irrefl 0), Nat.digits_zero]
    · rw [if_pos more, loopDigits, if_neg more.ne']

theorem loopDigits_ne_nil (base number : Nat) : loopDigits base number ≠ [] := by
  rw [loopDigits]
  split
  · simp
  · rename_i nonzero
    exact Nat.digits_ne_nil_iff_ne_zero.mpr nonzero

theorem loopDigits_lt {base number digit : Nat} (two : 2 ≤ base)
    (member : digit ∈ loopDigits base number) : digit < base := by
  rw [loopDigits] at member
  split at member
  · rw [List.mem_singleton.mp member]
    omega
  · exact Nat.digits_lt_base two member

theorem extend_loopDigits (base number : Nat) :
    extend base 0 (loopDigits base number).reverse = number := by
  rw [loopDigits]
  split
  · rename_i zero
    simp [zero]
  · exact extend_digits base number

/-- The character of a digit is read as that digit. -/
theorem digitOf_digitChar {digit : Nat} (below : digit < 36) :
    digitOf (digitChar (UInt32.ofNat digit)) = some digit := by
  have all : ∀ digit < 36, digitOf (digitChar (UInt32.ofNat digit)) = some digit := by
    decide +kernel
  exact all digit below

/-- What the loop leaves: the digits in their cells, and nothing else changed. -/
theorem digitsLoop_eq (val : UInt64) (buf : Nat → UInt8) (p : Nat) :
    (digitsLoop radix val buf p).2 = p + (loopDigits radix.value.toNat val.toNat).length ∧
      (∀ index, (inside : index < (loopDigits radix.value.toNat val.toNat).length) →
        (digitsLoop radix val buf p).1 (p + index) =
          digitChar (UInt32.ofNat (loopDigits radix.value.toNat val.toNat)[index])) ∧
        ∀ cell < p, (digitsLoop radix val buf p).1 cell = buf cell := by
  induction measured : val.toNat using Nat.strongRecOn generalizing val buf p with
  | ind number ih =>
      subst measured
      have digits := @loopDigits_eq radix.value.toNat val.toNat radix.atLeastTwo
      have quotient : (val / radix.value.toUInt64).toNat = val.toNat / radix.value.toNat := by
        rw [UInt64.toNat_div, UInt32.toNat_toUInt64]
      have digit : (val % radix.value.toUInt64).toUInt32 =
          UInt32.ofNat (val.toNat % radix.value.toNat) := by
        apply UInt32.toNat_inj.mp
        rw [UInt64.toNat_toUInt32, UInt64.toNat_mod, UInt32.toNat_toUInt64, UInt32.toNat_ofNat']
      have positive : 0 < val / radix.value.toUInt64 ↔ 0 < val.toNat / radix.value.toNat := by
        rw [UInt64.lt_iff_toNat_lt, quotient]
        rfl
      rw [digitsLoop]
      by_cases more : 0 < val / radix.value.toUInt64
      · rw [if_pos (positive.mp more)] at digits
        obtain ⟨stop, stored, kept⟩ := ih _ (quotient_lt more) (val / radix.value.toUInt64)
          (Function.update buf p (digitChar (val % radix.value.toUInt64).toUInt32)) (p + 1) rfl
        rw [quotient] at stop stored
        simp only [dif_pos more, digits, List.length_cons]
        refine ⟨by omega, ?_, ?_⟩
        · intro index inside
          cases index with
          | zero =>
              have first := kept p (Nat.lt_succ_self p)
              rw [Function.update_self, digit] at first
              exact first
          | succ index =>
              rw [show p + (index + 1) = p + 1 + index by omega]
              exact stored index (Nat.lt_of_succ_lt_succ inside)
        · intro cell below
          rw [kept cell (by omega), Function.update_of_ne (by omega)]
      · rw [if_neg (mt positive.mpr more)] at digits
        simp only [dif_neg more, digits]
        refine ⟨rfl, ?_, ?_⟩
        · intro index inside
          obtain rfl : index = 0 := Nat.lt_one_iff.mp inside
          rw [Nat.add_zero, Function.update_self, digit]
          rfl
        · intro cell below
          exact Function.update_of_ne (by omega) _ _

/-- The cells between the two positions are reversed. -/
theorem reverseLoop_eq (buf : Nat → UInt8) (firstdig p cell : Nat) (ordered : firstdig ≤ p) :
    reverseLoop buf firstdig p cell =
      if firstdig ≤ cell ∧ cell ≤ p then buf (firstdig + p - cell) else buf cell := by
  induction p using Nat.strongRecOn generalizing buf firstdig with
  | ind p ih =>
      rw [reverseLoop]
      have swapped (cell : Nat) :
          Function.update (Function.update buf p (buf firstdig)) firstdig (buf p) cell =
            if cell = firstdig then buf p else if cell = p then buf firstdig else buf cell := by
        simp only [Function.update_apply]
      -- The two ends are exchanged here, and what is between them by the rest of the loop.
      have ends (between : ¬ (firstdig + 1 ≤ cell ∧ cell ≤ p - 1)) :
          (if cell = firstdig then buf p else if cell = p then buf firstdig else buf cell) =
            if firstdig ≤ cell ∧ cell ≤ p then buf (firstdig + p - cell) else buf cell := by
        by_cases first : cell = firstdig
        · rw [if_pos first, if_pos (by omega), show firstdig + p - cell = p by omega]
        · by_cases last : cell = p
          · rw [if_neg first, if_pos last, if_pos (by omega),
              show firstdig + p - cell = firstdig by omega]
          · rw [if_neg first, if_neg last, if_neg (by omega)]
      by_cases further : firstdig + 1 < p - 1
      · simp only [if_pos further]
        rw [ih (p - 1) (by omega) _ (firstdig + 1) (by omega)]
        simp only [swapped]
        by_cases between : firstdig + 1 ≤ cell ∧ cell ≤ p - 1
        · rw [if_pos between, if_neg (by omega), if_neg (by omega), if_pos (by omega),
            show firstdig + 1 + (p - 1) - cell = firstdig + p - cell by omega]
        · rw [if_neg between, ends between]
      · simp only [if_neg further, swapped]
        by_cases between : firstdig + 1 ≤ cell ∧ cell ≤ p - 1
        · -- One cell is left in the middle.
          rw [if_neg (by omega), if_neg (by omega), if_pos (by omega),
            show firstdig + p - cell = cell by omega]
        · exact ends between

/-! ## The text of a number -/

/-- The characters of a number in a base. -/
def numeralText (base number : Nat) : List UInt8 :=
  (loopDigits base number).reverse.map fun digit => digitChar (UInt32.ofNat digit)

theorem numeralText_ne_nil (base number : Nat) : numeralText base number ≠ [] := by
  simp [numeralText, loopDigits_ne_nil]

theorem numeralText_digit {base number : Nat} {c : UInt8} (two : 2 ≤ base) (small : base ≤ 36)
    (member : c ∈ numeralText base number) : IsDigitOf base c := by
  obtain ⟨digit, found, rfl⟩ := List.mem_map.mp member
  have below := loopDigits_lt two (List.mem_reverse.mp found)
  exact ⟨digit, digitOf_digitChar (below.trans_le small), below⟩

theorem numeralText_values {base number : Nat} (two : 2 ≤ base) (small : base ≤ 36) :
    (numeralText base number).filterMap digitOf = (loopDigits base number).reverse := by
  rw [numeralText, List.filterMap_map]
  have read : ∀ digit ∈ (loopDigits base number).reverse,
      (digitOf ∘ fun digit => digitChar (UInt32.ofNat digit)) digit = some digit := by
    intro digit member
    exact digitOf_digitChar ((loopDigits_lt two (List.mem_reverse.mp member)).trans_le small)
  rw [List.filterMap_congr read, List.filterMap_some]

theorem numeralText_noNul {base number : Nat} (two : 2 ≤ base) (small : base ≤ 36) :
    0 ∉ numeralText base number := by
  intro member
  obtain ⟨digit, found, -⟩ := numeralText_digit two small member
  rw [digitOf_none (Or.inr (Or.inr (Or.inr rfl)))] at found
  cases found

/-- The text that `XToA` writes. -/
def xToAText (val : UInt64) (radix : Radix) (isNeg : Bool) : CString where
  chars := if isNeg then 0x2D :: numeralText radix.value.toNat (-val.toInt64).toUInt64.toNat
    else numeralText radix.value.toNat val.toNat
  noNul := by
    cases isNeg with
    | true =>
        intro member
        rcases List.mem_cons.mp member with impossible | digit
        · exact absurd impossible (by decide)
        · exact numeralText_noNul radix.atLeastTwo radix.atMost digit
    | false => exact numeralText_noNul radix.atLeastTwo radix.atMost

/-- The digits are stored and reversed behind what is there. -/
theorem digits_reversed (val : UInt64) (buf : Nat → UInt8) (firstdig : Nat) (cell : Nat) :
    reverseLoop (Function.update (digitsLoop radix val buf firstdig).1
        (digitsLoop radix val buf firstdig).2 0) firstdig
        ((digitsLoop radix val buf firstdig).2 - 1) cell =
      if cell < firstdig then buf cell
      else if cell ≤ firstdig + (numeralText radix.value.toNat val.toNat).length then
        bufferOf (numeralText radix.value.toNat val.toNat) (cell - firstdig)
      else (digitsLoop radix val buf firstdig).1 cell := by
  obtain ⟨stop, stored, kept⟩ := @digitsLoop_eq radix val buf firstdig
  have positive : 0 < (loopDigits radix.value.toNat val.toNat).length :=
    List.length_pos_of_ne_nil (loopDigits_ne_nil _ _)
  have length : (numeralText radix.value.toNat val.toNat).length =
      (loopDigits radix.value.toNat val.toNat).length := by
    simp [numeralText]
  rw [reverseLoop_eq _ _ _ _ (by omega), stop, length]
  by_cases before : cell < firstdig
  · rw [if_neg (by omega), if_pos before, Function.update_of_ne (by omega), kept cell before]
  · rw [if_neg before]
    by_cases inside : cell < firstdig + (loopDigits radix.value.toNat val.toNat).length
    · have position : firstdig + (firstdig + (loopDigits radix.value.toNat val.toNat).length - 1) -
          cell = firstdig + ((loopDigits radix.value.toNat val.toNat).length - 1 -
            (cell - firstdig)) := by omega
      rw [if_pos (by omega), if_pos (by omega), position, Function.update_of_ne (by omega),
        stored _ (by omega), bufferOf, List.getD_eq_getElem _ _ (by omega)]
      simp [numeralText, List.getElem_reverse]
    · rw [if_neg (by omega)]
      by_cases last : cell = firstdig + (loopDigits radix.value.toNat val.toNat).length
      · rw [last, if_pos le_rfl, Function.update_self, bufferOf,
          List.getD_eq_default _ _ (by omega)]
      · rw [if_neg (by omega), Function.update_of_ne last]

theorem xToA_at (val : UInt64) (buf : Nat → UInt8) (radix : Radix) (isNeg : Bool) :
    (xToAText val radix isNeg).At (xToA val buf radix isNeg) := by
  intro cell inside
  rw [xToA]
  cases isNeg with
  | true =>
      simp only [xToAText, if_true, List.length_cons] at inside ⊢
      rw [digits_reversed]
      cases cell with
      | zero =>
          rw [if_pos (by omega), Function.update_self]
          rfl
      | succ cell =>
          rw [if_neg (by omega), if_pos (by omega), Nat.add_sub_cancel]
          rfl
  | false =>
      simp only [xToAText, Bool.false_eq_true, if_false] at inside ⊢
      rw [digits_reversed, if_neg (by omega), if_pos (by omega), Nat.sub_zero]

/-! ## Reading the text back -/

/-- A decimal digit is read as itself by `AToI`. -/
theorem aToILoop_digits (digits : List Nat) (value : Nat) (below : ∀ digit ∈ digits, digit < 10) :
    aToILoop (digits.map fun digit => digitChar (UInt32.ofNat digit)) (Int64.ofNat value) =
      Int64.ofNat (extend 10 value digits) := by
  have chars : ∀ digit < 10, isDigit (digitChar (UInt32.ofNat digit)) = true ∧
      (digitChar (UInt32.ofNat digit)).toNat - 0x30 = digit := by
    decide +kernel
  induction digits generalizing value with
  | nil => rfl
  | cons digit digits ih =>
      obtain ⟨isDigit, same⟩ := chars digit (below digit List.mem_cons_self)
      have step : 10 * Int64.ofNat value + Int64.ofNat digit =
          Int64.ofNat (value * 10 + digit) := by
        rw [Int64.ofNat_add, Int64.ofNat_mul, Int64.mul_comm]
        rfl
      rw [List.map_cons, aToILoop, if_pos isDigit, same, step,
        ih _ fun digit member => below digit (List.mem_cons_of_mem _ member), extend_cons]

theorem aToILoop_numeralText (number : Nat) :
    aToILoop (numeralText 10 number) 0 = Int64.ofNat number := by
  have read := aToILoop_digits (loopDigits 10 number).reverse 0 fun digit member =>
    loopDigits_lt (by decide) (List.mem_reverse.mp member)
  rw [extend_loopDigits] at read
  exact read

/-- The text of a decimal number begins with a digit. -/
theorem numeralText_head (number : Nat) : ∃ c more, numeralText 10 number = c :: more ∧
    isSpace c = false ∧ c ≠ 0x2B ∧ c ≠ 0x2D := by
  cases text : numeralText 10 number with
  | nil => exact absurd text (numeralText_ne_nil 10 number)
  | cons c more =>
      have isDigit : IsDigitOf 10 c :=
        numeralText_digit (by decide) (by decide) (text ▸ List.mem_cons_self)
      exact ⟨c, more, rfl, isDigit.other⟩

theorem aToI_positive (val : UInt64) :
    aToI (xToAText val .ten false) = Int64.ofNat val.toNat := by
  obtain ⟨c, more, begins, noSpace, noPlus, noMinus⟩ := numeralText_head val.toNat
  have read := aToILoop_numeralText val.toNat
  have chars : (xToAText val .ten false).chars = c :: more := begins
  rw [begins] at read
  rw [aToI, chars, List.dropWhile_cons_of_neg (by simp [noSpace])]
  simp only [List.headD_cons, noMinus, noPlus, or_self, if_false]
  exact read

theorem aToI_negative (val : UInt64) :
    aToI (xToAText val .ten true) = -Int64.ofNat (-val.toInt64).toUInt64.toNat := by
  have read := aToILoop_numeralText (-val.toInt64).toUInt64.toNat
  have chars : (xToAText val .ten true).chars =
      0x2D :: numeralText 10 (-val.toInt64).toUInt64.toNat := rfl
  rw [aToI, chars, List.dropWhile_cons_of_neg (by decide)]
  simp only [List.headD_cons, true_or, if_true, List.tail_cons]
  rw [read]

theorem ofNat_toUInt64 (val : Int64) : Int64.ofNat val.toUInt64.toNat = val := by
  apply Int64.toBitVec_inj.mp
  exact BitVec.ofNat_toNat 64 val.toBitVec

/-- `AToI` reads back what `IToA` writes in decimal, for every number of 64 bits. -/
theorem aToI_iToA (val : Int64) (buf : Nat → UInt8) :
    ∃ text : CString, text.At (iToA val buf .ten) ∧ aToI text = val := by
  rw [iToA]
  by_cases negative : val < 0
  · rw [if_pos ⟨rfl, negative⟩]
    refine ⟨_, xToA_at _ _ _ _, ?_⟩
    rw [aToI_negative, ofNat_toUInt64]
    exact Int64.neg_neg
  · rw [if_neg fun both => negative both.2]
    refine ⟨_, xToA_at _ _ _ _, ?_⟩
    rw [aToI_positive, ofNat_toUInt64]

/-- The text of a number is a numeral as a whole; in base sixteen it has no mark. -/
theorem numeralText_numeral {base number : Nat} (two : 2 ≤ base) (small : base ≤ 36) :
    Numeral base (numeralText base number) [] [] [] (numeralText base number) := by
  refine ⟨List.prefix_rfl, by simp, Or.inl rfl, Or.inl rfl, ?_, numeralText_ne_nil base number,
    fun c member => numeralText_digit two small member⟩
  rintro rfl -
  have noMark {c : UInt8} (hexMark : c = 0x78 ∨ c = 0x58) : c ∉ numeralText 16 number := by
    intro member
    obtain ⟨digit, found, below⟩ := numeralText_digit two small member
    rcases hexMark with rfl | rfl
    · rw [show digitOf 0x78 = some 33 from rfl] at found
      cases found
      exact absurd below (by decide)
    · rw [show digitOf 0x58 = some 33 from rfl] at found
      cases found
      exact absurd below (by decide)
  exact ⟨fun lower => noMark (Or.inl rfl) (lower.subset (by simp)),
    fun upper => noMark (Or.inr rfl) (upper.subset (by simp))⟩

/-- `StrToUL` reads back what `UToA` writes, in every base and to the end. -/
theorem strToUL_uToA (val : UInt32) (radix : Radix) (buf : Nat → UInt8) :
    ∃ text : CString, text.At (uToA val.toUInt64.toInt64 buf radix) ∧
      strToUL text radix.value.toNat = (val, text.chars.length) := by
  have two := radix.atLeastTwo
  have small := radix.atMost
  refine ⟨_, xToA_at _ _ _ _, ?_⟩
  rw [UInt64.toUInt64_toInt64]
  have chars : (xToAText val.toUInt64 radix false).chars =
      numeralText radix.value.toNat val.toNat :=
    congrArg (numeralText radix.value.toNat) (UInt32.toNat_toUInt64 val)
  have longest := longest_of_whole (@numeralText_numeral radix.value.toNat val.toNat two small)
    (by simp)
  rw [← chars] at longest
  obtain ⟨neg, value, after, read, accumulated, same⟩ :=
    @strToXL_longest radix.value.toNat _ true _ _ two small longest
  have number : (val.toNat : Int) = if neg then -(value : Int) else (value : Int) := by
    rw [← same, signedValue, if_neg (by simp), chars, numeralText_values two small,
      extend_loopDigits]
  have bound := val.toNat_lt
  have wraps := (finish_unsigned accumulated).1 (by cases neg <;> simp at number <;> omega)
  rw [← number] at wraps
  rw [strToUL, read]
  refine Prod.ext (UInt32.toNat_inj.mp ?_) rfl
  change (finish after).toNat = val.toNat
  omega

/-- What is written as text is read back: a number of 64 bits with a sign in decimal, and a
number of 32 bits without one in every base. -/
theorem integer_round_trip :
    (∀ (val : Int64) (buf : Nat → UInt8),
        ∃ text : CString, text.At (iToA val buf .ten) ∧ aToI text = val) ∧
      ∀ (val : UInt32) (radix : Radix) (buf : Nat → UInt8),
        ∃ text : CString, text.At (uToA val.toUInt64.toInt64 buf radix) ∧
          strToUL text radix.value.toNat = (val, text.chars.length) :=
  ⟨aToI_iToA, strToUL_uToA⟩

end LedFirmware
