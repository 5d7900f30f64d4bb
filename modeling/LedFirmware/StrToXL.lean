import LedFirmware.CString
import LedFirmware.CharClass
import LedFirmware.Numerals

/-!
# Reading an integer

`StrToXL` and its two uses.  The text is scanned as the list of the characters from the
current one on, which is empty at the zero byte.
-/

namespace LedFirmware

open Numerals

/-- The flags `FL_UNSIGNED`, `FL_NEG`, `FL_OVERFLOW` and `FL_READDIGIT`. -/
structure XLFlags where
  unsigned : Bool
  neg : Bool
  overflow : Bool
  readDigit : Bool

structure XLVars where
  number : UInt32
  flags : XLFlags

/-- The value of a character in the middle of the loop, where a letter of any kind counts. -/
def digvalOf (c : UInt8) : Option UInt32 :=
  if isDigit c then some (c - 0x30).toUInt32
  else if isAlpha c then some ((toUpper c - 0x41).toUInt32 + 10)
  else none

/-- The accumulation with its test for an overflow. -/
def digitStep (ibase digval : UInt32) (vars : XLVars) : XLVars :=
  let maxval := 0xFFFFFFFF / ibase
  let flags := { vars.flags with readDigit := true }
  if vars.number < maxval ∨ vars.number = maxval ∧ digval ≤ 0xFFFFFFFF % ibase then
    ⟨vars.number * ibase + digval, flags⟩
  else ⟨vars.number, { flags with overflow := true }⟩

/-- The loop over the digits, and the text that stopped it. -/
def digitLoop (ibase : UInt32) : (text : List UInt8) → (vars : XLVars) → List UInt8 × XLVars
  | [], vars => ([], vars)
  | c :: text, vars =>
      match digvalOf c with
      | none => (c :: text, vars)
      | some digval =>
          if digval ≥ ibase then (c :: text, vars)
          else digitLoop ibase text (digitStep ibase digval vars)

/-- The sign, as the flag `FL_NEG`, and the text behind it. -/
def skipSign (text : List UInt8) : Bool × List UInt8 :=
  if text.headD 0 = 0x2D then (true, text.tail)
  else if text.headD 0 = 0x2B then (false, text.tail)
  else (false, text)

def isHexMark (c : UInt8) : Bool := c = 0x78 ∨ c = 0x58

/-- The base that is found from the text where zero is passed. -/
def chooseBase (ibase : Int) (text : List UInt8) : Int :=
  if ibase = 0 then
    if text.headD 0 ≠ 0x30 then 10
    else if isHexMark (text.tail.headD 0) then 16
    else 8
  else ibase

def skipMark (ibase : Int) (text : List UInt8) : List UInt8 :=
  if ibase = 16 ∧ text.headD 0 = 0x30 ∧ isHexMark (text.tail.headD 0) then text.tail.tail else text

/-- What the end of the function makes of the number. -/
def finish (vars : XLVars) : UInt32 :=
  let flags := vars.flags
  let number :=
    if !flags.readDigit then 0
    else if flags.overflow || !flags.unsigned &&
        (flags.neg && vars.number > 0x80000000 || !flags.neg && vars.number > 0x7FFFFFFF) then
      if flags.unsigned then 0xFFFFFFFF
      else if flags.neg then 0x80000000
      else 0x7FFFFFFF
    else vars.number
  if flags.neg then -number else number

/-- The number and the offset of `*endptr`. -/
def strToXL (nptr : CString) (ibase : Int) (flags : XLFlags) : UInt32 × Nat :=
  let (neg, text) := skipSign (nptr.chars.dropWhile isSpace)
  let flags := { flags with neg := flags.neg || neg }
  if ibase < 0 ∨ ibase = 1 ∨ 36 < ibase then (0, 0)
  else
    let ibase := chooseBase ibase text
    let (stop, vars) := digitLoop (UInt32.ofNat ibase.toNat) (skipMark ibase text) ⟨0, flags⟩
    (finish vars, if vars.flags.readDigit then nptr.chars.length - stop.length else 0)

def strToL (nptr : CString) (ibase : Int) : Int32 × Nat :=
  let (number, endptr) := strToXL nptr ibase ⟨false, false, false, false⟩
  (number.toInt32, endptr)

def strToUL (nptr : CString) (ibase : Int) : UInt32 × Nat :=
  strToXL nptr ibase ⟨true, false, false, false⟩

/-! ## What a numeral is -/

/-- A digit of the base. -/
def IsDigitOf (base : Nat) (c : UInt8) : Prop := ∃ digit, digitOf c = some digit ∧ digit < base

/-- A prefix of the text in its parts.  In base sixteen a mark that is there is not left
out, so that its zero does not count as a digit. -/
structure Numeral (base : Nat) (text spaces sign mark digits : List UInt8) : Prop where
  isPrefix : spaces ++ sign ++ mark ++ digits <+: text
  allSpaces : ∀ c ∈ spaces, isSpace c = true
  isSign : sign = [] ∨ sign = [0x2D] ∨ sign = [0x2B]
  isMark : mark = [] ∨ base = 16 ∧ (mark = [0x30, 0x78] ∨ mark = [0x30, 0x58])
  marked : base = 16 → mark = [] →
    ¬ spaces ++ sign ++ [0x30, 0x78] <+: text ∧ ¬ spaces ++ sign ++ [0x30, 0x58] <+: text
  nonempty : digits ≠ []
  allDigits : ∀ c ∈ digits, IsDigitOf base c

/-- The value of a numeral with this sign and these digits. -/
def signedValue (base : Nat) (sign digits : List UInt8) : Int :=
  if sign = [0x2D] then -(extend base 0 (digits.filterMap digitOf) : Int)
  else (extend base 0 (digits.filterMap digitOf) : Int)

/-- A prefix of the text that is a numeral, by its length and value. -/
def NumeralPrefix (base : Nat) (text : List UInt8) (length : Nat) (v : Int) : Prop :=
  ∃ spaces sign mark digits, Numeral base text spaces sign mark digits ∧
    length = (spaces ++ sign ++ mark ++ digits).length ∧ v = signedValue base sign digits

def LongestNumeral (base : Nat) (text : List UInt8) (length : Nat) (v : Int) : Prop :=
  NumeralPrefix base text length v ∧ ∀ length' v', NumeralPrefix base text length' v' →
    length' ≤ length

variable {base : Nat} {ibase : UInt32} {vars : XLVars} {text : List UInt8}

/-! ## The digits -/

/-- Among the values below 36 the loop finds those of the digits. -/
theorem digvalOf_digitOf (c : UInt8) :
    ((digvalOf c).bind fun digval => if digval < 36 then some digval.toNat else none) =
      digitOf c := by
  rw [digvalOf, isDigit, isAlpha, toUpper, isLower, isMask_eq]
  revert c
  apply LittleEndian.forall_byte
  decide +kernel

/-- The flags that are carried along, and the number as long as it has not overflowed. -/
structure Accumulated (value : Nat) (unsigned neg readDigit : Bool) (vars : XLVars) : Prop where
  unsigned : vars.flags.unsigned = unsigned
  neg : vars.flags.neg = neg
  readDigit : vars.flags.readDigit = readDigit
  within : vars.flags.overflow = false → vars.number.toNat = value ∧ value < 2 ^ 32
  beyond : vars.flags.overflow = true → 2 ^ 32 ≤ value

theorem digitStep_fits {digval : UInt32} (below : digval.toNat < ibase.toNat) :
    (vars.number < 0xFFFFFFFF / ibase ∨
        vars.number = 0xFFFFFFFF / ibase ∧ digval ≤ 0xFFFFFFFF % ibase) ↔
      vars.number.toNat * ibase.toNat + digval.toNat < 2 ^ 32 := by
  have test := @fits_iff ibase.toNat vars.number.toNat 0xFFFFFFFF digval.toNat below
  have limit : (0xFFFFFFFF : UInt32).toNat = 0xFFFFFFFF := rfl
  rw [UInt32.lt_iff_toNat_lt, UInt32.le_iff_toNat_le, ← UInt32.toNat_inj, UInt32.toNat_div,
    UInt32.toNat_mod, limit, test]
  omega

theorem Accumulated.step {value : Nat} {unsigned neg readDigit : Bool} {digval : UInt32}
    (before : Accumulated value unsigned neg readDigit vars) (below : digval.toNat < ibase.toNat) :
    Accumulated (value * ibase.toNat + digval.toNat) unsigned neg true
      (digitStep ibase digval vars) := by
  have grows := @le_extended ibase.toNat value (Nat.zero_lt_of_lt below) digval.toNat
  have test := @digitStep_fits ibase vars digval below
  rw [digitStep]
  by_cases fits : vars.number.toNat * ibase.toNat + digval.toNat < 2 ^ 32
  · rw [if_pos (test.mpr fits)]
    refine ⟨before.unsigned, before.neg, rfl, fun clear => ?_, fun set => ?_⟩
    · obtain ⟨same, _⟩ := before.within clear
      rw [← same, UInt32.toNat_add, UInt32.toNat_mul, Nat.mod_add_mod, Nat.mod_eq_of_lt fits]
      exact ⟨rfl, fits⟩
    · exact (before.beyond set).trans grows
  · rw [if_neg (mt test.mp fits)]
    refine ⟨before.unsigned, before.neg, rfl, fun impossible => (by cases impossible), fun _ => ?_⟩
    cases set : vars.flags.overflow with
    | false =>
        rw [(before.within set).1] at fits
        exact Nat.le_of_not_lt fits
    | true => exact (before.beyond set).trans grows

/-- The loop accumulates the digits and stops at the first other character. -/
theorem digitLoop_eq {value : Nat} {unsigned neg readDigit : Bool} {digits stop : List UInt8}
    (small : ibase.toNat ≤ 36) (all : ∀ c ∈ digits, IsDigitOf ibase.toNat c)
    (ends : ∀ c ∈ stop.head?, ¬ IsDigitOf ibase.toNat c)
    (before : Accumulated value unsigned neg readDigit vars) :
    ∃ after, digitLoop ibase (digits ++ stop) vars = (stop, after) ∧
      Accumulated (extend ibase.toNat value (digits.filterMap digitOf)) unsigned neg
        (readDigit || !digits.isEmpty) after := by
  induction digits generalizing value readDigit vars with
  | nil =>
      refine ⟨vars, ?_, by simpa using before⟩
      cases stop with
      | nil => rfl
      | cons c stop =>
          have other : ¬ IsDigitOf ibase.toNat c := ends c rfl
          have known := digvalOf_digitOf c
          rw [List.nil_append, digitLoop]
          cases found : digvalOf c with
          | none => rfl
          | some digval =>
              rw [found, Option.bind_some] at known
              refine if_pos (UInt32.le_iff_toNat_le.mpr ?_)
              by_contra below
              have below : digval.toNat < ibase.toNat := Nat.lt_of_not_le below
              have room : digval.toNat < 36 := below.trans_le small
              rw [if_pos (show digval < 36 from UInt32.lt_iff_toNat_lt.mpr room)] at known
              exact other ⟨digval.toNat, known.symm, below⟩
  | cons c digits ih =>
      obtain ⟨digit, isDigit, below⟩ := all c List.mem_cons_self
      have known := digvalOf_digitOf c
      rw [isDigit] at known
      rw [List.cons_append, digitLoop]
      cases found : digvalOf c with
      | none => simp [found] at known
      | some digval =>
          rw [found, Option.bind_some] at known
          split at known
          · have same : digval.toNat = digit := Option.some.inj known
            have below' : digval.toNat < ibase.toNat := same ▸ below
            obtain ⟨after, ran, accumulated⟩ := ih
              (fun c member => all c (List.mem_cons_of_mem _ member)) (before.step below')
            refine ⟨after, ?_, ?_⟩
            · rw [← ran]
              exact if_neg fun larger => absurd (UInt32.le_iff_toNat_le.mp larger) (by omega)
            · simpa [List.filterMap_cons, isDigit, ← same] using accumulated
          · cases known

/-! ## The result -/

theorem neg_toNat (number : UInt32) (positive : 0 < number.toNat) :
    (-number).toNat = 2 ^ 32 - number.toNat := by
  have bound := number.toNat_lt
  rw [UInt32.toNat_neg, UInt32.size, Nat.mod_eq_of_lt (by omega)]
  rfl

theorem toInt_toInt32 (number : UInt32) : number.toInt32.toInt =
    if number.toNat < 2 ^ 31 then (number.toNat : Int) else (number.toNat : Int) - 2 ^ 32 := by
  have signed := BitVec.toInt_eq_toNat_cond number.toBitVec
  have half : 2 * number.toBitVec.toNat < 2 ^ 32 ↔ number.toNat < 2 ^ 31 := by
    change 2 * number.toNat < 2 ^ 32 ↔ _
    omega
  simp only [half] at signed
  exact signed

/-- The signed reading clamps. -/
theorem finish_signed {value : Nat} {neg : Bool}
    (read : Accumulated value false neg true vars) :
    (finish vars).toInt32.toInt =
      max (-2 ^ 31) (min (2 ^ 31 - 1) (if neg then -(value : Int) else value)) := by
  obtain ⟨unsigned, sign, digits, within, beyond⟩ := read
  rw [finish]
  simp only [unsigned, sign, digits, Bool.not_true, Bool.false_eq_true, if_false, Bool.not_false,
    Bool.true_and]
  cases overflows : vars.flags.overflow with
  | true =>
      have large := beyond overflows
      cases neg with
      | true =>
          have clamped : (-(0x80000000 : UInt32)).toInt32.toInt = -2 ^ 31 := by decide
          simp only [Bool.true_or, if_true, clamped]
          omega
      | false =>
          have clamped : (0x7FFFFFFF : UInt32).toInt32.toInt = 2 ^ 31 - 1 := by decide
          simp only [Bool.true_or, if_true, Bool.false_eq_true, if_false, clamped]
          omega
  | false =>
      obtain ⟨same, bound⟩ := within overflows
      cases neg with
      | true =>
          simp only [Bool.false_or, Bool.true_and, Bool.not_true, Bool.false_and, Bool.or_false,
            decide_eq_true_eq, if_true]
          by_cases large : vars.number > 0x80000000
          · have clamped : (-(0x80000000 : UInt32)).toInt32.toInt = -2 ^ 31 := by decide
            have more : 0x80000000 < vars.number.toNat := UInt32.lt_iff_toNat_lt.mp large
            rw [if_pos large, clamped]
            omega
          · have most : vars.number.toNat ≤ 0x80000000 :=
              UInt32.le_iff_toNat_le.mp (UInt32.not_lt.mp large)
            rw [if_neg large, toInt_toInt32]
            rcases Nat.eq_zero_or_pos vars.number.toNat with zero | positive
            · have none : vars.number = 0 := UInt32.toNat_inj.mp zero
              rw [none, if_pos (by decide)]
              change (0 : Int) = _
              omega
            · rw [neg_toNat vars.number positive]
              split <;> omega
      | false =>
          simp only [Bool.false_or, Bool.false_and, Bool.not_false, Bool.true_and,
            decide_eq_true_eq, Bool.false_eq_true, if_false]
          by_cases large : vars.number > 0x7FFFFFFF
          · have clamped : (0x7FFFFFFF : UInt32).toInt32.toInt = 2 ^ 31 - 1 := by decide
            have more : 0x7FFFFFFF < vars.number.toNat := UInt32.lt_iff_toNat_lt.mp large
            rw [if_pos large, clamped]
            omega
          · have most : vars.number.toNat ≤ 0x7FFFFFFF :=
              UInt32.le_iff_toNat_le.mp (UInt32.not_lt.mp large)
            rw [if_neg large, toInt_toInt32, if_pos (by omega)]
            omega

/-- The unsigned reading wraps a sign around, and clamps without one. -/
theorem finish_unsigned {value : Nat} {neg : Bool}
    (read : Accumulated value true neg true vars) :
    (value < 2 ^ 32 →
        ((finish vars).toNat : Int) = (if neg then -(value : Int) else value) % 2 ^ 32) ∧
      (2 ^ 32 ≤ value → neg = false → (finish vars).toNat = 2 ^ 32 - 1) := by
  obtain ⟨unsigned, sign, digits, within, beyond⟩ := read
  rw [finish]
  simp only [unsigned, sign, digits, Bool.not_true, Bool.false_eq_true, if_false, Bool.false_and,
    Bool.or_false, if_true]
  constructor
  · intro small
    cases overflows : vars.flags.overflow with
    | true => exact absurd small (Nat.not_lt_of_le (beyond overflows))
    | false =>
        obtain ⟨same, bound⟩ := within overflows
        cases neg with
        | true =>
            simp only [Bool.false_eq_true, if_false, if_true]
            rcases Nat.eq_zero_or_pos vars.number.toNat with zero | positive
            · have none : vars.number = 0 := UInt32.toNat_inj.mp zero
              rw [none, ← same, zero]
              rfl
            · rw [neg_toNat vars.number positive]
              omega
        | false =>
            simp only [Bool.false_eq_true, if_false]
            omega
  · rintro large rfl
    cases overflows : vars.flags.overflow with
    | true => rfl
    | false => exact absurd (within overflows).2 (Nat.not_lt_of_le large)

/-! ## The parts of the text -/

theorem eq_cons_of_headD {c : UInt8} (nonzero : c ≠ 0) (found : text.headD 0 = c) :
    text = c :: text.tail := by
  cases text with
  | nil => exact absurd found.symm nonzero
  | cons head text => exact congrArg (· :: text) found

/-- A digit is neither white space nor a sign. -/
theorem IsDigitOf.other {c : UInt8} (isDigit : IsDigitOf base c) :
    isSpace c = false ∧ c ≠ 0x2B ∧ c ≠ 0x2D := by
  obtain ⟨digit, found, -⟩ := isDigit
  refine ⟨?_, fun plus => ?_, fun minus => ?_⟩
  · cases space : isSpace c with
    | false => rfl
    | true => rw [digitOf_none (Or.inl space)] at found; cases found
  · rw [digitOf_none (Or.inr (Or.inl plus))] at found; cases found
  · rw [digitOf_none (Or.inr (Or.inr (Or.inl minus)))] at found; cases found

/-- What follows the white space and the sign of a numeral begins with neither. -/
theorem Numeral.head {spaces sign mark digits : List UInt8}
    (numeral : Numeral base text spaces sign mark digits) (rest : List UInt8) :
    ∃ c more, mark ++ digits ++ rest = c :: more ∧
      isSpace c = false ∧ c ≠ 0x2B ∧ c ≠ 0x2D := by
  rcases numeral.isMark with rfl | ⟨-, rfl | rfl⟩
  · cases digits with
    | nil => exact absurd rfl numeral.nonempty
    | cons c digits =>
        exact ⟨c, digits ++ rest, rfl, (numeral.allDigits c List.mem_cons_self).other⟩
  · exact ⟨0x30, 0x78 :: digits ++ rest, rfl, by decide⟩
  · exact ⟨0x30, 0x58 :: digits ++ rest, rfl, by decide⟩

/-- The scan passes the white space and the sign of every numeral of the text. -/
theorem Numeral.skipSign_eq {spaces sign mark digits rest : List UInt8}
    (numeral : Numeral base text spaces sign mark digits)
    (whole : spaces ++ sign ++ mark ++ digits ++ rest = text) :
    skipSign (text.dropWhile isSpace) = (decide (sign = [0x2D]), mark ++ digits ++ rest) := by
  obtain ⟨c, more, begins, noSpace, noPlus, noMinus⟩ := numeral.head rest
  have spaces' : text.dropWhile isSpace = (sign ++ (mark ++ digits ++ rest)).dropWhile isSpace := by
    rw [← whole, List.append_assoc, List.append_assoc, List.append_assoc,
      List.dropWhile_append_of_pos numeral.allSpaces, List.append_assoc]
  rw [spaces', begins]
  rcases numeral.isSign with rfl | rfl | rfl
  · rw [List.nil_append, List.dropWhile_cons_of_neg (by simp [noSpace]), skipSign,
      List.headD_cons, if_neg noMinus, if_neg noPlus]
    rfl
  · rfl
  · rfl

/-- The scan passes its mark, too. -/
theorem Numeral.skipMark_eq {spaces sign mark digits rest : List UInt8}
    (numeral : Numeral base text spaces sign mark digits)
    (whole : spaces ++ sign ++ mark ++ digits ++ rest = text) :
    skipMark base (mark ++ digits ++ rest) = digits ++ rest := by
  rcases numeral.isMark with rfl | ⟨rfl, rfl | rfl⟩
  · rw [skipMark, List.nil_append]
    refine if_neg ?_
    rintro ⟨hex, zero, isMark⟩
    have sixteen : base = 16 := by exact_mod_cast hex
    obtain ⟨noLower, noUpper⟩ := numeral.marked sixteen rfl
    have begins := eq_cons_of_headD (by decide) zero
    simp only [isHexMark, Bool.decide_or, Bool.or_eq_true, decide_eq_true_eq] at isMark
    rw [List.append_nil, List.append_assoc, begins] at whole
    rcases isMark with lower | upper
    · rw [eq_cons_of_headD (by decide) lower] at whole
      exact noLower ⟨_, by rw [List.append_assoc]; exact whole⟩
    · rw [eq_cons_of_headD (by decide) upper] at whole
      exact noUpper ⟨_, by rw [List.append_assoc]; exact whole⟩
  · rfl
  · rfl

/-- What the scan has passed is white space and a sign. -/
theorem skipSign_parts {neg : Bool} {marked : List UInt8}
    (scanned : skipSign (text.dropWhile isSpace) = (neg, marked)) :
    ∃ spaces sign, text = spaces ++ sign ++ marked ∧ (∀ c ∈ spaces, isSpace c = true) ∧
      (sign = [] ∨ sign = [0x2D] ∨ sign = [0x2B]) := by
  have parts : text.takeWhile isSpace ++ text.dropWhile isSpace = text :=
    List.takeWhile_append_dropWhile
  have allSpaces : ∀ c ∈ text.takeWhile isSpace, isSpace c = true :=
    List.all_eq_true.mp List.all_takeWhile
  generalize text.takeWhile isSpace = spaces at parts allSpaces
  generalize text.dropWhile isSpace = signed at parts scanned
  rw [skipSign] at scanned
  split at scanned
  · rename_i minus
    obtain ⟨-, rfl⟩ := Prod.mk.inj scanned
    refine ⟨spaces, [0x2D], ?_, allSpaces, Or.inr (Or.inl rfl)⟩
    rw [← parts, eq_cons_of_headD (by decide) minus]
    simp
  · split at scanned
    · rename_i plus
      obtain ⟨-, rfl⟩ := Prod.mk.inj scanned
      refine ⟨spaces, [0x2B], ?_, allSpaces, Or.inr (Or.inr rfl)⟩
      rw [← parts, eq_cons_of_headD (by decide) plus]
      simp
    · obtain ⟨-, rfl⟩ := Prod.mk.inj scanned
      exact ⟨spaces, [], by rw [← parts, List.append_nil], allSpaces, Or.inl rfl⟩

/-- What the mark's branch has passed is a mark, and it passes every one. -/
theorem skipMark_parts (base : Nat) (marked : List UInt8) :
    ∃ mark, marked = mark ++ skipMark base marked ∧
      (mark = [] ∨ base = 16 ∧ (mark = [0x30, 0x78] ∨ mark = [0x30, 0x58])) ∧
        (base = 16 → mark = [] → ¬ [0x30, 0x78] <+: marked ∧ ¬ [0x30, 0x58] <+: marked) := by
  rw [skipMark]
  split
  · rename_i isMark
    obtain ⟨hex, zero, lowerOrUpper⟩ := isMark
    have sixteen : base = 16 := by exact_mod_cast hex
    have begins := eq_cons_of_headD (by decide) zero
    simp only [isHexMark, Bool.decide_or, Bool.or_eq_true, decide_eq_true_eq] at lowerOrUpper
    rcases lowerOrUpper with lower | upper
    · rw [eq_cons_of_headD (by decide) lower] at begins
      exact ⟨[0x30, 0x78], begins, Or.inr ⟨sixteen, Or.inl rfl⟩,
        fun _ impossible => (by cases impossible)⟩
    · rw [eq_cons_of_headD (by decide) upper] at begins
      exact ⟨[0x30, 0x58], begins, Or.inr ⟨sixteen, Or.inr rfl⟩,
        fun _ impossible => (by cases impossible)⟩
  · rename_i noMark
    refine ⟨[], rfl, Or.inl rfl, fun sixteen _ => ⟨?_, ?_⟩⟩
    · rintro ⟨more, rfl⟩
      exact noMark ⟨by exact_mod_cast sixteen, rfl, rfl⟩
    · rintro ⟨more, rfl⟩
      exact noMark ⟨by exact_mod_cast sixteen, rfl, rfl⟩

/-- Where the scan comes to a digit, the text has a numeral. -/
theorem numeral_of_scan {neg : Bool} {marked text' : List UInt8} {c : UInt8}
    (scanned : skipSign (text.dropWhile isSpace) = (neg, marked))
    (skipped : skipMark base marked = c :: text') (isDigit : IsDigitOf base c) :
    ∃ spaces sign mark, Numeral base text spaces sign mark [c] := by
  obtain ⟨spaces, sign, rfl, allSpaces, isSign⟩ := skipSign_parts scanned
  obtain ⟨mark, whole, isMark, passed⟩ := skipMark_parts base marked
  rw [skipped] at whole
  refine ⟨spaces, sign, mark, ⟨⟨text', ?_⟩, allSpaces, isSign, isMark, ?_, by simp, ?_⟩⟩
  · rw [whole]
    simp
  · intro sixteen none
    obtain ⟨noLower, noUpper⟩ := passed sixteen none
    exact ⟨fun lower => noLower ((List.prefix_append_right_inj _).mp lower),
      fun upper => noUpper ((List.prefix_append_right_inj _).mp upper)⟩
  · intro d member
    rwa [List.mem_singleton.mp member]

/-- A numeral of the text can be extended by a digit that follows it. -/
theorem Numeral.extended {spaces sign mark digits rest : List UInt8} {c : UInt8}
    (numeral : Numeral base text spaces sign mark digits)
    (whole : spaces ++ sign ++ mark ++ digits ++ c :: rest = text) (isDigit : IsDigitOf base c) :
    Numeral base text spaces sign mark (digits ++ [c]) := by
  refine ⟨⟨rest, ?_⟩, numeral.allSpaces, numeral.isSign, numeral.isMark, numeral.marked, ?_, ?_⟩
  · rw [← whole]
    simp
  · simp
  · intro d member
    rcases List.mem_append.mp member with before | last
    · exact numeral.allDigits d before
    · rwa [List.mem_singleton.mp last]

/-! ## The reading of a text -/

theorem ofNat_base (small : base ≤ 36) : (UInt32.ofNat ((base : Int).toNat)).toNat = base := by
  rw [Int.toNat_natCast, UInt32.toNat_ofNat', Nat.mod_eq_of_lt (by omega)]

theorem chooseBase_eq (positive : 2 ≤ base) : chooseBase base text = base := by
  rw [chooseBase, if_neg (by omega)]

/-- What the function returns where the text has a longest numeral. -/
theorem strToXL_longest {nptr : CString} {unsigned : Bool} {length : Nat} {v : Int}
    (positive : 2 ≤ base) (small : base ≤ 36)
    (longest : LongestNumeral base nptr.chars length v) :
    ∃ (neg : Bool) (value : Nat) (after : XLVars),
      strToXL nptr base ⟨unsigned, false, false, false⟩ = (finish after, length) ∧
        Accumulated value unsigned neg true after ∧
          v = if neg then -(value : Int) else (value : Int) := by
  obtain ⟨⟨spaces, sign, mark, digits, numeral, rfl, rfl⟩, most⟩ := longest
  obtain ⟨rest, whole⟩ := numeral.isPrefix
  have ends : ∀ c ∈ rest.head?, ¬ IsDigitOf base c := by
    intro c first isDigit
    cases rest with
    | nil => cases first
    | cons d rest =>
        obtain rfl : d = c := Option.some.inj first
        have longer := most _ _ ⟨spaces, sign, mark, digits ++ [d],
          numeral.extended whole isDigit, rfl, rfl⟩
        simp at longer
  have before : Accumulated 0 unsigned (decide (sign = [0x2D])) false
      ⟨0, ⟨unsigned, decide (sign = [0x2D]), false, false⟩⟩ :=
    ⟨rfl, rfl, rfl, fun _ => ⟨rfl, by decide⟩, fun impossible => (by cases impossible)⟩
  have base' := @ofNat_base base small
  obtain ⟨after, ran, accumulated⟩ := @digitLoop_eq (UInt32.ofNat ((base : Int).toNat))
    _ _ _ _ _ digits rest (by rwa [base']) (by rw [base']; exact numeral.allDigits)
    (by rw [base']; exact ends) before
  rw [base'] at accumulated
  have read : (false || !digits.isEmpty) = true := by
    cases digits with
    | nil => exact absurd rfl numeral.nonempty
    | cons c digits => rfl
  rw [read] at accumulated
  refine ⟨decide (sign = [0x2D]), extend base 0 (digits.filterMap digitOf), after, ?_,
    accumulated, ?_⟩
  · have length : nptr.chars.length - rest.length =
        (spaces ++ sign ++ mark ++ digits).length := by
      rw [← whole, List.length_append, Nat.add_sub_cancel]
    rw [strToXL, numeral.skipSign_eq whole]
    simp only [Bool.false_or, chooseBase_eq positive, numeral.skipMark_eq whole, ran,
      accumulated.readDigit, if_true, length]
    exact if_neg (by omega)
  · rw [signedValue]
    by_cases minus : sign = [0x2D]
    · rw [if_pos minus, decide_eq_true minus, if_pos rfl]
    · rw [if_neg minus, decide_eq_false minus, if_neg Bool.false_ne_true]

/-- What it returns where the text has none. -/
theorem strToXL_none {nptr : CString} {unsigned : Bool} (positive : 2 ≤ base) (small : base ≤ 36)
    (none : ¬ ∃ length v, NumeralPrefix base nptr.chars length v) :
    strToXL nptr base ⟨unsigned, false, false, false⟩ = (0, 0) := by
  cases scanned : skipSign (nptr.chars.dropWhile isSpace) with
  | mk neg marked =>
      have base' := @ofNat_base base small
      have before : Accumulated 0 unsigned neg false ⟨0, ⟨unsigned, neg, false, false⟩⟩ :=
        ⟨rfl, rfl, rfl, fun _ => ⟨rfl, by decide⟩, fun impossible => (by cases impossible)⟩
      have ends : ∀ c ∈ (skipMark base marked).head?, ¬ IsDigitOf base c := by
        intro c first isDigit
        obtain ⟨rest, skipped⟩ := List.head?_eq_some_iff.mp first
        obtain ⟨spaces, sign, mark, numeral⟩ := numeral_of_scan scanned skipped isDigit
        exact none ⟨_, _, spaces, sign, mark, [c], numeral, rfl, rfl⟩
      obtain ⟨after, ran, accumulated⟩ := @digitLoop_eq (UInt32.ofNat ((base : Int).toNat))
        _ _ _ _ _ [] (skipMark base marked) (by rwa [base']) (by simp)
        (by rw [base']; exact ends) before
      rw [List.nil_append] at ran
      have noDigit : after.flags.readDigit = false := accumulated.readDigit
      have nothing : finish after = 0 := by
        rw [finish]
        simp [noDigit]
      rw [strToXL, scanned]
      simp only [Bool.false_or, chooseBase_eq positive, ran, noDigit, Bool.false_eq_true,
        if_false, nothing]
      exact if_neg (by omega)

theorem NumeralPrefix.length_le {length : Nat} {v : Int}
    (found : NumeralPrefix base text length v) : length ≤ text.length := by
  obtain ⟨spaces, sign, mark, digits, numeral, rfl, rfl⟩ := found
  exact numeral.isPrefix.length_le

/-- A numeral that is the whole text is the longest one. -/
theorem longest_of_whole {spaces sign mark digits : List UInt8}
    (numeral : Numeral base text spaces sign mark digits)
    (whole : spaces ++ sign ++ mark ++ digits = text) :
    LongestNumeral base text text.length (signedValue base sign digits) :=
  ⟨⟨spaces, sign, mark, digits, numeral, by rw [whole], rfl⟩, fun _ _ found => found.length_le⟩

/-- A text that has a numeral has a longest one. -/
theorem exists_longest (found : ∃ length v, NumeralPrefix base text length v) :
    ∃ length v, LongestNumeral base text length v := by
  classical
  obtain ⟨length, v, first⟩ := found
  obtain ⟨v, longest⟩ := Nat.findGreatest_spec
    (P := fun length => ∃ v, NumeralPrefix base text length v) first.length_le ⟨v, first⟩
  exact ⟨_, v, longest, fun length' v' found =>
    Nat.le_findGreatest found.length_le ⟨v', found⟩⟩

/-- The functions read the longest numeral of a text: `StrToL` clamps its value to 32 bits,
`StrToUL` takes it modulo 2^32 and clamps what is too large, and the end is behind its last
digit.  Every text has a longest numeral or none at all, and then both return zero and the
start of the text. -/
theorem integer_parsing (base : Nat) (positive : 2 ≤ base) (small : base ≤ 36)
    (nptr : CString) :
    (∀ length v, LongestNumeral base nptr.chars length v →
        ((strToL nptr base).1.toInt = max (-2 ^ 31) (min (2 ^ 31 - 1) v) ∧
          (strToL nptr base).2 = length) ∧
        (v.natAbs ≤ 2 ^ 32 - 1 → ((strToUL nptr base).1.toNat : Int) = v % 2 ^ 32) ∧
        (2 ^ 32 - 1 < v → (strToUL nptr base).1.toNat = 2 ^ 32 - 1) ∧
        (strToUL nptr base).2 = length) ∧
      ((¬ ∃ length v, NumeralPrefix base nptr.chars length v) →
        strToL nptr base = (0, 0) ∧ strToUL nptr base = (0, 0)) ∧
      ((∃ length v, LongestNumeral base nptr.chars length v) ∨
        ¬ ∃ length v, NumeralPrefix base nptr.chars length v) := by
  refine ⟨fun length v longest => ?_, fun none => ?_, ?_⟩
  · obtain ⟨neg, value, signed, readSigned, accumulated, same⟩ :=
      @strToXL_longest base nptr false length v positive small longest
    obtain ⟨neg', value', unsigned, readUnsigned, accumulated', same'⟩ :=
      @strToXL_longest base nptr true length v positive small longest
    obtain ⟨wraps, clamps⟩ := finish_unsigned accumulated'
    have clamped := finish_signed accumulated
    rw [← same] at clamped
    rw [← same'] at wraps
    rw [strToL, strToUL, readSigned, readUnsigned]
    refine ⟨⟨clamped, rfl⟩, fun within => wraps ?_, fun beyond => clamps ?_ ?_, rfl⟩
    · cases neg' with
      | true =>
          rw [if_pos rfl] at same'
          omega
      | false =>
          rw [if_neg Bool.false_ne_true] at same'
          omega
    · cases neg' with
      | true =>
          rw [if_pos rfl] at same'
          omega
      | false =>
          rw [if_neg Bool.false_ne_true] at same'
          omega
    · cases neg' with
      | true =>
          rw [if_pos rfl] at same'
          omega
      | false => rfl
  · rw [strToL, strToUL, strToXL_none positive small none, strToXL_none positive small none]
    exact ⟨rfl, rfl⟩
  · by_cases found : ∃ length v, NumeralPrefix base nptr.chars length v
    · exact Or.inl (exists_longest found)
    · exact Or.inr found

/-- The text -0x1F. -/
def hexText : CString := ⟨[0x2D, 0x30, 0x78, 0x31, 0x46], by decide⟩

theorem hexText_longest : LongestNumeral 16 hexText.chars 5 (-31) := by
  have numeral : Numeral 16 hexText.chars [] [0x2D] [0x30, 0x78] [0x31, 0x46] := by
    refine ⟨⟨[], rfl⟩, by simp, Or.inr (Or.inl rfl), Or.inr ⟨rfl, Or.inl rfl⟩,
      fun _ impossible => (by cases impossible), by simp, ?_⟩
    intro c member
    rcases List.mem_cons.mp member with rfl | last
    · exact ⟨1, by decide, by decide⟩
    · rw [List.mem_singleton.mp last]
      exact ⟨15, by decide, by decide⟩
  exact longest_of_whole numeral rfl

theorem integer_parsing_hex : (strToL hexText 16).1.toInt = max (-2 ^ 31) (min (2 ^ 31 - 1) (-31)) ∧
    (strToL hexText 16).2 = 5 :=
  ((integer_parsing 16 (by decide) (by decide) hexText).1 5 (-31) hexText_longest).1

end LedFirmware
