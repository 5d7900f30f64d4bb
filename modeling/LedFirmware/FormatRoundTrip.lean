import LedFirmware.Vsscanf
import LedFirmware.VsnprintfCursor

/-!
# Integers printed and read back

What `Vsnprintf` prints for an integer conversion without flags, and what `Vsscanf` makes of it
by the same conversion.  A printed number keeps 32 bits.
-/

namespace LedFirmware

open StoreLog Numerals

/-! ## What is printed -/

theorem smallDigits_eq {digit : Nat} (below : digit < 36) :
    smallDigits.getD digit 0 = digitChar (UInt32.ofNat digit) := by
  have all : ∀ digit < 36, smallDigits.getD digit 0 = digitChar (UInt32.ofNat digit) := by
    decide +kernel
  exact all digit below

/-- The digits of the low 32 bits, the last one first. -/
theorem tmpDigits_eq (radix : Radix) {num : UInt64} (nonzero : num ≠ 0) :
    tmpDigits smallDigits radix num =
      (loopDigits radix.value.toNat (num.toNat % 2 ^ 32)).map fun digit =>
        digitChar (UInt32.ofNat digit) := by
  have two := radix.atLeastTwo
  have digit_eq : smallDigits.getD (num.toUInt32 % radix.value).toNat 0 =
      digitChar (UInt32.ofNat (num.toNat % 2 ^ 32 % radix.value.toNat)) := by
    have below := Nat.mod_lt (num.toNat % 2 ^ 32) (Nat.zero_lt_of_lt two)
    rw [UInt32.toNat_mod, UInt64.toNat_toUInt32]
    exact smallDigits_eq (below.trans_le radix.atMost)
  have quotient_eq : (num.toUInt32 / radix.value).toUInt64.toNat =
      num.toNat % 2 ^ 32 / radix.value.toNat := by
    rw [UInt32.toNat_toUInt64, UInt32.toNat_div, UInt64.toNat_toUInt32]
  rw [tmpDigits, dif_neg nonzero, digit_eq, loopDigits_eq two, List.map_cons]
  by_cases more : (num.toUInt32 / radix.value).toUInt64 = 0
  · rw [more] at quotient_eq ⊢
    rw [tmpDigits, dif_pos rfl, ← quotient_eq]
    simp
  · have positive : 0 < num.toNat % 2 ^ 32 / radix.value.toNat := by
      rw [← quotient_eq]
      exact Nat.pos_of_ne_zero fun zero => more (UInt64.toNat_inj.mp zero)
    have small : num.toNat % 2 ^ 32 / radix.value.toNat < 2 ^ 32 :=
      (Nat.div_le_self _ _).trans_lt (Nat.mod_lt _ (by decide))
    rw [tmpDigits_eq radix more, quotient_eq, Nat.mod_eq_of_lt small, if_pos positive]
  termination_by num.toNat
  decreasing_by exact quotient32_lt nonzero

/-- A number with its sign. -/
def signedText (radix : Radix) (negative : Bool) (number : Nat) : CString where
  chars := (if negative then [0x2D] else []) ++ numeralText radix.value.toNat number
  noNul := by
    have digits := @numeralText_noNul radix.value.toNat number radix.atLeastTwo radix.atMost
    cases negative <;> simpa using digits

theorem tmp_reverse (radix : Radix) (num : UInt64) :
    (if num = 0 then [0x30] else tmpDigits smallDigits radix num).reverse =
      numeralText radix.value.toNat (num.toNat % 2 ^ 32) := by
  by_cases zero : num = 0
  · subst zero
    rfl
  · rw [if_neg zero, tmpDigits_eq radix zero, numeralText, List.map_reverse]

/-- Without padding, prefix and zeros the text is the sign and the digits. -/
theorem NumberParts.text_bare {parts : NumberParts} (radix : Radix)
    (flags : parts.type.zeropad = false ∧ parts.type.left = false ∧ parts.type.special = false)
    (precision_eq : parts.precision = parts.tmp.length) (size_le : parts.size ≤ 0) :
    parts.text radix = (if parts.sign ≠ 0 then [parts.sign] else []) ++ parts.tmp.reverse := by
  have no_padding (c : UInt8) : padding c parts.size = ([], parts.size - 1) := by
    rw [padding, show parts.size.toNat = 0 by omega, Int.min_eq_left size_le]
    rfl
  have no_padding' (c : UInt8) : padding c (parts.size - 1) = ([], parts.size - 1 - 1) := by
    rw [padding, show (parts.size - 1).toNat = 0 by omega, Int.min_eq_left (by omega)]
    rfl
  have no_padding'' (c : UInt8) : (padding c (parts.size - 1 - 1)).1 = [] := by
    rw [padding, show (parts.size - 1 - 1).toNat = 0 by omega]
    rfl
  simp [text, flags, precision_eq, no_padding, no_padding', no_padding'']

theorem numberSign_plain (signed : Bool) (num : UInt64) (size : Int) :
    numberSign { FormatFlags.none with sign := signed } num size =
      if signed ∧ num.toInt64 < 0 then (0x2D, (-num.toInt64).toUInt64, size - 1)
      else (0, num, size) := by
  cases signed <;> simp [numberSign, FormatFlags.none]

/-- Without flags, width and precision a number is printed as its low 32 bits. -/
theorem vsnprintfNumber_plain (radix : Radix) (signed : Bool) (num : UInt64) :
    vsnprintfNumber num radix (-1) (-1) { FormatFlags.none with sign := signed } =
      (signedText radix (signed ∧ num.toInt64 < 0)
        ((if signed ∧ num.toInt64 < 0 then (-num.toInt64).toUInt64 else num).toNat %
          2 ^ 32)).chars := by
  have precision_eq (length : Nat) :
      (if (-1 : Int) < length then (length : Int) else -1) = length :=
    if_pos (by omega)
  have parts_eq : numberParts num radix (-1) (-1) { FormatFlags.none with sign := signed } =
      let sign := numberSign { FormatFlags.none with sign := signed } num (-1)
      let tmp := if sign.2.1 = 0 then [0x30] else tmpDigits smallDigits radix sign.2.1
      ⟨smallDigits, { FormatFlags.none with sign := signed }, sign.1, tmp, tmp.length,
        sign.2.2 - tmp.length⟩ := by
    simp only [numberParts, FormatFlags.none, precision_eq, Bool.false_eq_true, if_false]
    rfl
  rw [vsnprintfNumber_eq_text, parts_eq, numberSign_plain,
    NumberParts.text_bare radix ⟨rfl, rfl, rfl⟩ rfl]
  · dsimp only
    rw [tmp_reverse, signedText]
    by_cases negative : signed ∧ num.toInt64 < 0 <;> simp [negative]
  · split <;> dsimp only <;> omega

/-- The integer conversions `d`, `u`, `o` and `x`. -/
inductive IntegerLetter
  | d | u | o | x

namespace IntegerLetter

def char : IntegerLetter → UInt8
  | d => 0x64
  | u => 0x75
  | o => 0x6F
  | x => 0x78

def radix : IntegerLetter → Radix
  | d | u => .ten
  | o => .eight
  | x => .sixteen

def signed : IntegerLetter → Bool
  | d => true
  | u | o | x => false

/-- The format of one conversion, with the qualifier `ll` if it is long. -/
def format (letter : IntegerLetter) (long : Bool) : CString where
  chars := 0x25 :: (if long then [0x6C, 0x6C] else []) ++ [letter.char]
  noNul := by cases letter <;> cases long <;> decide

/-- The text of a number of 64 bits. -/
def text (letter : IntegerLetter) (num : UInt64) : CString :=
  signedText letter.radix (letter.signed ∧ num.toInt64 < 0)
    ((if letter.signed ∧ num.toInt64 < 0 then (-num.toInt64).toUInt64 else num).toNat % 2 ^ 32)

end IntegerLetter

theorem formatLoop_integer (letter : IntegerLetter) (long : Bool) {arg : Arg} {num : UInt64}
    (taken : integerArg letter.signed [arg] (if long then .longLong else .none) =
      some (num, [])) :
    formatLoop (letter.format long).chars [arg] 0 = some ((letter.text num).chars, []) := by
  have head_eq : directive ((if long then [0x6C, 0x6C] else []) ++ [letter.char]) [arg] =
      some ⟨.none, -1, -1, if long then .longLong else .none, [letter.char], [arg]⟩ := by
    cases letter <;> cases long <;> rfl
  have letter_eq : convert .none (-1) (-1) (if long then .longLong else .none) 0 [arg]
      [letter.char] = integerText letter.radix { FormatFlags.none with sign := letter.signed }
        (-1) (-1) (if long then .longLong else .none) [] [arg] := by
    cases letter <;> rfl
  have converted_eq : convert .none (-1) (-1) (if long then .longLong else .none) 0 [arg]
      [letter.char] = some ⟨(letter.text num).chars, [], [], []⟩ := by
    rw [letter_eq, integerText, taken, IntegerLetter.text, ← vsnprintfNumber_plain]
    rfl
  change formatLoop (0x25 :: ((if long then [0x6C, 0x6C] else []) ++ [letter.char])) [arg] 0 = _
  rw [formatLoop_directive, head_eq]
  simp [converted_eq, formatLoop]

/-! ## What is read -/

theorem simpleValue_digitChar {digit : Nat} (below : digit < 16) :
    isXDigit (digitChar (UInt32.ofNat digit)) = true ∧
      simpleValue (digitChar (UInt32.ofNat digit)) = UInt32.ofNat digit ∧
        toUpper (digitChar (UInt32.ofNat digit)) ≠ 0x58 := by
  have all : ∀ digit < 16, isXDigit (digitChar (UInt32.ofNat digit)) = true ∧
      simpleValue (digitChar (UInt32.ofNat digit)) = UInt32.ofNat digit ∧
        toUpper (digitChar (UInt32.ofNat digit)) ≠ 0x58 := by
    decide +kernel
  exact all digit below

section Digits

variable {base : UInt32} (small : base.toNat ≤ 16)

include small

theorem simpleValue_lt {digit : Nat} (below : digit < base.toNat) :
    isXDigit (digitChar (UInt32.ofNat digit)) ∧
      simpleValue (digitChar (UInt32.ofNat digit)) < base := by
  have value := simpleValue_digitChar (below.trans_le small)
  refine ⟨value.1, ?_⟩
  rw [value.2.1, UInt32.lt_iff_toNat_lt, UInt32.toNat_ofNat',
    Nat.mod_eq_of_lt (below.trans base.toNat_lt)]
  exact below

/-- A loop that takes one digit at a time reads the number that the digits stand for. -/
theorem digits_read {Result : Type} {loop : List UInt8 → Result → Result × List UInt8}
    {numeral : Nat → Result} (ends : ∀ result, loop [] result = (result, []))
    (takes : ∀ c cp number, isXDigit c → simpleValue c < base →
      loop (c :: cp) (numeral number) =
        loop cp (numeral (number * base.toNat + (simpleValue c).toNat)))
    (digits : List Nat) (below : ∀ digit ∈ digits, digit < base.toNat) (number : Nat) :
    loop (digits.map fun digit => digitChar (UInt32.ofNat digit)) (numeral number) =
      (numeral (extend base.toNat number digits), []) := by
  induction digits generalizing number with
  | nil => exact ends _
  | cons digit digits ih =>
      have first := below digit List.mem_cons_self
      have digit_eq : (UInt32.ofNat digit).toNat = digit :=
        UInt32.toNat_ofNat_of_lt' (first.trans base.toNat_lt)
      obtain ⟨isDigit, less⟩ := simpleValue_lt small first
      rw [List.map_cons, takes _ _ _ isDigit less,
        (simpleValue_digitChar (first.trans_le small)).2.1, digit_eq,
        ih fun digit member => below digit (List.mem_cons_of_mem _ member), extend_cons]

theorem strtoulLoop_digits (digits : List Nat) (below : ∀ digit ∈ digits, digit < base.toNat) :
    strtoulLoop base (digits.map fun digit => digitChar (UInt32.ofNat digit)) 0 =
      (UInt32.ofNat (extend base.toNat 0 digits), []) := by
  refine @digits_read base small UInt32 (strtoulLoop base) UInt32.ofNat (fun _ => rfl)
    (fun c cp number isDigit less => ?_) digits below 0
  rw [strtoulLoop, if_pos ⟨isDigit, less⟩, UInt32.ofNat_add, UInt32.ofNat_mul, UInt32.ofNat_toNat,
    UInt32.ofNat_toNat]

theorem strtoullLoop_digits (digits : List Nat) (below : ∀ digit ∈ digits, digit < base.toNat) :
    strtoullLoop base (digits.map fun digit => digitChar (UInt32.ofNat digit)) 0 =
      (UInt64.ofNat (extend base.toNat 0 digits), []) := by
  refine @digits_read base small UInt64 (strtoullLoop base) UInt64.ofNat (fun _ => rfl)
    (fun c cp number isDigit less => ?_) digits below 0
  rw [strtoullLoop, if_pos ⟨isDigit, less⟩, UInt64.ofNat_add, UInt64.ofNat_mul,
    UInt64.ofNat_uInt32ToNat, UInt64.ofNat_uInt32ToNat]

end Digits

/-- A digit of a conversion begins a number there, and is neither a sign nor white space. -/
theorem IntegerLetter.digit_begins (letter : IntegerLetter) {digit : Nat}
    (below : digit < letter.radix.value.toNat) :
    scanDigit letter.radix.value false [digitChar (UInt32.ofNat digit)] = true ∧
      digitChar (UInt32.ofNat digit) ≠ 0x2D ∧ isSpace (digitChar (UInt32.ofNat digit)) = false := by
  have all : ∀ digit < letter.radix.value.toNat,
      scanDigit letter.radix.value false [digitChar (UInt32.ofNat digit)] = true ∧
        digitChar (UInt32.ofNat digit) ≠ 0x2D ∧
          isSpace (digitChar (UInt32.ofNat digit)) = false := by
    cases letter <;> decide +kernel
  exact all digit below

theorem IntegerLetter.radix_le (letter : IntegerLetter) : letter.radix.value.toNat ≤ 16 := by
  cases letter <;> decide

theorem numeralText_cons (radix : Radix) (number : Nat) :
    ∃ digit rest, digit < radix.value.toNat ∧
      numeralText radix.value.toNat number = digitChar (UInt32.ofNat digit) :: rest := by
  obtain ⟨digit, rest, digits_eq⟩ : ∃ digit rest,
      (loopDigits radix.value.toNat number).reverse = digit :: rest :=
    List.exists_cons_of_ne_nil (by simpa using loopDigits_ne_nil radix.value.toNat number)
  have member : digit ∈ loopDigits radix.value.toNat number := by
    rw [← List.mem_reverse, digits_eq]
    exact List.mem_cons_self
  exact ⟨digit, _, loopDigits_lt radix.atLeastTwo member, by
    rw [numeralText, digits_eq, List.map_cons]⟩

/-- The digits of a conversion have no prefix in front of them. -/
theorem IntegerLetter.simpleBase_eq (letter : IntegerLetter) (number : Nat) :
    simpleBase (numeralText letter.radix.value.toNat number) letter.radix.value =
      (letter.radix.value, numeralText letter.radix.value.toNat number) := by
  have nonzero : letter.radix.value ≠ 0 := by cases letter <;> decide
  have no_mark (text : List UInt8) (digits : ∀ c ∈ text, toUpper c ≠ 0x58) :
      toUpper (text.headD 0) ≠ 0x58 := by
    cases text with
    | nil => decide
    | cons c text => exact digits c List.mem_cons_self
  have digits : ∀ c ∈ numeralText letter.radix.value.toNat number, toUpper c ≠ 0x58 := by
    intro c member
    obtain ⟨digit, found, rfl⟩ := List.mem_map.mp member
    have below := loopDigits_lt letter.radix.atLeastTwo (List.mem_reverse.mp found)
    exact (simpleValue_digitChar (below.trans_le letter.radix_le)).2.2
  have second := no_mark (numeralText letter.radix.value.toNat number).tail fun c member =>
    digits c (List.mem_of_mem_tail member)
  rw [simpleBase, if_neg nonzero]
  split
  · rw [if_neg fun marked => second marked.2]
  · rfl

theorem IntegerLetter.digits_below (letter : IntegerLetter) (number : Nat) :
    ∀ digit ∈ (loopDigits letter.radix.value.toNat number).reverse,
      digit < letter.radix.value.toNat := fun _ member =>
  loopDigits_lt letter.radix.atLeastTwo (List.mem_reverse.mp member)

theorem IntegerLetter.simpleStrtoul_eq (letter : IntegerLetter) (number : Nat) :
    simpleStrtoul (numeralText letter.radix.value.toNat number) letter.radix.value =
      (UInt32.ofNat number, []) := by
  have read := strtoulLoop_digits letter.radix_le _ (letter.digits_below number)
  rw [extend_loopDigits] at read
  rw [simpleStrtoul, letter.simpleBase_eq]
  exact read

theorem IntegerLetter.simpleStrtoull_eq (letter : IntegerLetter) (number : Nat) :
    simpleStrtoull (numeralText letter.radix.value.toNat number) letter.radix.value =
      (UInt64.ofNat number, []) := by
  have read := strtoullLoop_digits letter.radix_le _ (letter.digits_below number)
  rw [extend_loopDigits] at read
  rw [simpleStrtoull, letter.simpleBase_eq]
  exact read

/-- What a conversion assigns for a number and its sign. -/
def assignedNumber (long negative : Bool) (number : Nat) : Assigned :=
  if long then
    .long (if negative then -UInt64.ofNat number else UInt64.ofNat number)
  else .word (if negative then -UInt32.ofNat number else UInt32.ofNat number)

theorem IntegerLetter.head_ne_minus (letter : IntegerLetter) (number : Nat) :
    (numeralText letter.radix.value.toNat number).headD 0 ≠ 0x2D := by
  obtain ⟨digit, rest, below, text_eq⟩ := numeralText_cons letter.radix number
  rw [text_eq]
  exact (letter.digit_begins below).2.1

theorem IntegerLetter.simpleStrtol_eq (letter : IntegerLetter) (negative : Bool) (number : Nat) :
    simpleStrtol (signedText letter.radix negative number).chars letter.radix.value =
      (if negative then -(UInt32.ofNat number).toInt32 else (UInt32.ofNat number).toInt32, []) := by
  cases negative with
  | true => simp [simpleStrtol, signedText, letter.simpleStrtoul_eq]
  | false =>
      have plus := letter.head_ne_minus number
      simp only [simpleStrtol, signedText, Bool.false_eq_true, if_false, List.nil_append,
        if_neg plus, letter.simpleStrtoul_eq]

theorem IntegerLetter.simpleStrtoll_eq (letter : IntegerLetter) (negative : Bool) (number : Nat) :
    simpleStrtoll (signedText letter.radix negative number).chars letter.radix.value =
      (if negative then -(UInt64.ofNat number).toInt64 else (UInt64.ofNat number).toInt64, []) := by
  cases negative with
  | true => simp [simpleStrtoll, signedText, letter.simpleStrtoull_eq]
  | false =>
      have plus := letter.head_ne_minus number
      simp only [simpleStrtoll, signedText, Bool.false_eq_true, if_false, List.nil_append,
        if_neg plus, letter.simpleStrtoull_eq]

theorem IntegerLetter.scanNumber_eq (letter : IntegerLetter) (long : Bool) {negative : Bool}
    (number : Nat) (signs : negative → letter.signed) :
    scanNumber letter.radix.value letter.signed (signedText letter.radix negative number).chars
        (if long then .longLong else .none) =
      (assignedNumber long negative number, []) := by
  cases signed : letter.signed with
  | true =>
      cases long <;> cases negative <;>
        simp [scanNumber, assignedNumber, letter.simpleStrtol_eq, letter.simpleStrtoll_eq]
  | false =>
      obtain rfl : negative = false := by
        rw [signed] at signs
        simpa using signs
      have chars_eq : (signedText letter.radix false number).chars =
          numeralText letter.radix.value.toNat number := rfl
      cases long <;>
        simp [scanNumber, assignedNumber, chars_eq, letter.simpleStrtoul_eq,
          letter.simpleStrtoull_eq]

/-- The text of a number begins with the sign or a digit, which begins a number there. -/
theorem IntegerLetter.text_begins (letter : IntegerLetter) {negative : Bool} (number : Nat)
    (signs : negative → letter.signed) :
    (signedText letter.radix negative number).chars ≠ [] ∧
      (signedText letter.radix negative number).chars.dropWhile isSpace =
        (signedText letter.radix negative number).chars ∧
      scanDigit letter.radix.value letter.signed (signedText letter.radix negative number).chars =
        true := by
  obtain ⟨digit, rest, below, text_eq⟩ := numeralText_cons letter.radix number
  have begins := letter.digit_begins below
  simp only [signedText, text_eq]
  cases negative with
  | true =>
      have minus_no_space : isSpace 0x2D = false := by decide +kernel
      have behind : scanDigit letter.radix.value true
          (0x2D :: digitChar (UInt32.ofNat digit) :: rest) =
          scanDigit letter.radix.value false [digitChar (UInt32.ofNat digit)] := by
        simp [scanDigit]
      rw [signs rfl]
      exact ⟨by simp, by simp [minus_no_space], behind.trans begins.1⟩
  | false =>
      have here : scanDigit letter.radix.value letter.signed
          (digitChar (UInt32.ofNat digit) :: rest) =
          scanDigit letter.radix.value false [digitChar (UInt32.ofNat digit)] := by
        simp [scanDigit, begins.2.1]
      exact ⟨by simp, by simp [begins.2.2], here.trans begins.1⟩

theorem IntegerLetter.scanInteger_eq (letter : IntegerLetter) (long : Bool) {negative : Bool}
    (number place : Nat) (signs : negative → letter.signed) :
    scanInteger letter.radix.value letter.signed (if long then .longLong else .none)
        ⟨(signedText letter.radix negative number).chars, [place], 0, []⟩ =
      some (true, ⟨[], [], 1, [(place, assignedNumber long negative number)]⟩) := by
  have begins := letter.text_begins number signs
  simp only [scanInteger, begins.2.1, begins.2.2, if_true, letter.scanNumber_eq long number signs]
  rfl

/-- The text of a number is read as that number, with its sign. -/
theorem IntegerLetter.vsscanf_eq (letter : IntegerLetter) (long : Bool) {negative : Bool}
    (number place : Nat) (signs : negative → letter.signed) :
    vsscanf (signedText letter.radix negative number) (letter.format long) [place] =
      some (1, [(place, assignedNumber long negative number)]) := by
  have begins := letter.text_begins number signs
  have directive_eq : scanDirective ((if long then [0x6C, 0x6C] else []) ++ [letter.char]) =
      (-1, if long then .longLong else .none, [letter.char]) := by
    cases letter <;> cases long <;> rfl
  have star : ((if long then [0x6C, 0x6C] else []) ++ [letter.char]).headD 0 ≠ 0x2A := by
    cases letter <;> cases long <;> decide
  have switch_eq (length : Nat) (state : Scanning) :
      vsscanfSwitch length (-1) (if long then .longLong else .none) letter.char state =
        scanInteger letter.radix.value letter.signed (if long then .longLong else .none) state := by
    cases letter <;> rfl
  have loop_eq (length : Nat) : vsscanfLoop length (letter.format long).chars
      ⟨(signedText letter.radix negative number).chars, [place], 0, []⟩ =
      some ⟨[], [], 1, [(place, assignedNumber long negative number)]⟩ := by
    refine (vsscanfLoop_conversion begins.1 star directive_eq).trans ?_
    rw [show Int32.toInt (-1) = -1 from rfl, switch_eq,
      letter.scanInteger_eq long number place signs]
    simp [vsscanfLoop]
  rw [vsscanf, loop_eq]
  rfl

/-! ## Printed and read back -/

/-- A value printed into a buffer that is large enough is assigned when the string there is
read by the same format. -/
def RoundTrips (format : CString) (arg : Arg) (value : Assigned) : Prop :=
  ∀ (buf size : UInt32) (mem : Nat → UInt8) (place : Nat), size.toNat < 2 ^ 31 →
    ∃ stores count, Cursor.vsnprintf buf size format.chars [arg] = some (stores, [], count) ∧
      (count.toNat < size.toNat → ∃ text : CString,
        text.At (fun index => run mem stores (buf + UInt32.ofNat index).toNat) ∧
          vsscanf text format [place] = some (1, [(place, value)]))

/-- A text that fits lies in the buffer as a string. -/
theorem at_stored {text : CString} {size : UInt32} (fits : text.chars.length < size.toNat)
    (buf : UInt32) (mem : Nat → UInt8) :
    text.At fun index =>
      run mem (Cursor.stored buf size text.chars) (buf + UInt32.ofNat index).toNat :=
  fun _ within => Cursor.run_stored fits mem within

theorem roundTrips_iff {format text : CString} {arg : Arg}
    (printed : formatLoop format.chars [arg] 0 = some (text.chars, []))
    (short : text.chars.length < 2 ^ 31 - 1) (value : Assigned) :
    RoundTrips format arg value ↔
      ∀ place, vsscanf text format [place] = some (1, [(place, value)]) := by
  have count_eq : (UInt32.ofNat text.chars.length).toNat = text.chars.length :=
    UInt32.toNat_ofNat_of_lt (short.trans (by decide))
  constructor
  · intro trips place
    have size_eq : (UInt32.ofNat (text.chars.length + 1)).toNat = text.chars.length + 1 :=
      UInt32.toNat_ofNat_of_lt ((Nat.succ_lt_succ short).trans (by decide))
    have small : (UInt32.ofNat (text.chars.length + 1)).toNat < 2 ^ 31 := by omega
    obtain ⟨stores, count, stored, reads⟩ := trips 0 _ (fun _ => 0) place small
    rw [Cursor.vsnprintf_produced printed small 0] at stored
    cases stored
    have fits : text.chars.length < (UInt32.ofNat (text.chars.length + 1)).toNat := by omega
    obtain ⟨found, lies, read⟩ := reads (by omega)
    rwa [lies.unique (at_stored fits 0 _)] at read
  · intro reads buf size mem place small
    refine ⟨_, _, Cursor.vsnprintf_produced printed small buf, fun fits => ?_⟩
    exact ⟨text, at_stored (count_eq ▸ fits) buf mem, reads place⟩

theorem numeralText_length {base number : Nat} (eight : 8 ≤ base) (small : number < 2 ^ 32) :
    (numeralText base number).length ≤ 11 := by
  have fits : number < base ^ 11 :=
    small.trans ((by decide : 2 ^ 32 < 8 ^ 11).trans_le (Nat.pow_le_pow_left eight 11))
  rw [numeralText, List.length_map, List.length_reverse, loopDigits]
  split
  · decide
  · exact (Nat.digits_length_le_iff (by omega) number).mpr fits

/-- The number without its sign, where the conversion has signs. -/
def IntegerLetter.magnitude (letter : IntegerLetter) (num : UInt64) : UInt64 :=
  if letter.signed ∧ num.toInt64 < 0 then (-num.toInt64).toUInt64 else num

theorem IntegerLetter.text_short (letter : IntegerLetter) (num : UInt64) :
    (letter.text num).chars.length < 2 ^ 31 - 1 := by
  have eight : 8 ≤ letter.radix.value.toNat := by cases letter <;> decide
  have digits := @numeralText_length _ ((letter.magnitude num).toNat % 2 ^ 32) eight
    (Nat.mod_lt _ (by decide))
  have sign (negative : Bool) : (if negative then [(0x2D : UInt8)] else []).length ≤ 1 := by
    cases negative <;> decide
  have signed := sign (letter.signed ∧ num.toInt64 < 0)
  rw [magnitude] at digits
  rw [text, signedText, List.length_append]
  omega

/-- A conversion gives back the value that the low 32 bits of the magnitude stand for. -/
theorem IntegerLetter.roundTrips_iff (letter : IntegerLetter) (long : Bool) {arg : Arg}
    {num : UInt64}
    (taken : integerArg letter.signed [arg] (if long then .longLong else .none) =
      some (num, [])) (value : Assigned) :
    RoundTrips (letter.format long) arg value ↔
      assignedNumber long (letter.signed ∧ num.toInt64 < 0)
        ((letter.magnitude num).toNat % 2 ^ 32) = value := by
  rw [LedFirmware.roundTrips_iff (formatLoop_integer letter long taken) (letter.text_short num)]
  have read (place : Nat) := letter.vsscanf_eq long ((letter.magnitude num).toNat % 2 ^ 32) place
    (fun negative => (of_decide_eq_true negative).1 :
      decide (letter.signed ∧ num.toInt64 < 0) = true → letter.signed)
  simp only [IntegerLetter.text, magnitude] at read ⊢
  simp only [read]
  simp

theorem ofNat_low (num : UInt64) : UInt32.ofNat (num.toNat % 2 ^ 32) = num.toUInt32 := by
  apply UInt32.toNat_inj.mp
  rw [UInt32.toNat_ofNat', UInt64.toNat_toUInt32, Nat.mod_mod]

theorem ofNat_low_iff (num : UInt64) :
    UInt64.ofNat (num.toNat % 2 ^ 32) = num ↔ num.toNat < 2 ^ 32 := by
  have low := Nat.mod_lt num.toNat (by decide : 0 < 2 ^ 32)
  have value : (UInt64.ofNat (num.toNat % 2 ^ 32)).toNat = num.toNat % 2 ^ 32 :=
    UInt64.toNat_ofNat_of_lt (low.trans (by decide))
  rw [← UInt64.toNat_inj, value]
  exact ⟨fun same => same ▸ low, Nat.mod_eq_of_lt⟩

/-- The sign gives the number back from its magnitude. -/
theorem IntegerLetter.magnitude_negative {letter : IntegerLetter} {num : UInt64}
    (negative : letter.signed ∧ num.toInt64 < 0) : letter.magnitude num = -num := by
  rw [magnitude, if_pos negative, Int64.toUInt64_neg, UInt64.toUInt64_toInt64]

/-- The sign that a number is extended by does not reach its low 32 bits. -/
theorem widened_low (v : UInt32) : v.toInt32.toInt64.toUInt64.toUInt32 = v := by
  apply UInt32.toBitVec_inj.mp
  apply BitVec.eq_of_getLsbD_eq
  intro bit inside
  simp [BitVec.getLsbD_signExtend, inside]
  omega

/-- Numbers of 32 bits are given back. -/
theorem IntegerLetter.roundTrips_word (letter : IntegerLetter) (v : UInt32) :
    RoundTrips (letter.format false) (.word v) (.word v) := by
  have taken : integerArg letter.signed [.word v] .none =
      some (if letter.signed then v.toInt32.toInt64.toUInt64 else v.toUInt64, []) := rfl
  have low_eq :
      (if letter.signed then v.toInt32.toInt64.toUInt64 else v.toUInt64).toUInt32 = v := by
    cases letter.signed with
    | true => exact widened_low v
    | false => exact UInt32.toUInt32_toUInt64 v
  rw [letter.roundTrips_iff false taken, assignedNumber, if_neg Bool.false_ne_true, ofNat_low]
  generalize (if letter.signed then v.toInt32.toInt64.toUInt64 else v.toUInt64) = num at low_eq ⊢
  by_cases negative : letter.signed ∧ num.toInt64 < 0
  · rw [if_pos (decide_eq_true negative), magnitude_negative negative, UInt64.toUInt32_neg,
      UInt32.neg_neg, low_eq]
  · rw [if_neg (by simpa using negative), magnitude, if_neg negative, low_eq]

/-- Numbers of 64 bits are given back when 32 bits hold the magnitude, and only then. -/
theorem IntegerLetter.roundTrips_long_iff (letter : IntegerLetter) (num : UInt64) :
    RoundTrips (letter.format true) (.long num) (.long num) ↔
      (letter.magnitude num).toNat < 2 ^ 32 := by
  rw [letter.roundTrips_iff true rfl, assignedNumber, if_pos rfl, Assigned.long.injEq,
    ← ofNat_low_iff]
  by_cases negative : letter.signed ∧ num.toInt64 < 0
  · rw [if_pos (decide_eq_true negative), magnitude_negative negative]
    constructor
    · intro same
      rw [← UInt64.neg_inj, same, UInt64.neg_neg]
    · intro same
      rw [same, UInt64.neg_neg]
  · rw [if_neg (by simpa using negative), magnitude, if_neg negative]

/-- The magnitude of a number with a sign is its distance from 0. -/
theorem IntegerLetter.magnitude_signed (v : Int64) :
    (IntegerLetter.d.magnitude v.toUInt64).toNat = v.toInt.natAbs := by
  have toInt_eq : v.toInt = if 2 * v.toUInt64.toNat < 2 ^ 64 then (v.toUInt64.toNat : Int)
      else v.toUInt64.toNat - 2 ^ 64 := v.toBitVec.toInt_eq_toNat_cond
  have below := v.toUInt64.toNat_lt
  by_cases negative : v < 0
  · have less : v.toInt < 0 := Int64.lt_iff_toInt_lt.mp negative
    rw [magnitude_negative ⟨rfl, by simpa using negative⟩, UInt64.toNat_neg, UInt64.size]
    split at toInt_eq <;> omega
  · have least : 0 ≤ v.toInt := not_lt.mp fun less => negative (Int64.lt_iff_toInt_lt.mpr less)
    rw [magnitude, if_neg (by simpa [signed] using negative)]
    split at toInt_eq <;> omega

/-- All integers of 32 bits are given back by their conversions; an integer of 64 bits is given
back just where 32 bits hold its magnitude. -/
theorem integer_formats_round_trip_iff (signed32 : Int32) (unsigned32 : UInt32)
    (signed64 : Int64) (unsigned64 : UInt64) :
    RoundTrips (IntegerLetter.d.format false) (.word signed32.toUInt32)
        (.word signed32.toUInt32) ∧
      (RoundTrips (IntegerLetter.u.format false) (.word unsigned32) (.word unsigned32) ∧
        RoundTrips (IntegerLetter.o.format false) (.word unsigned32) (.word unsigned32) ∧
        RoundTrips (IntegerLetter.x.format false) (.word unsigned32) (.word unsigned32)) ∧
      (RoundTrips (IntegerLetter.d.format true) (.long signed64.toUInt64)
        (.long signed64.toUInt64) ↔ signed64.toInt.natAbs < 2 ^ 32) ∧
      (RoundTrips (IntegerLetter.u.format true) (.long unsigned64) (.long unsigned64) ↔
        unsigned64.toNat < 2 ^ 32) ∧
      (RoundTrips (IntegerLetter.o.format true) (.long unsigned64) (.long unsigned64) ↔
        unsigned64.toNat < 2 ^ 32) ∧
      (RoundTrips (IntegerLetter.x.format true) (.long unsigned64) (.long unsigned64) ↔
        unsigned64.toNat < 2 ^ 32) := by
  refine ⟨IntegerLetter.d.roundTrips_word signed32.toUInt32, ⟨?_, ?_, ?_⟩, ?_, ?_, ?_, ?_⟩
  · exact IntegerLetter.u.roundTrips_word unsigned32
  · exact IntegerLetter.o.roundTrips_word unsigned32
  · exact IntegerLetter.x.roundTrips_word unsigned32
  · rw [IntegerLetter.d.roundTrips_long_iff, IntegerLetter.magnitude_signed]
  · exact IntegerLetter.u.roundTrips_long_iff unsigned64
  · exact IntegerLetter.o.roundTrips_long_iff unsigned64
  · exact IntegerLetter.x.roundTrips_long_iff unsigned64

/-- The least number that 32 bits do not hold is printed as 0. -/
theorem llu_loses :
    ¬RoundTrips (IntegerLetter.u.format true) (.long 0x100000000) (.long 0x100000000) ∧
      formatLoop (IntegerLetter.u.format true).chars [.long 0x100000000] 0 = some ([0x30], []) :=
  ⟨fun trips => absurd ((IntegerLetter.u.roundTrips_long_iff _).mp trips) (by decide +kernel),
    by decide +kernel⟩

end LedFirmware
