import LedFirmware.Vsnprintf

/-!
# The loops of a formatted output

`VprintfNumber` and `Vprintf` on the one side and `VsnprintfNumber` and `Vsnprintf` on the
other put their characters out in the same kinds of loops.  A loop takes the way to put one
character out as a parameter; what it puts out is a list of characters.
-/

namespace LedFirmware

section Loops

variable {State : Type} (put : State → UInt8 → State)

/-- `while (least < value--)` around one character, and the value it leaves. -/
def putWhile (c : UInt8) (least value : Int) (state : State) : State × Int :=
  if least < value then putWhile c least (value - 1) (put state c) else (state, value - 1)
  termination_by (value - least).toNat

/-- `while (--value > 0)` around one character, and the value it leaves. -/
def putWhileBefore (c : UInt8) (value : Int) (state : State) : State × Int :=
  if 0 < value - 1 then putWhileBefore c (value - 1) (put state c) else (state, value - 1)
  termination_by value.toNat

/-- `while (i-- > 0)` around `tmp[i]`. -/
def putDigits (tmp : List UInt8) : (i : Nat) → State → State
  | 0, state => state
  | i + 1, state => putDigits tmp i (put state (tmp.getD i 0))

/-- `for (i = 0; i < len; ++i)` around `*s++`. -/
def putText : (s : List UInt8) → (i len : Int) → State → State
  | [], _, _, state => state
  | c :: s, i, len, state => if i < len then putText s (i + 1) len (put state c) else state

variable {put}

theorem putWhile_eq (c : UInt8) (least value : Int) (state : State) :
    putWhile put c least value state =
      ((List.replicate (value - least).toNat c).foldl put state, min value least - 1) := by
  rw [putWhile]
  split
  · rename_i less
    rw [putWhile_eq, show (value - least).toNat = (value - 1 - least).toNat + 1 by omega,
      List.replicate_succ, List.foldl_cons, show min (value - 1) least = min value least by omega]
  · rw [show (value - least).toNat = 0 by omega, show min value least = value by omega]
    rfl
  termination_by (value - least).toNat

theorem putWhileBefore_eq (c : UInt8) (value : Int) (state : State) :
    putWhileBefore put c value state =
      ((List.replicate (value - 1).toNat c).foldl put state, min (value - 1) 0) := by
  rw [putWhileBefore]
  split
  · rename_i more
    rw [putWhileBefore_eq, show (value - 1).toNat = (value - 1 - 1).toNat + 1 by omega,
      List.replicate_succ, List.foldl_cons, show min (value - 1 - 1) 0 = min (value - 1) 0 by omega]
  · rw [show (value - 1).toNat = 0 by omega, show min (value - 1) 0 = value - 1 by omega]
    rfl
  termination_by value.toNat

theorem putDigits_eq (tmp : List UInt8) {i : Nat} (inside : i ≤ tmp.length) (state : State) :
    putDigits put tmp i state = (tmp.take i).reverse.foldl put state := by
  induction i generalizing state with
  | zero => simp [putDigits]
  | succ i ih =>
      rw [putDigits, ih (by omega), List.take_add_one, List.getElem?_eq_getElem inside,
        List.getD_eq_getElem _ _ inside, Option.toList_some, List.reverse_append,
        List.reverse_singleton, List.singleton_append, List.foldl_cons]

theorem putText_eq (s : List UInt8) (i len : Int) (state : State) :
    putText put s i len state = (s.take (len - i).toNat).foldl put state := by
  induction s generalizing i state with
  | nil => simp [putText]
  | cons c s ih =>
      rw [putText]
      split
      · rw [ih, show (len - i).toNat = (len - (i + 1)).toNat + 1 by omega]
        rfl
      · rw [show (len - i).toNat = 0 by omega]
        rfl

end Loops

/-- The scan `for (; sc_count-- && *sc != '\0'; ++sc)` of a string, as the distance of `sc`. -/
def scanText : (sc : List UInt8) → (scCount : Int) → Nat
  | [], _ => 0
  | _ :: sc, scCount => if scCount ≠ 0 then scanText sc (scCount - 1) + 1 else 0

theorem scanText_eq (sc : List UInt8) (scCount : Int) :
    scanText sc scCount =
      if scCount < 0 then sc.length else min scCount.toNat sc.length := by
  induction sc generalizing scCount with
  | nil => simp [scanText]
  | cons c sc ih =>
      rw [scanText, ih]
      grind

section Texts

theorem ite_eq_map {First Second : Type} {condition : Prop} [Decidable condition]
    {f : First → Second} {yes no : Option First} {yes' no' : Option Second}
    (yes_eq : yes' = yes.map f) (no_eq : no' = no.map f) :
    (if condition then yes' else no') = (if condition then yes else no).map f := by
  split
  · exact yes_eq
  · exact no_eq

variable {State : Type} {put : State → UInt8 → State}

/-- What the loops of `%c` put out. -/
theorem putWhileBefore_formatChar (flags : FormatFlags) (width : Int) (c : UInt8)
    (state : State) :
    (let padded := if flags.left then (state, width) else putWhileBefore put 0x20 width state;
      (putWhileBefore put 0x20 padded.2 (put padded.1 c)).1) =
      (formatChar flags width c).foldl put state := by
  simp only [putWhileBefore_eq, formatChar]
  split_ifs
  · simp
  · simp [show (min (width - 1) 0 - 1).toNat = 0 by omega]

/-- What the loops of `%s` put out. -/
theorem putWhile_formatString (flags : FormatFlags) (width precision : Int) (str : CString)
    (state : State) :
    (let len := (Int32.ofNat (scanText str.chars precision)).toInt;
      let padded := if flags.left then (state, width) else putWhile put 0x20 len width state;
      (putWhile put 0x20 len padded.2 (putText put str.chars 0 len padded.1)).1) =
      (formatString flags width precision str).foldl put state := by
  simp only [putWhile_eq, putText_eq, scanText_eq, formatString, strLen]
  generalize (Int32.ofNat _).toInt = len
  split_ifs
  · simp
  · simp [show (min width len - 1 - len).toNat = 0 by omega]

end Texts

/-- The sign of a number, 0 where it has none, with the number made positive and the size that
is left. -/
def numberSign (type : FormatFlags) (num : UInt64) (size : Int) : UInt8 × UInt64 × Int :=
  if type.sign then
    if num.toInt64 < 0 then (0x2D, (-num.toInt64).toUInt64, size - 1)
    else if type.plus then (0x2B, num, size - 1)
    else if type.space then (0x20, num, size - 1)
    else (0, num, size)
  else (0, num, size)

/-- What the two functions for numbers compute before they put anything out: the digits, the
flags without the zeros of a number on the left, the sign or 0, the digits of the number with
the last one first, and the precision and the size that are left. -/
structure NumberParts where
  digits : List UInt8
  type : FormatFlags
  sign : UInt8
  tmp : List UInt8
  precision : Int
  size : Int

def numberParts (num : UInt64) (radix : Radix) (size precision : Int) (type : FormatFlags) :
    NumberParts :=
  let digits := if type.large then largeDigits else smallDigits
  let type := if type.left then { type with zeropad := false } else type
  let (sign, num, size) := numberSign type num size
  let size :=
    if type.special then
      if radix.value = 16 then size - 2 else if radix.value = 8 then size - 1 else size
    else size
  let tmp := if num = 0 then [0x30] else tmpDigits digits radix num
  let precision := if precision < tmp.length then (tmp.length : Int) else precision
  ⟨digits, type, sign, tmp, precision, size - precision⟩

/-- The fill character. -/
def NumberParts.c (parts : NumberParts) : UInt8 := if parts.type.zeropad then 0x30 else 0x20

def NumberParts.text (parts : NumberParts) (radix : Radix) : List UInt8 :=
  let (spaces, size) :=
    if parts.type.zeropad || parts.type.left then ([], parts.size) else padding 0x20 parts.size
  let sign := if parts.sign ≠ 0 then [parts.sign] else []
  let special :=
    if parts.type.special then
      if radix.value = 8 then [0x30]
      else if radix.value = 16 then [0x30, parts.digits.getD 33 0] else []
    else []
  let (fill, size) := if parts.type.left then ([], size) else padding parts.c size
  let zeros := List.replicate (parts.precision - parts.tmp.length).toNat 0x30
  spaces ++ sign ++ special ++ fill ++ zeros ++ parts.tmp.reverse ++ (padding 0x20 size).1

theorem numberSign_eq (type : FormatFlags) (num : UInt64) (size : Int) :
    (if type.sign then
      if num.toInt64 < 0 then ([0x2D], (-num.toInt64).toUInt64, size - 1)
      else if type.plus then ([0x2B], num, size - 1)
      else if type.space then ([0x20], num, size - 1)
      else ([], num, size)
    else ([], num, size) : List UInt8 × UInt64 × Int) =
      (if (numberSign type num size).1 ≠ 0 then [(numberSign type num size).1] else [],
        (numberSign type num size).2) := by
  unfold numberSign
  split_ifs <;> simp_all

theorem vsnprintfNumber_eq_text (num : UInt64) (radix : Radix) (size precision : Int)
    (type : FormatFlags) :
    vsnprintfNumber num radix size precision type =
      (numberParts num radix size precision type).text radix := by
  simp only [vsnprintfNumber, numberSign_eq]
  rfl

/-- A conversion up to its character: what stands in front of it, and the rests of the format
and of the arguments. -/
structure Directive where
  flags : FormatFlags
  width : Int32
  precision : Int32
  qualifier : Qualifier
  format : List UInt8
  args : List Arg

/-- The flags, the field width, the precision and the qualifier behind a percent sign. -/
def directive (format : List UInt8) (args : List Arg) : Option Directive :=
  let (flags, format) := formatFlags format .none
  fieldWidth flags format args >>= fun (width, flags, format, args) =>
    formatPrecision format args >>= fun (precision, format, args) =>
      let (qualifier, format) := formatQualifier format
      some ⟨flags, width, precision, qualifier, format, args⟩

theorem conversion_eq_directive (format : List UInt8) (args : List Arg) (count : Nat) :
    conversion format args count =
      directive format args >>= fun head =>
        convert head.flags head.width head.precision head.qualifier count head.args
          head.format := by
  rw [conversion, directive]
  simp only [Option.bind_eq_bind, Option.bind_assoc, Option.bind_some]

theorem formatLoop_directive (format : List UInt8) (args : List Arg) (count : Nat) :
    formatLoop (0x25 :: format) args count =
      directive format args >>= fun head =>
        convert head.flags head.width head.precision head.qualifier count head.args head.format >>=
          fun step => formatLoop step.format step.args (count + step.text.length) >>=
            fun (text, counters) => some (step.text ++ text, step.counters ++ counters) := by
  have percent : formatLoop (0x25 :: format) args count =
      conversion format args count >>= fun step =>
        formatLoop step.format step.args (count + step.text.length) >>=
          fun (text, counters) => some (step.text ++ text, step.counters ++ counters) := by
    cases found : conversion format args count with
    | none =>
        rw [formatLoop, if_neg (by simp)]
        split
        · rfl
        · simp_all
    | some step => exact formatLoop_conversion found
  rw [percent, conversion_eq_directive]
  simp only [Option.bind_eq_bind, Option.bind_assoc]

theorem directive_shorter {format : List UInt8} {args : List Arg} {head : Directive}
    (found : directive format args = some head) : head.format.length ≤ format.length := by
  rw [directive] at found
  obtain ⟨⟨width, flags, format', args⟩, atWidth, found⟩ := Option.bind_eq_some_iff.mp found
  obtain ⟨⟨precision, format'', args⟩, atPrecision, found⟩ := Option.bind_eq_some_iff.mp found
  cases found
  calc (formatQualifier format'').2.length
      ≤ format''.length := formatQualifier_shorter format''
    _ ≤ format'.length := formatPrecision_shorter atPrecision
    _ ≤ (formatFlags format .none).2.length := fieldWidth_shorter atWidth
    _ ≤ format.length := formatFlags_shorter format .none

end LedFirmware
