import LedFirmware.IntegerText
import LedFirmware.StoreLog

/-!
# Formatted text

`VsnprintfNumber` and `Vsnprintf`, which every character leaves through one guarded store.
The characters are listed here in the order in which they are produced, since the format
alone decides which ones there are.
-/

namespace LedFirmware

open StoreLog

/-- The flags of a conversion. -/
structure FormatFlags where
  zeropad : Bool
  sign : Bool
  plus : Bool
  space : Bool
  left : Bool
  special : Bool
  large : Bool

def FormatFlags.none : FormatFlags := ⟨false, false, false, false, false, false, false⟩

/-- The qualifiers `h`, `l`, `ll` or `L`, and `Z` or `z`. -/
inductive Qualifier
  | none | short | long | longLong | size

/-- A variable argument: four bytes, eight bytes, a string, or the place of a counter. -/
inductive Arg
  | word (value : UInt32)
  | long (value : UInt64)
  | text (str : CString)
  | counter

/-! `VA_ARG` takes the next argument as one of a type. -/

def vaWord : List Arg → Option (UInt32 × List Arg)
  | .word value :: args => some (value, args)
  | _ => none

def vaLong : List Arg → Option (UInt64 × List Arg)
  | .long value :: args => some (value, args)
  | _ => none

def vaText : List Arg → Option (CString × List Arg)
  | .text str :: args => some (str, args)
  | _ => none

def vaCounter : List Arg → Option (List Arg)
  | .counter :: args => some args
  | _ => none

def Radix.eight : Radix := ⟨8, by decide, by decide⟩

def Radix.sixteen : Radix := ⟨16, by decide, by decide⟩

def smallDigits : List UInt8 := (List.range' 0x30 10 ++ List.range' 0x61 26).map UInt8.ofNat

def largeDigits : List UInt8 := (List.range' 0x30 10 ++ List.range' 0x41 26).map UInt8.ofNat

theorem quotient32_lt {radix : Radix} {num : UInt64} (nonzero : ¬num = 0) :
    (num.toUInt32 / radix.value).toUInt64.toNat < num.toNat := by
  have positive : num.toNat ≠ 0 := fun zero => nonzero (UInt64.toNat_inj.mp zero)
  have low := Nat.mod_le num.toNat (2 ^ 32)
  have half := Nat.div_le_div_left radix.atLeastTwo Nat.two_pos (a := num.toNat % 2 ^ 32)
  rw [UInt32.toNat_toUInt64, UInt32.toNat_div, UInt64.toNat_toUInt32]
  omega

/-- The digits of a number, the last one first.  The quotient keeps 32 bits. -/
def tmpDigits (digits : List UInt8) (radix : Radix) (num : UInt64) : List UInt8 :=
  if _ : num = 0 then []
  else digits.getD (num.toUInt32 % radix.value).toNat 0 ::
    tmpDigits digits radix (num.toUInt32 / radix.value).toUInt64
  termination_by num.toNat
  decreasing_by exact quotient32_lt ‹_›

/-- The loop `while (size-- > 0)` around one character, and what it leaves of the size. -/
def padding (c : UInt8) (size : Int) : List UInt8 × Int :=
  (List.replicate size.toNat c, min size 0 - 1)

def vsnprintfNumber (num : UInt64) (radix : Radix) (size precision : Int) (type : FormatFlags) :
    List UInt8 :=
  let digits := if type.large then largeDigits else smallDigits
  let type := if type.left then { type with zeropad := false } else type
  let c : UInt8 := if type.zeropad then 0x30 else 0x20
  let (sign, num, size) : List UInt8 × UInt64 × Int :=
    if type.sign then
      if num.toInt64 < 0 then ([0x2D], (-num.toInt64).toUInt64, size - 1)
      else if type.plus then ([0x2B], num, size - 1)
      else if type.space then ([0x20], num, size - 1)
      else ([], num, size)
    else ([], num, size)
  let size :=
    if type.special then
      if radix.value = 16 then size - 2 else if radix.value = 8 then size - 1 else size
    else size
  let tmp := if num = 0 then [0x30] else tmpDigits digits radix num
  let precision := if precision < tmp.length then (tmp.length : Int) else precision
  let size := size - precision
  let (spaces, size) := if type.zeropad || type.left then ([], size) else padding 0x20 size
  let special :=
    if type.special then
      if radix.value = 8 then [0x30]
      else if radix.value = 16 then [0x30, digits.getD 33 0] else []
    else []
  let (fill, size) := if type.left then ([], size) else padding c size
  let zeros := List.replicate (precision - tmp.length).toNat 0x30
  spaces ++ sign ++ special ++ fill ++ zeros ++ tmp.reverse ++ (padding 0x20 size).1

/-- The text of `%c`. -/
def formatChar (flags : FormatFlags) (width : Int) (c : UInt8) : List UInt8 :=
  let spaces := List.replicate (width - 1).toNat 0x20
  if flags.left then c :: spaces else spaces ++ [c]

/-- The text of `%s`.  The length is a number of 32 bits with a sign. -/
def formatString (flags : FormatFlags) (width precision : Int) (str : CString) : List UInt8 :=
  let count := if precision < 0 then strLen str else min precision.toNat (strLen str)
  let len := (Int32.ofNat count).toInt
  let spaces := List.replicate (width - len).toNat 0x20
  let text := str.chars.take len.toNat
  if flags.left then text ++ spaces else spaces ++ text

/-! ## The conversions of a format

Every part takes the rest of the format, and the rest of the arguments if it uses them. -/

/-- `skip_atoi`. -/
def skipAToI : (s : List UInt8) → (i : Int32) → Int32 × List UInt8
  | [], i => (i, [])
  | c :: s, i =>
      if 0x30 ≤ c ∧ c ≤ 0x39 then skipAToI s (i * 10 + Int32.ofNat (c.toNat - 0x30))
      else (i, c :: s)

def formatFlags : (format : List UInt8) → (flags : FormatFlags) → FormatFlags × List UInt8
  | [], flags => (flags, [])
  | c :: format, flags =>
      if c = 0x2D then formatFlags format { flags with left := true }
      else if c = 0x2B then formatFlags format { flags with plus := true }
      else if c = 0x20 then formatFlags format { flags with space := true }
      else if c = 0x23 then formatFlags format { flags with special := true }
      else if c = 0x30 then formatFlags format { flags with zeropad := true }
      else (flags, c :: format)

/-- The field width, given in the format or as an argument, and the flags. -/
def fieldWidth (flags : FormatFlags) (format : List UInt8) (args : List Arg) :
    Option (Int32 × FormatFlags × List UInt8 × List Arg) :=
  if 0x30 ≤ format.headD 0 ∧ format.headD 0 ≤ 0x39 then
    let width := skipAToI format 0
    some (width.1, flags, width.2, args)
  else if format.headD 0 = 0x2A then
    vaWord args >>= fun (value, args) =>
      if value.toInt32 < 0 then
        some (-value.toInt32, { flags with left := true }, format.tail, args)
      else some (value.toInt32, flags, format.tail, args)
  else some (-1, flags, format, args)

def formatPrecision (format : List UInt8) (args : List Arg) :
    Option (Int32 × List UInt8 × List Arg) :=
  if format.headD 0 = 0x2E then
    let format := format.tail
    if 0x30 ≤ format.headD 0 ∧ format.headD 0 ≤ 0x39 then
      let precision := skipAToI format 0
      some (if precision.1 < 0 then 0 else precision.1, precision.2, args)
    else if format.headD 0 = 0x2A then
      vaWord args >>= fun (value, args) =>
        some (if value.toInt32 < 0 then 0 else value.toInt32, format.tail, args)
    else some (0, format, args)
  else some (-1, format, args)

def formatQualifier (format : List UInt8) : Qualifier × List UInt8 :=
  match format with
  | [] => (.none, [])
  | c :: rest =>
      if c = 0x68 then (.short, rest)
      else if c = 0x6C then
        if rest.headD 0 = 0x6C then (.longLong, rest.tail) else (.long, rest)
      else if c = 0x4C then (.longLong, rest)
      else if c = 0x5A ∨ c = 0x7A then (.size, rest)
      else (.none, c :: rest)

/-- The next argument as a number of the qualified size. -/
def integerArg (signed : Bool) (args : List Arg) :
    (qualifier : Qualifier) → Option (UInt64 × List Arg)
  | .longLong => vaLong args
  | .short => vaWord args >>= fun (value, args) =>
      let half := value.toUInt16
      some (if signed then half.toInt16.toInt64.toUInt64 else half.toUInt64, args)
  | .size => vaWord args >>= fun (value, args) =>
      some (value.toInt32.toInt64.toUInt64, args)
  | .long | .none => vaWord args >>= fun (value, args) =>
      some (if signed then value.toInt32.toInt64.toUInt64 else value.toUInt64, args)

/-- What a conversion produces: its text, the numbers that `%n` stores, and what is left of
the format and of the arguments. -/
structure Converted where
  text : List UInt8
  counters : List UInt32
  format : List UInt8
  args : List Arg

def integerText (radix : Radix) (flags : FormatFlags) (width precision : Int32)
    (qualifier : Qualifier) (format : List UInt8) (args : List Arg) : Option Converted :=
  integerArg flags.sign args qualifier >>= fun (num, args) =>
    some ⟨vsnprintfNumber num radix width.toInt precision.toInt flags, [], format, args⟩

/-- The conversion character decides.  An unknown one is copied, with its percent sign. -/
def convert (flags : FormatFlags) (width precision : Int32) (qualifier : Qualifier)
    (count : Nat) (args : List Arg) : (format : List UInt8) → Option Converted
  | [] => some ⟨[0x25], [], [], args⟩
  | c :: format =>
      if c = 0x63 then
        vaWord args >>= fun (value, args) =>
          some ⟨formatChar flags width.toInt value.toUInt8, [], format, args⟩
      else if c = 0x73 then
        vaText args >>= fun (str, args) =>
          some ⟨formatString flags width.toInt precision.toInt str, [], format, args⟩
      else if c = 0x70 then
        let (width, flags) :=
          if width = -1 then (8, { flags with zeropad := true }) else (width, flags)
        vaWord args >>= fun (value, args) =>
          some ⟨vsnprintfNumber value.toUInt64 .sixteen width.toInt precision.toInt flags, [],
            format, args⟩
      else if c = 0x6E then
        vaCounter args >>= fun args => some ⟨[], [UInt32.ofNat count], format, args⟩
      else if c = 0x25 then some ⟨[0x25], [], format, args⟩
      else if c = 0x6F then integerText .eight flags width precision qualifier format args
      else if c = 0x58 then
        integerText .sixteen { flags with large := true } width precision qualifier format args
      else if c = 0x78 then integerText .sixteen flags width precision qualifier format args
      else if c = 0x64 ∨ c = 0x69 then
        integerText .ten { flags with sign := true } width precision qualifier format args
      else if c = 0x75 then integerText .ten flags width precision qualifier format args
      else some ⟨[0x25, c], [], format, args⟩

/-- What follows a percent sign. -/
def conversion (format : List UInt8) (args : List Arg) (count : Nat) : Option Converted :=
  let (flags, format) := formatFlags format .none
  fieldWidth flags format args >>= fun (width, flags, format, args) =>
    formatPrecision format args >>= fun (precision, format, args) =>
      let (qualifier, format) := formatQualifier format
      convert flags width precision qualifier count args format

theorem skipAToI_shorter (s : List UInt8) (i : Int32) :
    (skipAToI s i).2.length ≤ s.length := by
  induction s generalizing i with
  | nil => exact Nat.le_refl _
  | cons c s ih =>
      rw [skipAToI]
      split
      · exact (ih _).trans (Nat.le_succ _)
      · exact Nat.le_refl _

theorem formatFlags_shorter (format : List UInt8) (flags : FormatFlags) :
    (formatFlags format flags).2.length ≤ format.length := by
  induction format generalizing flags with
  | nil => exact Nat.le_refl _
  | cons c format ih =>
      rw [formatFlags]
      have tail (flags : FormatFlags) := (ih flags).trans (Nat.le_succ _)
      repeat' split
      all_goals first | exact tail _ | exact Nat.le_refl _

theorem tail_shorter (format : List UInt8) : format.tail.length ≤ format.length := by
  rw [List.length_tail]
  exact Nat.sub_le _ _

theorem fieldWidth_shorter {flags flags' : FormatFlags} {format format' : List UInt8}
    {args args' : List Arg} {width : Int32}
    (found : fieldWidth flags format args = some (width, flags', format', args')) :
    format'.length ≤ format.length := by
  rw [fieldWidth] at found
  split at found
  · cases found
    exact skipAToI_shorter format 0
  · split at found
    · obtain ⟨⟨value, args⟩, -, found⟩ := Option.bind_eq_some_iff.mp found
      simp only at found
      split at found
      all_goals
        cases found
        exact tail_shorter format
    · cases found
      exact Nat.le_refl _

theorem formatPrecision_shorter {format format' : List UInt8} {args args' : List Arg}
    {precision : Int32}
    (found : formatPrecision format args = some (precision, format', args')) :
    format'.length ≤ format.length := by
  have shorter := tail_shorter format
  rw [formatPrecision] at found
  split at found
  · simp only at found
    split at found
    · cases found
      exact (skipAToI_shorter format.tail 0).trans shorter
    · split at found
      · obtain ⟨⟨value, args⟩, -, found⟩ := Option.bind_eq_some_iff.mp found
        cases found
        exact (tail_shorter format.tail).trans shorter
      · cases found
        exact shorter
  · cases found
    exact Nat.le_refl _

theorem formatQualifier_shorter (format : List UInt8) :
    (formatQualifier format).2.length ≤ format.length := by
  cases format with
  | nil => exact Nat.le_refl _
  | cons c rest =>
      rw [formatQualifier]
      have tail := (tail_shorter rest).trans (Nat.le_succ _)
      repeat' split
      all_goals first | exact tail | exact Nat.le_succ _ | exact Nat.le_refl _

section

variable {format : List UInt8} {first second : Option Converted}

theorem format_some {text : List UInt8} {counters : List UInt32} {args : List Arg} :
    ∀ step ∈ some (Converted.mk text counters format args), step.format = format := by
  rintro step ⟨⟩
  rfl

theorem format_bind {Value : Type} {argument : Option Value} {next : Value → Option Converted}
    (rests : ∀ value, ∀ step ∈ next value, step.format = format) :
    ∀ step ∈ argument >>= next, step.format = format := by
  intro step found
  obtain ⟨value, -, found⟩ := Option.bind_eq_some_iff.mp found
  exact rests value step found

theorem format_ite {condition : Prop} [Decidable condition]
    (rests : ∀ step ∈ first, step.format = format)
    (rests' : ∀ step ∈ second, step.format = format) :
    ∀ step ∈ if condition then first else second, step.format = format := by
  split
  · exact rests
  · exact rests'

end

theorem integerText_format {radix : Radix} {flags : FormatFlags} {width precision : Int32}
    {qualifier : Qualifier} {format : List UInt8} {args : List Arg} :
    ∀ step ∈ integerText radix flags width precision qualifier format args,
      step.format = format :=
  format_bind fun _ => format_some

/-- A conversion takes its character from the format. -/
theorem convert_format {flags : FormatFlags} {width precision : Int32} {qualifier : Qualifier}
    {count : Nat} {args : List Arg} {c : UInt8} {format : List UInt8} :
    ∀ step ∈ convert flags width precision qualifier count args (c :: format),
      step.format = format := by
  rw [convert]
  refine format_ite (format_bind fun _ => format_some) ?_
  refine format_ite (format_bind fun _ => format_some) ?_
  refine format_ite (format_bind fun _ => format_some) ?_
  refine format_ite (format_bind fun _ => format_some) ?_
  refine format_ite format_some ?_
  refine format_ite integerText_format (format_ite integerText_format ?_)
  refine format_ite integerText_format (format_ite integerText_format ?_)
  exact format_ite integerText_format format_some

theorem convert_shorter {flags : FormatFlags} {width precision : Int32} {qualifier : Qualifier}
    {count : Nat} {args : List Arg} {format : List UInt8} {step : Converted}
    (found : convert flags width precision qualifier count args format = some step) :
    step.format.length ≤ format.length := by
  cases format with
  | nil =>
      cases found
      exact Nat.le_refl _
  | cons c format =>
      rw [convert_format step found]
      exact Nat.le_succ _

theorem conversion_shorter {format : List UInt8} {args : List Arg} {count : Nat}
    {step : Converted} (found : conversion format args count = some step) :
    step.format.length ≤ format.length := by
  rw [conversion] at found
  obtain ⟨⟨width, flags, format', args⟩, atWidth, found⟩ := Option.bind_eq_some_iff.mp found
  obtain ⟨⟨precision, format'', args⟩, atPrecision, found⟩ := Option.bind_eq_some_iff.mp found
  calc step.format.length
      ≤ (formatQualifier format'').2.length := convert_shorter found
    _ ≤ format''.length := formatQualifier_shorter format''
    _ ≤ format'.length := formatPrecision_shorter atPrecision
    _ ≤ (formatFlags _ .none).2.length := fieldWidth_shorter atWidth
    _ ≤ _ := formatFlags_shorter _ .none

/-- The characters of a format, and the numbers that `%n` stores. -/
def formatLoop (format : List UInt8) (args : List Arg) (count : Nat) :
    Option (List UInt8 × List UInt32) :=
  match format with
  | [] => some ([], [])
  | c :: format =>
      if c ≠ 0x25 then
        formatLoop format args (count + 1) >>= fun (text, counters) => some (c :: text, counters)
      else
        match _ : conversion format args count with
        | none => none
        | some step =>
            formatLoop step.format step.args (count + step.text.length) >>=
              fun (text, counters) => some (step.text ++ text, step.counters ++ counters)
  termination_by format.length
  decreasing_by
    · exact Nat.lt_succ_self _
    · exact Nat.lt_succ_of_le (conversion_shorter ‹_›)

/-- The stores of a run that produces `text` into a buffer of `size` bytes at `buf`. -/
def textStores (buf size : Nat) (text : List UInt8) : List (Nat × UInt8) :=
  block buf (text.take size) ++
    if text.length < size then [(buf + text.length, 0)]
    else if 0 < size then [(buf + size - 1, 0)]
    else []

/-- The stores, the numbers that `%n` stores, and the number of characters.  The buffer ends
within the address space. -/
def vsnprintf (buf : Nat) (size : UInt32) (format : List UInt8) (args : List Arg) :
    Option (List (Nat × UInt8) × List UInt32 × UInt32) :=
  if size.toInt32 < 0 then some ([], [], 0)
  else
    formatLoop format args 0 >>= fun (text, counters) =>
      some (textStores buf size.toNat text, counters, UInt32.ofNat text.length)

def sprintf (buf : Nat) (format : List UInt8) (args : List Arg) :
    Option (List (Nat × UInt8) × List UInt32 × UInt32) :=
  vsnprintf buf ((~~~0 : UInt32) >>> 1) format args

/-! ## The characters of a format, one conversion at a time -/

theorem formatLoop_conversion {format : List UInt8} {args : List Arg} {count : Nat}
    {step : Converted} (found : conversion format args count = some step) :
    formatLoop (0x25 :: format) args count =
      formatLoop step.format step.args (count + step.text.length) >>=
        fun (text, counters) => some (step.text ++ text, step.counters ++ counters) := by
  rw [formatLoop, if_neg (by simp)]
  split
  · rename_i missing
    rw [found] at missing
    cases missing
  · rename_i same
    rw [found] at same
    cases same
    rfl

/-! ## The stores of a text -/

section

variable {mem : Nat → UInt8} {buf size : Nat} {text : List UInt8}

/-- Every store lies in the buffer, and none lies behind the zero byte. -/
theorem mem_textStores {store : Nat × UInt8} (member : store ∈ textStores buf size text) :
    buf ≤ store.1 ∧ store.1 < buf + size ∧ store.1 ≤ buf + text.length := by
  rw [textStores] at member
  rcases List.mem_append.mp member with inside | last
  · have within := mem_block inside
    rw [List.length_take] at within
    omega
  · split at last
    · cases List.mem_singleton.mp last
      exact ⟨Nat.le_add_right _ _, by omega, Nat.le_refl _⟩
    · split at last
      · cases List.mem_singleton.mp last
        exact ⟨by omega, by omega, by omega⟩
      · exact absurd last List.not_mem_nil

/-- The last store of a buffer that has room for it is the zero byte. -/
theorem textStores_last (positive : 0 < size) :
    textStores buf size text =
      block buf (text.take size) ++ [(buf + min text.length (size - 1), 0)] := by
  rw [textStores]
  split
  · rw [Nat.min_eq_left (by omega)]
  · rw [Nat.min_eq_right (by omega), Nat.add_sub_assoc (by omega)]

theorem run_textStores_zero (positive : 0 < size) :
    run mem (textStores buf size text) (buf + min text.length (size - 1)) = 0 := by
  rw [textStores_last positive, run_append]
  exact Function.update_self ..

theorem run_textStores_inside {index : Nat} (inside : index < text.length)
    (room : index < size - 1) :
    run mem (textStores buf size text) (buf + index) = text[index] := by
  rw [textStores_last (by omega), run_append, run_cons, run_nil,
    Function.update_of_ne (by simp only; omega),
    run_block_inside (by rw [List.length_take]; omega), List.getElem_take]

end

end LedFirmware
