import LedFirmware.Vsnprintf
import Mathlib.Data.List.TakeWhile

/-!
# Reading by a format

`Vsscanf` with the functions for numbers.  The strings are read from lists of their
characters, where the zero byte is found at the end; what is assigned is listed with the
pointers.
-/

namespace LedFirmware

def isXDigit (c : UInt8) : Bool := isMask c &&& (ctypeD ||| ctypeX) ≠ 0

/-- The base and the prefix that goes with it, as both functions for numbers begin. -/
def simpleBase (cp : List UInt8) (base : UInt32) : UInt32 × List UInt8 :=
  if base = 0 then
    if cp.headD 0 = 0x30 then
      let cp := cp.tail
      if toUpper (cp.headD 0) = 0x58 ∧ isXDigit (cp.tail.headD 0) then (16, cp.tail) else (8, cp)
    else (10, cp)
  else if base = 16 then
    if cp.headD 0 = 0x30 ∧ toUpper (cp.tail.headD 0) = 0x58 then (base, cp.drop 2) else (base, cp)
  else (base, cp)

/-- The value of a digit. -/
def simpleValue (c : UInt8) : UInt32 :=
  if isDigit c then c.toUInt32 - 0x30 else (toUpper c).toUInt32 - 0x41 + 10

def strtoulLoop (base : UInt32) : (cp : List UInt8) → (result : UInt32) → UInt32 × List UInt8
  | [], result => (result, [])
  | c :: cp, result =>
      if isXDigit c ∧ simpleValue c < base then
        strtoulLoop base cp (result * base + simpleValue c)
      else (result, c :: cp)

def simpleStrtoul (cp : List UInt8) (base : UInt32) : UInt32 × List UInt8 :=
  let (base, cp) := simpleBase cp base
  strtoulLoop base cp 0

def simpleStrtol (cp : List UInt8) (base : UInt32) : Int32 × List UInt8 :=
  if cp.headD 0 = 0x2D then
    let (result, endp) := simpleStrtoul cp.tail base
    (-result.toInt32, endp)
  else
    let (result, endp) := simpleStrtoul cp base
    (result.toInt32, endp)

def strtoullLoop (base : UInt32) : (cp : List UInt8) → (result : UInt64) → UInt64 × List UInt8
  | [], result => (result, [])
  | c :: cp, result =>
      if isXDigit c ∧ simpleValue c < base then
        strtoullLoop base cp (result * base.toUInt64 + (simpleValue c).toUInt64)
      else (result, c :: cp)

def simpleStrtoull (cp : List UInt8) (base : UInt32) : UInt64 × List UInt8 :=
  let (base, cp) := simpleBase cp base
  strtoullLoop base cp 0

def simpleStrtoll (cp : List UInt8) (base : UInt32) : Int64 × List UInt8 :=
  if cp.headD 0 = 0x2D then
    let (result, endp) := simpleStrtoull cp.tail base
    (-result.toInt64, endp)
  else
    let (result, endp) := simpleStrtoull cp base
    (result.toInt64, endp)

/-- The qualifiers `hh`, `h`, `l`, `ll` or `L`, and `Z` or `z`. -/
inductive ScanQualifier
  | none | char | short | long | longLong | size

def scanQualifier (format : List UInt8) : ScanQualifier × List UInt8 :=
  match format with
  | [] => (.none, [])
  | c :: rest =>
      if c = 0x68 then
        if rest.headD 0 = 0x68 then (.char, rest.tail) else (.short, rest)
      else if c = 0x6C then
        if rest.headD 0 = 0x6C then (.longLong, rest.tail) else (.long, rest)
      else if c = 0x4C then (.longLong, rest)
      else if c = 0x5A ∨ c = 0x7A then (.size, rest)
      else (.none, c :: rest)

/-- What is stored at a pointer: bytes, or a number of two, four or eight bytes. -/
inductive Assigned
  | bytes (text : List UInt8)
  | half (value : UInt16)
  | word (value : UInt32)
  | long (value : UInt64)

/-- The rest of the string, the pointers that are left, the number of assignments, and what was
assigned at which pointer. -/
structure Scanning where
  str : List UInt8
  args : List Nat
  num : Int32
  assigned : List (Nat × Assigned)

/-- `*VA_ARG(args, ...) = value`. -/
def Scanning.assign (state : Scanning) (value : Assigned) : Option Scanning :=
  match state.args with
  | [] => none
  | place :: args =>
      some { state with args, assigned := state.assigned ++ [(place, value)] }

/-- `do *s++ = *str++; while (--field_width > 0 && *str)`. -/
def scanChars : (str : List UInt8) → (fieldWidth : Int) → List UInt8 × List UInt8
  | [], _ => ([], [])
  | c :: str, fieldWidth =>
      if 0 < fieldWidth - 1 ∧ str ≠ [] then
        let (s, str) := scanChars str (fieldWidth - 1)
        (c :: s, str)
      else ([c], str)

/-- `while (*str && !IS_SPACE(*str) && field_width--) *s++ = *str++`. -/
def scanWord : (str : List UInt8) → (fieldWidth : Int) → List UInt8 × List UInt8
  | [], _ => ([], [])
  | c :: str, fieldWidth =>
      if ¬isSpace c ∧ fieldWidth ≠ 0 then
        let (s, str) := scanWord str (fieldWidth - 1)
        (c :: s, str)
      else ([], c :: str)

/-- The test that a number of the base begins here. -/
def scanDigit (base : UInt32) (isSign : Bool) (str : List UInt8) : Bool :=
  let digit := if isSign ∧ str.headD 0 = 0x2D then str.tail.headD 0 else str.headD 0
  ¬(digit = 0 ∨ (base = 16 ∧ ¬isXDigit digit) ∨ (base = 10 ∧ ¬isDigit digit) ∨
    (base = 8 ∧ (¬isDigit digit ∨ 0x37 < digit)) ∨ (base = 0 ∧ ¬isDigit digit))

/-- The number that is assigned, and the rest of the string. -/
def scanNumber (base : UInt32) (isSign : Bool) (str : List UInt8) :
    (qualifier : ScanQualifier) → Assigned × List UInt8
  | .char =>
      if isSign then
        let (s, next) := simpleStrtol str base
        (.bytes [s.toUInt32.toUInt8], next)
      else
        let (s, next) := simpleStrtoul str base
        (.bytes [s.toUInt8], next)
  | .short =>
      if isSign then
        let (s, next) := simpleStrtol str base
        (.half s.toUInt32.toUInt16, next)
      else
        let (s, next) := simpleStrtoul str base
        (.half s.toUInt16, next)
  | .longLong =>
      if isSign then
        let (l, next) := simpleStrtoll str base
        (.long l.toUInt64, next)
      else
        let (l, next) := simpleStrtoull str base
        (.long l, next)
  | .size =>
      let (s, next) := simpleStrtoul str base
      (.word s, next)
  | .long | .none =>
      if isSign then
        let (i, next) := simpleStrtol str base
        (.word i.toUInt32, next)
      else
        let (i, next) := simpleStrtoul str base
        (.word i, next)

/-- The integer conversions, behind the switch, and whether the loop goes on. -/
def scanInteger (base : UInt32) (isSign : Bool) (qualifier : ScanQualifier)
    (state : Scanning) : Option (Bool × Scanning) :=
  let str := state.str.dropWhile isSpace
  if scanDigit base isSign str then
    let (value, next) := scanNumber base isSign str qualifier
    state.assign value >>= fun state =>
      some (true, { state with str := next, num := state.num + 1 })
  else some (false, { state with str })

/-- The switch of `Vsscanf` on the conversion character, and whether the loop goes on.  The
length is that of the whole string. -/
def vsscanfSwitch (length : Nat) (fieldWidth : Int) (qualifier : ScanQualifier) (c : UInt8)
    (state : Scanning) : Option (Bool × Scanning) :=
  if c = 0x63 then
    let (s, str) := scanChars state.str (if fieldWidth = -1 then 1 else fieldWidth)
    state.assign (.bytes s) >>= fun state =>
      some (true, { state with str, num := state.num + 1 })
  else if c = 0x73 then
    let (s, str) := scanWord (state.str.dropWhile isSpace)
      (if fieldWidth = -1 then 0x7FFFFFFF else fieldWidth)
    state.assign (.bytes (s ++ [0])) >>= fun state =>
      some (true, { state with str, num := state.num + 1 })
  else if c = 0x6E then
    state.assign (.word (UInt32.ofNat (length - state.str.length))) >>= fun state =>
      some (true, state)
  else if c = 0x6F then scanInteger 8 false qualifier state
  else if c = 0x78 ∨ c = 0x58 then scanInteger 16 false qualifier state
  else if c = 0x69 then scanInteger 0 true qualifier state
  else if c = 0x64 then scanInteger 10 true qualifier state
  else if c = 0x75 then scanInteger 10 false qualifier state
  else if c = 0x25 then
    some (state.str.headD 0 = 0x25, { state with str := state.str.tail })
  else some (false, state)

theorem scanQualifier_shorter (format : List UInt8) :
    (scanQualifier format).2.length ≤ format.length := by
  cases format with
  | nil => exact Nat.le_refl _
  | cons c rest =>
      rw [scanQualifier]
      have tail := (tail_shorter rest).trans (Nat.le_succ _)
      repeat' split
      all_goals first | exact tail | exact Nat.le_succ _ | exact Nat.le_refl _

/-- The field width and the qualifier of a conversion. -/
def scanDirective (format : List UInt8) : Int32 × ScanQualifier × List UInt8 :=
  let (fieldWidth, format) :=
    if isDigit (format.headD 0) then skipAToI format 0 else (-1, format)
  (fieldWidth, scanQualifier format)

theorem scanDirective_shorter {format rest : List UInt8} {fieldWidth : Int32}
    {qualifier : ScanQualifier} {c : UInt8}
    (found : scanDirective format = (fieldWidth, qualifier, c :: rest)) :
    rest.length < format.length := by
  have shorter : (scanDirective format).2.2.length ≤ format.length := by
    rw [scanDirective]
    refine (scanQualifier_shorter _).trans ?_
    split
    · exact skipAToI_shorter format 0
    · exact Nat.le_refl _
  rw [found] at shorter
  exact shorter

/-- White space in the format skips that in the string. -/
def skipSpaces (format str : List UInt8) : List UInt8 × List UInt8 :=
  if isSpace (format.headD 0) then (format.dropWhile isSpace, str.dropWhile isSpace)
  else (format, str)

theorem skipSpaces_shorter {format str rest str' : List UInt8} {c : UInt8}
    (skipped : skipSpaces format str = (c :: rest, str')) : rest.length < format.length := by
  rw [skipSpaces] at skipped
  split at skipped
  · have left := List.length_dropWhile_le isSpace format
    rw [(Prod.mk.inj skipped).1] at left
    exact left
  · rw [(Prod.mk.inj skipped).1]
    exact Nat.lt_succ_self _

/-- The loop of `Vsscanf`. -/
def vsscanfLoop (length : Nat) (format : List UInt8) (state : Scanning) : Option Scanning :=
  if format = [] ∨ state.str = [] then some state
  else
    match _ : skipSpaces format state.str with
    | ([], str) => some { state with str }
    | (c :: rest, str) =>
        if c ≠ 0x25 then
          if c = str.headD 0 then vsscanfLoop length rest { state with str := str.tail }
          else some { state with str := str.tail }
        else if rest.headD 0 = 0x2A then
          vsscanfLoop length (rest.dropWhile (¬isSpace ·))
            { state with str := str.dropWhile (¬isSpace ·) }
        else
          match _ : scanDirective rest with
          | (_, _, []) => some { state with str }
          | (fieldWidth, qualifier, letter :: format) =>
              if str = [] then some { state with str }
              else
                vsscanfSwitch length fieldWidth.toInt qualifier letter { state with str } >>=
                  fun (goesOn, state) =>
                    if goesOn then vsscanfLoop length format state else some state
  termination_by format.length
  decreasing_by
    · exact skipSpaces_shorter ‹_›
    · exact (List.length_dropWhile_le ..).trans_lt (skipSpaces_shorter ‹_›)
    · exact (scanDirective_shorter ‹_›).trans (skipSpaces_shorter ‹_›)

/-- One conversion that stands in the format. -/
theorem vsscanfLoop_conversion {length : Nat} {rest format : List UInt8} {state : Scanning}
    {fieldWidth : Int32} {qualifier : ScanQualifier} {letter : UInt8}
    (more : state.str ≠ []) (assigns : rest.headD 0 ≠ 0x2A)
    (found : scanDirective rest = (fieldWidth, qualifier, letter :: format)) :
    vsscanfLoop length (0x25 :: rest) state =
      vsscanfSwitch length fieldWidth.toInt qualifier letter state >>=
        fun (goesOn, state) => if goesOn then vsscanfLoop length format state else some state := by
  have kept : skipSpaces (0x25 :: rest) state.str = (0x25 :: rest, state.str) :=
    if_neg (show ¬isSpace 0x25 by decide +kernel)
  rw [vsscanfLoop, if_neg (by simp [more])]
  split
  · simp_all
  · rename_i c rest' str skipped
    rw [kept] at skipped
    cases skipped
    rw [if_neg (by simp), if_neg assigns]
    split
    · simp_all
    · simp_all

/-- The number of assignments, and what was assigned at which pointer. -/
def vsscanf (buf format : CString) (args : List Nat) :
    Option (UInt32 × List (Nat × Assigned)) :=
  vsscanfLoop buf.chars.length format.chars ⟨buf.chars, args, 0, []⟩ >>= fun state =>
    some (state.num.toUInt32, state.assigned)

end LedFirmware
