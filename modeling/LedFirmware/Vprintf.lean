import LedFirmware.FormatOutput

/-!
# Formatted text through a callback

`VprintfNumber` and `Vprintf`: every character goes to the callback `output`, and is counted.
-/

namespace LedFirmware

/-- The characters given to `output`, their count, and the numbers that `%n` stores. -/
structure Sending where
  sent : List UInt8
  count : Int32
  counters : List UInt32

/-- `output(c); ++count;`. -/
def Sending.send (state : Sending) (c : UInt8) : Sending :=
  { state with sent := state.sent ++ [c], count := state.count + 1 }

def vprintfNumber (num : UInt64) (radix : Radix) (size precision : Int) (type : FormatFlags)
    (state : Sending) : Sending :=
  let parts := numberParts num radix size precision type
  let (state, size) :=
    if parts.type.zeropad || parts.type.left then (state, parts.size)
    else putWhile .send 0x20 0 parts.size state
  let state := if parts.sign ≠ 0 then state.send parts.sign else state
  let state :=
    if parts.type.special then
      if radix.value = 8 then state.send 0x30
      else if radix.value = 16 then (state.send 0x30).send (parts.digits.getD 33 0)
      else state
    else state
  let (state, size) :=
    if parts.type.left then (state, size) else putWhile .send parts.c 0 size state
  let (state, _) := putWhile .send 0x30 parts.tmp.length parts.precision state
  let state := putDigits .send parts.tmp parts.tmp.length state
  (putWhile .send 0x20 0 size state).1

theorem vprintfNumber_eq (num : UInt64) (radix : Radix) (size precision : Int)
    (type : FormatFlags) (state : Sending) :
    vprintfNumber num radix size precision type state =
      (vsnprintfNumber num radix size precision type).foldl .send state := by
  rw [vsnprintfNumber_eq_text, vprintfNumber, NumberParts.text]
  generalize numberParts num radix size precision type = parts
  simp only [putWhile_eq, putDigits_eq _ (le_refl _), padding, List.take_length,
    List.foldl_append]
  split_ifs <;> simp

/-- The integer conversions, behind the character. -/
def vprintfInteger (radix : Radix) (flags : FormatFlags) (width precision : Int)
    (qualifier : Qualifier) (args : List Arg) (state : Sending) : Option (Sending × List Arg) :=
  integerArg flags.sign args qualifier >>= fun (num, args) =>
    some (vprintfNumber num radix width precision flags state, args)

/-- The switch of `Vprintf` on the conversion character. -/
def vprintfSwitch (flags : FormatFlags) (width precision : Int) (qualifier : Qualifier)
    (args : List Arg) (c : UInt8) (state : Sending) : Option (Sending × List Arg) :=
  if c = 0x63 then
    let padded :=
      if flags.left then (state, width) else putWhileBefore .send 0x20 width state
    vaWord args >>= fun (value, args) =>
      let state := padded.1.send value.toUInt8
      some ((putWhileBefore .send 0x20 padded.2 state).1, args)
  else if c = 0x73 then
    vaText args >>= fun (str, args) =>
      let len := (Int32.ofNat (scanText str.chars precision)).toInt
      let padded :=
        if flags.left then (state, width) else putWhile .send 0x20 len width state
      let state := putText .send str.chars 0 len padded.1
      some ((putWhile .send 0x20 len padded.2 state).1, args)
  else if c = 0x70 then
    let (width, flags) :=
      if width = -1 then (8, { flags with zeropad := true }) else (width, flags)
    vaWord args >>= fun (value, args) =>
      some (vprintfNumber value.toUInt64 .sixteen width precision flags state, args)
  else if c = 0x6E then
    vaCounter args >>= fun args =>
      some ({ state with counters := state.counters ++ [state.count.toUInt32] }, args)
  else if c = 0x25 then some (state.send 0x25, args)
  else if c = 0x6F then vprintfInteger .eight flags width precision qualifier args state
  else if c = 0x58 then
    vprintfInteger .sixteen { flags with large := true } width precision qualifier args state
  else if c = 0x78 then vprintfInteger .sixteen flags width precision qualifier args state
  else if c = 0x64 ∨ c = 0x69 then
    vprintfInteger .ten { flags with sign := true } width precision qualifier args state
  else if c = 0x75 then vprintfInteger .ten flags width precision qualifier args state
  else some ((state.send 0x25).send c, args)

/-- The loop of `Vprintf`.  Where the format ends behind a percent sign, that sign is put
out. -/
def vprintfLoop (format : List UInt8) (args : List Arg) (state : Sending) : Option Sending :=
  match format with
  | [] => some state
  | c :: format =>
      if c ≠ 0x25 then vprintfLoop format args (state.send c)
      else
        match _ : directive format args with
        | none => none
        | some ⟨_, _, _, _, [], _⟩ => some (state.send 0x25)
        | some ⟨flags, width, precision, qualifier, c :: format, args⟩ =>
            vprintfSwitch flags width.toInt precision.toInt qualifier args c state >>=
              fun (state, args) => vprintfLoop format args state
  termination_by format.length
  decreasing_by
    · exact Nat.lt_succ_self _
    · exact (directive_shorter ‹_›).trans (Nat.le_succ _)

/-- The characters given to `output`, the numbers that `%n` stores, and the count. -/
def vprintf (format : List UInt8) (args : List Arg) :
    Option (List UInt8 × List UInt32 × UInt32) :=
  vprintfLoop format args ⟨[], 0, []⟩ >>= fun state =>
    some (state.sent, state.counters, state.count.toUInt32)

/-! ## The same characters -/

/-- The state after a text and the counters stored along with it. -/
def Sending.after (state : Sending) (text : List UInt8) (counters : List UInt32) : Sending where
  sent := state.sent ++ text
  count := state.count + Int32.ofNat text.length
  counters := state.counters ++ counters

theorem Sending.foldl_send (text : List UInt8) (state : Sending) :
    text.foldl send state = state.after text [] := by
  induction text generalizing state with
  | nil => simp [after]
  | cons c text ih =>
      simp [ih, after, send, Int32.ofNat_add, Int32.add_assoc, Int32.add_comm 1]

theorem Sending.after_after (state : Sending) (text text' : List UInt8)
    (counters counters' : List UInt32) :
    (state.after text counters).after text' counters' =
      state.after (text ++ text') (counters ++ counters') := by
  simp [after, Int32.add_assoc, Int32.ofNat_add]

theorem vprintfInteger_eq (radix : Radix) (flags : FormatFlags) (width precision : Int32)
    (qualifier : Qualifier) (format : List UInt8) (args : List Arg) (state : Sending) :
    vprintfInteger radix flags width.toInt precision.toInt qualifier args state =
      (integerText radix flags width precision qualifier format args).map fun step =>
        (state.after step.text step.counters, step.args) := by
  simp only [vprintfInteger, integerText, vprintfNumber_eq, Sending.foldl_send]
  cases integerArg flags.sign args qualifier <;> rfl

theorem vprintfSwitch_eq (flags : FormatFlags) (width precision : Int32)
    (qualifier : Qualifier) (args : List Arg) (c : UInt8) (format : List UInt8)
    {state : Sending} {count : Nat} (counted : state.count.toUInt32 = UInt32.ofNat count) :
    vprintfSwitch flags width.toInt precision.toInt qualifier args c state =
      (convert flags width precision qualifier count args (c :: format)).map fun step =>
        (state.after step.text step.counters, step.args) := by
  rw [vprintfSwitch, convert]
  apply ite_eq_map
  · have put_eq (value : UInt8) :=
      @putWhileBefore_formatChar _ Sending.send flags width.toInt value state
    cases vaWord args <;> simp_all [Sending.foldl_send]
  apply ite_eq_map
  · have put_eq (str : CString) :=
      @putWhile_formatString _ Sending.send flags width.toInt precision.toInt str state
    cases vaText args <;> simp_all [Sending.foldl_send]
  apply ite_eq_map
  · have width_eq : width.toInt = -1 ↔ width = -1 := Int32.toInt_inj (y := -1)
    simp only [vprintfNumber_eq, Sending.foldl_send, width_eq]
    cases vaWord args <;> split_ifs <;> rfl
  apply ite_eq_map
  · cases vaCounter args <;> simp [Sending.after, counted]
  apply ite_eq_map
  · exact congrArg some (congrArg (·, args) (Sending.foldl_send [0x25] state))
  iterate 5
    apply ite_eq_map
    · apply vprintfInteger_eq
  exact congrArg some (congrArg (·, args) (Sending.foldl_send [0x25, c] state))

theorem Sending.after_counted {state : Sending} {count : Nat}
    (counted : state.count.toUInt32 = UInt32.ofNat count) (text : List UInt8)
    (counters : List UInt32) :
    (state.after text counters).count.toUInt32 = UInt32.ofNat (count + text.length) := by
  rw [after, Int32.toUInt32_add, counted, UInt32.ofNat_add]
  rfl

theorem vprintfLoop_percent (format : List UInt8) (args : List Arg) (state : Sending) :
    vprintfLoop (0x25 :: format) args state =
      directive format args >>= fun head =>
        match head.format with
        | [] => some (state.send 0x25)
        | c :: format =>
            vprintfSwitch head.flags head.width.toInt head.precision.toInt head.qualifier
                head.args c state >>=
              fun (state, args) => vprintfLoop format args state := by
  rw [vprintfLoop, if_neg (by simp)]
  split <;> simp_all

/-- The characters are those that the format produces, and so are the stored counts. -/
theorem vprintfLoop_eq (format : List UInt8) (args : List Arg) {state : Sending} {count : Nat}
    (counted : state.count.toUInt32 = UInt32.ofNat count) :
    vprintfLoop format args state =
      (formatLoop format args count).map fun (text, counters) => state.after text counters := by
  induction format, args, state using vprintfLoop.induct generalizing count with
  | case1 args state =>
      rw [vprintfLoop, formatLoop]
      simp [Sending.after]
  | case2 args state c format ordinary ih =>
      have send_eq : state.send c = state.after [c] [] := Sending.foldl_send [c] state
      have sent_counted : (state.send c).count.toUInt32 = UInt32.ofNat (count + 1) :=
        send_eq ▸ Sending.after_counted counted [c] []
      rw [vprintfLoop, if_pos ordinary, formatLoop, if_pos ordinary, ih sent_counted]
      cases formatLoop format args (count + 1) <;> simp [send_eq, Sending.after_after]
  | case3 args state c format percent missing =>
      obtain rfl := not_not.mp percent
      rw [vprintfLoop_percent, formatLoop_directive, missing]
      rfl
  | case4 args state c format percent flags width precision qualifier rest found =>
      obtain rfl := not_not.mp percent
      rw [vprintfLoop_percent, formatLoop_directive, found]
      simp [convert, formatLoop, ← Sending.foldl_send]
  | case5 args state c format percent flags width precision qualifier letter format' args'
      found ih =>
      obtain rfl := not_not.mp percent
      rw [vprintfLoop_percent, formatLoop_directive, found]
      simp only [Option.bind_eq_bind, Option.bind_some,
        vprintfSwitch_eq flags width precision qualifier args' letter format' counted]
      cases converted : convert flags width precision qualifier count args' (letter :: format') with
      | none => rfl
      | some step =>
          have rest_eq : step.format = format' := convert_format step converted
          simp only [Option.map_some, Option.bind_some, rest_eq,
            ih _ _ (Sending.after_counted counted step.text step.counters)]
          cases formatLoop format' step.args (count + step.text.length) <;>
            simp [Sending.after_after]

/-- `Vprintf` gives `output` the characters that the format produces and returns their
number. -/
theorem vprintf_eq (format : List UInt8) (args : List Arg) :
    vprintf format args =
      (formatLoop format args 0).map fun (text, counters) =>
        (text, counters, UInt32.ofNat text.length) := by
  have empty_counted : (Sending.mk [] 0 []).count.toUInt32 = UInt32.ofNat 0 := rfl
  rw [vprintf, vprintfLoop_eq format args empty_counted]
  cases formatLoop format args 0 <;> simp [Sending.after]

end LedFirmware
