import LedFirmware.Vprintf

/-!
# Formatted text through a pointer

`VsnprintfNumber` and `Vsnprintf` as they store: every character is stored at the pointer `str`
unless that is behind `end`, and the pointer moves on.  Pointers have 32 bits and wrap around.
-/

namespace LedFirmware

open StoreLog

/-- The stores so far, the pointer `str`, and the numbers that `%n` stores. -/
structure Cursor where
  stores : List (Nat × UInt8)
  str : UInt32
  counters : List UInt32

namespace Cursor

/-- `if (str <= end) *str = c;` and `++str;`, with the last cell for `end`. -/
def put (last : UInt32) (state : Cursor) (c : UInt8) : Cursor where
  stores := if state.str ≤ last then state.stores ++ [(state.str.toNat, c)] else state.stores
  str := state.str + 1
  counters := state.counters

def vsnprintfNumber (last : UInt32) (num : UInt64) (radix : Radix) (size precision : Int)
    (type : FormatFlags) (state : Cursor) : Cursor :=
  let parts := numberParts num radix size precision type
  let (state, size) :=
    if parts.type.zeropad || parts.type.left then (state, parts.size)
    else putWhile (put last) 0x20 0 parts.size state
  let state := if parts.sign ≠ 0 then put last state parts.sign else state
  let state :=
    if parts.type.special then
      if radix.value = 8 then put last state 0x30
      else if radix.value = 16 then put last (put last state 0x30) (parts.digits.getD 33 0)
      else state
    else state
  let (state, size) :=
    if parts.type.left then (state, size) else putWhile (put last) parts.c 0 size state
  let (state, _) := putWhile (put last) 0x30 parts.tmp.length parts.precision state
  let state := putDigits (put last) parts.tmp parts.tmp.length state
  (putWhile (put last) 0x20 0 size state).1

/-- The integer conversions, behind the character. -/
def vsnprintfInteger (last : UInt32) (radix : Radix) (flags : FormatFlags) (width precision : Int)
    (qualifier : Qualifier) (args : List Arg) (state : Cursor) : Option (Cursor × List Arg) :=
  integerArg flags.sign args qualifier >>= fun (num, args) =>
    some (vsnprintfNumber last num radix width precision flags state, args)

/-- The switch of `Vsnprintf` on the conversion character. -/
def vsnprintfSwitch (buf last : UInt32) (flags : FormatFlags) (width precision : Int)
    (qualifier : Qualifier) (args : List Arg) (c : UInt8) (state : Cursor) :
    Option (Cursor × List Arg) :=
  if c = 0x63 then
    let padded :=
      if flags.left then (state, width) else putWhileBefore (put last) 0x20 width state
    vaWord args >>= fun (value, args) =>
      let state := put last padded.1 value.toUInt8
      some ((putWhileBefore (put last) 0x20 padded.2 state).1, args)
  else if c = 0x73 then
    vaText args >>= fun (str, args) =>
      let len := (Int32.ofNat (scanText str.chars precision)).toInt
      let padded :=
        if flags.left then (state, width) else putWhile (put last) 0x20 len width state
      let state := putText (put last) str.chars 0 len padded.1
      some ((putWhile (put last) 0x20 len padded.2 state).1, args)
  else if c = 0x70 then
    let (width, flags) :=
      if width = -1 then (8, { flags with zeropad := true }) else (width, flags)
    vaWord args >>= fun (value, args) =>
      some (vsnprintfNumber last value.toUInt64 .sixteen width precision flags state, args)
  else if c = 0x6E then
    vaCounter args >>= fun args =>
      let count := state.str - buf
      some ({ state with counters := state.counters ++ [count] }, args)
  else if c = 0x25 then some (put last state 0x25, args)
  else if c = 0x6F then
    vsnprintfInteger last .eight flags width precision qualifier args state
  else if c = 0x58 then
    vsnprintfInteger last .sixteen { flags with large := true } width precision qualifier args
      state
  else if c = 0x78 then
    vsnprintfInteger last .sixteen flags width precision qualifier args state
  else if c = 0x64 ∨ c = 0x69 then
    vsnprintfInteger last .ten { flags with sign := true } width precision qualifier args state
  else if c = 0x75 then vsnprintfInteger last .ten flags width precision qualifier args state
  else some (put last (put last state 0x25) c, args)

/-- The loop of `Vsnprintf`.  Where the format ends behind a percent sign, that sign is put
out. -/
def vsnprintfLoop (buf last : UInt32) (format : List UInt8) (args : List Arg)
    (state : Cursor) : Option Cursor :=
  match format with
  | [] => some state
  | c :: format =>
      if c ≠ 0x25 then vsnprintfLoop buf last format args (put last state c)
      else
        match _ : directive format args with
        | none => none
        | some ⟨_, _, _, _, [], _⟩ => some (put last state 0x25)
        | some ⟨flags, width, precision, qualifier, c :: format, args⟩ =>
            vsnprintfSwitch buf last flags width.toInt precision.toInt qualifier args c state >>=
              fun (state, args) => vsnprintfLoop buf last format args state
  termination_by format.length
  decreasing_by
    · exact Nat.lt_succ_self _
    · exact (directive_shorter ‹_›).trans (Nat.le_succ _)

/-- `end` and the size: where `end` lies before the buffer, it becomes the last address. -/
def bufferEnd (buf size : UInt32) : UInt32 × UInt32 :=
  let last := buf + size - 1
  if last < buf - 1 then (0xFFFFFFFF, 0xFFFFFFFF - buf + 1) else (last, size)

/-- The stores, the numbers that `%n` stores, and the number of characters. -/
def vsnprintf (buf size : UInt32) (format : List UInt8) (args : List Arg) :
    Option (List (Nat × UInt8) × List UInt32 × UInt32) :=
  if size.toInt32 < 0 then some ([], [], 0)
  else
    let (last, size) := bufferEnd buf size
    vsnprintfLoop buf last format args ⟨[], buf, []⟩ >>= fun state =>
      let stores :=
        if state.str ≤ last then state.stores ++ [(state.str.toNat, 0)]
        else if 0 < size then state.stores ++ [(last.toNat, 0)]
        else state.stores
      some (stores, state.counters, state.str - buf)

/-! ## The same characters -/

/-- The stores of a text, as far as the pointer is not behind the last cell. -/
def guarded (last str : UInt32) : (text : List UInt8) → List (Nat × UInt8)
  | [] => []
  | c :: text => (if str ≤ last then [(str.toNat, c)] else []) ++ guarded last (str + 1) text

/-- The state after a text and the counters stored along with it. -/
def after (last : UInt32) (state : Cursor) (text : List UInt8) (counters : List UInt32) :
    Cursor where
  stores := state.stores ++ guarded last state.str text
  str := state.str + UInt32.ofNat text.length
  counters := state.counters ++ counters

variable {buf last : UInt32}

theorem add_succ (str : UInt32) (index : Nat) :
    str + UInt32.ofNat (index + 1) = str + 1 + UInt32.ofNat index := by
  rw [Nat.add_comm, UInt32.ofNat_add, ← UInt32.add_assoc]
  rfl

theorem foldl_put (text : List UInt8) (state : Cursor) :
    text.foldl (put last) state = state.after last text [] := by
  induction text generalizing state with
  | nil => simp [after, guarded]
  | cons c text ih =>
      rw [List.foldl_cons, ih]
      have moved := add_succ state.str text.length
      by_cases room : state.str ≤ last
      · simp only [after, put, guarded, if_pos room, List.length_cons, moved, List.append_assoc]
      · simp only [after, put, guarded, if_neg room, List.length_cons, moved, List.nil_append]

theorem guarded_append (str : UInt32) (text text' : List UInt8) :
    guarded last str (text ++ text') =
      guarded last str text ++ guarded last (str + UInt32.ofNat text.length) text' := by
  induction text generalizing str with
  | nil => simp [guarded]
  | cons c text ih =>
      rw [List.cons_append, guarded, guarded, ih, List.length_cons, add_succ, List.append_assoc]

theorem after_after (state : Cursor) (text text' : List UInt8) (counters counters' : List UInt32) :
    (state.after last text counters).after last text' counters' =
      state.after last (text ++ text') (counters ++ counters') := by
  simp only [after, guarded_append, List.append_assoc, List.length_append, UInt32.ofNat_add,
    UInt32.add_assoc]

theorem vsnprintfNumber_eq (num : UInt64) (radix : Radix) (size precision : Int)
    (type : FormatFlags) (state : Cursor) :
    vsnprintfNumber last num radix size precision type state =
      (LedFirmware.vsnprintfNumber num radix size precision type).foldl (put last) state := by
  rw [vsnprintfNumber_eq_text, vsnprintfNumber, NumberParts.text]
  generalize numberParts num radix size precision type = parts
  simp only [putWhile_eq, putDigits_eq _ (le_refl _), padding, List.take_length,
    List.foldl_append]
  split_ifs <;> simp

theorem vsnprintfInteger_eq (radix : Radix) (flags : FormatFlags) (width precision : Int32)
    (qualifier : Qualifier) (format : List UInt8) (args : List Arg) (state : Cursor) :
    vsnprintfInteger last radix flags width.toInt precision.toInt qualifier args state =
      (integerText radix flags width precision qualifier format args).map fun step =>
        (state.after last step.text step.counters, step.args) := by
  simp only [vsnprintfInteger, integerText, vsnprintfNumber_eq, foldl_put]
  cases integerArg flags.sign args qualifier <;> rfl

theorem vsnprintfSwitch_eq (flags : FormatFlags) (width precision : Int32)
    (qualifier : Qualifier) (args : List Arg) (c : UInt8) (format : List UInt8)
    {state : Cursor} {count : Nat} (counted : state.str = buf + UInt32.ofNat count) :
    vsnprintfSwitch buf last flags width.toInt precision.toInt qualifier args c state =
      (convert flags width precision qualifier count args (c :: format)).map fun step =>
        (state.after last step.text step.counters, step.args) := by
  rw [vsnprintfSwitch, convert]
  apply ite_eq_map
  · have put_eq (value : UInt8) :=
      @putWhileBefore_formatChar _ (put last) flags width.toInt value state
    cases vaWord args <;> simp_all [foldl_put]
  apply ite_eq_map
  · have put_eq (str : CString) :=
      @putWhile_formatString _ (put last) flags width.toInt precision.toInt str state
    cases vaText args <;> simp_all [foldl_put]
  apply ite_eq_map
  · have width_eq : width.toInt = -1 ↔ width = -1 := Int32.toInt_inj (y := -1)
    simp only [vsnprintfNumber_eq, foldl_put, width_eq]
    cases vaWord args <;> split_ifs <;> rfl
  apply ite_eq_map
  · have distance : buf + UInt32.ofNat count - buf = UInt32.ofNat count := by
      rw [UInt32.add_comm, UInt32.add_sub_cancel]
    cases vaCounter args <;> simp [after, guarded, counted, distance]
  apply ite_eq_map
  · exact congrArg some (congrArg (·, args) (foldl_put [0x25] state))
  iterate 5
    apply ite_eq_map
    · apply vsnprintfInteger_eq
  exact congrArg some (congrArg (·, args) (foldl_put [0x25, c] state))

theorem vsnprintfLoop_percent (format : List UInt8) (args : List Arg) (state : Cursor) :
    vsnprintfLoop buf last (0x25 :: format) args state =
      directive format args >>= fun head =>
        match head.format with
        | [] => some (put last state 0x25)
        | c :: format =>
            vsnprintfSwitch buf last head.flags head.width.toInt head.precision.toInt
                head.qualifier head.args c state >>=
              fun (state, args) => vsnprintfLoop buf last format args state := by
  rw [vsnprintfLoop, if_neg (by simp)]
  split <;> simp_all

/-- The characters are those that the format produces, and so are the stored counts. -/
theorem vsnprintfLoop_eq (format : List UInt8) (args : List Arg) {state : Cursor} {count : Nat}
    (counted : state.str = buf + UInt32.ofNat count) :
    vsnprintfLoop buf last format args state =
      (formatLoop format args count).map fun (text, counters) =>
        state.after last text counters := by
  induction format, args, state using vsnprintfLoop.induct last
    generalizing count with
  | case1 args state =>
      rw [vsnprintfLoop, formatLoop]
      simp [after, guarded]
  | case2 args state c format ordinary ih =>
      have put_eq : put last state c = state.after last [c] [] := foldl_put [c] state
      have put_counted : (put last state c).str = buf + UInt32.ofNat (count + 1) := by
        rw [put, counted, UInt32.ofNat_add, UInt32.add_assoc]
        rfl
      rw [vsnprintfLoop, if_pos ordinary, formatLoop, if_pos ordinary, ih put_counted]
      cases formatLoop format args (count + 1) <;> simp [put_eq, after_after]
  | case3 args state c format percent missing =>
      obtain rfl := not_not.mp percent
      rw [vsnprintfLoop_percent, formatLoop_directive, missing]
      rfl
  | case4 args state c format percent flags width precision qualifier rest found =>
      obtain rfl := not_not.mp percent
      rw [vsnprintfLoop_percent, formatLoop_directive, found]
      simp [convert, formatLoop, ← foldl_put]
  | case5 args state c format percent flags width precision qualifier letter format' args'
      found ih =>
      obtain rfl := not_not.mp percent
      rw [vsnprintfLoop_percent, formatLoop_directive, found]
      simp only [Option.bind_eq_bind, Option.bind_some,
        vsnprintfSwitch_eq flags width precision qualifier args' letter format' counted]
      cases converted : convert flags width precision qualifier count args' (letter :: format') with
      | none => rfl
      | some step =>
          have rest_eq : step.format = format' := convert_format step converted
          have after_counted : (state.after last step.text step.counters).str =
              buf + UInt32.ofNat (count + step.text.length) := by
            rw [after, counted, UInt32.ofNat_add, UInt32.add_assoc]
          simp only [Option.map_some, Option.bind_some, rest_eq, ih _ _ after_counted]
          cases formatLoop format' step.args (count + step.text.length) <;>
            simp [after_after]

/-- The stores of a run that produces `text`. -/
def stored (buf size : UInt32) (text : List UInt8) : List (Nat × UInt8) :=
  guarded (bufferEnd buf size).1 buf text ++
    if buf + UInt32.ofNat text.length ≤ (bufferEnd buf size).1 then
      [((buf + UInt32.ofNat text.length).toNat, 0)]
    else if 0 < (bufferEnd buf size).2 then [((bufferEnd buf size).1.toNat, 0)]
    else []

/-- What is stored and returned for a size that is not rejected. -/
theorem vsnprintf_produced {size : UInt32} {format : List UInt8} {args : List Arg}
    {text : List UInt8} {counters : List UInt32}
    (produced : formatLoop format args 0 = some (text, counters)) (small : size.toNat < 2 ^ 31)
    (buf : UInt32) :
    vsnprintf buf size format args =
      some (stored buf size text, counters, UInt32.ofNat text.length) := by
  have nonneg : ¬size.toInt32 < 0 := by
    rw [Int32.lt_iff_toInt_lt, toInt_toInt32, if_pos small]
    exact not_lt.mpr (Int.natCast_nonneg _)
  have counted : (Cursor.mk [] buf []).str = buf + UInt32.ofNat 0 := (UInt32.add_zero buf).symm
  have distance : buf + UInt32.ofNat text.length - buf = UInt32.ofNat text.length := by
    rw [UInt32.add_comm, UInt32.add_sub_cancel]
  rw [vsnprintf, if_neg nonneg, stored]
  obtain ⟨last, size⟩ := bufferEnd buf size
  simp only [vsnprintfLoop_eq format args counted, produced, Option.map_some, Option.bind_eq_bind,
    Option.bind_some, after, distance, List.nil_append]
  split_ifs <;> simp

/-! ## The end of the buffer -/

/-- A buffer that does not begin at address 0 ends where it should. -/
theorem bufferEnd_inside {size : UInt32} (begins : 0 < buf.toNat)
    (fits : buf.toNat + size.toNat ≤ 2 ^ 32) :
    (bufferEnd buf size).1.toNat = buf.toNat + size.toNat - 1 ∧ (bufferEnd buf size).2 = size := by
  have last : (buf + size - 1).toNat = buf.toNat + size.toNat - 1 := by
    rw [UInt32.toNat_sub, UInt32.toNat_add]
    simp only [UInt32.toNat_one]
    omega
  have before : (buf - 1).toNat = buf.toNat - 1 := by
    rw [UInt32.toNat_sub]
    simp only [UInt32.toNat_one]
    have below := buf.toNat_lt
    omega
  have ordered : ¬ buf + size - 1 < buf - 1 := by
    rw [UInt32.lt_iff_toNat_lt, last, before]
    omega
  rw [bufferEnd, if_neg ordered]
  exact ⟨last, rfl⟩

/-- The cell in front of address 0 is the last one: a buffer there has no end. -/
theorem bufferEnd_null (size : UInt32) : (bufferEnd 0 size).1 = 0xFFFFFFFF := by
  rw [bufferEnd]
  split
  · rfl
  · rename_i ordered
    rw [UInt32.lt_iff_toNat_lt, not_lt] at ordered
    apply UInt32.toNat_inj.mp
    have before : ((0 : UInt32) - 1).toNat = 2 ^ 32 - 1 := by decide
    have below := (0 + size - 1).toNat_lt
    rw [before] at ordered
    change (0 + size - 1).toNat = 2 ^ 32 - 1
    omega

/-- The stores of a text that does not reach the end of the address space. -/
theorem guarded_eq_block (str : UInt32) (text : List UInt8)
    (below : str.toNat + text.length < 2 ^ 32) :
    guarded last str text = block str.toNat (text.take (last.toNat + 1 - str.toNat)) := by
  induction text generalizing str with
  | nil => simp [guarded, block]
  | cons c text ih =>
      rw [List.length_cons] at below
      have next : (str + 1).toNat = str.toNat + 1 := by
        rw [UInt32.toNat_add]
        exact Nat.mod_eq_of_lt (by simp only [UInt32.toNat_one]; omega)
      rw [guarded, ih (str + 1) (by omega), next]
      by_cases room : str ≤ last
      · have inside := UInt32.le_iff_toNat_le.mp room
        rw [if_pos room, show last.toNat + 1 - str.toNat = last.toNat + 1 - (str.toNat + 1) + 1 by
          omega]
        rfl
      · have behind := UInt32.le_iff_toNat_le.not.mp room
        rw [if_neg room, show last.toNat + 1 - str.toNat = 0 by omega,
          show last.toNat + 1 - (str.toNat + 1) = 0 by omega]
        rfl

theorem add_ofNat_toNat {index : Nat} (below : buf.toNat + index < 2 ^ 32) :
    (buf + UInt32.ofNat index).toNat = buf.toNat + index := by
  rw [UInt32.toNat_add, UInt32.toNat_ofNat', Nat.mod_eq_of_lt (a := index) (by omega)]
  exact Nat.mod_eq_of_lt below

/-- The stores are those of the text in its buffer, unless they come round the end of the address
space or the buffer begins at address 0 and is too short. -/
theorem stored_eq {size : UInt32} {text : List UInt8}
    (fits : buf.toNat + size.toNat ≤ 2 ^ 32) (below : buf.toNat + text.length < 2 ^ 32)
    (room : buf = 0 → text.length < size.toNat) :
    stored buf size text = textStores buf.toNat size.toNat text := by
  have str := add_ofNat_toNat below
  have blocks := @guarded_eq_block (bufferEnd buf size).1 buf text below
  rw [stored, textStores]
  by_cases null : buf = 0
  · subst null
    have inside := room rfl
    have last : (bufferEnd 0 size).1.toNat = 2 ^ 32 - 1 := by rw [bufferEnd_null]; rfl
    have reached : 0 + UInt32.ofNat text.length ≤ (bufferEnd 0 size).1 := by
      rw [UInt32.le_iff_toNat_le, str, last]
      omega
    rw [if_pos reached, if_pos inside, blocks, str, List.take_of_length_le (by omega),
      List.take_of_length_le (by omega)]
  · have begins : 0 < buf.toNat := Nat.pos_of_ne_zero fun zero =>
      null (UInt32.toNat_inj.mp zero)
    obtain ⟨last, same⟩ := bufferEnd_inside begins fits
    have cells : (bufferEnd buf size).1.toNat + 1 - buf.toNat = size.toNat := by omega
    have reached : buf + UInt32.ofNat text.length ≤ (bufferEnd buf size).1 ↔
        text.length < size.toNat := by
      rw [UInt32.le_iff_toNat_le, str, last]
      omega
    have positive : 0 < size ↔ 0 < size.toNat := UInt32.lt_iff_toNat_lt
    simp only [reached, blocks, cells, str, same, positive]
    rw [last]

/-- A character is stored exactly if its place is not behind the last cell. -/
theorem mem_guarded {str : UInt32} {text : List UInt8} {store : Nat × UInt8} :
    store ∈ guarded last str text ↔ ∃ index, ∃ inside : index < text.length,
      str + UInt32.ofNat index ≤ last ∧
        store = ((str + UInt32.ofNat index).toNat, text[index]) := by
  induction text generalizing str with
  | nil =>
      refine iff_of_false List.not_mem_nil ?_
      rintro ⟨index, inside, -⟩
      exact absurd inside (Nat.not_lt_zero index)
  | cons c text ih =>
      have here : str + UInt32.ofNat 0 = str := UInt32.add_zero str
      have first : store ∈ (if str ≤ last then [(str.toNat, c)] else []) ↔
          str ≤ last ∧ store = (str.toNat, c) := by
        split <;> simp_all
      rw [guarded, List.mem_append, first, ih]
      constructor
      · rintro (⟨room, rfl⟩ | ⟨index, inside, room, rfl⟩)
        · exact ⟨0, Nat.succ_pos _, by rwa [here], by rw [here]; rfl⟩
        · exact ⟨index + 1, Nat.succ_lt_succ inside, by rwa [add_succ], by rw [add_succ]; rfl⟩
      · rintro ⟨index, inside, room, rfl⟩
        cases index with
        | zero =>
            rw [here] at room ⊢
            exact .inl ⟨room, rfl⟩
        | succ index =>
            rw [add_succ] at room ⊢
            exact .inr ⟨index, Nat.lt_of_succ_lt_succ inside, room, rfl⟩

/-- Where every character is stored, each keeps its cell. -/
theorem run_guarded {mem : Nat → UInt8} {str : UInt32} {text : List UInt8}
    (short : text.length ≤ 2 ^ 32)
    (room : ∀ index < text.length, str + UInt32.ofNat index ≤ last) {index : Nat}
    (inside : index < text.length) :
    run mem (guarded last str text) (str + UInt32.ofNat index).toNat = text[index] := by
  induction text generalizing mem str index with
  | nil => exact absurd inside (Nat.not_lt_zero index)
  | cons c text ih =>
      have here : str + UInt32.ofNat 0 = str := UInt32.add_zero str
      have first := room 0 (Nat.succ_pos _)
      rw [here] at first
      rw [List.length_cons] at short
      rw [guarded, if_pos first, List.singleton_append, run_cons]
      cases index with
      | zero =>
          have untouched : ∀ store ∈ guarded last (str + 1) text,
              store.1 ≠ (str + UInt32.ofNat 0).toNat := by
            intro store member same
            obtain ⟨later, below, -, rfl⟩ := mem_guarded.mp member
            rw [here, ← add_succ, UInt32.toNat_add, UInt32.toNat_ofNat'] at same
            have bound := str.toNat_lt
            omega
          rw [run_of_untouched untouched, here, Function.update_self]
          rfl
      | succ index =>
          rw [add_succ]
          apply ih (Nat.le_of_succ_le short)
          intro later below
          rw [← add_succ]
          exact room (later + 1) (Nat.succ_lt_succ below)

/-- A cell of the buffer is never behind `end`, also where the buffer wraps around. -/
theorem le_bufferEnd {size : UInt32} {index : Nat} (inside : index < size.toNat) :
    buf + UInt32.ofNat index ≤ (bufferEnd buf size).1 := by
  have within := buf.toNat_lt
  have bound := size.toNat_lt
  rw [bufferEnd, UInt32.le_iff_toNat_le, UInt32.toNat_add, UInt32.toNat_ofNat']
  split
  · have last : UInt32.toNat 0xFFFFFFFF = 2 ^ 32 - 1 := rfl
    rw [last]
    omega
  · rename_i ordered
    rw [UInt32.lt_iff_toNat_lt, UInt32.toNat_sub, UInt32.toNat_sub, UInt32.toNat_add,
      UInt32.toNat_one] at ordered
    rw [UInt32.toNat_sub, UInt32.toNat_add, UInt32.toNat_one]
    omega

/-- A text that fits leaves its characters and the zero byte behind them. -/
theorem run_stored {size : UInt32} {text : List UInt8} (fits : text.length < size.toNat)
    (mem : Nat → UInt8) {index : Nat} (inside : index ≤ text.length) :
    run mem (stored buf size text) (buf + UInt32.ofNat index).toNat = text.getD index 0 := by
  have last : buf + UInt32.ofNat text.length ≤ (bufferEnd buf size).1 := le_bufferEnd fits
  have stores : stored buf size text = guarded (bufferEnd buf size).1 buf (text ++ [0]) := by
    rw [guarded_append, stored, if_pos last, guarded, guarded, if_pos last, List.append_nil]
  have length : (text ++ [0]).length = text.length + 1 := List.length_append
  have bound := size.toNat_lt
  have within : index < (text ++ [0]).length := by omega
  have char : (text ++ [0])[index] = text.getD index 0 := by
    rw [List.getElem_append]
    split
    · rename_i before
      exact (List.getD_eq_getElem text 0 before).symm
    · rename_i behind
      rw [List.getD_eq_default _ _ (Nat.le_of_not_lt behind), List.getElem_singleton]
  rw [stores, ← char]
  apply run_guarded (by omega) _ within
  intro place below
  exact le_bufferEnd (by omega)

/-- Behind the last address the stores go on at address 0. -/
theorem stored_comes_round (size : UInt32) {text : List UInt8}
    (beyond : 2 ^ 32 ≤ buf.toNat + text.length) : ∃ store ∈ stored buf size text, store.1 = 0 := by
  have null : buf + UInt32.ofNat (2 ^ 32 - buf.toNat) = 0 := by
    apply UInt32.toNat_inj.mp
    rw [UInt32.toNat_add, UInt32.toNat_ofNat', Nat.add_mod_mod,
      Nat.add_sub_cancel' buf.toNat_lt.le]
    rfl
  have room : buf + UInt32.ofNat (2 ^ 32 - buf.toNat) ≤ (bufferEnd buf size).1 := by
    rw [null]
    exact UInt32.zero_le
  have reaches : 2 ^ 32 - buf.toNat ≤ text.length := by omega
  rcases reaches.lt_or_eq with inside | ends
  · have member := mem_guarded.mpr ⟨_, inside, room, rfl⟩
    rw [null] at member
    exact ⟨_, List.mem_append_left _ member, rfl⟩
  · refine ⟨((buf + UInt32.ofNat text.length).toNat, 0), ?_, ?_⟩
    · rw [stored, ← ends, if_pos room]
      exact List.mem_append_right _ (List.mem_singleton_self _)
    · rw [← ends, null]
      rfl

/-- Behind a buffer at address 0 the zero byte is stored all the same. -/
theorem stored_null (size : UInt32) (text : List UInt8) :
    ((UInt32.ofNat text.length).toNat, 0) ∈ stored 0 size text := by
  have room : 0 + UInt32.ofNat text.length ≤ (bufferEnd 0 size).1 := by
    rw [bufferEnd_null, UInt32.le_iff_toNat_le]
    exact Nat.le_of_lt_succ (UInt32.toNat_lt _)
  rw [stored, if_pos room, UInt32.zero_add]
  exact List.mem_append_right _ (List.mem_singleton_self _)

/-- The stores through the pointer are those of the text in its buffer, as long as that lies
behind address 0 and the text ends before the addresses do. -/
theorem vsnprintf_eq {size : UInt32} {format : List UInt8} {args : List Arg} {text : List UInt8}
    {counters : List UInt32} (produced : formatLoop format args 0 = some (text, counters))
    (fits : buf.toNat + size.toNat ≤ 2 ^ 32) (below : buf.toNat + text.length < 2 ^ 32)
    (null : buf ≠ 0) :
    vsnprintf buf size format args = LedFirmware.vsnprintf buf.toNat size format args := by
  rw [LedFirmware.vsnprintf]
  by_cases negative : size.toInt32 < 0
  · rw [vsnprintf, if_pos negative, if_pos negative]
  · have small : size.toNat < 2 ^ 31 := by
      rw [Int32.lt_iff_toInt_lt, toInt_toInt32] at negative
      by_contra large
      rw [if_neg large] at negative
      have bound := size.toNat_lt
      exact negative (by change (size.toNat : Int) - 2 ^ 32 < 0; omega)
    rw [vsnprintf_produced produced small buf, if_neg negative, produced,
      stored_eq fits below (absurd · null)]
    rfl

end Cursor

/-! ## Both ways of printing agree -/

/-- A text in a buffer: stores within the buffer and none behind the zero byte, as many of the
characters as leave room for that byte, and nothing in a buffer without cells. -/
structure StoresText (buf size : Nat) (text : List UInt8) (stores : List (Nat × UInt8)) :
    Prop where
  within : ∀ store ∈ stores, buf ≤ store.1 ∧ store.1 < buf + size ∧ store.1 ≤ buf + text.length
  empty : size = 0 → stores = []
  inside : ∀ mem : Nat → UInt8, ∀ index, ∀ within : index < text.length, index < size - 1 →
    run mem stores (buf + index) = text[index]
  zero : 0 < size → ∀ mem : Nat → UInt8,
    run mem stores (buf + min text.length (size - 1)) = 0

theorem textStores_storesText (buf size : Nat) (text : List UInt8) :
    StoresText buf size text (textStores buf size text) where
  within _ member := mem_textStores member
  empty none := by
    subst none
    simp [textStores, block]
  inside _ _ _ room := run_textStores_inside _ room
  zero positive _ := run_textStores_zero positive

/-- The stores are within the buffer exactly if they do not come round the end of the address
space, and at address 0 if the zero byte has room. -/
theorem Cursor.stored_storesText_iff {buf size : UInt32} {text : List UInt8}
    (fits : buf.toNat + size.toNat ≤ 2 ^ 32) (short : text.length < 2 ^ 31) :
    StoresText buf.toNat size.toNat text (stored buf size text) ↔
      buf.toNat + text.length < 2 ^ 32 ∧ (buf = 0 → text.length < size.toNat) := by
  constructor
  · intro stores
    constructor
    · by_contra beyond
      obtain ⟨store, member, null⟩ := stored_comes_round size (Nat.le_of_not_lt beyond)
      have within := stores.within store member
      omega
    · rintro rfl
      have within := stores.within _ (stored_null size text)
      have place : (UInt32.ofNat text.length).toNat = text.length :=
        UInt32.toNat_ofNat_of_lt (short.trans (by decide))
      rw [place, UInt32.toNat_zero] at within
      omega
  · rintro ⟨below, room⟩
    rw [stored_eq fits below room]
    exact textStores_storesText buf.toNat size.toNat text

/-- `Vprintf` returns the number of the characters that it sends, and `Vsnprintf` the same number
and the same counters.  What `Vsnprintf` stores are those characters, up to the room in the buffer,
exactly if neither `str` nor `end` wraps around. -/
theorem vprintf_vsnprintf_agree_iff {format : CString} {args : List Arg} {sent : List UInt8}
    {counters : List UInt32} {count : UInt32}
    (printed : vprintf format.chars args = some (sent, counters, count))
    (short : sent.length < 2 ^ 31) :
    count.toNat = sent.length ∧
      ∀ buf size : UInt32, size.toNat < 2 ^ 31 → buf.toNat + size.toNat ≤ 2 ^ 32 →
        ∃ stores, Cursor.vsnprintf buf size format.chars args = some (stores, counters, count) ∧
          (StoresText buf.toNat size.toNat sent stores ↔
            buf.toNat + sent.length < 2 ^ 32 ∧ (buf = 0 → sent.length < size.toNat)) := by
  rw [vprintf_eq] at printed
  obtain ⟨⟨text, counters⟩, produced, same⟩ := Option.map_eq_some_iff.mp printed
  cases same
  have counted : (UInt32.ofNat sent.length).toNat = sent.length :=
    UInt32.toNat_ofNat_of_lt (short.trans (by decide))
  exact ⟨counted, fun buf size small fits => ⟨Cursor.stored buf size sent,
    Cursor.vsnprintf_produced produced small buf, Cursor.stored_storesText_iff fits short⟩⟩

/-- `"a%3d"` with 42. -/
theorem vprintf_vsnprintf_agree_number :
    (4 : UInt32).toNat = [(0x61 : UInt8), 0x20, 0x34, 0x32].length ∧
      ∀ buf size : UInt32, size.toNat < 2 ^ 31 → buf.toNat + size.toNat ≤ 2 ^ 32 →
        ∃ stores,
          Cursor.vsnprintf buf size [0x61, 0x25, 0x33, 0x64] [.word 42] = some (stores, [], 4) ∧
            (StoresText buf.toNat size.toNat [0x61, 0x20, 0x34, 0x32] stores ↔
              buf.toNat + 4 < 2 ^ 32 ∧ (buf = 0 → 4 < size.toNat)) :=
  @vprintf_vsnprintf_agree_iff ⟨[0x61, 0x25, 0x33, 0x64], by simp⟩ [.word 42] _ _ _
    (by decide +kernel) (by simp)

/-- Into no buffer at address 0 both the character and the zero byte are stored. -/
theorem vsnprintf_null_stores :
    vprintf [0x61] [] = some ([0x61], [], 1) ∧
      Cursor.vsnprintf 0 0 [0x61] [] = some ([(0, 0x61), (1, 0)], [], 1) ∧
        ¬StoresText 0 0 [0x61] [(0, 0x61), (1, 0)] := by
  refine ⟨by decide +kernel, by decide +kernel, fun stores => ?_⟩
  exact absurd (stores.empty rfl) (List.cons_ne_nil _ _)

end LedFirmware
