import LedFirmware.HexBounds

/-!
# Hexadecimal text read back

`HexStrToBytes` reads twice as many characters as it is asked for bytes.  Characters that
are not digits are skipped, but they count.
-/

namespace LedFirmware

open NorFlash StoreLog

/-- The value of a hexadecimal digit of either case. -/
def hexValue (ch : UInt8) : Option UInt8 :=
  if ch ≥ 0x30 ∧ ch ≤ 0x39 then some (ch - 0x30)
  else if ch ≥ 0x61 ∧ ch ≤ 0x66 then some (ch - 0x61 + 10)
  else if ch ≥ 0x41 ∧ ch ≤ 0x46 then some (ch - 0x41 + 10)
  else none

/-- The loop, from the byte at `index` on, and whether it reached the end of the text. -/
def hexBytesLoop (skipInvalid : Bool) :
    (hex : List UInt8) → (buf : Nat → UInt8) → (index : Nat) → (oddDigit : Bool) →
      (Nat → UInt8) × Bool
  | [], buf, _, _ => (buf, true)
  | ch :: hex, buf, index, oddDigit =>
      match hexValue ch with
      | none =>
          if skipInvalid then hexBytesLoop skipInvalid hex buf index oddDigit else (buf, false)
      | some tmp =>
          if oddDigit then
            hexBytesLoop skipInvalid hex (Function.update buf index (buf index ||| tmp)) (index + 1)
              false
          else hexBytesLoop skipInvalid hex (Function.update buf index (tmp <<< 4)) index true

/-- The destination and the returned number. -/
def hexStrToBytes (buf : Nat → UInt8) (bufLen : UInt32) (hex : CString) (skipInvalid : Bool) :
    (Nat → UInt8) × UInt32 :=
  let length := UInt32.ofNat (strLen hex)
  let length := if length > bufLen * 2 then bufLen * 2 else length
  let (buf, finished) := hexBytesLoop skipInvalid (hex.chars.take length.toNat) buf 0 false
  (buf, if finished then (length + 1) / 2 else 0)

/-- Whatever the destination held before, it then holds the bytes, and their number is
returned. -/
def HexRestored (bytes : List UInt8) (hex : CString) : Prop :=
  ∀ buf, (∀ index < bytes.length,
      (hexStrToBytes buf (UInt32.ofNat bytes.length) hex true).1 index = bufferOf bytes index) ∧
    (hexStrToBytes buf (UInt32.ofNat bytes.length) hex true).2.toNat = bytes.length

variable {buf : Nat → UInt8} {index : Nat} {oddDigit : Bool}

/-! ## Steps of the loop -/

theorem hexBytesLoop_skips {sep : List UInt8} (other : ∀ c ∈ sep, hexValue c = none)
    (hex : List UInt8) :
    hexBytesLoop true (sep ++ hex) buf index oddDigit =
      hexBytesLoop true hex buf index oddDigit := by
  induction sep with
  | nil => rfl
  | cons c sep ih =>
      rw [List.cons_append, hexBytesLoop, other c List.mem_cons_self]
      exact ih fun later member => other later (List.mem_cons_of_mem c member)

/-- The digits of a byte are read as its halves. -/
theorem hexPair_values (byte : UInt8) :
    (hexPair byte).map hexValue = [some (byte / 16), some (byte % 16)] := by
  revert byte
  apply LittleEndian.forall_byte
  decide +kernel

theorem byte_halves (byte : UInt8) : (byte / 16) <<< 4 ||| byte % 16 = byte := by
  revert byte
  apply LittleEndian.forall_byte
  decide +kernel

theorem high_half_iff (byte : UInt8) : (byte / 16) <<< 4 = byte ↔ byte % 16 = 0 := by
  revert byte
  apply LittleEndian.forall_byte
  decide +kernel

/-- One digit stores the upper half of its byte. -/
theorem hexBytesLoop_high (byte : UInt8) :
    hexBytesLoop true ((hexPair byte).take 1) buf index false =
      (Function.update buf index ((byte / 16) <<< 4), true) := by
  obtain ⟨high, -⟩ := List.cons.inj (hexPair_values byte)
  rw [hexPair, List.take_succ_cons, List.take_zero, hexBytesLoop, high]
  rfl

/-- Two digits store their byte. -/
theorem hexBytesLoop_pair (byte : UInt8) (hex : List UInt8) :
    hexBytesLoop true (hexPair byte ++ hex) buf index false =
      hexBytesLoop true hex (Function.update buf index byte) (index + 1) false := by
  obtain ⟨high, low⟩ := List.cons.inj (hexPair_values byte)
  obtain ⟨low, -⟩ := List.cons.inj low
  rw [hexPair, List.cons_append, List.cons_append, List.nil_append, hexBytesLoop, high]
  simp only [Bool.false_eq_true, if_false]
  rw [hexBytesLoop, low]
  simp only [if_true, Function.update_self, Function.update_idem, byte_halves]

theorem hexBytesLoop_pairs (bytes : List UInt8) (buf : Nat → UInt8) (index : Nat) :
    hexBytesLoop true (hexUnits [] bytes) buf index false =
      (run buf (block index bytes), true) := by
  induction bytes generalizing buf index with
  | nil => rfl
  | cons byte bytes ih =>
      rw [hexUnits_cons, List.append_nil, hexBytesLoop_pair, ih]
      rfl

/-! ## Bytes that are not reached -/

/-- How many characters of a text are digits. -/
def hexDigits (hex : List UInt8) : Nat := hex.countP fun c => (hexValue c).isSome

theorem hexDigits_append (first second : List UInt8) :
    hexDigits (first ++ second) = hexDigits first + hexDigits second := List.countP_append

/-- The loop changes no byte behind the digits that it reads. -/
theorem hexBytesLoop_keeps {hex : List UInt8} {cell : Nat}
    (behind : 2 * index + hexDigits hex + oddDigit.toNat < 2 * cell + 1) :
    (hexBytesLoop true hex buf index oddDigit).1 cell = buf cell := by
  induction hex generalizing buf index oddDigit with
  | nil => rfl
  | cons c hex ih =>
      rw [hexDigits, List.countP_cons, ← hexDigits] at behind
      rw [hexBytesLoop]
      cases value : hexValue c with
      | none =>
          rw [value] at behind
          exact ih behind
      | some digit =>
          rw [value] at behind
          simp only [Option.isSome_some, if_true] at behind
          cases oddDigit with
          | false =>
              simp only [Bool.toNat_false] at behind
              exact (ih (by simp only [Bool.toNat_true]; omega)).trans
                (Function.update_of_ne (by omega) _ _)
          | true =>
              simp only [Bool.toNat_true] at behind
              exact (ih (by simp only [Bool.toNat_false]; omega)).trans
                (Function.update_of_ne (by omega) _ _)

/-! ## The characters that are read -/

/-- At most two characters are read for each byte, and all of a text that has no more. -/
theorem hexStrToBytes_eq {number : Nat} (room : number * 2 < 2 ^ 32) (buf : Nat → UInt8)
    (hex : CString) :
    ∃ taken : UInt32, taken.toNat ≤ number * 2 ∧
      (hex.chars.length < 2 ^ 32 → taken.toNat = min hex.chars.length (number * 2)) ∧
        hexStrToBytes buf (UInt32.ofNat number) hex true =
          ((hexBytesLoop true (hex.chars.take taken.toNat) buf 0 false).1,
            if (hexBytesLoop true (hex.chars.take taken.toNat) buf 0 false).2 then (taken + 1) / 2
            else 0) := by
  have bound : (UInt32.ofNat number * 2).toNat = number * 2 := by
    rw [UInt32.toNat_mul, UInt32.toNat_ofNat_of_lt' (by change _ < 2 ^ 32; omega)]
    exact Nat.mod_eq_of_lt room
  have test (length : UInt32) : length > UInt32.ofNat number * 2 ↔ number * 2 < length.toNat := by
    rw [gt_iff_lt, UInt32.lt_iff_toNat_lt, bound]
  refine ⟨_, ?_, ?_, rfl⟩
  · simp only [test, apply_ite UInt32.toNat, bound]
    split <;> omega
  · intro fits
    have length : (UInt32.ofNat (strLen hex)).toNat = hex.chars.length :=
      UInt32.toNat_ofNat_of_lt' fits
    simp only [test, apply_ite UInt32.toNat, bound, length]
    split <;> omega

/-- A text whose beginning has two characters that are not digits is not read to its end. -/
theorem not_restored {bytes begins more : List UInt8} {hex : CString} (nonempty : bytes ≠ [])
    (room : bytes.length * 2 < 2 ^ 32) (text : hex.chars = begins ++ more)
    (read : begins.length ≤ bytes.length * 2) (few : hexDigits begins + 2 ≤ begins.length) :
    ¬ HexRestored bytes hex := by
  intro restored
  have positive := List.length_pos_iff.mpr nonempty
  have last : bytes.length - 1 < bytes.length := by omega
  have stored := (restored fun _ => bufferOf bytes (bytes.length - 1) + 1).1 _ last
  obtain ⟨taken, atMost, -, result⟩ := hexStrToBytes_eq room
    (fun _ => bufferOf bytes (bytes.length - 1) + 1) hex
  have digits : hexDigits (hex.chars.take taken.toNat) + 2 ≤ bytes.length * 2 := by
    have shorter : hexDigits (hex.chars.take taken.toNat) ≤
        hexDigits (hex.chars.take (bytes.length * 2)) :=
      (List.take_sublist_take_left atMost).countP_le
    have rest : hexDigits (more.take (bytes.length * 2 - begins.length)) ≤
        bytes.length * 2 - begins.length :=
      List.countP_le_length.trans (List.length_take_le _ _)
    have split' : hex.chars.take (bytes.length * 2) =
        begins ++ more.take (bytes.length * 2 - begins.length) := by
      rw [text, List.take_append, List.take_of_length_le read]
    rw [split', hexDigits_append] at shorter
    omega
  rw [result, hexBytesLoop_keeps (by rw [Bool.toNat_false]; omega)] at stored
  exact absurd (congrArg UInt8.toNat stored) (by
    rw [UInt8.toNat_add]
    have small := (bufferOf bytes (bytes.length - 1)).toNat_lt
    change (_ + 1) % 2 ^ 8 ≠ _
    omega)

/-! ## The string that was written -/

theorem hexDigits_separator {sep : List UInt8} (other : ∀ c ∈ sep, hexValue c = none) :
    hexDigits sep = 0 := by
  rw [hexDigits, List.countP_eq_zero]
  intro c member
  rw [other c member]
  decide

theorem hexDigits_pair (byte : UInt8) : hexDigits (hexPair byte) = 2 := by
  obtain ⟨high, low⟩ := List.cons.inj (hexPair_values byte)
  obtain ⟨low, -⟩ := List.cons.inj low
  rw [hexPair, hexDigits, List.countP_cons, List.countP_singleton, high, low]
  rfl

section

variable {bytes : List UInt8} {hex : CString}

/-- Pairs of digits alone are all read. -/
theorem restored_pairs (room : bytes.length * 2 < 2 ^ 32) (text : hex.chars = hexUnits [] bytes) :
    HexRestored bytes hex := by
  intro buf
  have length : hex.chars.length = bytes.length * 2 := by
    rw [text, hexUnits_length]
    rfl
  obtain ⟨taken, -, all, result⟩ := hexStrToBytes_eq room buf hex
  have all := all (by omega)
  rw [length, Nat.min_self] at all
  rw [result, all, List.take_of_length_le (Nat.le_of_eq length), text, hexBytesLoop_pairs]
  refine ⟨fun index inside => ?_, ?_⟩
  · have stored := @run_block_inside _ buf 0 bytes index inside
    rw [Nat.zero_add] at stored
    change run buf (block 0 bytes) index = _
    rw [stored, bufferOf, List.getD_eq_getElem]
  · rw [if_pos rfl, UInt32.toNat_div, UInt32.toNat_add, all]
    change (bytes.length * 2 + 1) % 2 ^ 32 / 2 = _
    omega

/-- Of two bytes around one separator, the second one loses its lower half. -/
theorem restored_two_iff {first second c : UInt8} (other : hexValue c = none)
    (text : hex.chars = hexPair first ++ [c] ++ hexPair second) :
    HexRestored [first, second] hex ↔ second % 16 = 0 := by
  have loops (buf : Nat → UInt8) :
      hexBytesLoop true (hex.chars.take 4) buf 0 false =
        (Function.update (Function.update buf 0 first) 1 ((second / 16) <<< 4), true) := by
    have read : hex.chars.take 4 = hexPair first ++ ([c] ++ (hexPair second).take 1) := by
      rw [text]
      rfl
    rw [read, hexBytesLoop_pair, hexBytesLoop_skips (by simpa using other), hexBytesLoop_high]
  have length : hex.chars.length = 5 := by
    rw [text]
    rfl
  have returns (buf : Nat → UInt8) : hexStrToBytes buf (UInt32.ofNat 2) hex true =
      (Function.update (Function.update buf 0 first) 1 ((second / 16) <<< 4), 2) := by
    obtain ⟨taken, -, all, result⟩ := hexStrToBytes_eq (show 2 * 2 < 2 ^ 32 by decide) buf hex
    have all := all (by rw [length]; decide)
    rw [length] at all
    have four : taken = 4 := UInt32.toNat_inj.mp all
    rw [result, all]
    change ((hexBytesLoop true (hex.chars.take 4) buf 0 false).1, _) = _
    rw [show min 5 (2 * 2) = 4 from rfl, loops, four]
    rfl
  constructor
  · intro restored
    have stored := (restored fun _ => 0).1 1 (show 1 < 2 by decide)
    rw [List.length_cons, List.length_singleton, returns] at stored
    exact (high_half_iff second).mp stored
  · intro half buf
    rw [List.length_cons, List.length_singleton, returns, (high_half_iff second).mpr half]
    refine ⟨fun index inside => ?_, rfl⟩
    cases index with
    | zero => rfl
    | succ index =>
        cases index with
        | zero => rfl
        | succ index => omega

end

/-- Nothing is skipped, or too little to matter. -/
def HexKept (sep bytes : List UInt8) : Prop :=
  sep = [] ∨ bytes.length ≤ 1 ∨
    sep.length = 1 ∧ bytes.length = 2 ∧ bufferOf bytes 1 % 16 = 0

section

variable {maxStrLen : UInt32} {bytes : List UInt8}

theorem hexCount_all {trunk : Nat} (room : bytes.length * trunk < maxStrLen.toNat)
    (positive : 0 < trunk) : hexCount maxStrLen bytes trunk = bytes.length :=
  Nat.min_eq_left ((Nat.le_div_iff_mul_le positive).mpr (Nat.le_of_lt room))

/-- With room for all bytes, the stores are those of their units. -/
theorem bytesMapHexStr_all {seperator : CString}
    (room : bytes.length * (2 + seperator.chars.length) < maxStrLen.toNat) :
    ∃ length, bytesMapHexStr maxStrLen bytes (some seperator) =
      some (unitStores seperator (2 + seperator.chars.length) bytes 0 ++
        [(hexLength seperator.chars bytes.length, 0)], length) := by
  obtain ⟨length, mapped, reached⟩ :=
    @bytesMapHexStr_some seperator bytes maxStrLen (room.trans maxStrLen.toNat_lt)
  rw [hexCount_all room (by omega)] at mapped reached
  rw [reached, List.take_length] at mapped
  exact ⟨length, mapped⟩

/-- With room for all bytes their text is written, if no unit that `Sprintf` cuts off is
followed by another one. -/
theorem bytesMapHexStr_text {seperator : Option CString}
    (room : bytes.length * (2 + (sepChars seperator).length) < maxStrLen.toNat)
    (short : bytes.length ≤ 1 ∨ 2 + (sepChars seperator).length < 2 ^ 31 - 1) :
    ∃ stores length, bytesMapHexStr maxStrLen bytes seperator = some (stores, length) ∧
      ∀ mem, (hexString (sepChars seperator) bytes (sepChars_noNul seperator)).At
        (run mem stores) := by
  cases seperator with
  | none =>
      obtain ⟨stores, length, mapped, -, -, lies⟩ :=
        @bytesMapHexStr_none bytes maxStrLen (Nat.succ_le_of_lt room)
      exact ⟨stores, length, mapped, lies⟩
  | some seperator =>
      obtain ⟨length, mapped⟩ := bytesMapHexStr_all room
      refine ⟨_, length, mapped, fun mem => ?_⟩
      rcases short with few | short
      · cases bytes with
        | nil =>
            rw [unitStores, List.nil_append, List.length_nil, hexLength_zero]
            exact @CString.at_terminated mem (hexString seperator.chars [] _) fun _ inside =>
              absurd inside (Nat.not_lt_zero _)
        | cons byte bytes =>
            cases List.eq_nil_of_length_eq_zero (Nat.le_zero.mp (Nat.succ_le_succ_iff.mp few))
            exact hexString_at_one seperator byte mem
      · exact hexString_at short bytes mem

/-- Behind the first digits the separator begins, also in a unit that is cut off. -/
theorem text_begins {seperator text : CString} {byte next : UInt8} {rest : List UInt8}
    (two : 2 ≤ seperator.chars.length) (notLong : seperator.chars.length < 2 ^ 31)
    {mem : Nat → UInt8}
    (lies : text.At (run mem (unitStores seperator (2 + seperator.chars.length)
      (byte :: next :: rest) 0 ++
        [(hexLength seperator.chars (byte :: next :: rest).length, 0)]))) :
    hexPair byte ++ seperator.chars.take 2 <+: text.chars := by
  have length : (hexPair byte ++ seperator.chars.take 2).length = 4 := by
    rw [List.length_append, hexPair_length, List.length_take, Nat.min_eq_left two]
  refine lies.begins ?_ fun index inside => ?_
  · intro member
    rcases List.mem_append.mp member with digit | separates
    · exact hexPair_ne_zero digit rfl
    · exact seperator.noNul (List.mem_of_mem_take separates)
  · rw [length] at inside
    have unit := hexUnit_eq notLong byte
    have whole : (hexPair byte ++ seperator.chars.take 2) = (hexUnit seperator byte).take 4 := by
      rw [unit, List.take_append, hexPair_length]
      rfl
    have begins : index < (hexUnit seperator byte).length := by
      rw [unit, List.length_append, hexPair_length]
      omega
    have stored := @run_textStores_inside mem 0 (2 ^ 31 - 1) (hexUnit seperator byte) index begins
      (by omega)
    rw [Nat.zero_add] at stored
    have behind : 4 < hexLength seperator.chars (byte :: next :: rest).length := by
      have units := Nat.mul_le_mul_right (2 + seperator.chars.length)
        (show 2 ≤ (byte :: next :: rest).length from Nat.le_add_left 2 _)
      rw [hexLength, if_pos (show 0 < (byte :: next :: rest).length from Nat.succ_pos _)]
      omega
    rw [run_snoc, Function.update_of_ne (by omega), unitStores, run_append,
      run_unitStores_before (by omega), stored, whole, bufferOf,
      List.getD_eq_getElem _ _ (by rw [List.length_take]; omega), List.getElem_take]

theorem hexJoin_cons (sep : List UInt8) (byte next : UInt8) (rest : List UInt8) :
    hexJoin sep (byte :: next :: rest) = hexPair byte ++ sep ++ hexJoin sep (next :: rest) := by
  simp [hexJoin, List.intercalate_cons_cons]

/-- A text with separators that are longer than one character is not read to its end. -/
theorem not_restored_long {seperator text : CString} {byte next : UInt8} {rest : List UInt8}
    (other : ∀ c ∈ seperator.chars, hexValue c = none) (two : 2 ≤ seperator.chars.length)
    (room : (byte :: next :: rest).length * (2 + seperator.chars.length) < 2 ^ 32)
    (begins : hexPair byte ++ seperator.chars.take 2 <+: text.chars) :
    ¬ HexRestored (byte :: next :: rest) text := by
  obtain ⟨more, whole⟩ := begins
  have pairs := Nat.mul_le_mul_left (byte :: next :: rest).length
    (show 2 ≤ 2 + seperator.chars.length from Nat.le_add_right 2 _)
  have length : (hexPair byte ++ seperator.chars.take 2).length = 4 := by
    rw [List.length_append, hexPair_length, List.length_take, Nat.min_eq_left two]
  apply not_restored (List.cons_ne_nil _ _) (Nat.lt_of_le_of_lt pairs room) whole.symm
  · rw [length, List.length_cons, List.length_cons]
    omega
  · rw [length, hexDigits_append, hexDigits_pair,
      hexDigits_separator fun c member => other c (List.mem_of_mem_take member)]

/-- Nor is a text of more than two bytes with a separator of one character. -/
theorem not_restored_single {text : CString} {byte next third c : UInt8} {rest : List UInt8}
    (other : hexValue c = none)
    (room : (byte :: next :: third :: rest).length * 2 < 2 ^ 32)
    (whole : text.chars = hexJoin [c] (byte :: next :: third :: rest)) :
    ¬ HexRestored (byte :: next :: third :: rest) text := by
  have separator : hexDigits [c] = 0 := hexDigits_separator (by simpa using other)
  rw [hexJoin_cons, hexJoin_cons, ← List.append_assoc] at whole
  apply not_restored (List.cons_ne_nil _ _) room whole
  · simp only [List.length_append, hexPair_length, List.length_cons, List.length_nil]
    omega
  · simp only [hexDigits_append, hexDigits_pair, separator, List.length_append, hexPair_length,
      List.length_singleton]
    decide

/-- The text that is kept is restored. -/
theorem restored_of_kept {sep : List UInt8} (other : ∀ c ∈ sep, hexValue c = none)
    (room : bytes.length * 2 < 2 ^ 32) (kept : HexKept sep bytes) (noNul : 0 ∉ sep) :
    HexRestored bytes (hexString sep bytes noNul) := by
  rcases kept with rfl | few | ⟨single, double, half⟩
  · exact restored_pairs room (hexUnits_nil bytes).symm
  · apply restored_pairs room
    cases bytes with
    | nil => rfl
    | cons byte bytes =>
        cases List.eq_nil_of_length_eq_zero (Nat.le_zero.mp (Nat.succ_le_succ_iff.mp few))
        rfl
  · obtain ⟨c, rfl⟩ := List.length_eq_one_iff.mp single
    obtain ⟨first, second, rfl⟩ := List.length_eq_two.mp double
    have joined := hexJoin_cons [c] first second []
    exact (restored_two_iff (other c List.mem_cons_self) joined).mpr half

/-- A text that is restored is one that is kept. -/
theorem kept_of_restored {seperator text : CString} {stores : List (Nat × UInt8)} {length : UInt32}
    (other : ∀ c ∈ seperator.chars, hexValue c = none)
    (room : bytes.length * (2 + seperator.chars.length) < maxStrLen.toNat)
    (mapped : bytesMapHexStr maxStrLen bytes (some seperator) = some (stores, length))
    (lies : ∀ mem, text.At (run mem stores)) (restored : HexRestored bytes text) :
    HexKept seperator.chars bytes := by
  have fits := room.trans maxStrLen.toNat_lt
  cases bytes with
  | nil => exact Or.inr (Or.inl (Nat.zero_le 1))
  | cons byte bytes =>
      cases bytes with
      | nil => exact Or.inr (Or.inl (Nat.le_refl 1))
      | cons next rest =>
          have units := Nat.mul_le_mul_right (2 + seperator.chars.length)
            (show 2 ≤ (byte :: next :: rest).length from Nat.le_add_left 2 _)
          rcases Nat.lt_trichotomy seperator.chars.length 1 with none | single | several
          · exact Or.inl (List.eq_nil_of_length_eq_zero (by omega))
          · have short : 2 + seperator.chars.length < 2 ^ 31 - 1 := by
              rw [single]
              decide
            obtain ⟨stores', length', mapped', lies'⟩ :=
              @bytesMapHexStr_text maxStrLen _ (some seperator) room (Or.inr short)
            rw [mapped] at mapped'
            cases mapped'
            cases (lies fun _ => 0).unique (lies' fun _ => 0)
            obtain ⟨c, only⟩ := List.length_eq_one_iff.mp single
            have skipped := other c (only ▸ List.mem_cons_self)
            have whole : (hexString seperator.chars (byte :: next :: rest) seperator.noNul).chars =
                hexJoin [c] (byte :: next :: rest) := by
              rw [← only]
              rfl
            cases rest with
            | nil =>
                have half := (restored_two_iff skipped
                  (whole.trans (hexJoin_cons [c] byte next []))).mp restored
                exact Or.inr (Or.inr ⟨single, rfl, half⟩)
            | cons third rest =>
                have pairs := Nat.mul_le_mul_left (byte :: next :: third :: rest).length
                  (show 2 ≤ 2 + seperator.chars.length from Nat.le_add_right 2 _)
                exact absurd restored
                  (not_restored_single skipped (Nat.lt_of_le_of_lt pairs fits) whole)
          · obtain ⟨length', mapped'⟩ := bytesMapHexStr_all room
            rw [mapped] at mapped'
            cases mapped'
            have begins := text_begins several (by omega) (lies fun _ => 0)
            exact absurd restored (not_restored_long other several fits begins)

/-- What `BytesMapHexStr` writes is read back as it was, if no separator is skipped, or only
one in front of a half that is zero. -/
theorem hex_round_trip_iff (maxStrLen : UInt32) (bytes : List UInt8)
    (seperator : Option CString) (other : ∀ c ∈ sepChars seperator, hexValue c = none)
    (room : bytes.length * (2 + (sepChars seperator).length) < maxStrLen.toNat) :
    (∃ stores length, bytesMapHexStr maxStrLen bytes seperator = some (stores, length) ∧
      ∃ text : CString, (∀ mem, text.At (run mem stores)) ∧ HexRestored bytes text) ↔
        HexKept (sepChars seperator) bytes := by
  constructor
  · rintro ⟨stores, length, mapped, text, lies, restored⟩
    cases seperator with
    | none => exact Or.inl rfl
    | some seperator => exact kept_of_restored other room mapped lies restored
  · intro kept
    have fits := room.trans maxStrLen.toNat_lt
    have pairs := Nat.mul_le_mul_left bytes.length
      (show 2 ≤ 2 + (sepChars seperator).length from Nat.le_add_right 2 _)
    have short : bytes.length ≤ 1 ∨ 2 + (sepChars seperator).length < 2 ^ 31 - 1 := by
      rcases kept with none | few | ⟨single, -, -⟩
      · rw [none]
        exact Or.inr (by decide)
      · exact Or.inl few
      · rw [single]
        exact Or.inr (by decide)
    obtain ⟨stores, length, mapped, lies⟩ := bytesMapHexStr_text room short
    exact ⟨stores, length, mapped, _, lies,
      restored_of_kept other (Nat.lt_of_le_of_lt pairs fits) kept (sepChars_noNul seperator)⟩

end

/-- Two bytes with a colon between them. -/
theorem hex_round_trip_colon :
    (∃ stores length,
      bytesMapHexStr 16 [0x12, 0x34] (some ⟨[0x3A], by decide⟩) = some (stores, length) ∧
        ∃ text : CString, (∀ mem, text.At (run mem stores)) ∧ HexRestored [0x12, 0x34] text) ↔
          HexKept [0x3A] [0x12, 0x34] :=
  hex_round_trip_iff 16 [0x12, 0x34] (some ⟨[0x3A], by decide⟩)
    (List.forall_mem_singleton.mpr (by decide)) (by decide)

/-- The last digit of `12:34` is not read. -/
theorem hex_round_trip_fails :
    ¬ ∃ stores length,
      bytesMapHexStr 16 [0x12, 0x34] (some ⟨[0x3A], by decide⟩) = some (stores, length) ∧
        ∃ text : CString, (∀ mem, text.At (run mem stores)) ∧ HexRestored [0x12, 0x34] text := by
  rintro ⟨stores, length, mapped, text, lies, restored⟩
  have other : ∀ c ∈ ([0x3A] : List UInt8), hexValue c = none :=
    List.forall_mem_singleton.mpr (by decide)
  rcases kept_of_restored other (by decide) mapped lies restored with none | few | ⟨-, -, half⟩
  · exact absurd none (by decide)
  · exact absurd few (by decide)
  · exact absurd half (by decide)

end LedFirmware
