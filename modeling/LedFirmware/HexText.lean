import LedFirmware.Vsnprintf

/-!
# Bytes as hexadecimal text

`BytesMapHexStr` writes two digits for every byte, and a separator behind them if there is
one.  With a separator each byte is written by one `Sprintf`, whose zero byte the next one
covers.
-/

namespace LedFirmware

open NorFlash StoreLog

def hexList : List UInt8 := (List.range' 0x30 10 ++ List.range' 0x41 6).map UInt8.ofNat

/-- The two digits of a byte. -/
def hexPair (byte : UInt8) : List UInt8 :=
  [hexList.getD (byte / 16).toNat 0, hexList.getD (byte % 16).toNat 0]

/-- The format `%0*X%s`. -/
def hexFormat : List UInt8 := [0x25, 0x30, 0x2A, 0x58, 0x25, 0x73]

/-- The loop that writes the bytes with their separators. -/
def mapHexLoop (seperator : CString) (trunkLen : UInt32) :
    (buf : List UInt8) → (strLen : UInt32) → Option (List (Nat × UInt8) × UInt32)
  | [], strLen => some ([], strLen)
  | byte :: buf, strLen =>
      sprintf strLen.toNat hexFormat [.word 2, .word byte.toUInt32, .text seperator] >>=
        fun (stores, _) =>
          mapHexLoop seperator trunkLen buf (strLen + trunkLen) >>= fun (later, strLen) =>
            some (stores ++ later, strLen)

/-- The stores to the destination, and the returned length. -/
def bytesMapHexStr (maxStrLen : UInt32) (buf : List UInt8) :
    (seperator : Option CString) → Option (List (Nat × UInt8) × UInt32)
  | none =>
      let bufLen := UInt32.ofNat buf.length
      if bufLen * 2 + 1 > maxStrLen then some ([], 0)
      else some (block 0 (buf.flatMap hexPair) ++ [((bufLen * 2).toNat, 0)], bufLen * 2)
  | some seperator =>
      let bufLen := UInt32.ofNat buf.length
      let trunkLen := 2 + UInt32.ofNat (strLen seperator)
      let bufLen := if maxStrLen < bufLen * trunkLen then maxStrLen / trunkLen else bufLen
      mapHexLoop seperator trunkLen (buf.take bufLen.toNat) 0 >>= fun (stores, length) =>
        let length := if bufLen > 0 then length - UInt32.ofNat (strLen seperator) else length
        some (stores ++ [(length.toNat, 0)], length)

def sepChars (seperator : Option CString) : List UInt8 := seperator.elim [] CString.chars

/-- The digits of the bytes, with the separator between them. -/
def hexJoin (sep bytes : List UInt8) : List UInt8 := sep.intercalate (bytes.map hexPair)

theorem hexPair_length (byte : UInt8) : (hexPair byte).length = 2 := rfl

theorem hexPair_ne_zero {byte c : UInt8} (member : c ∈ hexPair byte) : c ≠ 0 := by
  have noNul : ∀ byte : UInt8, 0 ∉ hexPair byte := by
    apply LittleEndian.forall_byte
    decide +kernel
  rintro rfl
  exact noNul byte member

/-- Two digits in upper case, with a leading zero. -/
theorem vsnprintfNumber_hexPair (byte : UInt8) :
    vsnprintfNumber byte.toUInt32.toUInt64 .sixteen 2 (-1)
      ⟨true, false, false, false, false, false, true⟩ = hexPair byte := by
  revert byte
  apply LittleEndian.forall_byte
  decide +kernel

/-- What one `Sprintf` produces. -/
def hexUnit (seperator : CString) (byte : UInt8) : List UInt8 :=
  hexPair byte ++ formatString .none (-1) (-1) seperator

/-- A separator that `%s` can measure is copied as it is. -/
theorem hexUnit_eq {seperator : CString} (short : seperator.chars.length < 2 ^ 31)
    (byte : UInt8) : hexUnit seperator byte = hexPair byte ++ seperator.chars := by
  have len : (Int32.ofNat (strLen seperator)).toInt = seperator.chars.length :=
    Int32.toInt_ofNat_of_lt short
  have noSpaces : ((-1 : Int) - seperator.chars.length).toNat = 0 := by omega
  rw [hexUnit, formatString]
  simp only [if_pos (show (-1 : Int) < 0 by decide), len, noSpaces, List.replicate_zero,
    Int.toNat_natCast, List.take_length, FormatFlags.none, Bool.false_eq_true, if_false,
    List.nil_append]

theorem sprintf_hex (start : Nat) (byte : UInt8) (seperator : CString) :
    sprintf start hexFormat [.word 2, .word byte.toUInt32, .text seperator] =
      some (textStores start (2 ^ 31 - 1) (hexUnit seperator byte), [],
        UInt32.ofNat (hexUnit seperator byte).length) := by
  have digits : conversion [0x30, 0x2A, 0x58, 0x25, 0x73]
      [.word 2, .word byte.toUInt32, .text seperator] 0 =
        some ⟨hexPair byte, [], [0x25, 0x73], [.text seperator]⟩ := by
    rw [← vsnprintfNumber_hexPair]
    rfl
  have copies : conversion [0x73] [.text seperator] 2 =
      some ⟨formatString .none (-1) (-1) seperator, [], [], []⟩ := rfl
  have ends : formatLoop [] [] (2 + (formatString .none (-1) (-1) seperator).length) =
      some ([], []) := by
    rw [formatLoop]
  have produced : formatLoop hexFormat [.word 2, .word byte.toUInt32, .text seperator] 0 =
      some (hexUnit seperator byte, []) := by
    rw [hexFormat, formatLoop_conversion digits]
    simp only [hexPair_length, Nat.zero_add]
    rw [formatLoop_conversion copies, ends]
    simp [hexUnit]
  rw [sprintf, vsnprintf, if_neg (by decide), produced]
  rfl

/-- The stores of the units of bytes, `trunk` cells apart. -/
def unitStores (seperator : CString) (trunk : Nat) :
    (bytes : List UInt8) → (start : Nat) → List (Nat × UInt8)
  | [], _ => []
  | byte :: bytes, start =>
      textStores start (2 ^ 31 - 1) (hexUnit seperator byte) ++
        unitStores seperator trunk bytes (start + trunk)

variable {seperator : CString} {bytes : List UInt8} {trunk start : Nat}

/-- The loop makes the stores of the units. -/
theorem mapHexLoop_eq {trunkLen strLen : UInt32}
    (inside : strLen.toNat + bytes.length * trunkLen.toNat < 2 ^ 32) :
    ∃ length, mapHexLoop seperator trunkLen bytes strLen =
        some (unitStores seperator trunkLen.toNat bytes strLen.toNat, length) ∧
      length.toNat = strLen.toNat + bytes.length * trunkLen.toNat := by
  induction bytes generalizing strLen with
  | nil => exact ⟨strLen, rfl, by rw [List.length_nil, Nat.zero_mul, Nat.add_zero]⟩
  | cons byte bytes ih =>
      rw [List.length_cons, Nat.succ_mul] at inside ⊢
      have next : (strLen + trunkLen).toNat = strLen.toNat + trunkLen.toNat := by
        rw [UInt32.toNat_add, Nat.mod_eq_of_lt (by omega)]
      obtain ⟨length, loops, reached⟩ := @ih (strLen + trunkLen) (by omega)
      refine ⟨length, ?_, by omega⟩
      rw [mapHexLoop, sprintf_hex]
      simp only [Option.bind_eq_bind, Option.bind_some, loops, unitStores, next]

/-- How many bytes are written: all of them, if they have room. -/
def hexCount (maxStrLen : UInt32) (bytes : List UInt8) (trunk : Nat) : Nat :=
  min bytes.length (maxStrLen.toNat / trunk)

theorem hexCount_room (maxStrLen : UInt32) (bytes : List UInt8) (trunk : Nat) :
    hexCount maxStrLen bytes trunk * trunk ≤ maxStrLen.toNat :=
  (Nat.mul_le_mul_right trunk (Nat.min_le_right _ _)).trans (Nat.div_mul_le_self _ _)

theorem hexCount_eq {maxStrLen : UInt32} (positive : 0 < trunk) :
    hexCount maxStrLen bytes trunk =
      if maxStrLen.toNat < bytes.length * trunk then maxStrLen.toNat / trunk
      else bytes.length := by
  rw [hexCount]
  split
  · rename_i short
    exact Nat.min_eq_right (Nat.le_of_lt ((Nat.div_lt_iff_lt_mul positive).mpr short))
  · rename_i enough
    exact Nat.min_eq_left ((Nat.le_div_iff_mul_le positive).mpr (Nat.le_of_not_lt enough))

theorem trunkLen_eq (fits : 2 + seperator.chars.length < 2 ^ 32) :
    (2 + UInt32.ofNat (strLen seperator)).toNat = 2 + seperator.chars.length := by
  have length : (UInt32.ofNat (strLen seperator)).toNat = seperator.chars.length :=
    UInt32.toNat_ofNat_of_lt' (by rw [strLen]; change _ < 2 ^ 32; omega)
  rw [UInt32.toNat_add, length]
  exact Nat.mod_eq_of_lt fits

/-- The test for the room and the division find the count, if the product does not wrap
around. -/
theorem hexCount_computed {maxStrLen bufLen trunkLen : UInt32} (positive : 0 < trunkLen.toNat)
    (number : bufLen.toNat = bytes.length)
    (noOverflow : bytes.length * trunkLen.toNat < 2 ^ 32) :
    (if maxStrLen < bufLen * trunkLen then maxStrLen / trunkLen else bufLen).toNat =
      hexCount maxStrLen bytes trunkLen.toNat := by
  have product : (bufLen * trunkLen).toNat = bytes.length * trunkLen.toNat := by
    rw [UInt32.toNat_mul, number, Nat.mod_eq_of_lt noOverflow]
  have test : maxStrLen < bufLen * trunkLen ↔
      maxStrLen.toNat < bytes.length * trunkLen.toNat := by
    rw [UInt32.lt_iff_toNat_lt, product]
  rw [hexCount_eq positive]
  simp only [test, apply_ite UInt32.toNat, UInt32.toNat_div, number]

/-- The length that is returned with a separator: the last separator is cut off. -/
def hexLength (sep : List UInt8) (count : Nat) : Nat :=
  count * (2 + sep.length) - if 0 < count then sep.length else 0

@[simp]
theorem hexLength_zero (sep : List UInt8) : hexLength sep 0 = 0 := by
  simp [hexLength]

theorem bytesMapHexStr_some (maxStrLen : UInt32)
    (noOverflow : bytes.length * (2 + seperator.chars.length) < 2 ^ 32) :
    ∃ length, bytesMapHexStr maxStrLen bytes (some seperator) =
        some (unitStores seperator (2 + seperator.chars.length)
          (bytes.take (hexCount maxStrLen bytes (2 + seperator.chars.length))) 0 ++
            [(length.toNat, 0)], length) ∧
      length.toNat =
        hexLength seperator.chars (hexCount maxStrLen bytes (2 + seperator.chars.length)) := by
  rcases Nat.eq_zero_or_pos bytes.length with empty | nonempty
  · cases List.eq_nil_of_length_eq_zero empty
    refine ⟨0, ?_, ?_⟩
    · simp [bytesMapHexStr, mapHexLoop, unitStores]
    · simp [hexCount]
  · have unit := Nat.le_mul_of_pos_left (2 + seperator.chars.length) nonempty
    have each := Nat.le_mul_of_pos_right bytes.length
      (show 0 < 2 + seperator.chars.length by omega)
    have trunkLen := @trunkLen_eq seperator (by omega)
    have bufLen : (UInt32.ofNat bytes.length).toNat = bytes.length :=
      UInt32.toNat_ofNat_of_lt' (by change _ < 2 ^ 32; omega)
    have room := hexCount_room maxStrLen bytes (2 + seperator.chars.length)
    have fits := maxStrLen.toNat_lt
    have separator : (UInt32.ofNat (strLen seperator)).toNat = seperator.chars.length :=
      UInt32.toNat_ofNat_of_lt' (by rw [strLen]; change _ < 2 ^ 32; omega)
    rw [bytesMapHexStr]
    simp only
    generalize 2 + UInt32.ofNat (strLen seperator) = trunk at trunkLen ⊢
    rw [← trunkLen] at noOverflow room ⊢
    have count := @hexCount_computed bytes maxStrLen _ trunk (by omega) bufLen noOverflow
    generalize (if maxStrLen < UInt32.ofNat bytes.length * trunk then maxStrLen / trunk
      else UInt32.ofNat bytes.length) = taken at count ⊢
    rw [← count] at room ⊢
    have shorter : (bytes.take taken.toNat).length = taken.toNat := by
      rw [List.length_take, count, hexCount]
      omega
    obtain ⟨length, loops, reached⟩ := @mapHexLoop_eq seperator (bytes.take taken.toNat) trunk 0
      (by rw [shorter]; change 0 + _ < _; omega)
    rw [shorter] at reached
    change length.toNat = 0 + _ at reached
    rw [loops]
    refine ⟨_, rfl, ?_⟩
    have positive : taken > 0 ↔ 0 < taken.toNat := UInt32.lt_iff_toNat_lt
    rw [hexLength, ← trunkLen]
    simp only [positive]
    split
    · rename_i written
      have whole := Nat.le_mul_of_pos_left trunk.toNat written
      rw [UInt32.toNat_sub_of_le _ _ (UInt32.le_iff_toNat_le.mpr (by omega)), separator, reached,
        Nat.zero_add]
    · rw [reached, Nat.zero_add, Nat.sub_zero]

/-! ## The text in the destination -/

/-- The units of bytes, as they follow each other. -/
def hexUnits (sep bytes : List UInt8) : List UInt8 :=
  bytes.flatMap fun byte => hexPair byte ++ sep

theorem hexUnits_cons (sep : List UInt8) (byte : UInt8) (bytes : List UInt8) :
    hexUnits sep (byte :: bytes) = hexPair byte ++ sep ++ hexUnits sep bytes :=
  List.flatMap_cons

theorem hexUnits_length (sep bytes : List UInt8) :
    (hexUnits sep bytes).length = bytes.length * (2 + sep.length) := by
  induction bytes with
  | nil => exact (Nat.zero_mul _).symm
  | cons byte bytes ih =>
      rw [hexUnits_cons, List.length_append, List.length_append, hexPair_length, ih,
        List.length_cons, Nat.succ_mul, Nat.add_comm]

/-- The units are the text that is wanted, with one separator too many. -/
theorem hexUnits_eq (sep : List UInt8) {bytes : List UInt8} (nonempty : bytes ≠ []) :
    hexUnits sep bytes = hexJoin sep bytes ++ sep := by
  induction bytes with
  | nil => exact absurd rfl nonempty
  | cons byte bytes ih =>
      cases bytes with
      | nil => simp [hexUnits, hexJoin]
      | cons next bytes =>
          have later := ih (List.cons_ne_nil next bytes)
          rw [hexUnits_cons, later]
          simp [hexJoin, List.intercalate_cons_cons]

theorem hexUnits_nil (bytes : List UInt8) : hexUnits [] bytes = hexJoin [] bytes := by
  cases bytes with
  | nil => rfl
  | cons byte bytes =>
      exact (hexUnits_eq [] (List.cons_ne_nil byte bytes)).trans (List.append_nil _)

theorem hexJoin_length (sep bytes : List UInt8) :
    (hexJoin sep bytes).length = hexLength sep bytes.length := by
  rw [hexLength, ← hexUnits_length]
  cases bytes with
  | nil => rfl
  | cons byte bytes =>
      rw [hexUnits_eq sep (List.cons_ne_nil byte bytes), List.length_append,
        if_pos (show 0 < (byte :: bytes).length from Nat.succ_pos _), Nat.add_sub_cancel]

/-- The units begin with the text. -/
theorem hexUnits_inside {sep bytes : List UInt8} {index : Nat}
    (inside : index < (hexJoin sep bytes).length) :
    index < bytes.length * (2 + sep.length) ∧
      bufferOf (hexUnits sep bytes) index = bufferOf (hexJoin sep bytes) index := by
  cases bytes with
  | nil => exact absurd inside (Nat.not_lt_zero index)
  | cons byte bytes =>
      have units := hexUnits_eq sep (List.cons_ne_nil byte bytes)
      rw [← hexUnits_length, units, List.length_append]
      exact ⟨Nat.lt_add_right _ inside, bufferOf_append_left inside⟩

/-- The string of the joined digits. -/
def hexString (sep bytes : List UInt8) (noNul : 0 ∉ sep) : CString where
  chars := hexJoin sep bytes
  noNul member := by
    have inUnits : 0 ∈ hexUnits sep bytes := by
      cases bytes with
      | nil => exact absurd member List.not_mem_nil
      | cons byte bytes =>
          rw [hexUnits_eq sep (List.cons_ne_nil byte bytes)]
          exact List.mem_append_left sep member
    obtain ⟨byte, -, inUnit⟩ := List.mem_flatMap.mp inUnits
    rcases List.mem_append.mp inUnit with digit | separates
    · exact hexPair_ne_zero digit rfl
    · exact noNul separates

theorem sepChars_noNul (seperator : Option CString) : 0 ∉ sepChars seperator := by
  cases seperator with
  | none => exact List.not_mem_nil
  | some text => exact text.noNul

section

variable {mem : Nat → UInt8}

theorem mem_unitStores_ge {store : Nat × UInt8}
    (member : store ∈ unitStores seperator trunk bytes start) : start ≤ store.1 := by
  induction bytes generalizing start with
  | nil => exact absurd member List.not_mem_nil
  | cons byte bytes ih =>
      rcases List.mem_append.mp member with here | later
      · exact (mem_textStores here).1
      · exact (Nat.le_add_right _ _).trans (ih later)

theorem run_unitStores_before {cell : Nat} (before : cell < start) :
    run mem (unitStores seperator trunk bytes start) cell = mem cell :=
  run_of_untouched fun _ member same => by
    have behind := mem_unitStores_ge member
    omega

variable (short : 2 + seperator.chars.length < 2 ^ 31 - 1)

include short

theorem hexUnit_length (byte : UInt8) :
    (hexUnit seperator byte).length = 2 + seperator.chars.length := by
  rw [hexUnit_eq (by omega), List.length_append, hexPair_length]

theorem mem_unitStores_le {store : Nat × UInt8}
    (member : store ∈ unitStores seperator (2 + seperator.chars.length) bytes start) :
    store.1 ≤ start + bytes.length * (2 + seperator.chars.length) := by
  induction bytes generalizing start with
  | nil => exact absurd member List.not_mem_nil
  | cons byte bytes ih =>
      rw [List.length_cons, Nat.succ_mul]
      rcases List.mem_append.mp member with here | later
      · have within := (mem_textStores here).2.2
        rw [hexUnit_length short] at within
        omega
      · have within := ih later
        omega

/-- The last store is a zero byte directly behind the units. -/
theorem unitStores_last (nonempty : bytes ≠ []) :
    (start + bytes.length * (2 + seperator.chars.length), 0) ∈
      unitStores seperator (2 + seperator.chars.length) bytes start := by
  induction bytes generalizing start with
  | nil => exact absurd rfl nonempty
  | cons byte bytes ih =>
      rw [unitStores, List.length_cons, Nat.succ_mul]
      cases bytes with
      | nil =>
          apply List.mem_append_left
          rw [textStores_last (by decide), hexUnit_length short, Nat.min_eq_left (by omega)]
          simp
      | cons next bytes =>
          apply List.mem_append_right
          have last := @ih (start + (2 + seperator.chars.length)) (List.cons_ne_nil next bytes)
          rw [show start + ((next :: bytes).length * (2 + seperator.chars.length) +
            (2 + seperator.chars.length)) = start + (2 + seperator.chars.length) +
              (next :: bytes).length * (2 + seperator.chars.length) by omega]
          exact last

/-- The units lie in the destination, one behind the other. -/
theorem run_unitStores {index : Nat}
    (inside : index < bytes.length * (2 + seperator.chars.length)) :
    run mem (unitStores seperator (2 + seperator.chars.length) bytes start) (start + index) =
      bufferOf (hexUnits seperator.chars bytes) index := by
  induction bytes generalizing mem start index with
  | nil => exact absurd inside (by simp)
  | cons byte bytes ih =>
      have unit := hexUnit_length short byte
      rw [unitStores, run_append, hexUnits_cons,
        ← hexUnit_eq (show seperator.chars.length < 2 ^ 31 by omega)]
      by_cases first : index < 2 + seperator.chars.length
      · rw [run_unitStores_before (by omega),
          run_textStores_inside (by rw [unit]; exact first) (by omega),
          bufferOf_append_left (by rw [unit]; exact first), bufferOf, List.getD_eq_getElem]
      · obtain ⟨rest, rfl⟩ := Nat.exists_eq_add_of_le (Nat.le_of_not_lt first)
        have later : rest < bytes.length * (2 + seperator.chars.length) := by
          rw [List.length_cons, Nat.succ_mul] at inside
          omega
        rw [← Nat.add_assoc start (2 + seperator.chars.length), ih later, ← unit,
          bufferOf_append_right]

end

/-- Without a separator the text of all bytes is written, if it has room. -/
theorem bytesMapHexStr_none {maxStrLen : UInt32} (fits : bytes.length * 2 + 1 ≤ maxStrLen.toNat) :
    ∃ stores length, bytesMapHexStr maxStrLen bytes none = some (stores, length) ∧
      length.toNat = (hexJoin [] bytes).length ∧
      (∀ store ∈ stores, store.1 < maxStrLen.toNat) ∧
        ∀ mem, (hexString [] bytes List.not_mem_nil).At (run mem stores) := by
  have limit := maxStrLen.toNat_lt
  have bufLen : (UInt32.ofNat bytes.length).toNat = bytes.length :=
    UInt32.toNat_ofNat_of_lt' (by change _ < 2 ^ 32; omega)
  have length : (UInt32.ofNat bytes.length * 2).toNat = bytes.length * 2 := by
    rw [UInt32.toNat_mul, bufLen]
    exact Nat.mod_eq_of_lt (by change bytes.length * 2 < _; omega)
  have enough : ¬ UInt32.ofNat bytes.length * 2 + 1 > maxStrLen := by
    rw [gt_iff_lt, UInt32.lt_iff_toNat_lt, UInt32.toNat_add, length]
    change ¬ _ < (bytes.length * 2 + 1) % 2 ^ 32
    omega
  have units : bytes.flatMap hexPair = hexJoin [] bytes := by
    rw [← hexUnits_nil, hexUnits]
    simp only [List.append_nil]
  have joined : (hexJoin [] bytes).length = bytes.length * 2 := by
    rw [← hexUnits_nil, hexUnits_length]
    rfl
  refine ⟨_, _, if_neg enough, by rw [length, joined], ?_, fun mem => ?_⟩
  · intro store member
    rcases List.mem_append.mp member with digit | last
    · have within := mem_block digit
      rw [units, joined] at within
      omega
    · cases List.mem_singleton.mp last
      rw [length]
      omega
  · rw [run_snoc, length, ← joined]
    apply CString.at_terminated
    intro index inside
    have digit : index < (bytes.flatMap hexPair).length := by
      rw [units]
      exact inside
    have stored := @run_block_inside _ mem 0 _ index digit
    rw [Nat.zero_add] at stored
    change _ = bufferOf (hexJoin [] bytes) index
    rw [stored, ← units, bufferOf, List.getD_eq_getElem]

/-- With a separator that is not too long, the text of the bytes that have room is written. -/
theorem hexString_at (short : 2 + seperator.chars.length < 2 ^ 31 - 1) (bytes : List UInt8)
    (mem : Nat → UInt8) :
    (hexString seperator.chars bytes seperator.noNul).At
      (run mem (unitStores seperator (2 + seperator.chars.length) bytes 0 ++
        [(hexLength seperator.chars bytes.length, 0)])) := by
  rw [run_snoc, ← hexJoin_length]
  apply CString.at_terminated
  intro index inside
  obtain ⟨within, same⟩ := hexUnits_inside inside
  have stored := @run_unitStores seperator bytes 0 mem short index within
  rw [Nat.zero_add] at stored
  rw [stored, same]
  rfl

/-- The text of one byte is written with a separator of any length. -/
theorem hexString_at_one (seperator : CString) (byte : UInt8) (mem : Nat → UInt8) :
    (hexString seperator.chars [byte] seperator.noNul).At
      (run mem (unitStores seperator (2 + seperator.chars.length) [byte] 0 ++
        [(hexLength seperator.chars 1, 0)])) := by
  have length : hexLength seperator.chars 1 = (hexJoin seperator.chars [byte]).length :=
    (hexJoin_length seperator.chars [byte]).symm
  rw [unitStores, unitStores, List.append_nil, run_snoc, length]
  apply CString.at_terminated
  intro index inside
  have digit : index < (hexPair byte).length := inside
  have begins : index < (hexUnit seperator byte).length := by
    rw [hexUnit, List.length_append]
    exact Nat.lt_add_right _ digit
  have stored := @run_textStores_inside mem 0 (2 ^ 31 - 1) (hexUnit seperator byte) index begins
    (Nat.lt_of_lt_of_le digit (by rw [hexPair_length]; decide))
  rw [Nat.zero_add] at stored
  change _ = bufferOf (hexPair byte) index
  rw [stored, bufferOf, List.getD_eq_getElem _ _ digit]
  exact List.getElem_append_left digit

end LedFirmware
