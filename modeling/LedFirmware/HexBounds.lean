import LedFirmware.HexText

/-!
# What `BytesMapHexStr` writes to its destination

The division that shortens the input leaves room for the units but not for the zero byte
of the last one, and a unit of two gigabytes is cut off by `Sprintf`.
-/

namespace LedFirmware

open NorFlash StoreLog

/-- The stores stay in the destination, and a positive length is that of the text of the
first bytes, which then lies there. -/
def HexBounded (maxStrLen : UInt32) (bytes : List UInt8) (seperator : Option CString)
    (after : List (Nat × UInt8) × UInt32) : Prop :=
  (∀ store ∈ after.1, store.1 < maxStrLen.toNat) ∧
    (0 < after.2 → ∃ first, first <+: bytes ∧
      after.2.toNat = (hexJoin (sepChars seperator) first).length ∧
        ∀ mem, (hexString (sepChars seperator) first (sepChars_noNul seperator)).At
          (run mem after.1))

/-- The bytes that are written do not fill the destination exactly; of units that `Sprintf`
cuts off there is only one. -/
def HexFits (maxStrLen : UInt32) (bytes : List UInt8) : (seperator : Option CString) → Prop
  | none => True
  | some seperator =>
      let trunk := 2 + seperator.chars.length
      let count := hexCount maxStrLen bytes trunk
      count = 0 ∨ if trunk < 2 ^ 31 - 1 then count * trunk ≠ maxStrLen.toNat else count = 1

variable {maxStrLen : UInt32} {bytes : List UInt8} {seperator : CString}

theorem bounded_none (noOverflow : bytes.length * 2 < 2 ^ 32) :
    ∃ after, bytesMapHexStr maxStrLen bytes none = some after ∧
      HexBounded maxStrLen bytes none after := by
  by_cases fits : bytes.length * 2 + 1 ≤ maxStrLen.toNat
  · obtain ⟨stores, length, mapped, reached, inside, lies⟩ := bytesMapHexStr_none fits
    exact ⟨_, mapped, inside, fun _ => ⟨bytes, List.prefix_rfl, reached, lies⟩⟩
  · have bufLen : (UInt32.ofNat bytes.length).toNat = bytes.length :=
      UInt32.toNat_ofNat_of_lt' (by change _ < 2 ^ 32; omega)
    have full : UInt32.ofNat bytes.length * 2 + 1 > maxStrLen := by
      rw [gt_iff_lt, UInt32.lt_iff_toNat_lt, UInt32.toNat_add, UInt32.toNat_mul, bufLen]
      change _ < (bytes.length * 2 % 2 ^ 32 + 1) % 2 ^ 32
      omega
    exact ⟨([], 0), if_pos full, fun _ member => absurd member List.not_mem_nil,
      fun positive => absurd positive (by decide)⟩

/-- Without bytes only the zero byte is written. -/
theorem bounded_empty (room : 1 ≤ maxStrLen.toNat) {length : UInt32} (reached : length.toNat = 0) :
    HexBounded maxStrLen bytes (some seperator) ([(length.toNat, 0)], length) := by
  refine ⟨fun store member => ?_, fun positive => ?_⟩
  · cases List.mem_singleton.mp member
    rw [reached]
    exact room
  · have more : 0 < length.toNat := UInt32.lt_iff_toNat_lt.mp positive
    omega

/-- Where there is room behind the last unit, the text of the first bytes is written. -/
theorem bounded_short {first : List UInt8} (prefix' : first <+: bytes)
    (short : 2 + seperator.chars.length < 2 ^ 31 - 1) {length : UInt32}
    (reached : length.toNat = hexLength seperator.chars first.length)
    (inside : first.length * (2 + seperator.chars.length) < maxStrLen.toNat) :
    HexBounded maxStrLen bytes (some seperator)
      (unitStores seperator (2 + seperator.chars.length) first 0 ++ [(length.toNat, 0)],
        length) := by
  refine ⟨fun store member => ?_, fun _ => ⟨first, prefix', ?_, fun mem => ?_⟩⟩
  · rcases List.mem_append.mp member with unit | last
    · have within := mem_unitStores_le short unit
      omega
    · cases List.mem_singleton.mp last
      rw [reached, hexLength]
      omega
  · rw [reached]
    exact (hexJoin_length _ _).symm
  · rw [reached]
    exact hexString_at short first mem

/-- Units that fill the destination have their last zero byte behind it. -/
theorem not_bounded_full {first : List UInt8} (nonempty : first ≠ [])
    (short : 2 + seperator.chars.length < 2 ^ 31 - 1)
    (full : first.length * (2 + seperator.chars.length) = maxStrLen.toNat) (length : UInt32)
    (rest : List (Nat × UInt8)) :
    ¬ HexBounded maxStrLen bytes (some seperator)
      (unitStores seperator (2 + seperator.chars.length) first 0 ++ rest, length) := by
  rintro ⟨inside, -⟩
  have last := @unitStores_last seperator first 0 short nonempty
  have within := inside _ (List.mem_append_left rest last)
  simp only [Nat.zero_add, full] at within
  exact absurd within (Nat.lt_irrefl _)

/-- One unit that is cut off still leaves its two digits. -/
theorem bounded_cut {byte : UInt8} (prefix' : [byte] <+: bytes)
    (long : 2 ^ 31 - 1 ≤ 2 + seperator.chars.length)
    (room : 2 + seperator.chars.length ≤ maxStrLen.toNat) {length : UInt32}
    (reached : length.toNat = hexLength seperator.chars 1) :
    HexBounded maxStrLen bytes (some seperator)
      (unitStores seperator (2 + seperator.chars.length) [byte] 0 ++ [(length.toNat, 0)],
        length) := by
  refine ⟨fun store member => ?_, fun _ => ⟨[byte], prefix', ?_, fun mem => ?_⟩⟩
  · rcases List.mem_append.mp member with unit | last
    · rw [unitStores, unitStores, List.append_nil] at unit
      have within := (mem_textStores unit).2.1
      omega
    · cases List.mem_singleton.mp last
      rw [reached, hexLength, if_pos Nat.one_pos]
      omega
  · rw [reached]
    exact (hexJoin_length seperator.chars [byte]).symm
  · rw [reached]
    exact hexString_at_one seperator byte mem

/-- Behind a unit that is cut off the text does not go on. -/
theorem not_bounded_cut {byte : UInt8} {rest : List UInt8}
    (long : 2 + seperator.chars.length = 2 ^ 31 - 1) {length : UInt32}
    (reached : 2 ^ 31 - 1 ≤ length.toNat) :
    ¬ HexBounded maxStrLen bytes (some seperator)
      (unitStores seperator (2 + seperator.chars.length) (byte :: rest) 0 ++ [(length.toNat, 0)],
        length) := by
  rintro ⟨-, written⟩
  have positive : 0 < length := UInt32.lt_iff_toNat_lt.mpr (Nat.lt_of_lt_of_le (by decide) reached)
  obtain ⟨first, -, same, lies⟩ := written positive
  have within : 2 ^ 31 - 2 < (hexJoin seperator.chars first).length := by
    have same : length.toNat = (hexJoin seperator.chars first).length := same
    omega
  apply (lies fun _ => 0).ne_zero within
  have unit : (hexUnit seperator byte).length = 2 ^ 31 - 1 := by
    rw [hexUnit_eq (by omega), List.length_append, hexPair_length, long]
  have zero := @run_textStores_zero (fun _ => 0) 0 (2 ^ 31 - 1) (hexUnit seperator byte)
    (by decide)
  rw [unit, Nat.zero_add, Nat.min_eq_right (by decide)] at zero
  change run _ (unitStores _ _ _ _ ++ _) _ = _
  rw [run_snoc, Function.update_of_ne (by omega), unitStores, run_append,
    run_unitStores_before (by rw [long]; decide)]
  exact zero

theorem take_hexCount (trunk : Nat) :
    bytes.take (hexCount maxStrLen bytes trunk) <+: bytes ∧
      (bytes.take (hexCount maxStrLen bytes trunk)).length = hexCount maxStrLen bytes trunk := by
  refine ⟨List.take_prefix _ _, ?_⟩
  rw [List.length_take]
  exact Nat.min_eq_left (Nat.min_le_left _ _)

/-- The stores of `BytesMapHexStr` stay in its destination, and the text of the first bytes
lies there, unless the units fill the destination or `Sprintf` cuts off one of several. -/
theorem bytesMapHexStr_bounded_iff (maxStrLen : UInt32) (bytes : List UInt8)
    (seperator : Option CString) (room : 1 ≤ maxStrLen.toNat)
    (noOverflow : bytes.length * (2 + (sepChars seperator).length) < 2 ^ 32) :
    (∃ after, bytesMapHexStr maxStrLen bytes seperator = some after ∧
      HexBounded maxStrLen bytes seperator after) ↔ HexFits maxStrLen bytes seperator := by
  cases seperator with
  | none =>
      have noOverflow : bytes.length * 2 < 2 ^ 32 := noOverflow
      exact ⟨fun _ => trivial, fun _ => bounded_none noOverflow⟩
  | some seperator =>
      have noOverflow : bytes.length * (2 + seperator.chars.length) < 2 ^ 32 := noOverflow
      obtain ⟨length, mapped, reached⟩ := bytesMapHexStr_some maxStrLen noOverflow
      obtain ⟨prefix', counted⟩ :=
        @take_hexCount maxStrLen bytes (2 + seperator.chars.length)
      have space := hexCount_room maxStrLen bytes (2 + seperator.chars.length)
      have fewer := Nat.mul_le_mul_right (2 + seperator.chars.length)
        (Nat.min_le_left bytes.length (maxStrLen.toNat / (2 + seperator.chars.length)))
      rw [← hexCount] at fewer
      rw [HexFits, mapped]
      simp only [Option.some.injEq, exists_eq_left']
      generalize hexCount maxStrLen bytes (2 + seperator.chars.length) = count at *
      generalize bytes.take count = first at *
      rw [← counted] at reached space fewer ⊢
      by_cases short : 2 + seperator.chars.length < 2 ^ 31 - 1
      · rw [if_pos short]
        constructor
        · intro bounded
          by_contra neither
          obtain ⟨some', full⟩ := not_or.mp neither
          exact not_bounded_full (fun none => some' (by rw [none]; rfl)) short (not_not.mp full)
            length _ bounded
        · rintro (none | behind)
          · cases List.eq_nil_of_length_eq_zero none
            exact bounded_empty room (by rw [reached]; exact hexLength_zero _)
          · exact bounded_short prefix' short reached (Nat.lt_of_le_of_ne space behind)
      · rw [if_neg short]
        cases first with
        | nil =>
            refine ⟨fun _ => Or.inl rfl, fun _ => bounded_empty room ?_⟩
            rw [reached]
            exact hexLength_zero _
        | cons byte rest =>
            cases rest with
            | nil =>
                refine ⟨fun _ => Or.inr rfl, fun _ => ?_⟩
                rw [List.length_singleton, Nat.one_mul] at space
                exact bounded_cut prefix' (Nat.le_of_not_lt short) space reached
            | cons next rest =>
                have two := Nat.mul_le_mul_right (2 + seperator.chars.length)
                  (show 2 ≤ (byte :: next :: rest).length from Nat.le_add_left 2 _)
                refine ⟨fun bounded => ?_, fun fits => absurd fits (by simp)⟩
                refine absurd bounded (not_bounded_cut (by omega) ?_)
                rw [reached, hexLength, if_pos (show 0 < (byte :: next :: rest).length from
                  Nat.succ_pos _)]
                omega

/-- One byte that is written with its separator. -/
theorem bytesMapHexStr_bounded_colon :
    (∃ after, bytesMapHexStr 4 [0x12] (some ⟨[0x3A], by decide⟩) = some after ∧
      HexBounded 4 [0x12] (some ⟨[0x3A], by decide⟩) after) ↔
        HexFits 4 [0x12] (some ⟨[0x3A], by decide⟩) :=
  bytesMapHexStr_bounded_iff 4 [0x12] (some ⟨[0x3A], by decide⟩) (by decide) (by decide)

/-- Three cells that the unit fills, and a fourth one that is overwritten. -/
theorem bytesMapHexStr_overflows :
    ¬ ∃ after, bytesMapHexStr 3 [0x12] (some ⟨[0x3A], by decide⟩) = some after ∧
      HexBounded 3 [0x12] (some ⟨[0x3A], by decide⟩) after := by
  rintro ⟨after, mapped, inside, -⟩
  have stores : bytesMapHexStr 3 [0x12] (some ⟨[0x3A], by decide⟩) =
      some ([(0, 0x31), (1, 0x32), (2, 0x3A), (3, 0), (2, 0)], 2) := by
    decide +kernel
  rw [stores] at mapped
  cases mapped
  exact absurd (inside (3, 0) (by decide)) (by decide)

end LedFirmware
