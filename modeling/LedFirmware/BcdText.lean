import LedFirmware.CString
import LedFirmware.CharClass

/-!
# Packed decimal digits from a string

`BCDStrToBytes` packs the digits of a string two to a byte.  The destination is a memory,
of which it writes the start.
-/

namespace LedFirmware

open NorFlash

def inRange (value first last : UInt32) : Bool :=
  first ≤ value ∧ value ≤ last ∨ first ≥ value ∧ value ≥ last

/-- The loop, and the index at which it stops. -/
def bcdLoop (str bcd : Nat → UInt8) (bcdLen bcdIndex : Nat) : (Nat → UInt8) × Nat :=
  if bcdIndex < bcdLen then
    let bcd := Function.update bcd bcdIndex 0
    let digit := str (bcdIndex * 2) - 0x30
    if inRange digit.toUInt32 0 9 = false then (bcd, bcdIndex)
    else
      let bcd := Function.update bcd bcdIndex (digit <<< 4)
      let digit := str (bcdIndex * 2 + 1) - 0x30
      if inRange digit.toUInt32 0 9 = false then (bcd, bcdIndex)
      else bcdLoop str (Function.update bcd bcdIndex (bcd bcdIndex + digit)) bcdLen (bcdIndex + 1)
  else (bcd, bcdIndex)
  termination_by bcdLen - bcdIndex

/-- The destination and the returned number. -/
def bcdStrToBytes (str : CString) (bcd : Nat → UInt8) (bcdMaxLen : UInt32) :
    (Nat → UInt8) × UInt32 :=
  let bcdLen := strLen str / 2
  let bcdLen := if bcdMaxLen.toNat < bcdLen then bcdMaxLen.toNat else bcdLen
  let (bcd, bcdIndex) := bcdLoop (bufferOf str.chars) bcd bcdLen 0
  (bcd, UInt32.ofNat bcdIndex - 1)

/-- Two digits in one byte. -/
def bcdByte (high low : UInt8) : UInt8 :=
  UInt8.ofNat (16 * (high.toNat - 0x30) + (low.toNat - 0x30))

/-- The packed bytes of the complete pairs of digits with which a text begins. -/
def leadingPairs : List UInt8 → List UInt8
  | high :: low :: text =>
      if isDigit high ∧ isDigit low then bcdByte high low :: leadingPairs text else []
  | _ => []

/-- The leading pairs that have room are stored, and their number is returned. -/
def PairsStored (str : CString) (bcdMaxLen : UInt32) (after : (Nat → UInt8) × UInt32) : Prop :=
  let stored := (leadingPairs str.chars).take bcdMaxLen.toNat
  (∀ index < stored.length, after.1 index = bufferOf stored index) ∧
    after.2.toNat = stored.length

theorem inRange_digit (c : UInt8) : inRange (c - 0x30).toUInt32 0 9 = isDigit c := by
  rw [isDigit, isMask_eq]
  revert c
  apply LittleEndian.forall_byte
  decide +kernel

theorem digit_eq {c : UInt8} (digit : isDigit c) : c - 0x30 = UInt8.ofNat (c.toNat - 0x30) := by
  obtain ⟨atLeast, -⟩ := (isDigit_iff c).mp digit
  have atLeast := UInt8.le_iff_toNat_le.mp atLeast
  rw [← UInt8.toNat_inj, UInt8.toNat_sub_of_le _ _ (UInt8.le_iff_toNat_le.mpr atLeast),
    UInt8.toNat_ofNat_of_lt' ((Nat.sub_le _ _).trans_lt c.toNat_lt)]
  rfl

theorem bcdByte_eq {high low : UInt8} (first : isDigit high) (second : isDigit low) :
    (high - 0x30) <<< 4 + (low - 0x30) = bcdByte high low := by
  have shifted : ∀ digit < 10, UInt8.ofNat digit <<< 4 = UInt8.ofNat (16 * digit) := by
    decide +kernel
  obtain ⟨-, atMost⟩ := (isDigit_iff high).mp first
  have atMost := UInt8.le_iff_toNat_le.mp atMost
  have below : high.toNat - 0x30 < 10 := by
    change high.toNat ≤ 57 at atMost
    omega
  rw [digit_eq first, digit_eq second, shifted _ below, ← UInt8.ofNat_add, bcdByte]

section

variable {str bcd : Nat → UInt8} {bcdLen bcdIndex : Nat}

/-- Two digits are packed into the next byte. -/
theorem bcdLoop_pair (room : bcdIndex < bcdLen) (first : isDigit (str (bcdIndex * 2)))
    (second : isDigit (str (bcdIndex * 2 + 1))) :
    bcdLoop str bcd bcdLen bcdIndex =
      bcdLoop str (Function.update bcd bcdIndex
        (bcdByte (str (bcdIndex * 2)) (str (bcdIndex * 2 + 1)))) bcdLen (bcdIndex + 1) := by
  rw [bcdLoop, if_pos room]
  simp only [inRange_digit, first, second, Bool.true_eq_false, if_false, Function.update_self,
    Function.update_idem, bcdByte_eq first second]

/-- At anything else the loop stops, having changed the next byte. -/
theorem bcdLoop_stops (room : bcdIndex < bcdLen)
    (other : ¬(isDigit (str (bcdIndex * 2)) ∧ isDigit (str (bcdIndex * 2 + 1)))) :
    ∃ byte, bcdLoop str bcd bcdLen bcdIndex = (Function.update bcd bcdIndex byte, bcdIndex) := by
  rw [bcdLoop, if_pos room]
  simp only [inRange_digit, Function.update_idem]
  by_cases first : isDigit (str (bcdIndex * 2)) = true
  · rw [if_neg (by simp [first]), if_pos (by simpa using fun second => other ⟨first, second⟩)]
    exact ⟨_, rfl⟩
  · rw [if_pos (by simpa using first)]
    exact ⟨_, rfl⟩

end

/-- From an even position on, the loop stores the leading pairs of the rest of the text. -/
theorem bcdLoop_stores {chars : List UInt8} {bcdLen : Nat} (whole : bcdLen * 2 ≤ chars.length)
    (bcd : Nat → UInt8) (bcdIndex : Nat) :
    let stored := (leadingPairs (chars.drop (bcdIndex * 2))).take (bcdLen - bcdIndex)
    let after := bcdLoop (bufferOf chars) bcd bcdLen bcdIndex
    after.2 = bcdIndex + stored.length ∧
      (∀ index < stored.length, after.1 (bcdIndex + index) = bufferOf stored index) ∧
        ∀ cell < bcdIndex, after.1 cell = bcd cell := by
  induction rest : bcdLen - bcdIndex generalizing bcd bcdIndex with
  | zero =>
      rw [bcdLoop, if_neg (by omega)]
      exact ⟨rfl, fun _ inside => absurd inside (Nat.not_lt_zero _), fun _ _ => rfl⟩
  | succ rest' ih =>
      have room : bcdIndex < bcdLen := by omega
      have text : chars.drop (bcdIndex * 2) = bufferOf chars (bcdIndex * 2) ::
          bufferOf chars (bcdIndex * 2 + 1) :: chars.drop ((bcdIndex + 1) * 2) := by
        rw [List.drop_eq_getElem_cons (by omega), List.drop_eq_getElem_cons (by omega),
          Nat.succ_mul, bufferOf, bufferOf, List.getD_eq_getElem _ _ (by omega),
          List.getD_eq_getElem _ _ (by omega)]
      rw [text, leadingPairs]
      by_cases both : isDigit (bufferOf chars (bcdIndex * 2)) ∧
          isDigit (bufferOf chars (bcdIndex * 2 + 1))
      · rw [bcdLoop_pair room both.1 both.2, if_pos both]
        obtain ⟨stops, stores, keeps⟩ := ih (Function.update bcd bcdIndex
          (bcdByte (bufferOf chars (bcdIndex * 2)) (bufferOf chars (bcdIndex * 2 + 1))))
          (bcdIndex + 1) (by omega)
        refine ⟨by rw [stops, List.take_succ_cons, List.length_cons]; omega, ?_, ?_⟩
        · intro index inside
          cases index with
          | zero => exact (keeps bcdIndex (Nat.lt_succ_self _)).trans (Function.update_self _ _ _)
          | succ index =>
              rw [Nat.add_left_comm, Nat.add_comm index]
              exact stores index (Nat.succ_lt_succ_iff.mp inside)
        · intro cell before
          rw [keeps cell (by omega), Function.update_of_ne (by omega)]
      · obtain ⟨byte, stops⟩ := @bcdLoop_stops _ bcd _ _ room both
        rw [stops, if_neg both]
        exact ⟨rfl, fun _ inside => absurd inside (Nat.not_lt_zero _),
          fun cell before => Function.update_of_ne (Nat.ne_of_lt before) _ _⟩

theorem leadingPairs_length (text : List UInt8) :
    (leadingPairs text).length ≤ text.length / 2 := by
  fun_induction leadingPairs text with
  | case1 high low text both ih =>
      rw [List.length_cons, List.length_cons, List.length_cons]
      omega
  | case2 high low text other => exact Nat.zero_le _
  | case3 text short => exact Nat.zero_le _

/-- The leading pairs are stored, and one less than their number is returned. -/
theorem bcdStrToBytes_eq (str : CString) (bcd : Nat → UInt8) (bcdMaxLen : UInt32) :
    let stored := (leadingPairs str.chars).take bcdMaxLen.toNat
    let after := bcdStrToBytes str bcd bcdMaxLen
    (∀ index < stored.length, after.1 index = bufferOf stored index) ∧
      after.2 = UInt32.ofNat stored.length - 1 := by
  have bound := leadingPairs_length str.chars
  generalize length : (if bcdMaxLen.toNat < strLen str / 2 then bcdMaxLen.toNat
    else strLen str / 2) = bcdLen
  have whole : bcdLen * 2 ≤ str.chars.length := by
    rw [strLen] at length
    split at length <;> omega
  have same : (leadingPairs str.chars).take bcdLen =
      (leadingPairs str.chars).take bcdMaxLen.toNat := by
    rw [strLen] at length
    split at length
    · rw [length]
    · rw [List.take_of_length_le (by omega), List.take_of_length_le (by omega)]
  obtain ⟨stops, stores, -⟩ := bcdLoop_stores whole bcd 0
  simp only [Nat.zero_mul, List.drop_zero, Nat.sub_zero, Nat.zero_add, same] at stops stores
  simp only [bcdStrToBytes, length, stops]
  exact ⟨stores, trivial⟩

/-- The leading pairs of every string are stored, but their number is never returned. -/
theorem bcdStrToBytes_count_wrong (str : CString) (bcd : Nat → UInt8) (bcdMaxLen : UInt32) :
    ¬ PairsStored str bcdMaxLen (bcdStrToBytes str bcd bcdMaxLen) := by
  rintro ⟨-, counted⟩
  obtain ⟨-, returned⟩ := bcdStrToBytes_eq str bcd bcdMaxLen
  have room := bcdMaxLen.toNat_lt
  have taken := List.length_take_le bcdMaxLen.toNat (leadingPairs str.chars)
  generalize List.length (List.take _ _) = number at counted returned taken
  have fits : number < 2 ^ 32 := Nat.lt_of_le_of_lt taken room
  rw [returned, UInt32.toNat_sub, UInt32.toNat_ofNat_of_lt' fits] at counted
  change (2 ^ 32 - 1 + number) % 2 ^ 32 = number at counted
  omega

/-- One complete pair is stored, and none is counted. -/
theorem bcdStrToBytes_twelve :
    ¬ PairsStored ⟨[0x31, 0x32], by decide⟩ 1
      (bcdStrToBytes ⟨[0x31, 0x32], by decide⟩ (fun _ => 0) 1) := by
  rintro ⟨-, counted⟩
  revert counted
  decide +kernel

end LedFirmware
