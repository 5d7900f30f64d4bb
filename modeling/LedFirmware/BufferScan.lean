import LedFirmware.HexText
import LedFirmware.TimeBcd
import LedFirmware.WrappingCounter

/-!
# Scans of whole buffers

`MemBCDCheck` and `BytesMapChar` count to a length of 32 bits with a counter of 16 bits.
-/

namespace LedFirmware

open WrappingCounter

/-- The number of values of a `u16`. -/
def counterValues : Nat := 65536

/-! ## Checking digits -/

/-- One iteration of `MemBCDCheck`. -/
def memBCDCheckStep (src : Nat → UInt8) (i : Nat) (_ : Unit) : Except Bool Unit :=
  if checkBCD (src i) = false then .error false else .ok ()

/-- The result with which an iteration returns, or the one behind the loop. -/
def checkResult : Except Bool Unit → Bool
  | .error result => result
  | .ok () => true

/-- What `MemBCDCheck` returns, if it has ended. -/
def memBCDCheckLoop (fuel : Nat) (src : Nat → UInt8) (len : UInt32) : Option Bool :=
  (loop counterValues len.toNat (memBCDCheckStep src) fuel 0 ()).map checkResult

variable {src : Nat → UInt8} {len : UInt32}

/-- The iterations go on as long as the bytes are digits. -/
theorem iterate_memBCDCheckStep (src : Nat → UInt8) (i n : Nat) :
    iterate (memBCDCheckStep src) (List.range' i n) () =
      if ∀ index, i ≤ index → index < i + n → DecimalByte (src index) then .ok ()
      else .error false := by
  induction n generalizing i with
  | zero =>
      rw [if_pos fun index lower upper => by omega]
      rfl
  | succ n ih =>
      rw [List.range'_succ, iterate_cons, memBCDCheckStep]
      by_cases here : DecimalByte (src i)
      · have passes : ¬ checkBCD (src i) = false := by simp [(checkBCD_iff _).mpr here]
        have rest : (∀ index, i + 1 ≤ index → index < i + 1 + n → DecimalByte (src index)) ↔
            ∀ index, i ≤ index → index < i + (n + 1) → DecimalByte (src index) := by
          constructor
          · intro all index lower upper
            rcases Nat.eq_or_lt_of_le lower with rfl | behind
            · exact here
            · exact all index behind (by omega)
          · exact fun all index lower upper => all index (by omega) (by omega)
        rw [if_neg passes]
        refine (ih (i + 1)).trans ?_
        simp only [rest]
      · have fails : checkBCD (src i) = false :=
          Bool.eq_false_iff.mpr (here ∘ (checkBCD_iff _).mp)
        rw [if_pos fails, if_neg fun all => here (all i (Nat.le_refl i) (by omega))]
        rfl

/-- `MemBCDCheck` ends, and tells whether all bytes of the buffer are digits. -/
def ChecksDigits (src : Nat → UInt8) (len : UInt32) : Prop :=
  ∃ fuel, memBCDCheckLoop fuel src len =
    some (decide (∀ index < len.toNat, DecimalByte (src index)))

theorem memBCDCheckLoop_of_ends {outcome : Except Bool Unit}
    (ends : Ends counterValues len.toNat (memBCDCheckStep src) () outcome) :
    ∃ fuel, memBCDCheckLoop fuel src len = some (checkResult outcome) := by
  obtain ⟨fuel, ended⟩ := ends
  exact ⟨fuel, by rw [memBCDCheckLoop, ended, Option.map_some]⟩

/-- The check is right up to the last value of the counter, and behind it when one of the
bytes that the counter reaches is no pair of digits. -/
theorem checksDigits_iff (src : Nat → UInt8) (len : UInt32) :
    ChecksDigits src len ↔ len.toNat < counterValues ∨
      ∃ index < counterValues, ¬ DecimalByte (src index) := by
  rcases Nat.lt_or_ge len.toNat counterValues with reached | unreached
  · refine iff_of_true ?_ (.inl reached)
    have ends := iterate_memBCDCheckStep src 0 len.toNat
    simp only [Nat.zero_add, Nat.zero_le, true_imp_iff] at ends
    have result : checkResult (iterate (memBCDCheckStep src) (List.range' 0 len.toNat) ()) =
        decide (∀ index < len.toNat, DecimalByte (src index)) := by
      rw [ends]
      by_cases all : ∀ index < len.toNat, DecimalByte (src index)
      · rw [if_pos all, decide_eq_true all, checkResult]
      · rw [if_neg all, decide_eq_false all, checkResult]
    rw [ChecksDigits, ← result]
    exact memBCDCheckLoop_of_ends ((ends_iff reached).mpr rfl)
  · by_cases all : ∀ index < counterValues, DecimalByte (src index)
    · refine iff_of_false ?_ ?_
      · rintro ⟨fuel, returned⟩
        obtain ⟨outcome, ended, -⟩ := Option.map_eq_some_iff.mp returned
        refine not_ends (fun _ => True) (by decide) unreached ?_ trivial ⟨fuel, ended⟩
        intro i inside state _
        exact ⟨(), if_neg (by simp [(checkBCD_iff _).mpr (all i inside)]), trivial⟩
      · rintro (reached | ⟨index, inside, wrong⟩)
        · exact absurd reached (Nat.not_lt.mpr unreached)
        · exact wrong (all index inside)
    · obtain ⟨index, bad⟩ := not_forall.mp all
      obtain ⟨inside, wrong⟩ := Classical.not_imp.mp bad
      refine iff_of_true ?_ (.inr ⟨index, inside, wrong⟩)
      have leaves := iterate_memBCDCheckStep src 0 counterValues
      rw [if_neg fun all => wrong (all index (Nat.zero_le _) (by omega))] at leaves
      rw [ChecksDigits, decide_eq_false fun all => wrong (all index (inside.trans_le unreached))]
      exact memBCDCheckLoop_of_ends (ends_of_leaves unreached le_rfl leaves)

/-- Up to the last value of the counter the loop is the check of a list of bytes. -/
theorem memBCDCheckLoop_list (reached : len.toNat < counterValues) :
    ∃ fuel, memBCDCheckLoop fuel src len =
      some (memBCDCheck ((List.range len.toNat).map src)) := by
  have same : memBCDCheck ((List.range len.toNat).map src) =
      decide (∀ index < len.toNat, DecimalByte (src index)) := by
    rw [Bool.eq_iff_iff, decide_eq_true_iff, memBCDCheck, List.all_map, List.all_eq_true]
    exact forall_congr' fun index => by rw [List.mem_range, Function.comp_apply, checkBCD_iff]
  rw [same]
  exact (checksDigits_iff src len).mpr (.inl reached)

/-! ## Digits for a callback -/

/-- One iteration of `BytesMapChar`, with the characters that were passed on. -/
def bytesMapCharStep (bytes : Nat → UInt8) (i : Nat) (passed : List UInt8) :
    Except Empty (List UInt8) :=
  .ok (passed ++ [hexList.getD (bytes i / 16).toNat 0] ++ [hexList.getD (bytes i % 16).toNat 0])

def passedChars : Except Empty (List UInt8) → List UInt8
  | .ok passed => passed

/-- The characters that `BytesMapChar` has passed to `func`, if it has ended. -/
def bytesMapCharLoop (fuel : Nat) (bytes : Nat → UInt8) (len : UInt32) : Option (List UInt8) :=
  (loop counterValues len.toNat (bytesMapCharStep bytes) fuel 0 []).map passedChars

theorem iterate_bytesMapCharStep (bytes : Nat → UInt8) (indices : List Nat)
    (passed : List UInt8) : iterate (bytesMapCharStep bytes) indices passed =
      .ok (passed ++ indices.flatMap fun index => hexPair (bytes index)) := by
  induction indices generalizing passed with
  | nil => rw [List.flatMap_nil, List.append_nil]; rfl
  | cons index indices ih =>
      rw [iterate_cons, List.flatMap_cons, ← List.append_assoc]
      refine (ih _).trans ?_
      rw [hexPair, List.append_assoc passed]
      rfl

/-- `BytesMapChar` ends, and has passed on the two digits of every byte. -/
def MapsBytes (bytes : Nat → UInt8) (len : UInt32) : Prop :=
  ∃ fuel, bytesMapCharLoop fuel bytes len =
    some ((List.range len.toNat).flatMap fun index => hexPair (bytes index))

theorem mapsBytes_iff (bytes : Nat → UInt8) (len : UInt32) :
    MapsBytes bytes len ↔ len.toNat < counterValues := by
  constructor
  · rintro ⟨fuel, returned⟩
    obtain ⟨outcome, ended, -⟩ := Option.map_eq_some_iff.mp returned
    by_contra unreached
    exact not_ends (fun _ => True) (by decide) (Nat.not_lt.mp unreached)
      (fun i _ passed _ => ⟨_, rfl, trivial⟩) trivial ⟨fuel, ended⟩
  · intro reached
    obtain ⟨fuel, ended⟩ := (ends_iff reached).mpr
      (iterate_bytesMapCharStep bytes (List.range' 0 len.toNat) [])
    refine ⟨fuel, ?_⟩
    rw [bytesMapCharLoop, ended, List.range_eq_range']
    rfl

/-- The scans of a buffer are right, each just for these lengths and bytes. -/
theorem bufferScans_iff (bytes : Nat → UInt8) (len : UInt32) :
    (ChecksDigits bytes len ↔ len.toNat < counterValues ∨
      ∃ index < counterValues, ¬ DecimalByte (bytes index)) ∧
      (MapsBytes bytes len ↔ len.toNat < counterValues) :=
  ⟨checksDigits_iff bytes len, mapsBytes_iff bytes len⟩

/-- Scans of 65536 zero bytes. -/
theorem bufferScans_zeros :
    ¬ ChecksDigits (fun _ => 0) 65536 ∧ ¬ MapsBytes (fun _ => 0) 65536 := by
  have unreached : ¬ (65536 : UInt32).toNat < counterValues := by decide
  have digits : ∀ index < counterValues, DecimalByte 0 := fun _ _ => by decide
  constructor
  · rw [checksDigits_iff, not_or]
    exact ⟨unreached, fun ⟨index, inside, wrong⟩ => wrong (digits index inside)⟩
  · rwa [mapsBytes_iff]

end LedFirmware
