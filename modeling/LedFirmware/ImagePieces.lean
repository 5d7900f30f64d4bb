import LedFirmware.FlashWrite

/-!
# Images stored in pieces

An image is written in pieces of equal size, of which only the last may be
shorter, each at the place where it belongs.  What the area holds depends on
which pieces were written, neither on their order nor on their number.
-/

namespace LedFirmware

open CrashProgram NorFlash

/-- The length of piece `k`. -/
def pieceSize (size subSize k : Nat) : Nat := min subSize (size - k * subSize)

/-- The `room` bytes from `base` on hold the pieces in `written` and are erased
elsewhere. -/
structure Assembled (base room : Nat) (image : Nat → UInt8) (size subSize : Nat)
    (written : Set Nat) (mem : Mem) : Prop where
  stored : ∀ index < size, index / subSize ∈ written → mem (base + index) = image index
  erased : ∀ index < room, (index < size → index / subSize ∉ written) →
    mem (base + index) = erasedByte

variable {base room size subSize k : Nat} {image : Nat → UInt8} {written : Set Nat} {mem : Mem}

theorem pieceSize_le : pieceSize size subSize k ≤ subSize := Nat.min_le_left _ _

theorem piece_end (inside : k * subSize < size) :
    k * subSize + pieceSize size subSize k ≤ size := by
  rw [pieceSize]
  omega

/-- The cells of piece `k` belong to no other piece. -/
theorem piece_div {index : Nat} (inside : index < subSize) :
    (k * subSize + index) / subSize = k := by
  rw [Nat.mul_comm, Nat.mul_add_div (Nat.zero_lt_of_lt inside), Nat.div_eq_of_lt inside,
    Nat.add_zero]

theorem piece_cell {index : Nat} (positive : 0 < subSize) (inside : index < size)
    (piece : index / subSize = k) :
    k * subSize ≤ index ∧ index < k * subSize + pieceSize size subSize k := by
  have split := Nat.div_add_mod' index subSize
  have bound := Nat.mod_lt index positive
  rw [piece] at split
  rw [pieceSize]
  omega

namespace Assembled

theorem empty (blank : ∀ index < room, mem (base + index) = erasedByte) :
    Assembled base room image size subSize ∅ mem :=
  ⟨fun _ _ impossible => absurd impossible (Set.notMem_empty _),
    fun index inside _ => blank index inside⟩

/-- Storing a piece for the first time. -/
theorem overlay (assembled : Assembled base room image size subSize written mem)
    (positive : 0 < subSize) (inside : k * subSize < size) :
    Assembled base room image size subSize (insert k written)
      (NorFlash.overlay (base + k * subSize) (pieceSize size subSize k)
        (fun index => image (k * subSize + index)) mem) := by
  have whole := piece_end inside
  have most := @pieceSize_le size subSize k
  have belongs {index : Nat} (lower : k * subSize ≤ index)
      (upper : index < k * subSize + pieceSize size subSize k) : index / subSize = k := by
    rw [show index = k * subSize + (index - k * subSize) by omega]
    exact piece_div (by omega)
  refine ⟨?_, ?_⟩
  · intro index within member
    by_cases piece : index / subSize = k
    · obtain ⟨lower, upper⟩ := piece_cell positive within piece
      rw [overlay_inside _ _ (by omega) (by omega)]
      congr 1
      omega
    · rw [overlay_outside _ _ ?_]
      · exact assembled.stored index within (Set.mem_of_mem_insert_of_ne member piece)
      · by_contra both
        exact piece (belongs (by omega) (by omega))
  · intro index within absent
    rw [overlay_outside _ _ ?_]
    · exact assembled.erased index within fun small member =>
        absent small (Set.mem_insert_of_mem k member)
    · by_contra both
      refine absent (by omega) ?_
      rw [belongs (by omega) (by omega)]
      exact Set.mem_insert k written

/-- With all pieces written, the area holds the image and erased bytes. -/
theorem complete (assembled : Assembled base room image size subSize written mem)
    (all : ∀ k, k * subSize < size → k ∈ written) {index : Nat} (inside : index < room) :
    mem (base + index) = padded size image index := by
  by_cases real : index < size
  · have start := Nat.div_mul_le_self index subSize
    rw [padded_inside image real]
    exact assembled.stored index real (all _ (by omega))
  · rw [padded, if_neg real]
    exact assembled.erased index inside fun small => absurd small real

/-- Writing a piece, for the first time or again, adds it to the stored ones and
changes nothing outside the area. -/
theorem settles_write {geometry : Geometry} {halves : Nat} {piece : Nat → UInt8}
    (assembled : Assembled base room image size subSize written mem) (positive : 0 < halves)
    (subPositive : 0 < subSize) (subUnits : subSize % (2 * halves) = 0)
    (roomUnits : room % (2 * halves) = 0) (aligned : base % (2 * halves) = 0)
    (fits : size ≤ room) (covers : geometry.Covers base room) (inside : k * subSize < size)
    (data : ∀ index < pieceSize size subSize k, piece index = image (k * subSize + index))
    (locked : Bool) :
    ∃ after, Settles (flashWriteBy geometry halves (base + k * subSize) piece
        (pieceSize size subSize k)) mem locked after true ∧
      Assembled base room image size subSize (insert k written) after ∧
      Set.EqOn after mem (Set.Ico base (base + room))ᶜ := by
  have unit : 0 < 2 * halves := by omega
  have whole := piece_end inside
  have most := @pieceSize_le size subSize k
  have longer := le_roundUp unit (pieceSize size subSize k)
  have offset : k * subSize % (2 * halves) = 0 := by
    rw [Nat.mul_mod, subUnits, Nat.mul_zero, Nat.zero_mod]
  have startAligned : (base + k * subSize) % (2 * halves) = 0 := by
    rw [Nat.add_mod, aligned, offset, Nat.zero_add, Nat.zero_mod]
  -- The padded piece stays in its share of the area.
  have share : roundUp (2 * halves) (pieceSize size subSize k) ≤ subSize := by
    have units := Nat.mul_div_cancel' (Nat.dvd_of_mod_eq_zero subUnits)
    exact le_trans (roundUp_le unit (most.trans units.ge)) units.le
  have area : k * subSize + roundUp (2 * halves) (pieceSize size subSize k) ≤ room := by
    have units := Nat.mul_div_cancel' (Nat.dvd_sub (Nat.dvd_of_mod_eq_zero roomUnits)
      (Nat.dvd_of_mod_eq_zero offset))
    have rounded : roundUp (2 * halves) (pieceSize size subSize k) ≤
        2 * halves * ((room - k * subSize) / (2 * halves)) := roundUp_le unit (by omega)
    omega
  by_cases again : k ∈ written
  · refine ⟨mem, settles_flashWriteBy positive startAligned ?_ locked, ?_, fun _ _ => rfl⟩
    · intro index within
      rw [Nat.add_assoc, padded]
      by_cases real : index < pieceSize size subSize k
      · rw [if_pos real, data index real]
        refine assembled.stored _ (by omega) ?_
        rw [piece_div (by omega)]
        exact again
      · rw [if_neg real]
        refine assembled.erased _ (by omega) fun small => absurd small ?_
        rw [pieceSize] at real
        omega
    · rwa [Set.insert_eq_of_mem again]
  · have region : Set.Ico (base + k * subSize) (base + k * subSize + pieceSize size subSize k) ⊆
        Set.Ico base (base + room) := Set.Ico_subset_Ico (Nat.le_add_right _ _) (by omega)
    refine ⟨_, ?_, assembled.overlay subPositive inside,
      (overlay_eqOn _ _ _ _).mono (Set.compl_subset_compl.mpr region)⟩
    have write := @ends_flashWriteBy geometry halves (base + k * subSize)
      (pieceSize size subSize k) piece mem positive startAligned
      ⟨le_trans covers.1 (Nat.le_add_right _ _), le_trans (by omega) covers.2⟩
      (fun index within => by
        rw [Nat.add_assoc]
        refine assembled.erased _ (by omega) fun _ => ?_
        rw [piece_div (by omega)]
        exact again) locked
    rw [overlay_congr mem data] at write
    exact write.settles

end Assembled

end LedFirmware
