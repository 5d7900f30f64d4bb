import LedFirmware.TracedArray

/-!
# Element by element operations on arrays

`MemAddMem` and the functions behind it count their length down and use it as the index
before they decrease it: they combine the elements at 1 up to the length, and leave the first
one alone.
-/

namespace LedFirmware

open TracedArray

/-- The three arrays of an operation, which do not overlap. -/
structure Operands where
  dst : TracedArray UInt8
  src1 : TracedArray UInt8
  src2 : TracedArray UInt8

/-- The loop of the five functions. -/
def memOpMem (op : UInt8 → UInt8 → UInt8) : (len : Nat) → Operands → Operands
  | 0, arrays => arrays
  | len + 1, arrays =>
      let (x, src1) := arrays.src1.read (len + 1)
      let (y, src2) := arrays.src2.read (len + 1)
      memOpMem op len ⟨arrays.dst.write (len + 1) (op x y), src1, src2⟩

def memAddMem (arrays : Operands) (len : UInt32) : Operands := memOpMem (· + ·) len.toNat arrays

def memSubMem (arrays : Operands) (len : UInt32) : Operands := memOpMem (· - ·) len.toNat arrays

def memAndMem (arrays : Operands) (len : UInt32) : Operands := memOpMem (· &&& ·) len.toNat arrays

def memOrMem (arrays : Operands) (len : UInt32) : Operands := memOpMem (· ||| ·) len.toNat arrays

def memXorMem (arrays : Operands) (len : UInt32) : Operands := memOpMem (· ^^^ ·) len.toNat arrays

/-! ## What the loop does -/

/-- The elements at 1 up to the length are combined, and each of the arrays is accessed at
these indices. -/
theorem memOpMem_eq (op : UInt8 → UInt8 → UInt8) (len : Nat) (arrays : Operands) :
    memOpMem op len arrays =
      let touched := List.range' 1 len
      { dst :=
          { cell := fun index =>
              if 1 ≤ index ∧ index ≤ len then
                op (arrays.src1.cell index) (arrays.src2.cell index)
              else arrays.dst.cell index
            touched := touched ++ arrays.dst.touched }
        src1 := ⟨arrays.src1.cell, touched ++ arrays.src1.touched⟩
        src2 := ⟨arrays.src2.cell, touched ++ arrays.src2.touched⟩ } := by
  induction len generalizing arrays with
  | zero =>
      have none (index : Nat) : ¬ (1 ≤ index ∧ index ≤ 0) := by omega
      simp only [memOpMem, none, if_false]
      rfl
  | succ len ih =>
      have last (touched : List Nat) : List.range' 1 len ++ (len + 1) :: touched =
          List.range' 1 (len + 1) ++ touched := by
        rw [List.range'_1_concat, List.append_assoc, Nat.add_comm 1 len]
        rfl
      have cells (index : Nat) :
          (if 1 ≤ index ∧ index ≤ len then op (arrays.src1.cell index) (arrays.src2.cell index)
          else Function.update arrays.dst.cell (len + 1)
            (op (arrays.src1.cell (len + 1)) (arrays.src2.cell (len + 1))) index) =
          if 1 ≤ index ∧ index ≤ len + 1 then
            op (arrays.src1.cell index) (arrays.src2.cell index)
          else arrays.dst.cell index := by
        by_cases earlier : 1 ≤ index ∧ index ≤ len
        · rw [if_pos earlier, if_pos (by omega)]
        · rw [if_neg earlier]
          by_cases here : index = len + 1
          · rw [here, if_pos (by omega), Function.update_self]
          · rw [if_neg (by omega), Function.update_of_ne here]
      rw [memOpMem]
      dsimp only
      rw [ih]
      simp only [TracedArray.read, TracedArray.write, last, cells]

/-! ## When that is the operation on the elements -/

/-- The elements below the length are combined, everything else stays as it was, and nothing
is accessed at the length or behind it. -/
structure CombinesElements (op : UInt8 → UInt8 → UInt8) (dst src1 src2 : Nat → UInt8)
    (len : UInt32) (result : Operands) : Prop where
  combined : ∀ index < len.toNat, result.dst.cell index = op (src1 index) (src2 index)
  kept : ∀ index, len.toNat ≤ index → result.dst.cell index = dst index
  sources : result.src1.cell = src1 ∧ result.src2.cell = src2
  within : result.dst.Within len.toNat ∧ result.src1.Within len.toNat ∧
    result.src2.Within len.toNat

theorem memOpMem_combines_iff (op : UInt8 → UInt8 → UInt8) (dst src1 src2 : Nat → UInt8)
    (len : UInt32) :
    CombinesElements op dst src1 src2 len
        (memOpMem op len.toNat ⟨fresh dst, fresh src1, fresh src2⟩) ↔ len = 0 := by
  constructor
  · rintro ⟨-, -, -, within, -⟩
    by_contra some
    have positive : 0 < len.toNat := Nat.pos_of_ne_zero fun zero => some (UInt32.toNat_inj.mp zero)
    -- The first element that is written lies at the length itself.
    rw [memOpMem_eq] at within
    have touched : len.toNat ∈ List.range' 1 len.toNat :=
      List.mem_range'_1.mpr ⟨positive, by omega⟩
    exact absurd (within _ (List.mem_append_left _ touched)) (Nat.lt_irrefl _)
  · rintro rfl
    have unread (cell : Nat → UInt8) := within_fresh cell 0
    exact ⟨nofun, fun _ _ => rfl, ⟨rfl, rfl⟩, unread dst, unread src1, unread src2⟩

/-- None of the five functions combines the elements of arrays that are not empty. -/
theorem memOps_combine_iff (dst src1 src2 : Nat → UInt8) (len : UInt32) :
    (CombinesElements (· + ·) dst src1 src2 len
        (memAddMem ⟨fresh dst, fresh src1, fresh src2⟩ len) ↔ len = 0) ∧
      (CombinesElements (· - ·) dst src1 src2 len
        (memSubMem ⟨fresh dst, fresh src1, fresh src2⟩ len) ↔ len = 0) ∧
      (CombinesElements (· &&& ·) dst src1 src2 len
        (memAndMem ⟨fresh dst, fresh src1, fresh src2⟩ len) ↔ len = 0) ∧
      (CombinesElements (· ||| ·) dst src1 src2 len
        (memOrMem ⟨fresh dst, fresh src1, fresh src2⟩ len) ↔ len = 0) ∧
      (CombinesElements (· ^^^ ·) dst src1 src2 len
        (memXorMem ⟨fresh dst, fresh src1, fresh src2⟩ len) ↔ len = 0) :=
  ⟨memOpMem_combines_iff _ dst src1 src2 len, memOpMem_combines_iff _ dst src1 src2 len,
    memOpMem_combines_iff _ dst src1 src2 len, memOpMem_combines_iff _ dst src1 src2 len,
    memOpMem_combines_iff _ dst src1 src2 len⟩

/-- One byte is added to another: the first element of the result stays 0, and the second one
is written. -/
theorem memAddMem_one :
    ¬ CombinesElements (· + ·) (fun _ => 0) (fun _ => 1) (fun _ => 2) 1
        (memAddMem ⟨fresh fun _ => 0, fresh fun _ => 1, fresh fun _ => 2⟩ 1) ∧
      (memAddMem ⟨fresh fun _ => 0, fresh fun _ => 1, fresh fun _ => 2⟩ 1).dst.cell 0 = 0 ∧
      (memAddMem ⟨fresh fun _ => 0, fresh fun _ => 1, fresh fun _ => 2⟩ 1).dst.cell 1 = 3 := by
  refine ⟨fun combines => ?_, by decide, by decide⟩
  exact absurd ((memOpMem_combines_iff _ _ _ _ _).mp combines) (by decide)

end LedFirmware
