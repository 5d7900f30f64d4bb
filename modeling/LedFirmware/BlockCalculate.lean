import Mathlib.Algebra.Group.Nat.Defs
import LedFirmware.IntervalGrid

/-!
# Block partition

`BlockCalculate` divides a request at the block boundaries behind a base address: a head
up to the first boundary, a body of whole blocks and a tail.
-/

namespace LedFirmware

structure BlockType where
  headAddress : UInt32
  tailAddress : UInt32
  bodyAddress : UInt32
  headLength : UInt32
  tailLength : UInt32
  bodyLength : UInt32
  bodyBlockCount : UInt32
  deriving DecidableEq, Repr

def initBlock : BlockType := ⟨0, 0, 0, 0, 0, 0, 0⟩

def blockCalculate (addr len interval baseAddr : UInt32) : BlockType :=
  if baseAddr > addr then initBlock
  else
    let toBoundary := (interval - (addr - baseAddr) % interval) % interval
    let headLength := if toBoundary < len then toBoundary else len
    let bodyAddress := addr + headLength
    let bodyBlockCount := (len - headLength) / interval
    let bodyLength := interval * bodyBlockCount
    { headAddress := addr
      headLength
      bodyAddress
      bodyBlockCount
      bodyLength
      tailAddress := bodyAddress + bodyLength
      tailLength := len - headLength - bodyLength }

/-- The stretches of a partition in their order. -/
def BlockType.stretches (block : BlockType) : List (Nat × Nat) :=
  [(block.headAddress.toNat, block.headLength.toNat),
   (block.bodyAddress.toNat, block.bodyLength.toNat),
   (block.tailAddress.toNat, block.tailLength.toNat)]

variable {addr len interval baseAddr : UInt32}

theorem toBoundary_toNat (positive : 0 < interval) (behind : baseAddr ≤ addr) :
    ((interval - (addr - baseAddr) % interval) % interval).toNat =
      Grid.gap interval.toNat (addr.toNat - baseAddr.toNat) := by
  have small : (addr - baseAddr) % interval ≤ interval := by
    rw [UInt32.le_iff_toNat_le, UInt32.toNat_mod]
    exact Nat.le_of_lt (Nat.mod_lt _ (UInt32.lt_iff_toNat_lt.mp positive))
  rw [Grid.gap, UInt32.toNat_mod, UInt32.toNat_sub_of_le _ _ small, UInt32.toNat_mod,
    UInt32.toNat_sub_of_le _ _ behind]

theorem ite_lt_toNat (left right : UInt32) :
    (if left < right then left else right).toNat = min left.toNat right.toNat := by
  by_cases smaller : left < right
  · rw [if_pos smaller, Nat.min_eq_left (Nat.le_of_lt (UInt32.lt_iff_toNat_lt.mp smaller))]
  · have other : ¬ left.toNat < right.toNat :=
      fun below => smaller (UInt32.lt_iff_toNat_lt.mpr below)
    rw [if_neg smaller, Nat.min_eq_right (Nat.not_lt.mp other)]

/-- The fields of a partition of a request at the boundaries behind a base. -/
structure BlockType.Divides (block : BlockType) (base interval addr len : Nat) : Prop where
  headAddress : block.headAddress.toNat = addr
  headLength : block.headLength.toNat = Grid.head base interval addr len
  bodyAddress : block.bodyAddress.toNat = addr + Grid.head base interval addr len
  bodyBlockCount : block.bodyBlockCount.toNat = Grid.cells base interval addr len
  bodyLength : block.bodyLength.toNat = interval * Grid.cells base interval addr len
  tailAddress : block.tailAddress.toNat =
    addr + Grid.head base interval addr len + interval * Grid.cells base interval addr len
  tailLength : block.tailLength.toNat = Grid.tail base interval addr len

/-- Without a wrap of the addresses no field wraps. -/
theorem blockCalculate_divides (positive : 0 < interval) (behind : baseAddr ≤ addr)
    (noWrap : addr.toNat + len.toNat < 2 ^ 32) :
    (blockCalculate addr len interval baseAddr).Divides
      baseAddr.toNat interval.toNat addr.toNat len.toNat := by
  let toBoundary := (interval - (addr - baseAddr) % interval) % interval
  let headLength := if toBoundary < len then toBoundary else len
  let bodyBlockCount := (len - headLength) / interval
  have headLength_eq : headLength.toNat =
      Grid.head baseAddr.toNat interval.toNat addr.toNat len.toNat := by
    rw [ite_lt_toNat, toBoundary_toNat positive behind, Grid.head]
  have headLe : Grid.head baseAddr.toNat interval.toNat addr.toNat len.toNat ≤ len.toNat :=
    Grid.head_le
  have partsLe : Grid.head baseAddr.toNat interval.toNat addr.toNat len.toNat +
      interval.toNat * Grid.cells baseAddr.toNat interval.toNat addr.toNat len.toNat ≤
        len.toNat :=
    Grid.head_add_cells_le
  have rest : (len - headLength).toNat =
      len.toNat - Grid.head baseAddr.toNat interval.toNat addr.toNat len.toNat := by
    rw [UInt32.toNat_sub_of_le, headLength_eq]
    rwa [UInt32.le_iff_toNat_le, headLength_eq]
  have bodyAddress : (addr + headLength).toNat =
      addr.toNat + Grid.head baseAddr.toNat interval.toNat addr.toNat len.toNat := by
    rw [UInt32.toNat_add, headLength_eq]
    exact Nat.mod_eq_of_lt (by omega)
  have bodyBlockCount_eq : bodyBlockCount.toNat =
      Grid.cells baseAddr.toNat interval.toNat addr.toNat len.toNat := by
    rw [UInt32.toNat_div, rest, Grid.cells]
  have bodyLength : (interval * bodyBlockCount).toNat =
      interval.toNat * Grid.cells baseAddr.toNat interval.toNat addr.toNat len.toNat := by
    rw [UInt32.toNat_mul, bodyBlockCount_eq]
    exact Nat.mod_eq_of_lt (by omega)
  rw [blockCalculate, if_neg (UInt32.not_lt.mpr behind)]
  constructor
  · rfl
  · exact headLength_eq
  · exact bodyAddress
  · exact bodyBlockCount_eq
  · exact bodyLength
  · change (addr + headLength + interval * bodyBlockCount).toNat = _
    rw [UInt32.toNat_add, bodyAddress, bodyLength]
    exact Nat.mod_eq_of_lt (by omega)
  · change (len - headLength - interval * bodyBlockCount).toNat = _
    rw [UInt32.toNat_sub_of_le, rest, bodyLength, Grid.tail]
    rw [UInt32.le_iff_toNat_le, rest, bodyLength]
    exact Grid.cells_le

theorem BlockType.Divides.tiles {block : BlockType} {base interval addr len : Nat}
    (divides : block.Divides base interval addr len) :
    Grid.Tiles addr block.stretches (addr + len) := by
  have partsLe : Grid.head base interval addr len +
      interval * Grid.cells base interval addr len ≤ len := Grid.head_add_cells_le
  refine ⟨divides.headAddress, ?_, ?_, ?_⟩
  · rw [divides.headAddress, divides.headLength, divides.bodyAddress]
  · rw [divides.bodyAddress, divides.bodyLength, divides.tailAddress]
  · change block.tailAddress.toNat + block.tailLength.toNat = addr + len
    rw [divides.tailAddress, divides.tailLength, Grid.tail]
    omega

/-- The three stretches tile the request.  The body begins on a boundary where the request
reaches one; otherwise the head is the whole request. -/
theorem blockCalculate_partition (positive : 0 < interval) (behind : baseAddr ≤ addr)
    (noWrap : addr.toNat + len.toNat < 2 ^ 32) :
    let block := blockCalculate addr len interval baseAddr
    let base := baseAddr.toNat
    let step := interval.toNat
    let reaches := Grid.Reaches base step addr.toNat len.toNat
    (Grid.Tiles addr.toNat block.stretches (addr.toNat + len.toNat) ∧
        (∀ position, (addr.toNat ≤ position ∧ position < addr.toNat + len.toNat) ↔
          ∃ part ∈ block.stretches, Grid.Within position part) ∧
        block.stretches.Pairwise fun part other =>
          ∀ position, Grid.Within position part → ¬ Grid.Within position other) ∧
      ((reaches → Grid.OnBoundary base step block.bodyAddress.toNat) ∧
        (¬ reaches → block.headLength = len ∧ block.bodyLength = 0 ∧ block.tailLength = 0)) ∧
      block.bodyLength.toNat = step * block.bodyBlockCount.toNat ∧
      (block.headLength < interval ∧
        Grid.WithinCell base step block.headAddress.toNat block.headLength.toNat) ∧
      block.tailLength < interval ∧
        Grid.WithinCell base step block.tailAddress.toNat block.tailLength.toNat := by
  intro block base step reaches
  have stepPos : 0 < step := UInt32.lt_iff_toNat_lt.mp positive
  have behindNat : base ≤ addr.toNat := UInt32.le_iff_toNat_le.mp behind
  have divides : block.Divides base step addr.toNat len.toNat :=
    blockCalculate_divides positive behind noWrap
  refine ⟨⟨divides.tiles, divides.tiles.covers, divides.tiles.disjoint⟩, ⟨?_, ?_⟩, ?_,
    ⟨?_, ?_⟩, ?_, ?_⟩
  · intro reached
    rw [divides.bodyAddress]
    exact Grid.head_onBoundary stepPos behindNat reached
  · intro short
    refine ⟨UInt32.toNat_inj.mp ?_, UInt32.toNat_inj.mp ?_, UInt32.toNat_inj.mp ?_⟩
    · rw [divides.headLength, Grid.head_eq_of_not_reaches stepPos behindNat short]
    · rw [divides.bodyLength, Grid.cells_eq_zero_of_not_reaches stepPos behindNat short]
      rfl
    · rw [divides.tailLength, Grid.tail_eq_zero_of_not_reaches stepPos behindNat short]
      rfl
  · rw [divides.bodyLength, divides.bodyBlockCount]
  · rw [UInt32.lt_iff_toNat_lt, divides.headLength]
    exact Grid.head_lt stepPos
  · rw [divides.headAddress, divides.headLength]
    exact Grid.head_withinCell stepPos behindNat
  · rw [UInt32.lt_iff_toNat_lt, divides.tailLength]
    exact Grid.tail_lt stepPos
  · rw [divides.tailAddress, divides.tailLength]
    exact Grid.tail_withinCell stepPos behindNat

/-- The example of the function's note, with the length that gives its result. -/
theorem blockCalculate_partition_note :
    Grid.Tiles 6 (blockCalculate 6 11 5 0).stretches 17 :=
  (@blockCalculate_partition 6 11 5 0 (by decide) (by decide) (by decide)).1.1

/-- A request of one byte inside a block: the empty body has an address off the boundaries. -/
theorem blockCalculate_body_off_boundary :
    (0 : UInt32) < 5 ∧ (0 : UInt32) ≤ 1 ∧ (1 : UInt32).toNat + (1 : UInt32).toNat < 2 ^ 32 ∧
      ¬ Grid.OnBoundary 0 5 (blockCalculate 1 1 5 0).bodyAddress.toNat := by
  refine ⟨by decide, by decide, by decide, ?_⟩
  rintro ⟨count, same⟩
  have address : (blockCalculate 1 1 5 0).bodyAddress.toNat = 2 := by decide
  omega

end LedFirmware
