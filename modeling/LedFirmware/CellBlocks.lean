import Mathlib.Logic.Function.Basic

/-!
# Blocks of cells

A memory gives every address a cell.  Filling a block, storing a block at once and copying a
block cell by cell upwards are the operations; a copy onto a higher place that it overlaps
repeats the cells in front of it.
-/

namespace Cells

variable {α : Type}

/-- Give one value to a block of cells. -/
def fill (addr count : Nat) (value : α) (mem : Nat → α) : Nat → α := fun place =>
  if addr ≤ place ∧ place < addr + count then value else mem place

/-- Store a block of cells at once. -/
def store (addr width : Nat) (block : Nat → α) (mem : Nat → α) : Nat → α := fun place =>
  if addr ≤ place ∧ place < addr + width then block (place - addr) else mem place

/-- Copy a block cell by cell, the lowest first. -/
def copy : (count dst src : Nat) → (Nat → α) → Nat → α
  | 0, _, _, mem => mem
  | count + 1, dst, src, mem => copy count (dst + 1) (src + 1) (Function.update mem dst (mem src))

variable {mem : Nat → α} {addr count dst src place : Nat}

theorem fill_zero (value : α) : fill addr 0 value mem = mem := by
  funext place
  exact if_neg (by omega)

theorem fill_fill (first second : Nat) (value : α) :
    fill (addr + first) second value (fill addr first value mem) =
      fill addr (first + second) value mem := by
  funext place
  simp only [fill]
  by_cases inFirst : addr ≤ place ∧ place < addr + first
  · rw [if_pos inFirst, if_neg (by omega), if_pos (by omega)]
  · rw [if_neg inFirst]
    by_cases inSecond : addr + first ≤ place ∧ place < addr + first + second
    · rw [if_pos inSecond, if_pos (by omega)]
    · rw [if_neg inSecond, if_neg (by omega)]

/-- A block of equal cells stored at once is a fill. -/
theorem store_eq_fill {width : Nat} {block : Nat → α} {value : α}
    (same : ∀ index < width, block index = value) :
    store addr width block mem = fill addr width value mem := by
  funext place
  simp only [store, fill]
  by_cases inside : addr ≤ place ∧ place < addr + width
  · rw [if_pos inside, if_pos inside, same _ (by omega)]
  · rw [if_neg inside, if_neg inside]

theorem copy_add (first second dst src : Nat) (mem : Nat → α) :
    copy (first + second) dst src mem =
      copy second (dst + first) (src + first) (copy first dst src mem) := by
  induction first generalizing dst src mem with
  | zero => rw [Nat.zero_add]; rfl
  | succ first ih =>
      rw [Nat.succ_add, copy, ih, copy, Nat.add_right_comm dst, Nat.add_right_comm src,
        Nat.add_assoc dst, Nat.add_assoc src]

theorem copy_outside (outside : place < dst ∨ dst + count ≤ place) :
    copy count dst src mem place = mem place := by
  induction count generalizing dst src mem with
  | zero => rfl
  | succ count ih =>
      rw [copy, ih (by omega), Function.update_of_ne (by omega)]

/-- One more cell is copied from the memory that the cells before it have left. -/
theorem copy_succ (count dst src : Nat) (mem : Nat → α) :
    copy (count + 1) dst src mem =
      Function.update (copy count dst src mem) (dst + count)
        (copy count dst src mem (src + count)) :=
  copy_add count 1 dst src mem

/-- A copy downwards, or onto a place behind the source, keeps a cell until it is read. -/
theorem copy_inside (apart : dst ≤ src ∨ src + count ≤ dst) {index : Nat} (inside : index < count) :
    copy count dst src mem (dst + index) = mem (src + index) := by
  induction count with
  | zero => omega
  | succ count ih =>
      rw [copy_succ]
      by_cases last : index = count
      · subst last
        rw [Function.update_self]
        exact copy_outside (by omega)
      · rw [Function.update_of_ne (by omega)]
        exact ih (by omega) (by omega)

/-- A copy onto a place inside the source repeats the cells in front of it. -/
theorem copy_repeats {period : Nat} (positive : 0 < period) (count src : Nat) (mem : Nat → α)
    {index : Nat} (inside : index < period + count) :
    copy count (src + period) src mem (src + index) = mem (src + index % period) := by
  induction count generalizing index with
  | zero => rw [copy, Nat.mod_eq_of_lt (by omega)]
  | succ count ih =>
      rw [copy_succ]
      by_cases last : index = period + count
      · subst last
        rw [← Nat.add_assoc, Function.update_self, ih (by omega), Nat.add_mod_left]
      · rw [Function.update_of_ne (by omega)]
        exact ih (by omega)

/-- A block read at once and stored at once is copied, unless it overlaps its source. -/
theorem store_eq_copy {width : Nat} (apart : dst = src ∨ dst + width ≤ src ∨ src + width ≤ dst) :
    store dst width (fun index => mem (src + index)) mem = copy width dst src mem := by
  funext place
  simp only [store]
  by_cases inside : dst ≤ place ∧ place < dst + width
  · obtain ⟨index, rfl⟩ := Nat.exists_eq_add_of_le inside.1
    rw [if_pos inside, Nat.add_sub_cancel_left, copy_inside (by omega) (by omega)]
  · rw [if_neg inside, copy_outside (by omega)]

end Cells
