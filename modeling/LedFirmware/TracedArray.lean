import Mathlib.Logic.Equiv.Basic

/-!
# Arrays that record their accesses

An array gives every index a cell, those behind its end included, and records the indices at
which it was read or written.  Three assignments that combine two different cells exchange
them, when the operation cancels like an exclusive or.
-/

/-- The cells of an array, and the indices that were accessed, the last one first. -/
structure TracedArray (α : Type) where
  cell : Nat → α
  touched : List Nat

namespace TracedArray

variable {α : Type}

/-- An array before any access. -/
def fresh (cell : Nat → α) : TracedArray α := ⟨cell, []⟩

def read (array : TracedArray α) (index : Nat) : α × TracedArray α :=
  (array.cell index, { array with touched := index :: array.touched })

def write (array : TracedArray α) (index : Nat) (value : α) : TracedArray α :=
  ⟨Function.update array.cell index value, index :: array.touched⟩

/-- No access was at a bound or behind it. -/
def Within (array : TracedArray α) (bound : Nat) : Prop := ∀ index ∈ array.touched, index < bound

/-- The assignment `a[i] op= a[j]`. -/
def combine (op : α → α → α) (array : TracedArray α) (i j : Nat) : TracedArray α :=
  let (x, array) := array.read i
  let (y, array) := array.read j
  array.write i (op x y)

/-- The assignments `a[i] op= a[j]`, `a[j] op= a[i]` and `a[i] op= a[j]`. -/
def exchange (op : α → α → α) (array : TracedArray α) (i j : Nat) : TracedArray α :=
  ((array.combine op i j).combine op j i).combine op i j

/-- What is combined twice is the other operand. -/
structure Cancels (op : α → α → α) : Prop where
  left : ∀ x y, op y (op x y) = x
  right : ∀ x y, op (op x y) x = y

variable {array : TracedArray α} {op : α → α → α} {bound i j : Nat}

@[simp]
theorem read_value (array : TracedArray α) (index : Nat) :
    (array.read index).1 = array.cell index :=
  rfl

@[simp]
theorem read_cell (array : TracedArray α) (index : Nat) :
    (array.read index).2.cell = array.cell :=
  rfl

@[simp]
theorem write_cell (array : TracedArray α) (index : Nat) (value : α) :
    (array.write index value).cell = Function.update array.cell index value :=
  rfl

theorem within_fresh (cell : Nat → α) (bound : Nat) : (fresh cell).Within bound := nofun

theorem Within.read (within : array.Within bound) {index : Nat} (inside : index < bound) :
    (array.read index).2.Within bound := by
  intro place member
  rcases List.mem_cons.mp member with rfl | earlier
  · exact inside
  · exact within place earlier

theorem Within.write (within : array.Within bound) {index : Nat} (inside : index < bound)
    (value : α) : (array.write index value).Within bound := by
  intro place member
  rcases List.mem_cons.mp member with rfl | earlier
  · exact inside
  · exact within place earlier

theorem Within.combine (within : array.Within bound) (first : i < bound) (second : j < bound) :
    (array.combine op i j).Within bound :=
  ((within.read first).read second).write first _

theorem Within.exchange (within : array.Within bound) (first : i < bound) (second : j < bound) :
    (array.exchange op i j).Within bound :=
  ((within.combine first second).combine second first).combine first second

theorem exchange_touched (array : TracedArray α) (i j : Nat) :
    array.touched ⊆ (array.exchange op i j).touched := by
  intro place member
  simp only [exchange, combine, read, write, List.mem_cons]
  simp [member]

theorem mem_exchange (array : TracedArray α) (i j : Nat) :
    i ∈ (array.exchange op i j).touched :=
  List.mem_cons_self

theorem combine_cell (op : α → α → α) (array : TracedArray α) (i j : Nat) :
    (array.combine op i j).cell =
      Function.update array.cell i (op (array.cell i) (array.cell j)) :=
  rfl

/-- The three assignments exchange the two cells. -/
theorem exchange_cell (cancels : Cancels op) (different : i ≠ j) (array : TracedArray α) :
    (array.exchange op i j).cell = array.cell ∘ Equiv.swap i j := by
  funext place
  simp only [exchange, combine_cell, Function.update_self, Function.update_of_ne different,
    Function.update_of_ne different.symm, cancels.left, cancels.right, Function.comp_apply]
  by_cases first : place = i
  · rw [first, Function.update_self, Equiv.swap_apply_left]
  · rw [Function.update_of_ne first]
    by_cases second : place = j
    · rw [second, Function.update_self, Equiv.swap_apply_right]
    · rw [Function.update_of_ne second, Function.update_of_ne first,
        Equiv.swap_apply_of_ne_of_ne first second]

end TracedArray
