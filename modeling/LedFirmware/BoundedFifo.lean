import Mathlib.Data.List.Basic

/-!
# Bounded queues that drop their oldest elements

A queue of bounded capacity keeps the newest elements of what was pushed.  The
capacity bound is part of the type, so no operation has to re-establish it for
its callers.
-/

namespace BoundedFifo

variable {α : Type}

/-- The last `capacity` elements of a list. -/
def newest (capacity : Nat) (items : List α) : List α := items.drop (items.length - capacity)

theorem newest_length (capacity : Nat) (items : List α) :
    (newest capacity items).length = min capacity items.length := by
  rw [newest, List.length_drop]
  omega

theorem newest_of_le {capacity : Nat} {items : List α} (fits : items.length ≤ capacity) :
    newest capacity items = items := by
  rw [newest, Nat.sub_eq_zero_of_le fits, List.drop_zero]

/-- A queue of at most `capacity` elements, oldest first. -/
structure Fifo (α : Type) (capacity : Nat) where
  items : List α
  fits : items.length ≤ capacity

namespace Fifo

variable {capacity : Nat}

def empty : Fifo α capacity := ⟨[], Nat.zero_le _⟩

/-- Append elements, dropping the oldest ones beyond the capacity. -/
def push (queue : Fifo α capacity) (later : List α) : Fifo α capacity where
  items := newest capacity (queue.items ++ later)
  fits := by
    rw [newest_length]
    exact Nat.min_le_left _ _

/-- Remove the oldest `count` elements. -/
def remove (queue : Fifo α capacity) (count : Nat) : Fifo α capacity where
  items := queue.items.drop count
  fits := by
    have bound := queue.fits
    rw [List.length_drop]
    omega

@[simp] theorem push_items (queue : Fifo α capacity) (later : List α) :
    (queue.push later).items = newest capacity (queue.items ++ later) := rfl

@[simp] theorem remove_items (queue : Fifo α capacity) (count : Nat) :
    (queue.remove count).items = queue.items.drop count := rfl

@[ext] theorem ext {first second : Fifo α capacity} (same : first.items = second.items) :
    first = second := by
  cases first
  cases second
  cases same
  rfl

/-- Removing more than there is removes what there is. -/
theorem remove_min (queue : Fifo α capacity) (count : Nat) :
    queue.remove (min count queue.items.length) = queue.remove count := by
  ext1
  rw [remove_items, remove_items]
  rcases Nat.le_total count queue.items.length with short | long
  · rw [Nat.min_eq_left short]
  · rw [Nat.min_eq_right long, List.drop_length, List.drop_eq_nil_of_le long]

end Fifo

end BoundedFifo
