import Mathlib.Data.List.Basic

/-!
# Ring buffers, byte by byte and block by block

A ring is a list with a position.  Reading or writing one element advances the
position, and wraps around at the end of the list.  Where a run of elements does not
wrap around, it is one block of the list.
-/

namespace RingBlocks

variable {α : Type}

/-- Write elements one at a time; the position behind the last one is returned. -/
def writeEach : (ring : List α) → (pos : Nat) → (elements : List α) → List α × Nat
  | ring, pos, [] => (ring, pos)
  | ring, pos, element :: elements =>
      writeEach (ring.set pos element) ((pos + 1) % ring.length) elements

/-- Read elements one at a time. -/
def readEach (ring : List α) : (pos count : Nat) → List α
  | _, 0 => []
  | pos, count + 1 => ring[pos]?.toList ++ readEach ring ((pos + 1) % ring.length) count

/-- Write a block at a position. -/
def overwrite (ring : List α) (pos : Nat) (block : List α) : List α :=
  ring.take pos ++ block ++ ring.drop (pos + block.length)

variable {ring elements : List α} {pos count : Nat}

@[simp]
theorem overwrite_nil : overwrite ring pos [] = ring := by
  simp [overwrite]

@[simp]
theorem length_overwrite (fits : pos + elements.length ≤ ring.length) :
    (overwrite ring pos elements).length = ring.length := by
  simp only [overwrite, List.length_append, List.length_take, List.length_drop]
  omega

/-- A block is its first element and the block behind it. -/
theorem overwrite_cons (element : α) (inside : pos < ring.length) :
    overwrite (ring.set pos element) (pos + 1) elements =
      overwrite ring pos (element :: elements) := by
  have taken : (ring.set pos element).take (pos + 1) = ring.take pos ++ [element] := by
    rw [List.take_set, List.take_add_one, List.getElem?_eq_getElem inside]
    rw [List.set_append_right _ _ (by rw [List.length_take]; omega)]
    simp [Nat.min_eq_left (Nat.le_of_lt inside)]
  have left : (ring.set pos element).drop (pos + 1 + elements.length) =
      ring.drop (pos + 1 + elements.length) :=
    List.drop_set_of_lt (by omega)
  rw [overwrite, overwrite, taken, left, List.length_cons,
    show pos + (elements.length + 1) = pos + 1 + elements.length by omega]
  simp

theorem writeEach_append (first second : List α) :
    writeEach ring pos (first ++ second) =
      writeEach (writeEach ring pos first).1 (writeEach ring pos first).2 second := by
  induction first generalizing ring pos with
  | nil => rfl
  | cons element first ih => exact ih

/-- Elements that do not wrap around are one block. -/
theorem writeEach_block (inside : pos < ring.length)
    (fits : pos + elements.length ≤ ring.length) :
    writeEach ring pos elements =
      (overwrite ring pos elements, (pos + elements.length) % ring.length) := by
  induction elements generalizing ring pos with
  | nil => simp [writeEach, Nat.mod_eq_of_lt inside]
  | cons element elements ih =>
      rw [List.length_cons] at fits
      rw [writeEach]
      rcases Nat.lt_or_eq_of_le (Nat.succ_le_of_lt inside) with more | last
      · rw [Nat.mod_eq_of_lt more, ih (by simpa using more) (by rw [List.length_set]; omega),
          overwrite_cons element inside, List.length_set, List.length_cons,
          show pos + (elements.length + 1) = pos + 1 + elements.length by omega]
      · have none : elements = [] := List.length_eq_zero_iff.mp (by omega)
        have written := @overwrite_cons α ring [] pos element inside
        rw [overwrite_nil] at written
        rw [none, writeEach, written]
        rfl

theorem readEach_add (inside : pos < ring.length) (first second : Nat) :
    readEach ring pos (first + second) =
      readEach ring pos first ++ readEach ring ((pos + first) % ring.length) second := by
  induction first generalizing pos with
  | zero => simp [readEach, Nat.mod_eq_of_lt inside]
  | succ first ih =>
      rw [show first + 1 + second = first + second + 1 by omega, readEach, readEach,
        ih (Nat.mod_lt _ (Nat.zero_lt_of_lt inside)), Nat.mod_add_mod, List.append_assoc,
        show pos + 1 + first = pos + (first + 1) by omega]

theorem readEach_block (fits : pos + count ≤ ring.length) :
    readEach ring pos count = (ring.drop pos).take count := by
  induction count generalizing pos with
  | zero => simp [readEach]
  | succ count ih =>
      have inside : pos < ring.length := by omega
      rw [readEach, List.getElem?_eq_getElem inside, List.drop_eq_getElem_cons inside,
        List.take_succ_cons]
      rcases Nat.lt_or_eq_of_le (Nat.succ_le_of_lt inside) with more | last
      · rw [Nat.mod_eq_of_lt more, ih (by omega)]
        rfl
      · have none : count = 0 := by omega
        rw [none]
        rfl

theorem length_readEach (inside : pos < ring.length) :
    (readEach ring pos count).length = count := by
  induction count generalizing pos with
  | zero => rfl
  | succ count ih =>
      rw [readEach, List.length_append, ih (Nat.mod_lt _ (Nat.zero_lt_of_lt inside)),
        List.getElem?_eq_getElem inside, Option.toList_some, List.length_singleton, Nat.add_comm]

theorem take_readEach (inside : pos < ring.length) (request : Nat) :
    (readEach ring pos count).take request = readEach ring pos (min request count) := by
  rcases Nat.le_total request count with short | whole
  · obtain ⟨rest, rfl⟩ := Nat.exists_eq_add_of_le short
    rw [readEach_add inside, List.take_left' (length_readEach inside), Nat.min_eq_left short]
  · rw [Nat.min_eq_right whole, List.take_of_length_le (by rwa [length_readEach inside])]

end RingBlocks
