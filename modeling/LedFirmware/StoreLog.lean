import Mathlib.Data.List.GetD
import Mathlib.Logic.Function.Basic

/-!
# Logs of stores

A log lists the stores that a run makes, in their order.  It says which cells are touched,
also where a later store covers an earlier one, and what a memory holds at the end.
-/

namespace StoreLog

variable {Value : Type*}

/-- The memory after the stores of a log. -/
def run (mem : Nat → Value) (log : List (Nat × Value)) : Nat → Value :=
  log.foldl (fun mem store => Function.update mem store.1 store.2) mem

/-- Stores to consecutive cells. -/
def block (start : Nat) : List Value → List (Nat × Value)
  | [] => []
  | value :: values => (start, value) :: block (start + 1) values

variable {mem : Nat → Value} {start cell : Nat} {values : List Value}

@[simp]
theorem run_nil : run mem [] = mem := rfl

@[simp]
theorem run_cons (store : Nat × Value) (log : List (Nat × Value)) :
    run mem (store :: log) = run (Function.update mem store.1 store.2) log := rfl

theorem run_append (first second : List (Nat × Value)) :
    run mem (first ++ second) = run (run mem first) second :=
  List.foldl_append

theorem run_snoc (log : List (Nat × Value)) (value : Value) :
    run mem (log ++ [(cell, value)]) = Function.update (run mem log) cell value :=
  run_append log [(cell, value)]

/-- A log leaves the cells alone that it does not name. -/
theorem run_of_untouched {log : List (Nat × Value)} (untouched : ∀ store ∈ log, store.1 ≠ cell) :
    run mem log cell = mem cell := by
  induction log generalizing mem with
  | nil => rfl
  | cons store log ih =>
      rw [run_cons, ih fun later member => untouched later (List.mem_cons_of_mem store member),
        Function.update_of_ne (untouched store List.mem_cons_self).symm]

/-- A block touches its own cells and no others. -/
theorem mem_block {store : Nat × Value} (member : store ∈ block start values) :
    start ≤ store.1 ∧ store.1 < start + values.length := by
  induction values generalizing start with
  | nil => exact absurd member List.not_mem_nil
  | cons value values ih =>
      rw [List.length_cons]
      rcases List.mem_cons.mp member with rfl | later
      · exact ⟨Nat.le_refl _, by omega⟩
      · have inside := ih later
        omega

theorem run_block_outside (outside : cell < start ∨ start + values.length ≤ cell) :
    run mem (block start values) cell = mem cell :=
  run_of_untouched fun _ member same => by
    have inside := mem_block member
    omega

theorem run_block_inside {index : Nat} (inside : index < values.length) :
    run mem (block start values) (start + index) = values[index] := by
  induction values generalizing mem start index with
  | nil => exact absurd inside (Nat.not_lt_zero index)
  | cons value values ih =>
      rw [block, run_cons]
      cases index with
      | zero =>
          change run (Function.update mem start value) (block (start + 1) values) start = value
          rw [run_block_outside (Or.inl (Nat.lt_add_one start)), Function.update_self]
      | succ index =>
          rw [show start + (index + 1) = start + 1 + index by omega]
          exact ih (Nat.succ_lt_succ_iff.mp inside)

end StoreLog
