/-!
# Loops that repair one thing at a time

Each pass of the loop puts right the first thing that it finds wrong, marks it, and
starts over; the loop ends when a pass finds nothing.  A rank that every pass lowers
makes it end.

Nothing here is specific to what is repaired.
-/

/-- The passes of a loop.  A pass returns its mark and the next state, or nothing if the
state is right. -/
structure RepairLoop (State : Type) where
  pass : State → Option (UInt8 × State)
  rank : State → Nat
  lower : ∀ {state mark next}, pass state = some (mark, next) → rank next < rank state

namespace RepairLoop

variable {State : Type} (loop : RepairLoop State)

/-- Run the loop, collecting the marks. -/
def run (flag : UInt8) (state : State) : UInt8 × State :=
  match _ : loop.pass state with
  | none => (flag, state)
  | some (mark, next) => run (flag ||| mark) next
termination_by loop.rank state
decreasing_by exact loop.lower ‹_›

/-- Run the loop for so many looks at the state at most. -/
def runWithin (looks : Nat) (flag : UInt8) (state : State) : Option (UInt8 × State) :=
  match looks with
  | 0 => none
  | looks + 1 =>
      match loop.pass state with
      | none => some (flag, state)
      | some (mark, next) => runWithin looks (flag ||| mark) next

/-- What holds of every right state, and of a wrong one if it holds of the next, holds of all. -/
@[elab_as_elim]
theorem induct {motive : State → Prop} (right : ∀ state, loop.pass state = none → motive state)
    (wrong : ∀ state mark next, loop.pass state = some (mark, next) → motive next → motive state)
    (state : State) : motive state := by
  induction measured : loop.rank state using Nat.strongRecOn generalizing state with
  | ind rank ih =>
      cases found : loop.pass state with
      | none => exact right state found
      | some step =>
          obtain ⟨mark, next⟩ := step
          have lower : loop.rank next < rank := measured ▸ loop.lower found
          exact wrong state mark next found (ih _ lower next rfl)

variable {loop}

theorem run_none {flag : UInt8} {state : State} (right : loop.pass state = none) :
    loop.run flag state = (flag, state) := by
  rw [run]
  split
  · rfl
  · rename_i found
    cases right.symm.trans found

theorem run_some {flag mark : UInt8} {state next : State}
    (wrong : loop.pass state = some (mark, next)) :
    loop.run flag state = loop.run (flag ||| mark) next := by
  rw [run]
  split
  · rename_i found
    cases wrong.symm.trans found
  · rename_i found
    cases wrong.symm.trans found
    rfl

/-- A loop whose every pass keeps what the loop is to end in ends in it, with the marks of
all passes. -/
theorem run_eq {final : State → State} {marks : State → UInt8}
    (stop : ∀ state, loop.pass state = none → final state = state ∧ marks state = 0)
    (go : ∀ state mark next, loop.pass state = some (mark, next) →
      final next = final state ∧ marks state = mark ||| marks next)
    (flag : UInt8) (state : State) :
    loop.run flag state = (flag ||| marks state, final state) := by
  induction state using loop.induct generalizing flag with
  | right state found =>
      obtain ⟨same, unmarked⟩ := stop state found
      rw [run_none found, same, unmarked, UInt8.or_zero]
  | wrong state mark next found ih =>
      obtain ⟨same, marked⟩ := go state mark next found
      rw [run_some found, ih, same, marked, UInt8.or_assoc]

/-- The rank bounds the passes, and one look more finds nothing. -/
theorem runWithin_eq {looks : Nat} {flag : UInt8} {state : State}
    (enough : loop.rank state < looks) :
    loop.runWithin looks flag state = some (loop.run flag state) := by
  induction looks generalizing flag state with
  | zero => exact absurd enough (Nat.not_lt_zero _)
  | succ looks ih =>
      rw [runWithin]
      cases found : loop.pass state with
      | none => rw [run_none found]
      | some step =>
          obtain ⟨mark, next⟩ := step
          have lower := loop.lower found
          rw [run_some found]
          exact ih (by omega)

/-- The loop ends in a state that is right. -/
theorem pass_run (flag : UInt8) (state : State) : loop.pass (loop.run flag state).2 = none := by
  induction state using loop.induct generalizing flag with
  | right state found =>
      rw [run_none found]
      exact found
  | wrong state mark next found ih =>
      rw [run_some found]
      exact ih _

/-- A second run changes nothing. -/
theorem run_run (first second : UInt8) (state : State) :
    loop.run second (loop.run first state).2 = (second, (loop.run first state).2) :=
  run_none (pass_run first state)

end RepairLoop
