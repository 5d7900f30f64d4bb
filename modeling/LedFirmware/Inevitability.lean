import Mathlib.Order.Nat

/-!
# What a transition system cannot avoid

A goal is inevitable from a state when every way to go on reaches it and there is
always a way to go on before it is reached.  A measure that every step decreases
proves inevitability, an invariant that excludes the goal refutes it.
-/

namespace Inevitability

/-- Every run of steps from the state reaches the goal, and none stops before. -/
inductive Inevitable {State : Type} (Step : State → State → Prop) (goal : State → Prop) :
    State → Prop
  | here {state : State} (reached : goal state) : Inevitable Step goal state
  | later {state : State} (moves : ∃ next, Step state next)
      (every : ∀ next, Step state next → Inevitable Step goal next) :
      Inevitable Step goal state

variable {State : Type} {Step : State → State → Prop} {goal : State → Prop} {state : State}

/-- From every state with the invariant, a step is possible and decreases the
measure, unless the goal is reached. -/
theorem Inevitable.of_measure (invariant : State → Prop) (measure : State → Nat)
    (preserved : ∀ before after, invariant before → Step before after → invariant after)
    (moves : ∀ before, invariant before → ¬ goal before → ∃ after, Step before after)
    (decreases : ∀ before after, invariant before → ¬ goal before → Step before after →
      measure after < measure before)
    (holds : invariant state) : Inevitable Step goal state := by
  induction bound : measure state using Nat.strong_induction_on generalizing state with
  | _ bound ih =>
      by_cases reached : goal state
      · exact .here reached
      · refine .later (moves state holds reached) fun next step => ?_
        have smaller := decreases state next holds reached step
        exact ih (measure next) (by omega) (preserved state next holds step) rfl

/-- A goal that no state with the invariant meets is not inevitable. -/
theorem Inevitable.excluded (inevitable : Inevitable Step goal state) (invariant : State → Prop)
    (preserved : ∀ before after, invariant before → Step before after → invariant after)
    (excludes : ∀ before, invariant before → ¬ goal before) : ¬ invariant state := by
  induction inevitable with
  | here reached => exact fun holds => excludes _ holds reached
  | later moves every ih =>
      intro holds
      obtain ⟨next, step⟩ := moves
      exact ih next step (preserved _ next holds step)

end Inevitability
