import Mathlib.Data.List.Forall2

/-!
# Machines that answer alike

A machine is given by what one operation answers and leaves.  If related states give
related answers and related states, then so do whole runs over the same operations.
-/

namespace Simulation

variable {Op State Reply State' Reply' : Type}

/-- Perform operations in turn and collect the answers. -/
def runAll (step : State → Op → Reply × State) : List Op → State → List Reply × State
  | [], state => ([], state)
  | op :: later, state =>
      let first := step state op
      let rest := runAll step later first.2
      (first.1 :: rest.1, rest.2)

/-- Related answers and related states. -/
structure Alike (answers : Reply → Reply' → Prop) (states : State → State' → Prop)
    (first : Reply × State) (second : Reply' × State') : Prop where
  answer : answers first.1 second.1
  state : states first.2 second.2

theorem runAll_alike {answers : Reply → Reply' → Prop} {states : State → State' → Prop}
    {step : State → Op → Reply × State} {step' : State' → Op → Reply' × State'}
    (alike : ∀ {state state'} (op : Op), states state state' →
      Alike answers states (step state op) (step' state' op))
    (ops : List Op) {state : State} {state' : State'} (related : states state state') :
    Alike (List.Forall₂ answers) states (runAll step ops state) (runAll step' ops state') := by
  induction ops generalizing state state' with
  | nil => exact ⟨.nil, related⟩
  | cons op later ih =>
      have first := alike op related
      have rest := ih first.state
      exact ⟨.cons first.answer rest.answer, rest.state⟩

end Simulation
