import Mathlib.Data.List.Basic

/-!
# Loops over a counter that wraps around

A loop counts from 0 up to a length with a counter that has a limited number of values.  Its
body goes on with a state or leaves the loop.  When the length is one of the values the loop
is a fold over the indices; when it is not, the loop never ends unless the body leaves it.
-/

namespace WrappingCounter

variable {State Result : Type}

/-- The loop `for (i = 0; i < len; i++)`, from one value of the counter on. -/
def loop (values len : Nat) (body : Nat → State → Except Result State) :
    (fuel i : Nat) → State → Option (Except Result State)
  | 0, _, _ => none
  | fuel + 1, i, state =>
      if i < len then
        match body i state with
        | .error result => some (.error result)
        | .ok state => loop values len body fuel ((i + 1) % values) state
      else some (.ok state)

/-- The iterations for some indices in turn. -/
def iterate (body : Nat → State → Except Result State) (indices : List Nat) (state : State) :
    Except Result State :=
  indices.foldlM (fun state i => body i state) state

variable {values len fuel i n : Nat} {body : Nat → State → Except Result State}
  {state : State} {outcome : Except Result State}

theorem iterate_cons (indices : List Nat) :
    iterate body (i :: indices) state = body i state >>= iterate body indices :=
  List.foldlM_cons

/-- Iterations within the length that do not pass the last value of the counter. -/
theorem loop_add (n fuel : Nat) (inside : i + n ≤ len) (room : i + n ≤ values) (state : State) :
    loop values len body (n + fuel) (i % values) state =
      match iterate body (List.range' i n) state with
      | .error result => some (.error result)
      | .ok state => loop values len body fuel ((i + n) % values) state := by
  induction n generalizing i state with
  | zero =>
      rw [Nat.zero_add]
      rfl
  | succ n ih =>
      have here : i % values = i := Nat.mod_eq_of_lt (by omega)
      rw [Nat.add_right_comm, loop, here, if_pos (by omega), List.range'_succ, iterate_cons]
      cases body i state with
      | error result => rfl
      | ok next =>
          dsimp only
          rw [ih (by omega) (by omega), Nat.add_right_comm i 1 n]
          rfl

/-- More fuel does not change an outcome. -/
theorem loop_more (ended : loop values len body fuel i state = some outcome) (more : Nat) :
    loop values len body (fuel + more) i state = some outcome := by
  induction fuel generalizing i state with
  | zero => cases ended
  | succ fuel ih =>
      rw [Nat.add_right_comm]
      rw [loop] at ended ⊢
      split
      · rename_i inside
        rw [if_pos inside] at ended
        cases result : body i state with
        | error result =>
            rw [result] at ended
            exact ended
        | ok next =>
            rw [result] at ended
            exact ih ended
      · rename_i outside
        rw [if_neg outside] at ended
        exact ended

theorem loop_unique {fuel' : Nat} {outcome' : Except Result State}
    (ended : loop values len body fuel i state = some outcome)
    (ended' : loop values len body fuel' i state = some outcome') : outcome = outcome' := by
  have one := loop_more ended fuel'
  have other := loop_more ended' fuel
  rw [Nat.add_comm, other] at one
  exact (Option.some.inj one).symm

/-- The loop ends with an outcome. -/
def Ends (values len : Nat) (body : Nat → State → Except Result State) (state : State)
    (outcome : Except Result State) : Prop :=
  ∃ fuel, loop values len body fuel 0 state = some outcome

/-- A length that the counter can reach. -/
theorem ends_iff (reached : len < values) :
    Ends values len body state outcome ↔ iterate body (List.range' 0 len) state = outcome := by
  have start : 0 % values = 0 := Nat.zero_mod values
  have ended : loop values len body (len + 1) 0 state =
      some (iterate body (List.range' 0 len) state) := by
    have run := @loop_add _ _ values len 0 body len 1 (by omega) (by omega) state
    rw [start] at run
    rw [run]
    cases iterate body (List.range' 0 len) state with
    | error result => rfl
    | ok final =>
        dsimp only
        rw [Nat.zero_add, Nat.mod_eq_of_lt reached, loop, if_neg (Nat.lt_irrefl len)]
  constructor
  · rintro ⟨fuel, found⟩
    exact loop_unique ended found
  · rintro rfl
    exact ⟨len + 1, ended⟩

/-- The body leaves the loop while the counter counts up for the first time. -/
theorem ends_of_leaves {result : Result} (within : n ≤ len) (room : n ≤ values)
    (leaves : iterate body (List.range' 0 n) state = .error result) :
    Ends values len body state (.error result) := by
  have run := @loop_add _ _ values len 0 body n 0 (by omega) (by omega) state
  rw [Nat.zero_mod, leaves] at run
  exact ⟨n + 0, run⟩

/-- Behind a length that the counter cannot reach, a body that always goes on never ends. -/
theorem not_ends (invariant : State → Prop) (positive : 0 < values) (unreached : values ≤ len)
    (goesOn : ∀ i < values, ∀ state, invariant state →
      ∃ next, body i state = .ok next ∧ invariant next) (holds : invariant state) :
    ¬ Ends values len body state outcome := by
  have never (fuel i : Nat) (state : State) (inside : i < values) (holds : invariant state) :
      loop values len body fuel i state = none := by
    induction fuel generalizing i state with
    | zero => rfl
    | succ fuel ih =>
        obtain ⟨next, same, kept⟩ := goesOn i inside state holds
        rw [loop, if_pos (by omega), same]
        exact ih _ next (Nat.mod_lt _ positive) kept
  rintro ⟨fuel, ended⟩
  rw [never fuel 0 state positive holds] at ended
  cases ended

end WrappingCounter
