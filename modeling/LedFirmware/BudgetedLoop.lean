import LedFirmware.CrashProgram
import Mathlib.Logic.Relation

/-!
# Loops with an iteration budget

A loop runs its body while a condition on its variables holds, and spins when its budget is
used up.  A measure on the variables gives a budget that is large enough; an invariant under
which the condition holds keeps the loop from ever ending.  The states between the
iterations are those that single runs of the body reach.
-/

namespace CrashProgram

open Relation

namespace Prog

variable {D : Device} {σ : Type}

/-- Run the body as long as its variables ask for it. -/
def loop (continues : σ → Prop) [DecidablePred continues] (body : σ → Prog D σ) :
    (fuel : Nat) → σ → Prog D σ
  | 0, _ => .spin
  | fuel + 1, vars =>
      if continues vars then body vars >>= loop continues body fuel else .done vars

/-- From the variables and the state before an iteration to those behind it, with allowed
faults only. -/
def LoopStep (allowed : D.Fault → Prop) (continues : σ → Prop) (body : σ → Prog D σ)
    (before after : σ × D.State) : Prop :=
  continues before.1 ∧ ∃ schedule rest, Schedule.Within allowed schedule ∧
    (body before.1).run schedule before.2 = .done after.1 after.2 rest

variable {allowed : D.Fault → Prop} {continues : σ → Prop} [DecidablePred continues]
  {body : σ → Prog D σ}

theorem loop_continues {vars : σ} (more : continues vars) (fuel : Nat) :
    loop continues body (fuel + 1) vars = body vars >>= loop continues body fuel := if_pos more

theorem loop_ended {vars : σ} (ended : ¬ continues vars) (fuel : Nat) :
    loop continues body (fuel + 1) vars = .done vars := if_neg ended

theorem halts_bind_of_yields {α β : Type} {good : α → Prop} {program : Prog D α}
    {next : α → Prog D β} (halts : program.Halts) (yields : program.Yields good)
    (rest : ∀ value, good value → (next value).Halts) : (program >>= next).Halts := by
  induction program with
  | done value => exact rest value yields
  | call op tail ih => exact fun reply => ih reply (halts reply) (yields reply)
  | spin => exact halts.elim

/-- A measure that every iteration decreases bounds the iterations. -/
theorem halts_loop {measure : σ → Nat} (halts : ∀ vars, continues vars → (body vars).Halts)
    (decreases : ∀ vars, continues vars →
      (body vars).Yields fun next => measure next < measure vars)
    {fuel : Nat} {vars : σ} (budget : measure vars < fuel) :
    (loop continues body fuel vars).Halts := by
  induction fuel generalizing vars with
  | zero => exact absurd budget (Nat.not_lt_zero _)
  | succ fuel ih =>
      by_cases more : continues vars
      · rw [loop_continues more]
        apply halts_bind_of_yields (halts vars more) (decreases vars more)
        intro next smaller
        exact ih (Nat.lt_of_lt_of_le smaller (Nat.lt_succ_iff.mp budget))
      · rw [loop_ended more]
        exact halts_done vars

/-- An invariant under which the loop goes on keeps it from ever ending. -/
theorem wp_loop_never_done {invariant : σ → D.State → Prop}
    (goesOn : ∀ vars state, invariant vars state → continues vars)
    (kept : ∀ vars state, invariant vars state →
      (body vars).wp allowed ⟨invariant, fun _ => True, fun _ => True⟩ state)
    (fuel : Nat) {vars : σ} {state : D.State} (holds : invariant vars state) :
    (loop continues body fuel vars).wp allowed ⟨fun _ _ => False, fun _ => True, fun _ => True⟩
      state := by
  induction fuel generalizing vars state with
  | zero => exact (wp_spin _ _).mpr trivial
  | succ fuel ih =>
      rw [loop_continues (goesOn vars state holds), wp_bind]
      exact wp_mono (kept vars state holds) (fun _ _ still => ih still) (fun _ _ => trivial)
        fun _ _ => trivial

/-- What is reached between iterations is reached by runs of the loop: with more budget, on a
schedule that begins with those of the iterations, the loop goes on from there. -/
theorem reaches_run_loop {before after : σ × D.State}
    (reached : ReflTransGen (LoopStep allowed continues body) before after) (fuel : Nat)
    {later : Schedule D} (withinLater : later.Within allowed) :
    ∃ more, ∃ schedule : Schedule D, schedule.Within allowed ∧
      (loop continues body (fuel + more) before.1).run schedule before.2 =
        (loop continues body fuel after.1).run later after.2 := by
  induction reached using ReflTransGen.head_induction_on with
  | refl => exact ⟨0, later, withinLater, rfl⟩
  | @head first second step _ ih =>
      obtain ⟨goesOn, schedule, rest, within, run⟩ := step
      obtain ⟨more, tail, withinTail, same⟩ := ih
      obtain ⟨joined, withinJoined, spliced⟩ := @run_bind_splice D σ σ allowed (body first.1)
        (loop continues body (fuel + more)) _ _ _ _ _ _ run within withinTail
      refine ⟨more + 1, joined, withinJoined, ?_⟩
      rw [← Nat.add_assoc, loop_continues goesOn, spliced, same]

/-- A run of the loop that ends does not depend on the budget. -/
theorem run_loop_more {fuel : Nat} {vars final : σ} {schedule rest : Schedule D}
    {state after : D.State}
    (ended : (loop continues body fuel vars).run schedule state = .done final after rest)
    (more : Nat) :
    (loop continues body (fuel + more) vars).run schedule state = .done final after rest := by
  induction fuel generalizing vars schedule state with
  | zero => cases ended
  | succ fuel ih =>
      rw [Nat.succ_add]
      by_cases goesOn : continues vars
      · rw [loop_continues goesOn, run_bind] at ended ⊢
        cases iteration : (body vars).run schedule state with
        | done next middle tail =>
            rw [iteration] at ended
            exact ih ended
        | lost middle | spin middle =>
            rw [iteration] at ended
            cases ended
      · rw [loop_ended goesOn] at ended ⊢
        exact ended

end Prog

end CrashProgram
