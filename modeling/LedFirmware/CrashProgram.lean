import Mathlib.Data.Set.Function

/-!
# Programs over a device that can lose power

A program is a tree of device calls whose continuation depends on the reply.
Running it consumes a schedule that says, for each call, which fault the
device suffers or that power is lost just before the call.  Weakest
preconditions speak about every schedule at once: a postcondition has one
part for normal completion, one that must hold wherever power may be lost,
and one for an iteration budget that ran out.

Nothing here is specific to any particular device.
-/

namespace CrashProgram

/-- A device: its state, the calls it accepts, the reply to each call, and the
ways a call can go wrong. -/
structure Device where
  State : Type
  Op : Type
  Reply : Op → Type
  Fault : Type
  apply : (op : Op) → Fault → State → Reply op × State

/-- A program over a device.  `spin` stands for a loop that is still running
when its iteration budget is used up. -/
inductive Prog (D : Device) (α : Type) : Type
  | done (value : α)
  | call (op : D.Op) (next : D.Reply op → Prog D α)
  | spin

/-- For each call in turn, the fault it suffers; `none` means that power is
lost before the call. -/
abbrev Schedule (D : Device) := Nat → Option D.Fault

/-- How a run ends: with a value and the unused part of the schedule, by a
power loss, or still spinning. -/
inductive Outcome (D : Device) (α : Type) : Type
  | done (value : α) (state : D.State) (rest : Schedule D)
  | lost (state : D.State)
  | spin (state : D.State)

/-- A postcondition with one part for each way a run can end. -/
structure Post (D : Device) (α : Type) where
  done : α → D.State → Prop
  lost : D.State → Prop
  spin : D.State → Prop

variable {D : Device} {α β γ : Type}

namespace Prog

def bind : Prog D α → (α → Prog D β) → Prog D β
  | .done value, next => next value
  | .call op rest, next => .call op fun reply => (rest reply).bind next
  | .spin, _ => .spin

instance : Monad (Prog D) where
  pure := .done
  bind := bind

@[simp] theorem pure_eq_done (value : α) : (pure value : Prog D α) = .done value := rfl

@[simp] theorem done_bind (value : α) (next : α → Prog D β) :
    (Prog.done value >>= next) = next value := rfl

@[simp] theorem call_bind (op : D.Op) (rest : D.Reply op → Prog D α) (next : α → Prog D β) :
    (Prog.call op rest >>= next) = .call op fun reply => rest reply >>= next := rfl

@[simp] theorem spin_bind (next : α → Prog D β) : ((.spin : Prog D α) >>= next) = .spin := rfl

theorem bind_done (program : Prog D α) : (program >>= Prog.done) = program := by
  induction program with
  | done value => rfl
  | call op rest ih => simp only [call_bind, ih]
  | spin => rfl

theorem bind_bind (program : Prog D α) (first : α → Prog D β) (second : β → Prog D γ) :
    (program >>= first >>= second) = program >>= fun value => first value >>= second := by
  induction program with
  | done value => rfl
  | call op rest ih => simp only [call_bind, ih]
  | spin => rfl

instance : LawfulMonad (Prog D) :=
  LawfulMonad.mk' (Prog D) bind_done (fun _ _ => rfl) bind_bind

/-- Call the device once and return its reply. -/
def ask (op : D.Op) : Prog D (D.Reply op) := .call op .done

/-- Execute a program under a schedule. -/
def run : Prog D α → Schedule D → D.State → Outcome D α
  | .done value, schedule, state => .done value state schedule
  | .call op next, schedule, state =>
      match schedule 0 with
      | none => .lost state
      | some fault =>
          (next (D.apply op fault state).1).run (fun index => schedule (index + 1))
            (D.apply op fault state).2
  | .spin, _, state => .spin state

/-- The postcondition holds for every schedule whose faults are `allowed`,
wherever power may be lost. -/
def wp (allowed : D.Fault → Prop) : Prog D α → Post D α → D.State → Prop
  | .done value, post, state => post.done value state
  | .call op next, post, state =>
      post.lost state ∧ ∀ fault, allowed fault →
        (next (D.apply op fault state).1).wp allowed post (D.apply op fault state).2
  | .spin, post, state => post.spin state

/-- Every call the program can make, whatever the replies, is `good`. -/
def Calls (good : D.Op → Prop) : Prog D α → Prop
  | .done _ => True
  | .call op next => good op ∧ ∀ reply, (next reply).Calls good
  | .spin => True

/-- Every value that the program can return, whatever the replies, is `good`. -/
def Yields (good : α → Prop) : Prog D α → Prop
  | .done value => good value
  | .call _ next => ∀ reply, (next reply).Yields good
  | .spin => True

/-- The program ends whatever the replies. -/
def Halts : Prog D α → Prop
  | .done _ => True
  | .call _ next => ∀ reply, (next reply).Halts
  | .spin => False

end Prog

/-- Every fault on the schedule is allowed. -/
def Schedule.Within (allowed : D.Fault → Prop) (schedule : Schedule D) : Prop :=
  ∀ index fault, schedule index = some fault → allowed fault

/-- Power is never lost on the schedule. -/
def Schedule.Powered (schedule : Schedule D) : Prop :=
  ∀ index, schedule index ≠ none

/-- A postcondition evaluated at the end of a run. -/
def Outcome.Meets (post : Post D α) : Outcome D α → Prop
  | .done value state _ => post.done value state
  | .lost state => post.lost state
  | .spin state => post.spin state

/-- The state in which a run stops. -/
def Outcome.state : Outcome D α → D.State
  | .done _ state _ | .lost state | .spin state => state

namespace Prog

variable {allowed : D.Fault → Prop}

@[simp] theorem wp_done (value : α) (post : Post D α) (state : D.State) :
    (Prog.done value).wp allowed post state ↔ post.done value state := Iff.rfl

@[simp] theorem wp_spin (post : Post D α) (state : D.State) :
    (Prog.spin : Prog D α).wp allowed post state ↔ post.spin state := Iff.rfl

theorem wp_call (op : D.Op) (next : D.Reply op → Prog D α) (post : Post D α)
    (state : D.State) :
    (Prog.call op next).wp allowed post state ↔
      post.lost state ∧ ∀ fault, allowed fault →
        (next (D.apply op fault state).1).wp allowed post (D.apply op fault state).2 := Iff.rfl

/-- Sequencing: the second program's precondition is the first one's
postcondition, and both must tolerate a power loss. -/
theorem wp_bind (program : Prog D α) (next : α → Prog D β) (post : Post D β)
    (state : D.State) :
    (program >>= next).wp allowed post state ↔
      program.wp allowed
        ⟨fun value => (next value).wp allowed post, post.lost, post.spin⟩ state := by
  induction program generalizing state with
  | done value => rfl
  | call op rest ih => simp only [call_bind, wp, ih]
  | spin => rfl

theorem wp_mono {program : Prog D α} {first second : Post D α} {state : D.State}
    (holds : program.wp allowed first state)
    (done : ∀ value after, first.done value after → second.done value after)
    (lost : ∀ after, first.lost after → second.lost after)
    (spin : ∀ after, first.spin after → second.spin after) :
    program.wp allowed second state := by
  induction program generalizing state with
  | done value => exact done value state holds
  | call op rest ih =>
      exact ⟨lost state holds.1, fun fault permitted => ih _ (holds.2 fault permitted)⟩
  | spin => exact spin state holds

theorem wp_ite {condition : Prop} [Decidable condition] {yes no : Prog D α}
    {post : Post D α} {state : D.State}
    (whenYes : condition → yes.wp allowed post state)
    (whenNo : ¬ condition → no.wp allowed post state) :
    (if condition then yes else no).wp allowed post state := by
  split
  · exact whenYes ‹_›
  · exact whenNo ‹_›

/-- Two postconditions proved separately hold together. -/
theorem wp_and {program : Prog D α} {first second : Post D α} {state : D.State}
    (one : program.wp allowed first state) (other : program.wp allowed second state) :
    program.wp allowed
      ⟨fun value after => first.done value after ∧ second.done value after,
        fun after => first.lost after ∧ second.lost after,
        fun after => first.spin after ∧ second.spin after⟩ state := by
  induction program generalizing state with
  | done value => exact ⟨one, other⟩
  | call op rest ih =>
      exact ⟨⟨one.1, other.1⟩,
        fun fault permitted => ih _ (one.2 fault permitted) (other.2 fault permitted)⟩
  | spin => exact ⟨one, other⟩

theorem wp_true (program : Prog D α) (state : D.State) :
    program.wp allowed ⟨fun _ _ => True, fun _ => True, fun _ => True⟩ state := by
  induction program generalizing state with
  | done value => trivial
  | call op rest ih => exact ⟨trivial, fun fault _ => ih _ _⟩
  | spin => trivial

/-- Whatever the first program does, the second one establishes the postcondition. -/
theorem wp_bind_last {program : Prog D α} {next : α → Prog D β} {post : Post D β}
    {state : D.State} (lost : ∀ after, post.lost after) (spin : ∀ after, post.spin after)
    (last : ∀ value after, (next value).wp allowed post after) :
    (program >>= next).wp allowed post state :=
  (wp_bind _ _ _ _).mpr (wp_mono (wp_true program state) (fun value after _ => last value after)
    (fun after _ => lost after) fun after _ => spin after)

/-- A relation that every good call preserves relates the start of a program
making only good calls to each state it can stop in. -/
theorem wp_of_calls {good : D.Op → Prop} (relation : D.State → D.State → Prop)
    (reflexive : ∀ state, relation state state)
    (transitive : ∀ {first second third},
      relation first second → relation second third → relation first third)
    (preserved : ∀ op fault state, good op → allowed fault →
      relation state (D.apply op fault state).2)
    {program : Prog D α} (calls : program.Calls good) (state : D.State) :
    program.wp allowed
      ⟨fun _ after => relation state after, relation state, relation state⟩ state := by
  induction program generalizing state with
  | done value => exact reflexive state
  | call op rest ih =>
      refine ⟨reflexive state, fun fault permitted => ?_⟩
      have first := preserved op fault state calls.1 permitted
      exact wp_mono (ih _ (calls.2 _) _) (fun _ _ later => transitive first later)
        (fun _ later => transitive first later) (fun _ later => transitive first later)
  | spin => exact reflexive state

theorem calls_true (program : Prog D α) : program.Calls fun _ => True := by
  induction program with
  | done value => trivial
  | call op rest ih => exact ⟨trivial, fun reply => ih reply⟩
  | spin => trivial

theorem calls_bind {good : D.Op → Prop} {program : Prog D α} {next : α → Prog D β}
    (first : program.Calls good) (rest : ∀ value, (next value).Calls good) :
    (program >>= next).Calls good := by
  induction program with
  | done value => exact rest value
  | call op tail ih => exact ⟨first.1, fun reply => ih reply (first.2 reply)⟩
  | spin => trivial

theorem calls_mono {good better : D.Op → Prop} {program : Prog D α}
    (calls : program.Calls good) (implies : ∀ op, good op → better op) :
    program.Calls better := by
  induction program with
  | done value => trivial
  | call op rest ih => exact ⟨implies op calls.1, fun reply => ih reply (calls.2 reply)⟩
  | spin => trivial

theorem halts_done (value : α) : (Prog.done value : Prog D α).Halts := trivial

theorem yields_done {good : α → Prop} {value : α} (holds : good value) :
    (Prog.done value : Prog D α).Yields good := holds

theorem yields_spin {good : α → Prop} : (.spin : Prog D α).Yields good := trivial

theorem yields_true (program : Prog D α) : program.Yields fun _ => True := by
  induction program with
  | done value => trivial
  | call op rest ih => exact fun reply => ih reply
  | spin => trivial

theorem yields_bind {good : α → Prop} {better : β → Prop} {program : Prog D α}
    {next : α → Prog D β} (first : program.Yields good)
    (rest : ∀ value, good value → (next value).Yields better) :
    (program >>= next).Yields better := by
  induction program with
  | done value => exact rest value first
  | call op tail ih => exact fun reply => ih reply (first reply)
  | spin => trivial

/-- Whatever comes before, what a program returns is decided at its end. -/
theorem yields_after {good : β → Prop} (program : Prog D α) {next : α → Prog D β}
    (rest : ∀ value, (next value).Yields good) : (program >>= next).Yields good :=
  yields_bind (yields_true program) fun value _ => rest value

theorem yields_ite {good : α → Prop} {condition : Prop} [Decidable condition]
    {yes no : Prog D α} (whenYes : condition → yes.Yields good)
    (whenNo : ¬ condition → no.Yields good) : (if condition then yes else no).Yields good := by
  split
  · exact whenYes ‹_›
  · exact whenNo ‹_›

theorem halts_ite {condition : Prop} [Decidable condition] {yes no : Prog D α}
    (whenYes : yes.Halts) (whenNo : no.Halts) : (if condition then yes else no).Halts := by
  split
  · exact whenYes
  · exact whenNo

/-- A program that cannot spin does not. -/
theorem wp_halts {program : Prog D α} {post : Post D α} {state : D.State}
    (halts : program.Halts) (holds : program.wp allowed post state) :
    program.wp allowed ⟨post.done, post.lost, fun _ => False⟩ state := by
  induction program generalizing state with
  | done value => exact holds
  | call op rest ih =>
      exact ⟨holds.1, fun fault permitted => ih _ (halts _) (holds.2 fault permitted)⟩
  | spin => exact halts.elim

theorem halts_bind {program : Prog D α} {next : α → Prog D β} (first : program.Halts)
    (rest : ∀ value, (next value).Halts) : (program >>= next).Halts := by
  induction program with
  | done value => exact rest value
  | call op tail ih => exact fun reply => ih reply (first reply)
  | spin => exact first.elim

-- From here on a weakest precondition is used through its rules only; unfolding it would
-- execute the program.
attribute [irreducible] wp

/-- Weakest preconditions are sound for runs. -/
theorem run_meets {program : Prog D α} {post : Post D α} {schedule : Schedule D}
    {state : D.State} (holds : program.wp allowed post state)
    (within : schedule.Within allowed) :
    (program.run schedule state).Meets post := by
  induction program generalizing state schedule with
  | done value => exact (wp_done _ _ _).mp holds
  | call op rest ih =>
      obtain ⟨lost, continues⟩ := (wp_call _ _ _ _).mp holds
      simp only [run]
      split
      · exact lost
      · rename_i fault scheduled
        exact ih _ (continues fault (within 0 fault scheduled))
          (fun index fault later => within (index + 1) fault later)
  | spin => exact (wp_spin _ _).mp holds

theorem run_yields {good : α → Prop} {program : Prog D α} {schedule rest : Schedule D}
    {state after : D.State} {value : α} (yields : program.Yields good)
    (ended : program.run schedule state = .done value after rest) : good value := by
  induction program generalizing schedule state with
  | done result =>
      simp only [run, Outcome.done.injEq] at ended
      rw [← ended.1]
      exact yields
  | call op next ih =>
      simp only [run] at ended
      split at ended
      · cases ended
      · exact ih _ (yields _) ended
  | spin => cases ended

/-- What holds at every end of a run holds of the state it stops in. -/
theorem run_state {program : Prog D α} {property : D.State → Prop} {schedule : Schedule D}
    {state : D.State}
    (holds : program.wp allowed ⟨fun _ => property, property, property⟩ state)
    (within : schedule.Within allowed) : property (program.run schedule state).state := by
  have meets := run_meets holds within
  cases ended : program.run schedule state with
  | done value after rest => rw [ended] at meets; exact meets
  | lost after => rw [ended] at meets; exact meets
  | spin after => rw [ended] at meets; exact meets

/-- A powered run ends normally or spins, and what is left of the schedule is
a tail of the original one. -/
theorem run_powered (program : Prog D α) {schedule : Schedule D} (state : D.State)
    (powered : schedule.Powered) :
    (∃ value after used, program.run schedule state =
        .done value after fun index => schedule (index + used)) ∨
      ∃ after, program.run schedule state = .spin after := by
  induction program generalizing state schedule with
  | done value => exact Or.inl ⟨value, state, 0, rfl⟩
  | call op rest ih =>
      simp only [run]
      split
      · rename_i lost
        exact absurd lost (powered 0)
      · rename_i fault _
        have tail : Schedule.Powered (D := D) fun index => schedule (index + 1) :=
          fun index => powered (index + 1)
        rcases ih _ (D.apply op fault state).2 tail with
          ⟨value, after, used, ended⟩ | ⟨after, spins⟩
        · refine Or.inl ⟨value, after, used + 1, ended.trans ?_⟩
          simp only [Nat.add_assoc]
        · exact Or.inr ⟨after, spins⟩
  | spin => exact Or.inr ⟨state, rfl⟩

/-- A powered run whose weakest precondition excludes spinning completes with
its postcondition. -/
theorem run_completes {program : Prog D α} {post : Post D α} {schedule : Schedule D}
    {state : D.State} (holds : program.wp allowed post state)
    (within : schedule.Within allowed) (powered : schedule.Powered)
    (terminates : ∀ after, ¬ post.spin after) :
    ∃ value after used, program.run schedule state =
        .done value after (fun index => schedule (index + used)) ∧
      post.done value after := by
  have meets := run_meets holds within
  rcases run_powered program state powered with
    ⟨value, after, used, ended⟩ | ⟨after, spins⟩
  · rw [ended] at meets
    exact ⟨value, after, used, ended, meets⟩
  · rw [spins] at meets
    exact absurd meets (terminates after)

/-- A program that cannot spin completes while power lasts. -/
theorem run_halts {program : Prog D α} (halts : program.Halts) {schedule : Schedule D}
    (powered : schedule.Powered) (state : D.State) : ∃ value after used,
    program.run schedule state = .done value after fun index => schedule (index + used) := by
  obtain ⟨value, after, used, ended, -⟩ := run_completes
    (wp_halts halts (@wp_true D α (fun _ => True) program state)) (fun _ _ _ => trivial)
    powered fun _ impossible => impossible
  exact ⟨value, after, used, ended⟩

/-- A completed run has used an initial part of its schedule and depends on
nothing behind it. -/
theorem run_used {program : Prog D α} {schedule rest : Schedule D} {state after : D.State}
    {value : α} (ended : program.run schedule state = .done value after rest) :
    ∃ used, rest = (fun index => schedule (index + used)) ∧
      ∀ other : Schedule D, (∀ index < used, other index = schedule index) →
        program.run other state = .done value after fun index => other (index + used) := by
  induction program generalizing schedule state with
  | done result =>
      simp only [run, Outcome.done.injEq] at ended
      obtain ⟨rfl, rfl, rfl⟩ := ended
      exact ⟨0, rfl, fun _ _ => rfl⟩
  | call op next ih =>
      simp only [run] at ended
      split at ended
      · cases ended
      · rename_i fault scheduled
        obtain ⟨used, tail, same⟩ := ih _ ended
        refine ⟨used + 1, ?_, fun other agree => ?_⟩
        · rw [tail]
          simp only [Nat.add_assoc]
        · simp only [run, agree 0 (Nat.succ_pos used), scheduled]
          rw [same _ fun index inside => agree (index + 1) (Nat.succ_lt_succ inside)]
          simp only [Nat.add_assoc]
  | spin => cases ended

theorem run_call (op : D.Op) (next : D.Reply op → Prog D α) (schedule : Schedule D)
    (state : D.State) :
    (Prog.call op next).run schedule state =
      match schedule 0 with
      | none => .lost state
      | some fault =>
          (next (D.apply op fault state).1).run (fun index => schedule (index + 1))
            (D.apply op fault state).2 := by
  simp only [run]

theorem run_bind (program : Prog D α) (next : α → Prog D β) (schedule : Schedule D)
    (state : D.State) :
    (program >>= next).run schedule state =
      match program.run schedule state with
      | .done value after rest => (next value).run rest after
      | .lost after => .lost after
      | .spin after => .spin after := by
  induction program generalizing schedule state with
  | done value => rfl
  | call op rest ih =>
      simp only [call_bind, run]
      cases schedule 0 with
      | none => rfl
      | some fault => exact ih _ _ _
  | spin => rfl

/-- A completed run can be followed by any run of what comes next. -/
theorem run_bind_splice {program : Prog D α} {next : α → Prog D β} {value : α}
    {schedule rest later : Schedule D} {state after : D.State}
    (ended : program.run schedule state = .done value after rest)
    (within : schedule.Within allowed) (withinLater : later.Within allowed) :
    ∃ joined : Schedule D, joined.Within allowed ∧
      (program >>= next).run joined state = (next value).run later after := by
  obtain ⟨used, -, repeated⟩ := run_used ended
  -- The first run uses an initial part of its schedule, and the other schedule follows it.
  have spliced := repeated
    (fun index => if index < used then schedule index else later (index - used))
    fun index inside => if_pos inside
  refine ⟨fun index => if index < used then schedule index else later (index - used), ?_, ?_⟩
  · intro index fault scheduled
    dsimp only at scheduled
    split at scheduled
    · exact within index fault scheduled
    · exact withinLater _ fault scheduled
  · rw [run_bind, spliced]
    dsimp only
    congr 1
    funext index
    rw [if_neg (by omega), Nat.add_sub_cancel]

end Prog

end CrashProgram
