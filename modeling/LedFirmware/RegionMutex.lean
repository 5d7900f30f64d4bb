import Mathlib.Algebra.Group.Nat.Defs
import Mathlib.Order.Interval.Set.Disjoint
import Mathlib.Logic.Function.Basic

/-!
# Mutual exclusion of memory regions

`MutexApply` waits for the regions of other tasks, by calling a function that lets these
run, and then enters its own region in the pool; `MutexRelease` takes a region out again.
Between two waits nothing else runs.  The regions that are granted and not released are
recorded beside the pool.
-/

namespace LedFirmware

/-- An entry of the pool. -/
structure MutexType where
  data : UInt32
  len : UInt32
  valid : Bool

def mutexPoolSize : Nat := 128

/-- The entry holds a region that the test of `MutexSearch` finds in the way. -/
def MutexType.Blocks (entry : MutexType) (addr len : UInt32) : Prop :=
  entry.valid = true ∧ entry.data < addr + len ∧ entry.data + entry.len > addr

instance (entry : MutexType) (addr len : UInt32) : Decidable (entry.Blocks addr len) :=
  inferInstanceAs (Decidable (_ ∧ _ ∧ _))

/-- The first entry in the way, from an index on. -/
def mutexSearch (pool : Nat → MutexType) (startIndex : Nat) (addr len : UInt32) : Option Nat :=
  (List.range' startIndex (mutexPoolSize - startIndex)).find? fun i =>
    (pool i).Blocks addr len

/-- The first entry that is not in use. -/
def freeEntry (pool : Nat → MutexType) : Option Nat :=
  (List.range' 0 mutexPoolSize).find? fun i => (pool i).valid = false

/-- Memory that a task asks for; it does not wrap around the address space. -/
structure Region where
  addr : UInt32
  len : UInt32
  inside : addr.toNat + len.toNat < 2 ^ 32
  deriving DecidableEq

def Region.entry (region : Region) : MutexType := ⟨region.addr, region.len, true⟩

/-- The returned value, and the pool. -/
def mutexRelease (pool : Nat → MutexType) (addr : UInt32) : Bool × (Nat → MutexType) :=
  match mutexSearch pool 0 addr 1 with
  | some index => (true, Function.update pool index ⟨0, 0, false⟩)
  | none => (false, pool)

/-- What a task does: nothing, or it waits in `MutexApply` at an index of the pool. -/
inductive MutexTask
  | idle
  | waiting (region : Region) (i : Nat) (timeoutEnabled : Bool) (timeout : UInt32)

/-- A region that a task has been granted, and the entry of the pool that it got. -/
structure Grant (Task : Type) where
  task : Task
  region : Region
  entry : Nat
  deriving DecidableEq

structure MutexState (Task : Type) where
  pool : Nat → MutexType
  tasks : Task → MutexTask
  granted : List (Grant Task)

def MutexState.start (Task : Type) : MutexState Task :=
  ⟨fun _ => ⟨0, 0, false⟩, fun _ => .idle, []⟩

variable {Task : Type} [DecidableEq Task]

/-- `MutexApply`, from a search up to the next wait or to its end. -/
def applyFrom (state : MutexState Task) (task : Task) (region : Region) (i : Nat)
    (timeoutEnabled : Bool) (timeout : UInt32) : MutexState Task :=
  match mutexSearch state.pool i region.addr region.len with
  | some i =>
      if timeoutEnabled = true ∧ timeout = 0 then
        { state with tasks := Function.update state.tasks task .idle }
      else
        let timeout := if timeoutEnabled then timeout - 1 else timeout
        { state with
          tasks := Function.update state.tasks task (.waiting region i timeoutEnabled timeout) }
  | none =>
      match freeEntry state.pool with
      | some i =>
          { pool := Function.update state.pool i region.entry
            tasks := Function.update state.tasks task .idle
            granted := ⟨task, region, i⟩ :: state.granted }
      | none => { state with tasks := Function.update state.tasks task .idle }

/-- A task calls `MutexApply`, its wait ends, or it releases a region that it was granted. -/
inductive MutexAction (Task : Type)
  | apply (task : Task) (region : Region) (timeout : UInt32)
  | resume (task : Task)
  | release (grant : Grant Task)

def mutexStep (state : MutexState Task) : MutexAction Task → Option (MutexState Task)
  | .apply task region timeout =>
      match state.tasks task with
      | .idle => some (applyFrom state task region 0 (timeout ≠ 0) timeout)
      | .waiting .. => none
  | .resume task =>
      match state.tasks task with
      | .idle => none
      | .waiting region i timeoutEnabled timeout =>
          some (applyFrom state task region i timeoutEnabled timeout)
  | .release grant =>
      if grant ∈ state.granted then
        some { state with
          pool := (mutexRelease state.pool grant.region.addr).2
          granted := state.granted.erase grant }
      else none

/-- The states that are reached by steps with a property. -/
inductive MutexReached (Meets : MutexState Task → MutexAction Task → Prop) : MutexState Task → Prop
  | start : MutexReached Meets (MutexState.start Task)
  | step {state after : MutexState Task} {action : MutexAction Task}
      (reached : MutexReached Meets state) (meets : Meets state action)
      (moves : mutexStep state action = some after) : MutexReached Meets after

end LedFirmware
