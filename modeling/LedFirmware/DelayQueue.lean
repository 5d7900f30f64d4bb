import Mathlib.Data.List.Nodup
import Mathlib.Data.List.TakeWhile
import Mathlib.Order.Nat

/-!
# Delay queues

A delay queue holds keys with the number of ticks that each still waits, the shortest
first and equal ones in the order of their arrival.  A tick takes the keys that are due
from the front.  What a queue means is how long each key waits; every operation says what
it does to that.
-/

namespace DelayQueue

variable {κ : Type}

/-- Add a key behind all keys that wait at most as long. -/
def add (key : κ) (delay : Nat) : List (κ × Nat) → List (κ × Nat)
  | [] => [(key, delay)]
  | entry :: later =>
      if delay < entry.2 then (key, delay) :: entry :: later else entry :: add key delay later

def cancel [DecidableEq κ] (key : κ) (queue : List (κ × Nat)) : List (κ × Nat) :=
  queue.filter fun entry => entry.1 ≠ key

/-- The keys that the next tick takes: those that wait for at most one tick. -/
def due (queue : List (κ × Nat)) : List κ := (queue.takeWhile fun entry => entry.2 ≤ 1).map Prod.fst

/-- What the next tick leaves. -/
def advance (queue : List (κ × Nat)) : List (κ × Nat) :=
  (queue.dropWhile fun entry => entry.2 ≤ 1).map fun entry => (entry.1, entry.2 - 1)

/-- Each key is in the queue at most once, and the shortest waits come first. -/
structure Ordered (queue : List (κ × Nat)) : Prop where
  sorted : queue.Pairwise fun first second => first.2 ≤ second.2
  once : (queue.map Prod.fst).Nodup

variable {key other : κ} {delay left : Nat} {queue : List (κ × Nat)} {entry : κ × Nat}

/-! ## What is in a queue -/

theorem mem_add : entry ∈ add key delay queue ↔ entry = (key, delay) ∨ entry ∈ queue := by
  induction queue with
  | nil => simp [add]
  | cons first later ih =>
      rw [add]
      split
      · simp
      · rw [List.mem_cons, ih, List.mem_cons, or_left_comm]

theorem mem_cancel [DecidableEq κ] : entry ∈ cancel key queue ↔ entry ∈ queue ∧ entry.1 ≠ key := by
  simp [cancel]

theorem map_add : ((add key delay queue).map Prod.fst).Perm (key :: queue.map Prod.fst) := by
  induction queue with
  | nil => simp [add]
  | cons first later ih =>
      rw [add]
      split
      · simp
      · simpa using (ih.cons first.1).trans (List.Perm.swap key first.1 _)

/-- In a sorted queue the entries that are due are those at the front. -/
theorem takeWhile_due (sorted : queue.Pairwise fun first second => first.2 ≤ second.2) :
    queue.takeWhile (fun entry => entry.2 ≤ 1) = queue.filter fun entry => entry.2 ≤ 1 := by
  induction queue with
  | nil => rfl
  | cons first later ih =>
      rw [List.pairwise_cons] at sorted
      by_cases now : first.2 ≤ 1
      · simp [now, ih sorted.2]
      · have none : later.filter (fun entry => entry.2 ≤ 1) = [] := by
          refine List.filter_eq_nil_iff.mpr fun entry member => ?_
          have longer := sorted.1 entry member
          simp only [decide_eq_true_eq]
          omega
        simp [now, none]

theorem dropWhile_due (sorted : queue.Pairwise fun first second => first.2 ≤ second.2) :
    queue.dropWhile (fun entry => entry.2 ≤ 1) = queue.filter fun entry => 1 < entry.2 := by
  induction queue with
  | nil => rfl
  | cons first later ih =>
      rw [List.pairwise_cons] at sorted
      by_cases now : first.2 ≤ 1
      · simp [now, ih sorted.2]
      · have all : later.filter (fun entry => 1 < entry.2) = later := by
          refine List.filter_eq_self.mpr fun entry member => ?_
          have longer := sorted.1 entry member
          simp only [decide_eq_true_eq]
          omega
        rw [List.filter_cons_of_pos (by simpa using now), all]
        simp [now]

/-! ## The order is kept -/

namespace Ordered

theorem nil : Ordered ([] : List (κ × Nat)) := ⟨.nil, .nil⟩

theorem cancel [DecidableEq κ] (ordered : Ordered queue) (key : κ) :
    Ordered (cancel key queue) where
  sorted := ordered.sorted.filter _
  once := ordered.once.sublist (List.filter_sublist.map _)

theorem add (ordered : Ordered queue) (absent : key ∉ queue.map Prod.fst) (delay : Nat) :
    Ordered (add key delay queue) where
  once := map_add.nodup_iff.mpr (List.nodup_cons.mpr ⟨absent, ordered.once⟩)
  sorted := by
    obtain ⟨sorted, -⟩ := ordered
    clear absent
    induction queue with
    | nil => simp [DelayQueue.add]
    | cons first later ih =>
        rw [List.pairwise_cons] at sorted
        rw [DelayQueue.add]
        split
        next shorter =>
          refine List.pairwise_cons.mpr ⟨fun entry member => ?_, List.pairwise_cons.mpr sorted⟩
          rcases List.mem_cons.mp member with rfl | behind
          · exact le_of_lt shorter
          · exact le_trans (le_of_lt shorter) (sorted.1 entry behind)
        next longer =>
          refine List.pairwise_cons.mpr ⟨fun entry member => ?_, ih sorted.2⟩
          rcases mem_add.mp member with rfl | old
          · exact not_lt.mp longer
          · exact sorted.1 entry old

theorem advance (ordered : Ordered queue) : Ordered (advance queue) := by
  rw [DelayQueue.advance, dropWhile_due ordered.sorted]
  constructor
  · refine List.pairwise_map.mpr ((ordered.sorted.filter _).imp fun shorter => ?_)
    exact Nat.sub_le_sub_right shorter 1
  · rw [List.map_map]
    exact ordered.once.sublist (List.filter_sublist.map _)

end Ordered

/-! ## How long a key waits -/

/-- The key waits for so many ticks. -/
def Waits (queue : List (κ × Nat)) (key : κ) (left : Nat) : Prop := (key, left) ∈ queue

theorem Ordered.unique (ordered : Ordered queue) {other : Nat} (first : Waits queue key left)
    (second : Waits queue key other) : left = other :=
  congrArg Prod.snd (List.inj_on_of_nodup_map ordered.once first second rfl)

theorem waits_add : Waits (add key delay queue) other left ↔
    (other = key ∧ left = delay) ∨ Waits queue other left := by
  rw [Waits, mem_add, Prod.mk.injEq, Waits]

theorem waits_cancel [DecidableEq κ] :
    Waits (cancel key queue) other left ↔ Waits queue other left ∧ other ≠ key :=
  mem_cancel

theorem mem_due (ordered : Ordered queue) : key ∈ due queue ↔ ∃ left ≤ 1, Waits queue key left := by
  rw [due, takeWhile_due ordered.sorted]
  simp [Waits, and_comm]

theorem waits_advance (ordered : Ordered queue) :
    Waits (advance queue) key left ↔ 0 < left ∧ Waits queue key (left + 1) := by
  rw [Waits, advance, dropWhile_due ordered.sorted]
  simp only [List.mem_map, List.mem_filter, decide_eq_true_eq, Prod.exists, Prod.mk.injEq, Waits]
  constructor
  · rintro ⟨found, before, ⟨member, longer⟩, rfl, rfl⟩
    refine ⟨Nat.sub_pos_of_lt longer, ?_⟩
    rwa [Nat.sub_add_cancel (le_of_lt longer)]
  · rintro ⟨positive, member⟩
    exact ⟨key, left + 1, ⟨member, Nat.lt_add_of_pos_left positive⟩, rfl, rfl⟩

end DelayQueue
