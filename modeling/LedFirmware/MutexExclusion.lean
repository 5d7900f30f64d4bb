import LedFirmware.RegionMutex
import Mathlib.Data.List.Pairwise
import Mathlib.Data.Set.BooleanAlgebra
import Mathlib.Order.CompletePartialOrder

/-!
# When regions are exclusive

A task that waits goes on at the entry where it stopped.  Regions that have been entered in
front of it meanwhile escape its search; everywhere else the pool keeps regions apart.
-/

namespace LedFirmware

variable {Task : Type}

def Region.bytes (region : Region) : Set Nat :=
  Set.Ico region.addr.toNat (region.addr.toNat + region.len.toNat)

/-- No two regions that are granted and not released share a byte. -/
def MutexState.Exclusive (state : MutexState Task) : Prop :=
  state.granted.Pairwise fun first second => Disjoint first.region.bytes second.region.bytes

/-- The release of a region clears its entry and no other. -/
def MutexState.FreesOwn (state : MutexState Task) (grant : Grant Task) : Prop :=
  mutexRelease state.pool grant.region.addr =
    (true, Function.update state.pool grant.entry ⟨0, 0, false⟩)

/-- Only regions with bytes are released; and no region that was entered in front of a task
while it waited shares a byte with the region that it is then granted. -/
def MutexMeets (state : MutexState Task) : MutexAction Task → Prop
  | .apply .. => True
  | .resume task =>
      ∀ region i timeoutEnabled timeout,
        state.tasks task = .waiting region i timeoutEnabled timeout →
          mutexSearch state.pool i region.addr region.len = none → freeEntry state.pool ≠ none →
            ∀ grant ∈ state.granted, grant.entry < i → Disjoint grant.region.bytes region.bytes
  | .release grant => 0 < grant.region.len

/-! ## The search -/

variable {pool : Nat → MutexType} {addr len : UInt32} {start index : Nat}

theorem mutexSearch_none (free : mutexSearch pool start addr len = none) (behind : start ≤ index)
    (inside : index < mutexPoolSize) : ¬ (pool index).Blocks addr len := by
  have none := List.find?_range'_eq_none.mp free index behind (by omega)
  simpa using none

theorem mutexSearch_eq (inside : index < mutexPoolSize) (blocks : (pool index).Blocks addr len)
    (only : ∀ other < mutexPoolSize, (pool other).Blocks addr len → other = index) :
    mutexSearch pool 0 addr len = some index := by
  rw [mutexSearch, List.find?_range'_eq_some]
  refine ⟨by simpa using blocks, List.mem_range'_1.mpr ⟨Nat.zero_le _, by omega⟩, ?_⟩
  intro other _ before
  have clear : ¬ (pool other).Blocks addr len := fun blocks =>
    Nat.ne_of_lt before (only other (before.trans inside) blocks)
  simpa using clear

theorem freeEntry_some (found : freeEntry pool = some index) :
    index < mutexPoolSize ∧ (pool index).valid = false := by
  obtain ⟨free, member, -⟩ := List.find?_range'_eq_some.mp found
  have inside := List.mem_range'_1.mp member
  exact ⟨by omega, by simpa using free⟩

/-- The test for an entry, without the arithmetic of 32 bits. -/
theorem Region.blocks_iff {region other : Region} :
    other.entry.Blocks region.addr region.len ↔
      other.addr.toNat < region.addr.toNat + region.len.toNat ∧
        region.addr.toNat < other.addr.toNat + other.len.toNat := by
  have inside := region.inside
  have inside' := other.inside
  rw [MutexType.Blocks, Region.entry, gt_iff_lt, UInt32.lt_iff_toNat_lt, UInt32.lt_iff_toNat_lt,
    UInt32.toNat_add, UInt32.toNat_add, Nat.mod_eq_of_lt inside, Nat.mod_eq_of_lt inside']
  exact ⟨And.right, fun both => ⟨rfl, both⟩⟩

/-- Regions that share a byte are in each other's way. -/
theorem Region.disjoint_of_not_blocks {region other : Region}
    (clear : ¬ other.entry.Blocks region.addr region.len) :
    Disjoint other.bytes region.bytes := by
  rw [Set.disjoint_left]
  intro byte inOther inRegion
  have inOther := Set.mem_Ico.mp inOther
  have inRegion := Set.mem_Ico.mp inRegion
  exact clear (Region.blocks_iff.mpr (by omega))

/-! ## The pool and the regions that are granted -/

def Grant.Apart (first second : Grant Task) : Prop :=
  first.entry ≠ second.entry ∧ Disjoint first.region.bytes second.region.bytes

instance : Std.Symm (@Grant.Apart Task) :=
  ⟨fun _ _ apart => ⟨apart.1.symm, apart.2.symm⟩⟩

/-- The entries in use are those of the regions that are granted, which are apart. -/
structure PoolHolds (pool : Nat → MutexType) (granted : List (Grant Task)) : Prop where
  entered : ∀ grant ∈ granted,
    grant.entry < mutexPoolSize ∧ pool grant.entry = grant.region.entry
  known : ∀ index < mutexPoolSize, (pool index).valid = true →
    ∃ grant ∈ granted, grant.entry = index
  apart : granted.Pairwise Grant.Apart

variable {granted : List (Grant Task)} {grant : Grant Task} {region : Region}

theorem poolHolds_empty : PoolHolds (fun _ => ⟨0, 0, false⟩) ([] : List (Grant Task)) where
  entered _ member := absurd member List.not_mem_nil
  known _ _ valid := absurd valid Bool.false_ne_true
  apart := List.Pairwise.nil

/-- A region that is apart from all others is entered where nothing was. -/
theorem PoolHolds.enter (holds : PoolHolds pool granted) (within : grant.entry < mutexPoolSize)
    (unused : (pool grant.entry).valid = false)
    (clear : ∀ other ∈ granted, Disjoint grant.region.bytes other.region.bytes) :
    PoolHolds (Function.update pool grant.entry grant.region.entry) (grant :: granted) := by
  have apart {other : Grant Task} (member : other ∈ granted) : grant.entry ≠ other.entry := by
    intro same
    rw [same, (holds.entered other member).2] at unused
    exact absurd unused (by simp [Region.entry])
  refine ⟨?_, ?_, List.Pairwise.cons (fun other member => ⟨apart member, clear other member⟩)
    holds.apart⟩
  · intro other member
    rcases List.mem_cons.mp member with rfl | earlier
    · exact ⟨within, Function.update_self ..⟩
    · obtain ⟨within', own⟩ := holds.entered other earlier
      exact ⟨within', (Function.update_of_ne (apart earlier).symm ..).trans own⟩
  · intro index inside valid
    by_cases same : index = grant.entry
    · exact ⟨grant, List.mem_cons_self, same.symm⟩
    · rw [Function.update_of_ne same] at valid
      obtain ⟨other, member, at'⟩ := holds.known index inside valid
      exact ⟨other, List.mem_cons_of_mem _ member, at'⟩

theorem PoolHolds.nodup (holds : PoolHolds pool granted) : granted.Nodup :=
  holds.apart.imp fun apart same => apart.1 (congrArg Grant.entry same)

variable [DecidableEq Task]

/-- A region that is taken out leaves the others where they are. -/
theorem PoolHolds.remove (holds : PoolHolds pool granted) (member : grant ∈ granted) :
    PoolHolds (Function.update pool grant.entry ⟨0, 0, false⟩) (granted.erase grant) := by
  refine ⟨?_, ?_, holds.apart.sublist List.erase_sublist⟩
  · intro other member'
    obtain ⟨different, member'⟩ := holds.nodup.mem_erase_iff.mp member'
    obtain ⟨within, own⟩ := holds.entered other member'
    have apart := (holds.apart.forall member' member different).1
    exact ⟨within, (Function.update_of_ne apart ..).trans own⟩
  · intro index inside valid
    by_cases same : index = grant.entry
    · rw [same, Function.update_self] at valid
      exact absurd valid Bool.false_ne_true
    · rw [Function.update_of_ne same] at valid
      obtain ⟨other, member', rfl⟩ := holds.known index inside valid
      have different : other ≠ grant := fun eq => same (congrArg Grant.entry eq)
      exact ⟨other, holds.nodup.mem_erase_iff.mpr ⟨different, member'⟩, rfl⟩

/-! ## What the searches find -/

omit [DecidableEq Task] in
/-- A search that finds nothing leaves out the regions in front of its start only. -/
theorem PoolHolds.clear_behind (holds : PoolHolds pool granted)
    (nothing : mutexSearch pool start region.addr region.len = none) (member : grant ∈ granted)
    (behind : start ≤ grant.entry) : Disjoint grant.region.bytes region.bytes := by
  obtain ⟨within, own⟩ := holds.entered grant member
  have clear := mutexSearch_none nothing behind within
  rw [own] at clear
  exact Region.disjoint_of_not_blocks clear

/-- The first byte of a region, as `MutexRelease` looks for it. -/
def Region.first (region : Region) (nonempty : 0 < region.len) : Region where
  addr := region.addr
  len := 1
  inside := by
    have positive : 0 < region.len.toNat := UInt32.lt_iff_toNat_lt.mp nonempty
    have inside := region.inside
    change _ + 1 < _
    omega

omit [DecidableEq Task] in
/-- A region is in the way of its first byte, and no other region is. -/
theorem PoolHolds.frees_own (holds : PoolHolds pool granted) (member : grant ∈ granted)
    (nonempty : 0 < grant.region.len) :
    mutexRelease pool grant.region.addr =
      (true, Function.update pool grant.entry ⟨0, 0, false⟩) := by
  have positive : 0 < grant.region.len.toNat := UInt32.lt_iff_toNat_lt.mp nonempty
  have blocks (other : Region) : other.entry.Blocks grant.region.addr 1 ↔
      other.addr.toNat ≤ grant.region.addr.toNat ∧
        grant.region.addr.toNat < other.addr.toNat + other.len.toNat :=
    (@Region.blocks_iff (grant.region.first nonempty) other).trans
      (and_congr_left fun _ => Nat.lt_succ_iff)
  obtain ⟨within, own⟩ := holds.entered grant member
  have search : mutexSearch pool 0 grant.region.addr 1 = some grant.entry := by
    refine mutexSearch_eq within ?_ fun index within' blocked => ?_
    · rw [own, blocks]
      omega
    · obtain ⟨other, member', rfl⟩ := holds.known index within' blocked.1
      rw [(holds.entered other member').2, blocks] at blocked
      by_contra different
      have apart := holds.apart.forall member' member fun same =>
        different (congrArg Grant.entry same)
      have shared : grant.region.addr.toNat ∈ grant.region.bytes :=
        Set.mem_Ico.mpr ⟨Nat.le_refl _, by omega⟩
      exact Set.disjoint_left.mp apart.2 (Set.mem_Ico.mpr blocked) shared
  rw [mutexRelease, search]

/-! ## Steps of the tasks -/

section

variable {state after : MutexState Task}

/-- `MutexApply` keeps the pool, if what it grants is apart from all that is granted. -/
theorem applyFrom_holds {task : Task} {i : Nat} {timeoutEnabled : Bool} {timeout : UInt32}
    (holds : PoolHolds state.pool state.granted)
    (clear : mutexSearch state.pool i region.addr region.len = none → freeEntry state.pool ≠ none →
      ∀ grant ∈ state.granted, Disjoint grant.region.bytes region.bytes) :
    PoolHolds (applyFrom state task region i timeoutEnabled timeout).pool
      (applyFrom state task region i timeoutEnabled timeout).granted := by
  rw [applyFrom]
  split
  · split
    · exact holds
    · exact holds
  · rename_i nothing
    split
    · rename_i entry found
      obtain ⟨within, unused⟩ := freeEntry_some found
      have apart := clear nothing (by rw [found]; exact Option.some_ne_none entry)
      exact @PoolHolds.enter _ _ _ ⟨task, region, entry⟩ holds within unused
        fun other member => (apart other member).symm
    · exact holds

theorem mutexStep_holds {action : MutexAction Task} (holds : PoolHolds state.pool state.granted)
    (meets : MutexMeets state action) (moves : mutexStep state action = some after) :
    PoolHolds after.pool after.granted := by
  cases action with
  | apply task region timeout =>
      simp only [mutexStep] at moves
      split at moves
      · cases moves
        exact applyFrom_holds holds fun nothing _ grant member =>
          holds.clear_behind nothing member (Nat.zero_le _)
      · cases moves
  | resume task =>
      simp only [mutexStep] at moves
      split at moves
      · cases moves
      · rename_i region i timeoutEnabled timeout waits
        cases moves
        refine applyFrom_holds holds fun nothing place grant member => ?_
        rcases Nat.lt_or_ge grant.entry i with before | behind
        · exact meets region i timeoutEnabled timeout waits nothing place grant member before
        · exact holds.clear_behind nothing member behind
  | release grant =>
      simp only [mutexStep] at moves
      split at moves
      · rename_i member
        cases moves
        rw [holds.frees_own member meets]
        exact holds.remove member
      · cases moves

/-- In every run that meets the condition the regions are exclusive, and a release frees its
own region only. -/
theorem regions_exclusive (reached : MutexReached MutexMeets state) :
    state.Exclusive ∧
      ∀ grant ∈ state.granted, MutexMeets state (.release grant) → state.FreesOwn grant := by
  have holds : PoolHolds state.pool state.granted := by
    induction reached with
    | start => exact poolHolds_empty
    | step reached meets moves ih => exact mutexStep_holds ih meets moves
  exact ⟨holds.apart.imp And.right, fun grant member nonempty => holds.frees_own member nonempty⟩

end

/-! ## A wait in front of which a region is entered -/

/-- Sixteen bytes, the sixteen bytes behind them, and sixteen bytes across their border. -/
def lowRegion : Region := ⟨0x20000000, 16, by decide⟩

def highRegion : Region := ⟨0x20000010, 16, by decide⟩

def middleRegion : Region := ⟨0x20000008, 16, by decide⟩

theorem regions_exclusive_middle :
    ∃ state : MutexState (Fin 3), MutexReached MutexMeets state ∧
      state.granted = [⟨1, middleRegion, 0⟩] ∧ state.Exclusive ∧
        ∀ grant ∈ state.granted, MutexMeets state (.release grant) → state.FreesOwn grant := by
  have entered := @MutexReached.step (Fin 3) _ MutexMeets _ _ (.apply 0 lowRegion 0) .start
    trivial rfl
  have waits := @MutexReached.step (Fin 3) _ MutexMeets _ _ (.apply 1 middleRegion 0) entered
    trivial rfl
  have released := @MutexReached.step (Fin 3) _ MutexMeets _ _ (.release ⟨0, lowRegion, 0⟩) waits
    (by decide : 0 < lowRegion.len) rfl
  have granted := @MutexReached.step (Fin 3) _ MutexMeets _ _ (.resume 1) released
    (fun _ _ _ _ _ _ _ _ member _ => absurd member List.not_mem_nil) rfl
  exact ⟨_, granted, rfl, regions_exclusive granted⟩

/-- While task 2 waits for the high region, task 0 enters the low region in front of it. -/
def overlapRun : List (MutexAction (Fin 3)) :=
  [.apply 0 lowRegion 0, .apply 1 highRegion 0, .apply 2 middleRegion 0,
   .release ⟨0, lowRegion, 0⟩, .resume 2, .apply 0 lowRegion 0, .release ⟨1, highRegion, 1⟩,
   .resume 2]

theorem reached_of_run {actions : List (MutexAction Task)} {state after : MutexState Task}
    (reached : MutexReached (fun _ _ => True) state)
    (runs : actions.foldlM mutexStep state = some after) :
    MutexReached (fun _ _ => True) after := by
  induction actions generalizing state with
  | nil =>
      cases runs
      exact reached
  | cons action actions ih =>
      obtain ⟨next, moves, runs⟩ := Option.bind_eq_some_iff.mp runs
      exact ih (.step reached trivial moves) runs

theorem regions_overlap :
    ¬ ∀ state : MutexState (Fin 3), MutexReached (fun _ _ => True) state → state.Exclusive := by
  intro exclusive
  have runs : (overlapRun.foldlM mutexStep (.start (Fin 3))).map MutexState.granted =
      some [⟨2, middleRegion, 1⟩, ⟨0, lowRegion, 0⟩] := by
    decide +kernel
  obtain ⟨state, reached, granted⟩ := Option.map_eq_some_iff.mp runs
  have apart := exclusive state (reached_of_run .start reached)
  rw [MutexState.Exclusive, granted] at apart
  have disjoint := (List.pairwise_cons.mp apart).1 _ (List.mem_singleton_self _)
  have shared {region : Region} (inside : region.addr.toNat ≤ 0x20000008 ∧
      0x20000008 < region.addr.toNat + region.len.toNat) : 0x20000008 ∈ region.bytes :=
    Set.mem_Ico.mpr inside
  exact Set.disjoint_left.mp disjoint (shared (by decide)) (shared (by decide))

end LedFirmware
