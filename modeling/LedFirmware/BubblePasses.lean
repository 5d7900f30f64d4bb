import Mathlib.Data.List.Nodup
import Mathlib.Data.Nat.Init
import Mathlib.Logic.Equiv.Basic
import Mathlib.Order.Lattice

/-!
# Sorting by passes of neighbour exchanges

A pass goes down to a low end and exchanges neighbours that are out of order, which brings the
least cell there.  Passes from ever higher low ends sort the cells; a pass without an exchange
finds them sorted.
-/

namespace Bubble

variable {α : Type}

/-! ## Rearrangements -/

/-- The cells from `low` up to `high` have changed their places, and no others. -/
def Rearranged (low high : Nat) (cells result : Nat → α) : Prop :=
  ∃ places : Equiv.Perm Nat, (∀ place, place < low ∨ high ≤ place → places place = place) ∧
    result = cells ∘ places

variable {low high : Nat} {cells middle result : Nat → α}

theorem Rearranged.refl (low high : Nat) (cells : Nat → α) : Rearranged low high cells cells :=
  ⟨Equiv.refl Nat, fun _ _ => rfl, rfl⟩

theorem Rearranged.trans (early : Rearranged low high cells middle)
    (late : Rearranged low high middle result) : Rearranged low high cells result := by
  obtain ⟨first, firstFixed, rfl⟩ := early
  obtain ⟨second, secondFixed, rfl⟩ := late
  refine ⟨second.trans first, fun place outside => ?_, rfl⟩
  rw [Equiv.trans_apply, secondFixed place outside, firstFixed place outside]

theorem Rearranged.swap {i j : Nat} (cells : Nat → α) (first : low ≤ i ∧ i < high)
    (second : low ≤ j ∧ j < high) : Rearranged low high cells (cells ∘ Equiv.swap i j) :=
  ⟨Equiv.swap i j, fun _ outside => Equiv.swap_apply_of_ne_of_ne (by omega) (by omega), rfl⟩

theorem Rearranged.mono {lower : Nat} (below : lower ≤ low)
    (rearranged : Rearranged low high cells result) : Rearranged lower high cells result := by
  obtain ⟨places, fixed, rfl⟩ := rearranged
  exact ⟨places, fun place outside => fixed place (by omega), rfl⟩

theorem Rearranged.outside (rearranged : Rearranged low high cells result) {place : Nat}
    (outside : place < low ∨ high ≤ place) : result place = cells place := by
  obtain ⟨places, fixed, rfl⟩ := rearranged
  rw [Function.comp_apply, fixed place outside]

/-- Every cell in the range comes from the range. -/
theorem Rearranged.inside (rearranged : Rearranged low high cells result) {place : Nat}
    (lower : low ≤ place) (upper : place < high) :
    ∃ source, low ≤ source ∧ source < high ∧ result place = cells source := by
  obtain ⟨places, fixed, rfl⟩ := rearranged
  by_cases within : low ≤ places place ∧ places place < high
  · exact ⟨places place, within.1, within.2, rfl⟩
  · have same : places place = place := places.injective (fixed (places place) (by omega))
    omega

/-- Rearranged cells are a permutation of the cells. -/
theorem Rearranged.perm (rearranged : Rearranged low high cells result) :
    List.Perm ((List.range high).map result) ((List.range high).map cells) := by
  obtain ⟨places, fixed, rfl⟩ := rearranged
  have kept (place : Nat) : places place < high ↔ place < high := by
    constructor
    · intro inside
      by_contra outside
      rw [fixed place (by omega)] at inside
      exact outside inside
    · intro inside
      by_contra outside
      have same : places place = place := places.injective (fixed (places place) (by omega))
      omega
  have places_perm : List.Perm ((List.range high).map places) (List.range high) := by
    refine (List.perm_ext_iff_of_nodup (List.nodup_range.map places.injective)
      List.nodup_range).mpr fun place => ?_
    simp only [List.mem_map, List.mem_range]
    constructor
    · rintro ⟨source, inside, rfl⟩
      exact (kept source).mpr inside
    · intro inside
      have back := kept (places.symm place)
      rw [places.apply_symm_apply] at back
      exact ⟨places.symm place, back.mp inside, places.apply_symm_apply place⟩
  rw [← List.map_map]
  exact places_perm.map cells

/-! ## Passes -/

variable [LinearOrder α]

/-- Exchange neighbours that are out of order, from `low + count - 1` down to `low`, and tell
whether any were. -/
def pass (low : Nat) : (count : Nat) → (Nat → α) → (Nat → α) × Bool
  | 0, cells => (cells, false)
  | count + 1, cells =>
      if cells (low + count + 1) < cells (low + count) then
        ((pass low count (cells ∘ Equiv.swap (low + count) (low + count + 1))).1, true)
      else pass low count cells

/-- Passes from ever higher low ends, as long as one of them exchanges anything. -/
def sort (last : Nat) : (rounds low : Nat) → (Nat → α) → Nat → α
  | 0, _, cells => cells
  | rounds + 1, low, cells =>
      if (pass low (last - low) cells).2 then
        sort last rounds (low + 1) (pass low (last - low) cells).1
      else (pass low (last - low) cells).1

/-- The cells below `high` ascend. -/
def Ascending (high : Nat) (cells : Nat → α) : Prop :=
  ∀ first second, first ≤ second → second < high → cells first ≤ cells second

/-- The cells below `low` ascend, and none of those behind them is less. -/
def Settled (low high : Nat) (cells : Nat → α) : Prop :=
  ∀ first second, first < low → first ≤ second → second < high → cells first ≤ cells second

variable {count last : Nat}

theorem pass_rearranged (inside : low + count < high) (cells : Nat → α) :
    Rearranged low high cells (pass low count cells).1 := by
  induction count generalizing cells with
  | zero => exact .refl low high cells
  | succ count ih =>
      rw [pass]
      split
      · exact (Rearranged.swap cells (by omega) (by omega)).trans (ih (by omega) _)
      · exact ih (by omega) cells

/-- The least cell moves down to the low end. -/
theorem pass_least (inside : low + count < high)
    (least : ∀ place, low + count ≤ place → place < high → cells (low + count) ≤ cells place) :
    ∀ place, low ≤ place → place < high →
      (pass low count cells).1 low ≤ (pass low count cells).1 place := by
  induction count generalizing cells with
  | zero => exact least
  | succ count ih =>
      rw [pass]
      split
      · rename_i less
        refine ih (by omega) fun place lower upper => ?_
        rw [Function.comp_apply, Equiv.swap_apply_left, Function.comp_apply]
        by_cases here : place = low + count
        · rw [here, Equiv.swap_apply_left]
        · by_cases next : place = low + count + 1
          · rw [next, Equiv.swap_apply_right]
            exact less.le
          · rw [Equiv.swap_apply_of_ne_of_ne here next]
            exact least place (by omega) upper
      · rename_i ordered
        refine ih (by omega) fun place lower upper => ?_
        by_cases here : place = low + count
        · rw [here]
        · exact (not_lt.mp ordered).trans (least place (by omega) upper)

/-- A pass without an exchange has seen no neighbours out of order. -/
theorem pass_quiet (quiet : (pass low count cells).2 = false) :
    (pass low count cells).1 = cells ∧
      ∀ place, low ≤ place → place < low + count → cells place ≤ cells (place + 1) := by
  induction count with
  | zero => exact ⟨rfl, fun place lower upper => by omega⟩
  | succ count ih =>
      rw [pass] at quiet ⊢
      split at quiet
      · exact absurd quiet Bool.noConfusion
      · rename_i ordered
        obtain ⟨same, rest⟩ := ih quiet
        rw [if_neg ordered]
        refine ⟨same, fun place lower upper => ?_⟩
        by_cases here : place = low + count
        · rw [here]
          exact not_lt.mp ordered
        · exact rest place lower (by omega)

/-! ## Sorting -/

/-- Cells that are settled and whose rest ascends step by step ascend. -/
theorem Settled.ascending (settled : Settled low high cells)
    (steps : ∀ place, low ≤ place → place + 1 < high → cells place ≤ cells (place + 1)) :
    Ascending high cells := by
  intro first second ordered inside
  induction second, ordered using Nat.le_induction with
  | base => exact le_rfl
  | succ second ordered ih =>
      by_cases early : first < low
      · exact settled first (second + 1) early (by omega) inside
      · exact (ih (by omega)).trans (steps second (by omega) inside)

/-- One pass settles one more cell. -/
theorem Settled.pass (settled : Settled low (last + 1) cells) (inside : low ≤ last) :
    Settled (low + 1) (last + 1) (pass low (last - low) cells).1 := by
  have whole : low + (last - low) = last := by omega
  have rearranged := @pass_rearranged α low (last + 1) _ (last - low) (by omega) cells
  have least := @pass_least α low (last + 1) cells _ (last - low) (by omega)
    fun place lower upper => (congrArg cells (by omega : low + (last - low) = place)).le
  intro first second early ordered upper
  by_cases here : first = low
  · rw [here]
    exact least second (by omega) upper
  · rw [rearranged.outside (by omega)]
    by_cases below : second < low
    · rw [rearranged.outside (by omega)]
      exact settled first second (by omega) ordered upper
    · obtain ⟨source, lower, within, same⟩ := rearranged.inside (by omega) upper
      rw [same]
      exact settled first source (by omega) (by omega) within

theorem sort_rearranged {rounds : Nat} (total : low + rounds = last + 1) (cells : Nat → α) :
    Rearranged low (last + 1) cells (sort last rounds low cells) := by
  induction rounds generalizing low cells with
  | zero => exact .refl low (last + 1) cells
  | succ rounds ih =>
      have once := @pass_rearranged α low (last + 1) _ (last - low) (by omega) cells
      rw [sort]
      split
      · exact once.trans ((ih (by omega) _).mono (Nat.le_succ low))
      · exact once

/-- As many passes as there are cells sort them. -/
theorem Settled.sort {rounds : Nat} (total : low + rounds = last + 1)
    (settled : Settled low (last + 1) cells) :
    Ascending (last + 1) (sort last rounds low cells) := by
  induction rounds generalizing low cells with
  | zero =>
      refine settled.ascending fun place lower inside => ?_
      omega
  | succ rounds ih =>
      rw [Bubble.sort]
      split
      · exact ih (by omega) (settled.pass (by omega))
      · rename_i quiet
        obtain ⟨same, steps⟩ := pass_quiet (eq_false_of_ne_true quiet)
        rw [same]
        exact settled.ascending fun place lower inside => steps place lower (by omega)

end Bubble
