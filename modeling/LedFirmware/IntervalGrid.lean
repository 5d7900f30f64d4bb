import Mathlib.Tactic.Ring
import Mathlib.Data.List.Pairwise

/-!
# Cells of equal length

From a base on, boundaries divide the positions into cells of one interval each.  A
stretch of positions is a start and a length; stretches tile a range when each begins
where the one before it ends.
-/

namespace Grid

/-- A boundary lies a whole number of intervals behind the base. -/
def OnBoundary (base interval position : Nat) : Prop :=
  ∃ count, position = base + interval * count

/-- A stretch between two neighbouring boundaries. -/
def WithinCell (base interval start length : Nat) : Prop :=
  ∃ count, base + interval * count ≤ start ∧ start + length ≤ base + interval * (count + 1)

/-- The distance to the next boundary of a position that lies `offset` behind the base. -/
def gap (interval offset : Nat) : Nat :=
  (interval - offset % interval) % interval

variable {base interval position length : Nat}

theorem gap_lt (positive : 0 < interval) (offset : Nat) : gap interval offset < interval :=
  Nat.mod_lt _ positive

theorem gap_of_mod_eq_zero {offset : Nat} (aligned : offset % interval = 0) :
    gap interval offset = 0 := by
  rw [gap, aligned, Nat.sub_zero, Nat.mod_self]

theorem gap_of_mod_pos {offset : Nat} (inside : 0 < offset % interval) :
    gap interval offset = interval - offset % interval := by
  rcases Nat.eq_zero_or_pos interval with rfl | positive
  · simp [gap]
  · exact Nat.mod_eq_of_lt (by omega)

/-- The gap leads to a boundary without leaving the cell. -/
theorem gap_spec (positive : 0 < interval) (behind : base ≤ position) :
    OnBoundary base interval (position + gap interval (position - base)) ∧
      WithinCell base interval position (gap interval (position - base)) := by
  have division := Nat.div_add_mod (position - base) interval
  have rest := Nat.mod_lt (position - base) positive
  rcases Nat.eq_zero_or_pos ((position - base) % interval) with aligned | inside
  · rw [gap_of_mod_eq_zero aligned]
    refine ⟨⟨(position - base) / interval, by omega⟩, (position - base) / interval, by omega, ?_⟩
    rw [Nat.mul_succ]
    omega
  · rw [gap_of_mod_pos inside]
    refine ⟨⟨(position - base) / interval + 1, ?_⟩, (position - base) / interval, by omega, ?_⟩
    · rw [Nat.mul_add_one]
      omega
    · rw [Nat.mul_add_one]
      omega

/-- No boundary lies nearer than the gap. -/
theorem gap_le_of_onBoundary (positive : 0 < interval) (behind : base ≤ position) {boundary : Nat}
    (aligned : OnBoundary base interval boundary) (ahead : position ≤ boundary) :
    position + gap interval (position - base) ≤ boundary := by
  obtain ⟨-, cell, lower, upper⟩ := gap_spec positive behind
  obtain ⟨count, rfl⟩ := aligned
  by_contra nearer
  have before : interval * count < interval * (cell + 1) := by omega
  have countLe : count ≤ cell := Nat.lt_succ_iff.mp (Nat.lt_of_mul_lt_mul_left before)
  have start := Nat.mul_le_mul_left interval countLe
  have here : position - base = interval * count := by omega
  have noGap : gap interval (position - base) = 0 :=
    gap_of_mod_eq_zero (by rw [here, Nat.mul_mod_right])
  omega

theorem OnBoundary.add_mul (aligned : OnBoundary base interval position) (count : Nat) :
    OnBoundary base interval (position + interval * count) := by
  obtain ⟨before, rfl⟩ := aligned
  exact ⟨before + count, by ring⟩

theorem OnBoundary.withinCell (aligned : OnBoundary base interval position)
    (short : length ≤ interval) : WithinCell base interval position length := by
  obtain ⟨before, rfl⟩ := aligned
  exact ⟨before, Nat.le_refl _, by rw [Nat.mul_add_one]; omega⟩

theorem WithinCell.mono {shorter : Nat} (within : WithinCell base interval position length)
    (short : shorter ≤ length) : WithinCell base interval position shorter := by
  obtain ⟨count, lower, upper⟩ := within
  exact ⟨count, lower, by omega⟩

/-! ### A range divided at the boundaries -/

/-- The part of a range in front of its first boundary. -/
def head (base interval start length : Nat) : Nat :=
  min (gap interval (start - base)) length

/-- The whole cells of a range behind its first boundary. -/
def cells (base interval start length : Nat) : Nat :=
  (length - head base interval start length) / interval

/-- The part of a range behind its last whole cell. -/
def tail (base interval start length : Nat) : Nat :=
  length - head base interval start length - interval * cells base interval start length

/-- A range that holds a boundary or ends on one. -/
def Reaches (base interval start length : Nat) : Prop :=
  ∃ boundary, OnBoundary base interval boundary ∧ start ≤ boundary ∧ boundary ≤ start + length

variable {start : Nat}

theorem reaches_iff (positive : 0 < interval) (behind : base ≤ start) :
    Reaches base interval start length ↔ gap interval (start - base) ≤ length := by
  constructor
  · rintro ⟨boundary, aligned, ahead, inside⟩
    have nearest := gap_le_of_onBoundary positive behind aligned ahead
    omega
  · intro fits
    exact ⟨_, (gap_spec positive behind).1, by omega, by omega⟩

theorem head_le : head base interval start length ≤ length :=
  Nat.min_le_right _ _

theorem head_lt (positive : 0 < interval) : head base interval start length < interval :=
  Nat.lt_of_le_of_lt (Nat.min_le_left _ _) (gap_lt positive _)

theorem head_withinCell (positive : 0 < interval) (behind : base ≤ start) :
    WithinCell base interval start (head base interval start length) :=
  (gap_spec positive behind).2.mono (Nat.min_le_left _ _)

theorem cells_le :
    interval * cells base interval start length ≤ length - head base interval start length :=
  Nat.mul_div_le _ _

theorem head_add_cells_le :
    head base interval start length + interval * cells base interval start length ≤ length := by
  have headLe : head base interval start length ≤ length := head_le
  have cellsLe : interval * cells base interval start length ≤ _ := cells_le
  omega

theorem tail_lt (positive : 0 < interval) : tail base interval start length < interval := by
  rw [tail, cells, ← Nat.mod_eq_sub_mul_div]
  exact Nat.mod_lt _ positive

theorem head_onBoundary (positive : 0 < interval) (behind : base ≤ start)
    (reaches : Reaches base interval start length) :
    OnBoundary base interval (start + head base interval start length) := by
  rw [head, Nat.min_eq_left ((reaches_iff positive behind).mp reaches)]
  exact (gap_spec positive behind).1

theorem head_eq_of_not_reaches (positive : 0 < interval) (behind : base ≤ start)
    (short : ¬ Reaches base interval start length) :
    head base interval start length = length := by
  rw [reaches_iff positive behind] at short
  exact Nat.min_eq_right (by omega)

theorem cells_eq_zero_of_not_reaches (positive : 0 < interval) (behind : base ≤ start)
    (short : ¬ Reaches base interval start length) : cells base interval start length = 0 := by
  rw [cells, head_eq_of_not_reaches positive behind short, Nat.sub_self, Nat.zero_div]

theorem tail_eq_zero_of_not_reaches (positive : 0 < interval) (behind : base ≤ start)
    (short : ¬ Reaches base interval start length) : tail base interval start length = 0 := by
  rw [tail, head_eq_of_not_reaches positive behind short, Nat.sub_self, Nat.zero_sub]

theorem tail_withinCell (positive : 0 < interval) (behind : base ≤ start) :
    WithinCell base interval
      (start + head base interval start length + interval * cells base interval start length)
      (tail base interval start length) := by
  by_cases reaches : Reaches base interval start length
  · have aligned := (head_onBoundary positive behind reaches).add_mul
      (cells base interval start length)
    exact aligned.withinCell (Nat.le_of_lt (tail_lt positive))
  · rw [tail_eq_zero_of_not_reaches positive behind reaches,
      cells_eq_zero_of_not_reaches positive behind reaches]
    obtain ⟨count, lower, upper⟩ := @head_withinCell _ _ length _ positive behind
    exact ⟨count, by omega, by omega⟩

/-! ### Tilings -/

/-- Each stretch begins where the one before it ends. -/
def Tiles : Nat → List (Nat × Nat) → Nat → Prop
  | start, [], stop => start = stop
  | start, (first, length) :: parts, stop => first = start ∧ Tiles (first + length) parts stop

/-- A position of a stretch. -/
def Within (position : Nat) (part : Nat × Nat) : Prop :=
  part.1 ≤ position ∧ position < part.1 + part.2

variable {stop : Nat} {parts : List (Nat × Nat)}

theorem Tiles.le (tiles : Tiles start parts stop) : start ≤ stop := by
  induction parts generalizing start with
  | nil => exact Nat.le_of_eq tiles
  | cons part parts ih =>
      have rest := ih tiles.2
      have here := tiles.1
      omega

/-- Tiles cover their range and nothing else. -/
theorem Tiles.covers (tiles : Tiles start parts stop) (position : Nat) :
    (start ≤ position ∧ position < stop) ↔ ∃ part ∈ parts, Within position part := by
  induction parts generalizing start with
  | nil =>
      have same : start = stop := tiles
      constructor
      · omega
      · rintro ⟨part, member, -⟩
        cases member
  | cons part parts ih =>
      have first : part.1 = start := tiles.1
      have rest := ih tiles.2
      have forward := tiles.2.le
      simp only [List.mem_cons, exists_eq_or_imp, ← rest]
      constructor
      · intro inside
        by_cases early : position < part.1 + part.2
        · exact Or.inl ⟨by omega, early⟩
        · exact Or.inr ⟨by omega, inside.2⟩
      · rintro (⟨lower, upper⟩ | ⟨lower, upper⟩)
        · exact ⟨by omega, by omega⟩
        · exact ⟨by omega, upper⟩

/-- No position lies in two tiles. -/
theorem Tiles.disjoint (tiles : Tiles start parts stop) :
    parts.Pairwise fun part other =>
      ∀ position, Within position part → ¬ Within position other := by
  induction parts generalizing start with
  | nil => exact List.Pairwise.nil
  | cons part parts ih =>
      refine List.Pairwise.cons (fun other member position inside inOther => ?_) (ih tiles.2)
      have later := ((tiles.2.covers position).mpr ⟨other, member, inOther⟩).1
      exact Nat.not_lt.mpr later inside.2

end Grid
