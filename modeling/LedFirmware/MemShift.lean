import LedFirmware.RotationOrbits
import Mathlib.Data.List.Perm.Basic
import Mathlib.Data.UInt

/-!
# Rotating a byte array in place

`MemShiftR` follows the orbits of the rotation: it carries a byte to its place, takes up
the byte that was there, and begins at the next position when it comes back.  Its index
arithmetic is that of 32 bits.
-/

namespace LedFirmware

open RotationOrbits

/-- The macro `Swap` on a byte and a word. -/
def swapWord (a : UInt8) (b : UInt32) : UInt8 × UInt32 :=
  let a := a ^^^ b.toUInt8
  let b := b ^^^ a.toUInt32
  (a ^^^ b.toUInt8, b)

/-- The variables of `MemShiftR`. -/
structure ShiftVars where
  src : Nat → UInt8
  index : UInt32
  start : UInt32
  temp : UInt32

/-- One iteration of the loop. -/
def shiftStep (srcLen shiftLen : UInt32) (vars : ShiftVars) : ShiftVars :=
  let index := (vars.index + shiftLen) % srcLen
  let swapped := swapWord (vars.src index.toNat) vars.temp
  let src := Function.update vars.src index.toNat swapped.1
  if index = vars.start then
    let start := vars.start + 1
    ⟨src, start, start, (src start.toNat).toUInt32⟩
  else ⟨src, index, vars.start, swapped.2⟩

def memShiftR (src : Nat → UInt8) (srcLen shiftLen : UInt32) : Nat → UInt8 :=
  if srcLen = 0 ∨ shiftLen = 0 then src
  else ((shiftStep srcLen (shiftLen % srcLen))^[srcLen.toNat] ⟨src, 0, 0, (src 0).toUInt32⟩).src

/-- Every byte has moved on by the shift, none is lost or duplicated, and nothing behind
the array has changed. -/
structure Rotates (src result : Nat → UInt8) (len shift : Nat) : Prop where
  moves : ∀ index < len, result ((index + shift) % len) = src index
  keeps : List.Perm ((List.range len).map result) ((List.range len).map src)
  behind : ∀ cell, len ≤ cell → result cell = src cell

theorem swapWord_byte (a b : UInt8) : swapWord a b.toUInt32 = (b, a.toUInt32) := by
  have exchanged : a ^^^ b ^^^ a = b := by
    rw [UInt8.xor_comm, ← UInt8.xor_assoc, UInt8.xor_self, UInt8.zero_xor]
  have taken : b.toUInt32 ^^^ (a ^^^ b).toUInt32 = a.toUInt32 := by
    rw [← UInt8.toUInt32_xor, UInt8.xor_comm a b, ← UInt8.xor_assoc, UInt8.xor_self,
      UInt8.zero_xor]
  simp only [swapWord, UInt8.toUInt8_toUInt32, taken, exchanged]

variable {src : Nat → UInt8} {srcLen shiftLen : UInt32} {vars : ShiftVars} {n : Nat}

/-- The moves that `n` iterations have made, and the byte that is being carried. -/
structure Carried (src : Nat → UInt8) (len shift n : Nat) (vars : ShiftVars) : Prop where
  moved : ∀ m < n, vars.src ((walk len shift m + shift) % len) = src (walk len shift m)
  kept : ∀ m, n ≤ m → m < len →
    vars.src ((walk len shift m + shift) % len) = src ((walk len shift m + shift) % len)
  behind : ∀ cell, len ≤ cell → vars.src cell = src cell
  start : vars.start.toNat = n / period len shift
  index : n < len → vars.index.toNat = walk len shift n
  temp : n < len → vars.temp = (src (walk len shift n)).toUInt32

theorem carried_start :
    Carried src srcLen.toNat shiftLen.toNat 0 ⟨src, 0, 0, (src 0).toUInt32⟩ := by
  have first : walk srcLen.toNat shiftLen.toNat 0 = 0 := by simp [walk]
  constructor
  · intro m impossible
    omega
  · intro m _ _
    rfl
  · intro cell _
    rfl
  · simp
  · intro _
    rw [first]
    rfl
  · intro _
    rw [first]

/-- The byte that an iteration takes up comes from the cell it writes. -/
theorem Carried.step (carried : Carried src srcLen.toNat shiftLen.toNat n vars)
    (inside : n < srcLen.toNat) (room : srcLen.toNat + shiftLen.toNat ≤ 2 ^ 32) :
    Carried src srcLen.toNat shiftLen.toNat (n + 1) (shiftStep srcLen shiftLen vars) := by
  have positive := Nat.zero_lt_of_lt inside
  have target : ((vars.index + shiftLen) % srcLen).toNat =
      (walk srcLen.toNat shiftLen.toNat n + shiftLen.toNat) % srcLen.toNat := by
    have below : walk srcLen.toNat shiftLen.toNat n < srcLen.toNat := walk_lt positive
    have sum : (walk srcLen.toNat shiftLen.toNat n + shiftLen.toNat) % 2 ^ 32 =
        walk srcLen.toNat shiftLen.toNat n + shiftLen.toNat := Nat.mod_eq_of_lt (by omega)
    rw [UInt32.toNat_mod, UInt32.toNat_add, carried.index inside, sum]
  have swapped : swapWord (vars.src ((vars.index + shiftLen) % srcLen).toNat) vars.temp =
      (src (walk srcLen.toNat shiftLen.toNat n),
        (src ((vars.index + shiftLen) % srcLen).toNat).toUInt32) := by
    rw [carried.temp inside, swapWord_byte, target, carried.kept n le_rfl inside]
  have start : (vars.start + 1).toNat = n / period srcLen.toNat shiftLen.toNat + 1 := by
    have below := @orbit_lt_len srcLen.toNat shiftLen.toNat n inside
    have bound := srcLen.toNat_lt
    rw [UInt32.toNat_add, carried.start, UInt32.toNat_one, Nat.mod_eq_of_lt (by omega)]
  have moved : ∀ m < n + 1, Function.update vars.src ((vars.index + shiftLen) % srcLen).toNat
      (src (walk srcLen.toNat shiftLen.toNat n))
        ((walk srcLen.toNat shiftLen.toNat m + shiftLen.toNat) % srcLen.toNat) =
          src (walk srcLen.toNat shiftLen.toNat m) := by
    intro m before
    rcases Nat.lt_or_eq_of_le (Nat.le_of_lt_succ before) with earlier | rfl
    · rw [target, Function.update_of_ne, carried.moved m earlier]
      intro same
      exact earlier.ne (step_injective (earlier.trans inside) inside same)
    · rw [target, Function.update_self]
  have kept : ∀ m, n + 1 ≤ m → m < srcLen.toNat →
      Function.update vars.src ((vars.index + shiftLen) % srcLen).toNat
        (src (walk srcLen.toNat shiftLen.toNat n))
          ((walk srcLen.toNat shiftLen.toNat m + shiftLen.toNat) % srcLen.toNat) =
            src ((walk srcLen.toNat shiftLen.toNat m + shiftLen.toNat) % srcLen.toNat) := by
    intro m later below
    rw [target, Function.update_of_ne, carried.kept m (by omega) below]
    intro same
    exact (Nat.lt_of_succ_le later).ne' (step_injective below inside same)
  have behind : ∀ cell, srcLen.toNat ≤ cell →
      Function.update vars.src ((vars.index + shiftLen) % srcLen).toNat
        (src (walk srcLen.toNat shiftLen.toNat n)) cell = src cell := by
    intro cell beyond
    have below := Nat.mod_lt (walk srcLen.toNat shiftLen.toNat n + shiftLen.toNat) positive
    rw [target, Function.update_of_ne (by omega), carried.behind cell beyond]
  have back : (vars.index + shiftLen) % srcLen = vars.start ↔
      (n + 1) % period srcLen.toNat shiftLen.toNat = 0 := by
    rw [← returns_iff inside, ← target, ← carried.start]
    exact UInt32.toNat_inj.symm
  unfold shiftStep
  simp only [swapped]
  by_cases ended : (n + 1) % period srcLen.toNat shiftLen.toNat = 0
  · rw [if_pos (back.mpr ended)]
    have orbits : (n + 1) / period srcLen.toNat shiftLen.toNat =
        n / period srcLen.toNat shiftLen.toNat + 1 :=
      Nat.succ_div_of_dvd (Nat.dvd_of_mod_eq_zero ended)
    have begins (further : n + 1 < srcLen.toNat) :
        (vars.start + 1).toNat = walk srcLen.toNat shiftLen.toNat (n + 1) := by
      rw [start, walk_start further ended, orbits]
    refine ⟨moved, kept, behind, start.trans orbits.symm, begins, fun further => ?_⟩
    -- The next orbit has not been walked, so its first byte is still in place.
    obtain ⟨room', last⟩ := begins_next further ended
    have later : n + 1 ≤ n + period srcLen.toNat shiftLen.toNat :=
      Nat.add_le_add_left (period_pos positive) n
    have original := kept _ later room'
    rw [← last] at original
    rw [begins further, original]
  · rw [if_neg (mt back.mp ended)]
    refine ⟨moved, kept, behind, ?_, fun _ => ?_, fun _ => ?_⟩
    · rw [carried.start, Nat.succ_div_of_not_dvd (mt Nat.mod_eq_zero_of_dvd ended)]
    · rw [target, walk_succ positive ended]
    · rw [target, walk_succ positive ended]

theorem carried_run
    (room : srcLen.toNat + shiftLen.toNat ≤ 2 ^ 32) (count : Nat) (inside : count ≤ srcLen.toNat) :
    Carried src srcLen.toNat shiftLen.toNat count
      ((shiftStep srcLen shiftLen)^[count] ⟨src, 0, 0, (src 0).toUInt32⟩) := by
  induction count with
  | zero => exact carried_start
  | succ count ih =>
      rw [Function.iterate_succ_apply']
      exact (ih (by omega)).step (by omega) room

/-- When every byte has moved on, none is lost or duplicated. -/
theorem rotates_of_moves {len shift : Nat} {result : Nat → UInt8}
    (moves : ∀ index < len, result ((index + shift) % len) = src index)
    (behind : ∀ cell, len ≤ cell → result cell = src cell) : Rotates src result len shift := by
  have distinct : ((List.range len).map fun index => (index + shift) % len).Nodup := by
    apply List.Nodup.map_on _ List.nodup_range
    intro first inside second inside' same
    exact rotate_injective (List.mem_range.mp inside) (List.mem_range.mp inside') same
  have within : ((List.range len).map fun index => (index + shift) % len) ⊆ List.range len := by
    intro position found
    obtain ⟨index, inside, rfl⟩ := List.mem_map.mp found
    exact List.mem_range.mpr (Nat.mod_lt _ (Nat.zero_lt_of_lt (List.mem_range.mp inside)))
  have positions : ((List.range len).map fun index => (index + shift) % len).Perm
      (List.range len) :=
    (List.subperm_of_subset distinct within).perm_of_length_le (by simp)
  have contents := positions.map result
  rw [List.map_map] at contents
  have moved : (List.range len).map (result ∘ fun index => (index + shift) % len) =
      (List.range len).map src :=
    List.map_congr_left fun index inside => moves index (List.mem_range.mp inside)
  rw [moved] at contents
  exact ⟨moves, contents.symm, behind⟩

/-- The loop rotates as long as no sum overflows. -/
theorem memShiftR_rotates (src : Nat → UInt8) (nonempty : 0 < srcLen.toNat)
    (room : srcLen.toNat + shiftLen.toNat % srcLen.toNat ≤ 2 ^ 32) :
    Rotates src (memShiftR src srcLen shiftLen) srcLen.toNat shiftLen.toNat := by
  rw [memShiftR]
  by_cases unchanged : srcLen = 0 ∨ shiftLen = 0
  · have none : shiftLen = 0 := unchanged.resolve_left fun zero => by simp [zero] at nonempty
    rw [if_pos unchanged]
    refine rotates_of_moves (fun index inside => ?_) fun cell _ => rfl
    rw [none, UInt32.toNat_zero, Nat.add_zero, Nat.mod_eq_of_lt inside]
  · have reduced : (shiftLen % srcLen).toNat = shiftLen.toNat % srcLen.toNat :=
      UInt32.toNat_mod shiftLen srcLen
    rw [← reduced] at room
    have carried := @carried_run src srcLen (shiftLen % srcLen) room srcLen.toNat le_rfl
    rw [if_neg unchanged]
    refine rotates_of_moves (fun index inside => ?_) carried.behind
    obtain ⟨m, below, rfl⟩ := @exists_walk srcLen.toNat (shiftLen % srcLen).toNat index inside
    have moved := carried.moved m below
    rw [reduced, Nat.add_mod_mod] at moved
    rw [reduced]
    exact moved

/-! ## Sums that overflow -/

/-- Where the sums overflow, the position before the shift is not among the remainders. -/
theorem wrapped_ne {len shift index : Nat} (bound : len < 2 ^ 32) (inside : index < len)
    (below : shift < len) (overflows : 2 ^ 32 < len + shift) :
    (index + shift) % 2 ^ 32 % len ≠ shift - 1 := by
  rcases Nat.lt_or_ge (index + shift) (2 ^ 32) with whole | wrapped
  · rw [Nat.mod_eq_of_lt whole]
    rcases Nat.lt_or_ge (index + shift) len with before | around
    · rw [Nat.mod_eq_of_lt before]
      omega
    · rw [Nat.mod_eq_sub_mod around, Nat.mod_eq_of_lt (by omega)]
      omega
  · rw [Nat.mod_eq_sub_mod wrapped, Nat.mod_eq_of_lt (by omega : index + shift - 2 ^ 32 < 2 ^ 32),
      Nat.mod_eq_of_lt (by omega)]
    omega

/-- What the run keeps then: its indices stay inside, and that position its byte. -/
structure Stuck (src : Nat → UInt8) (len shift n : Nat) (vars : ShiftVars) : Prop where
  kept : vars.src (shift - 1) = src (shift - 1)
  index : n < len → vars.index.toNat < len
  start : vars.start.toNat ≤ n

theorem Stuck.step (stuck : Stuck src srcLen.toNat shiftLen.toNat n vars)
    (inside : n < srcLen.toNat) (below : shiftLen.toNat < srcLen.toNat)
    (overflows : 2 ^ 32 < srcLen.toNat + shiftLen.toNat) :
    Stuck src srcLen.toNat shiftLen.toNat (n + 1) (shiftStep srcLen shiftLen vars) := by
  have bound := srcLen.toNat_lt
  have written : ((vars.index + shiftLen) % srcLen).toNat ≠ shiftLen.toNat - 1 := by
    rw [UInt32.toNat_mod, UInt32.toNat_add]
    exact wrapped_ne bound (stuck.index inside) below overflows
  have target : ((vars.index + shiftLen) % srcLen).toNat < srcLen.toNat := by
    rw [UInt32.toNat_mod]
    exact Nat.mod_lt _ (Nat.zero_lt_of_lt inside)
  have kept (byte : UInt8) : Function.update vars.src ((vars.index + shiftLen) % srcLen).toNat byte
      (shiftLen.toNat - 1) = src (shiftLen.toNat - 1) := by
    rw [Function.update_of_ne written.symm, stuck.kept]
  have before := stuck.start
  have start : (vars.start + 1).toNat ≤ n + 1 := by
    rw [UInt32.toNat_add, UInt32.toNat_one, Nat.mod_eq_of_lt (by omega)]
    omega
  unfold shiftStep
  dsimp only
  split
  · exact ⟨kept _, fun further => start.trans_lt further, start⟩
  · exact ⟨kept _, fun _ => target, before.trans (Nat.le_succ n)⟩

theorem memShiftR_keeps (src : Nat → UInt8) (nonempty : 0 < srcLen.toNat)
    (overflows : 2 ^ 32 < srcLen.toNat + shiftLen.toNat % srcLen.toNat) :
    memShiftR src srcLen shiftLen (shiftLen.toNat % srcLen.toNat - 1) =
      src (shiftLen.toNat % srcLen.toNat - 1) := by
  have reduced : (shiftLen % srcLen).toNat = shiftLen.toNat % srcLen.toNat :=
    UInt32.toNat_mod shiftLen srcLen
  have below : (shiftLen % srcLen).toNat < srcLen.toNat := by
    rw [reduced]
    exact Nat.mod_lt _ nonempty
  rw [← reduced] at overflows ⊢
  have run (count : Nat) (inside : count ≤ srcLen.toNat) :
      Stuck src srcLen.toNat (shiftLen % srcLen).toNat count
        ((shiftStep srcLen (shiftLen % srcLen))^[count] ⟨src, 0, 0, (src 0).toUInt32⟩) := by
    induction count with
    | zero => exact ⟨rfl, fun _ => nonempty, Nat.zero_le _⟩
    | succ count ih =>
        rw [Function.iterate_succ_apply']
        exact (ih (by omega)).step (by omega) below overflows
  rw [memShiftR]
  split
  · rfl
  · exact (run srcLen.toNat le_rfl).kept

/-- An array that differs there from what belongs there is not rotated. -/
theorem not_rotates_of_overflow (nonempty : 0 < srcLen.toNat)
    (overflows : 2 ^ 32 < srcLen.toNat + shiftLen.toNat % srcLen.toNat) :
    ¬ Rotates (fun cell => if cell = srcLen.toNat - 1 then 1 else 0)
      (memShiftR (fun cell => if cell = srcLen.toNat - 1 then 1 else 0) srcLen shiftLen)
        srcLen.toNat shiftLen.toNat := by
  intro rotates
  have bound := srcLen.toNat_lt
  have below := Nat.mod_lt shiftLen.toNat nonempty
  have moved := rotates.moves (srcLen.toNat - 1) (by omega)
  have place : (srcLen.toNat - 1 + shiftLen.toNat) % srcLen.toNat =
      shiftLen.toNat % srcLen.toNat - 1 := by
    rw [← Nat.add_mod_mod, show srcLen.toNat - 1 + shiftLen.toNat % srcLen.toNat =
      shiftLen.toNat % srcLen.toNat - 1 + srcLen.toNat by omega, Nat.add_mod_right,
      Nat.mod_eq_of_lt (by omega)]
  rw [place, memShiftR_keeps _ nonempty overflows, if_pos rfl, if_neg (by omega)] at moved
  exact absurd moved (by decide)

/-- Every array of a length is rotated by a shift exactly where the sums of positions and
the reduced shift stay within 32 bits. -/
theorem memShiftR_rotates_iff (srcLen shiftLen : UInt32) (nonempty : 0 < srcLen.toNat) :
    (∀ src, Rotates src (memShiftR src srcLen shiftLen) srcLen.toNat shiftLen.toNat) ↔
      srcLen.toNat + shiftLen.toNat % srcLen.toNat ≤ 2 ^ 32 := by
  constructor
  · intro rotates
    by_contra overflows
    exact not_rotates_of_overflow nonempty (by omega) (rotates _)
  · intro room src
    exact memShiftR_rotates src nonempty room

/-- Six bytes and a shift of four, which has two orbits. -/
theorem memShiftR_rotates_six :
    (∀ src, Rotates src (memShiftR src 6 4) 6 4) ↔ 6 + 4 % 6 ≤ 2 ^ 32 :=
  memShiftR_rotates_iff 6 4 (by decide)

/-- Two GiB and a byte, shifted by two GiB. -/
theorem memShiftR_overflows :
    ¬ Rotates (fun cell => if cell = 2147483648 then 1 else 0)
      (memShiftR (fun cell => if cell = 2147483648 then 1 else 0) 2147483649 2147483648)
        2147483649 2147483648 :=
  @not_rotates_of_overflow 2147483649 2147483648 (by decide) (by decide)

end LedFirmware
