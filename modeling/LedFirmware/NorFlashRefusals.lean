import LedFirmware.NorFlashFaults

/-!
# Programming cells that may not be erased

Without failures, programming half-words in turn stores them up to the first
one whose cells are not both erased, and stops there.  Whatever fails, and
whether or not zeros go over cells in use, nothing behind a half-word that
cannot be stored is addressed.
-/

namespace NorFlash

open CrashProgram

/-- The number of erased half-words from an address on, up to the first one that
is not erased. -/
def erasedHalves (mem : Mem) : (count addr : Nat) → Nat
  | 0, _ => 0
  | count + 1, addr =>
      if mem addr = erasedByte ∧ mem (addr + 1) = erasedByte then
        erasedHalves mem count (addr + 2) + 1
      else 0

variable {geometry : Geometry} {mem other : Mem} {locked : Bool}

theorem erasedHalves_le (mem : Mem) (count addr : Nat) : erasedHalves mem count addr ≤ count := by
  induction count generalizing addr with
  | zero => exact le_rfl
  | succ count ih =>
      rw [erasedHalves]
      split
      · exact Nat.succ_le_succ (ih _)
      · exact Nat.zero_le _

theorem erasedHalves_congr {count addr : Nat}
    (same : ∀ index < 2 * count, mem (addr + index) = other (addr + index)) :
    erasedHalves mem count addr = erasedHalves other count addr := by
  induction count generalizing addr with
  | zero => rfl
  | succ count ih =>
      have low : mem addr = other addr := same 0 (by omega)
      have high : mem (addr + 1) = other (addr + 1) := same 1 (by omega)
      have rest := @ih (addr + 2) fun index inside => by
        rw [Nat.add_assoc]
        exact same _ (by omega)
      rw [erasedHalves, erasedHalves, low, high, rest]

theorem erased_two {addr : Nat} : (∀ index < 2, mem (addr + index) = erasedByte) ↔
    mem addr = erasedByte ∧ mem (addr + 1) = erasedByte := by
  constructor
  · intro all
    exact ⟨all 0 (by decide), all 1 (by decide)⟩
  · rintro ⟨low, high⟩ index inside
    match index, inside with
    | 0, _ => exact low
    | 1, _ => exact high

/-- A half-word is among them when all cells up to its end are erased. -/
theorem lt_erasedHalves_iff {count addr half : Nat} :
    half < erasedHalves mem count addr ↔
      half < count ∧ ∀ index < 2 * half + 2, mem (addr + index) = erasedByte := by
  induction count generalizing addr half with
  | zero => simp [erasedHalves]
  | succ count ih =>
      rw [erasedHalves]
      split
      · rename_i erased
        cases half with
        | zero =>
            simp only [Nat.zero_lt_succ, true_and, true_iff]
            exact erased_two.mpr erased
        | succ half =>
            rw [Nat.succ_lt_succ_iff, Nat.succ_lt_succ_iff, ih]
            refine and_congr_right fun _ =>
              ⟨fun later index inside => ?_, fun all index inside => ?_⟩
            · rcases Nat.lt_or_ge index 2 with early | late
              · exact erased_two.mpr erased index early
              · rw [show addr + index = addr + 2 + (index - 2) by omega]
                exact later _ (by omega)
            · rw [Nat.add_assoc]
              exact all _ (by omega)
      · rename_i notErased
        refine ⟨fun impossible => absurd impossible (Nat.not_lt_zero _), fun ⟨_, all⟩ => ?_⟩
        exact absurd (erased_two.mp fun index inside => all index (by omega)) notErased

theorem erasedHalves_add (mem : Mem) (first second addr : Nat) :
    erasedHalves mem (first + second) addr =
      if erasedHalves mem first addr = first then first + erasedHalves mem second (addr + 2 * first)
      else erasedHalves mem first addr := by
  induction first generalizing addr with
  | zero => simp [erasedHalves]
  | succ first ih =>
      rw [Nat.succ_add, erasedHalves, erasedHalves, ih]
      have position : addr + 2 + 2 * first = addr + 2 * (first + 1) := by omega
      by_cases erased : mem addr = erasedByte ∧ mem (addr + 1) = erasedByte
      · simp only [if_pos erased, Nat.succ_inj, position]
        split <;> omega
      · simp only [if_neg erased]
        rw [if_neg (by omega)]

/-- Cells that are not both erased refuse the half-word. -/
theorem Ends.program_refused {addr : Nat} {low high : UInt8}
    (notErased : ¬ (mem addr = erasedByte ∧ mem (addr + 1) = erasedByte)) :
    Ends (NorFlash.program geometry addr low high) mem locked false mem locked := by
  refine ⟨fun log => @wp_reliable geometry _ (.program addr low high) _ trivial ?_⟩
  change (applyProgram geometry addr low high .none ⟨mem, locked, log⟩).1 = false ∧
    (applyProgram geometry addr low high .none ⟨mem, locked, log⟩).2.mem = mem ∧
    (applyProgram geometry addr low high .none ⟨mem, locked, log⟩).2.locked = locked
  simp only [applyProgram, if_neg notErased]
  split <;> exact ⟨rfl, rfl, rfl⟩

theorem ends_programHalves_upTo {count addr number : Nat}
    (covers : geometry.Covers addr (2 * count)) (even : addr % 2 = 0) :
    Ends (programHalves geometry count addr number) mem false
      (decide (erasedHalves mem count addr = count))
      (overlay addr (2 * erasedHalves mem count addr) (LittleEndian.byte number) mem) false := by
  induction count generalizing addr number mem with
  | zero => simpa [programHalves, erasedHalves] using Ends.done true
  | succ count ih =>
      obtain ⟨lower, upper⟩ := covers
      by_cases erased : mem addr = erasedByte ∧ mem (addr + 1) = erasedByte
      · have first := @Ends.program_source geometry mem addr (LittleEndian.byte number)
          ⟨lower, by omega⟩ ⟨by omega, by omega⟩ even erased.1 erased.2
        have rest := @ih (overlay addr 2 (LittleEndian.byte number) mem) (addr + 2)
          (number / 65536) ⟨by omega, by omega⟩ (by omega)
        have same : erasedHalves (overlay addr 2 (LittleEndian.byte number) mem) count (addr + 2) =
            erasedHalves mem count (addr + 2) :=
          erasedHalves_congr fun index _ => overlay_outside _ _ (by omega)
        rw [same, LittleEndian.byte_half, overlay_append] at rest
        have total : erasedHalves mem (count + 1) addr = erasedHalves mem count (addr + 2) + 1 := by
          rw [erasedHalves, if_pos erased]
        rw [total, show 2 * (erasedHalves mem count (addr + 2) + 1) =
          2 + 2 * erasedHalves mem count (addr + 2) by omega]
        simp only [Nat.succ_inj]
        exact first.bind rest
      · have none : erasedHalves mem (count + 1) addr = 0 := by
          rw [erasedHalves, if_neg erased]
        rw [none, Nat.mul_zero, overlay_zero, decide_eq_false (by omega)]
        exact (Ends.program_refused erased).bind (.done false)

/-- Programming a number read from a source stores the source as far as the
cells are erased. -/
theorem ends_programHalves_value_upTo {count addr : Nat} {source : Nat → UInt8}
    (covers : geometry.Covers addr (2 * count)) (even : addr % 2 = 0) :
    Ends (programHalves geometry count addr (LittleEndian.value (2 * count) source)) mem false
      (decide (erasedHalves mem count addr = count))
      (overlay addr (2 * erasedHalves mem count addr) source mem) false := by
  have most := erasedHalves_le mem count addr
  have stored : overlay addr (2 * erasedHalves mem count addr)
      (LittleEndian.byte (LittleEndian.value (2 * count) source)) mem =
      overlay addr (2 * erasedHalves mem count addr) source mem :=
    overlay_congr mem fun index inside => LittleEndian.byte_value source (by omega)
  rw [← stored]
  exact ends_programHalves_upTo covers even

theorem ends_programUnits_upTo {halves count addr : Nat} {source : Nat → UInt8}
    (positive : 0 < halves) (covers : geometry.Covers addr (2 * halves * count))
    (even : addr % 2 = 0) :
    Ends (programUnits geometry halves count addr source) mem false
      (erasedHalves mem (halves * count) addr / halves)
      (overlay addr (2 * erasedHalves mem (halves * count) addr) source mem) false := by
  induction count generalizing addr source mem with
  | zero => simpa [programUnits, erasedHalves] using Ends.done 0
  | succ count ih =>
      obtain ⟨lower, upper⟩ := covers
      have total : 2 * halves * (count + 1) = 2 * halves + 2 * halves * count := by ring
      have split : halves * (count + 1) = halves + halves * count := by ring
      have first := @ends_programHalves_value_upTo geometry mem halves addr source
        ⟨lower, by omega⟩ even
      rw [split, erasedHalves_add]
      by_cases erased : erasedHalves mem halves addr = halves
      · rw [erased, decide_eq_true rfl] at first
        have same : erasedHalves (overlay addr (2 * halves) source mem) (halves * count)
            (addr + 2 * halves) = erasedHalves mem (halves * count) (addr + 2 * halves) :=
          erasedHalves_congr fun index _ => overlay_outside _ _ (by omega)
        have rest := @ih (overlay addr (2 * halves) source mem) (addr + 2 * halves)
          (fun index => source (2 * halves + index)) ⟨by omega, by omega⟩ (by omega)
        rw [same, overlay_append] at rest
        rw [if_pos erased, Nat.add_div_left _ positive, Nat.mul_add]
        exact first.bind (rest.bind (.done _))
      · have most := erasedHalves_le mem halves addr
        rw [decide_eq_false erased] at first
        rw [if_neg erased, Nat.div_eq_of_lt (by omega)]
        exact first.bind (.done 0)

/-! ## Whatever fails -/

/-- A postcondition: a value with the property, and no operation outside the
region, also where power is lost. -/
def confinedPost (geometry : Geometry) (region : Set Nat) (returned : α → Prop) (state : State) :
    FlashPost geometry α :=
  ⟨fun value (after : State) => returned value ∧ Confined geometry region state after,
    Confined geometry region state, Confined geometry region state⟩

variable {allowed : Fault → Prop} {region larger : Set Nat} {state middle : State}
  {returned wanted : α → Prop}

/-- What a later part of a program does counts from the start of the program. -/
theorem confinedPost_trans {program : FlashProg geometry α}
    (early : Confined geometry larger state middle)
    (late : program.wp allowed (confinedPost geometry region returned middle) middle)
    (subset : region ⊆ larger) (implies : ∀ value, returned value → wanted value) :
    program.wp allowed (confinedPost geometry larger wanted state) middle :=
  Prog.wp_mono late
    (fun value _ holds => ⟨implies value holds.1, early.trans (holds.2.mono subset)⟩)
    (fun _ confined => early.trans (confined.mono subset))
    fun _ confined => early.trans (confined.mono subset)

theorem wp_program_refused {addr : Nat} {low high : UInt8}
    (blocked : ¬ Takes geometry allowed state.mem addr low high) :
    (program geometry addr low high).wp allowed
      (confinedPost geometry (Set.Ico addr (addr + 2)) (· = false) state) state := by
  refine (Prog.wp_call _ _ _ _).mpr ⟨Confined.refl state, fun fault permitted => ?_⟩
  refine (Prog.wp_done _ _ _).mpr ⟨?_, apply_confined geometry _ _ fault state ?_⟩
  · change (applyProgram geometry addr low high fault state).1 = false
    simp only [applyProgram]
    split
    · rfl
    · rename_i accepted
      simp only [Geometry.Contains, not_or, not_not] at accepted
      have refused (accepts : fault.Accepts state.mem addr low high) : False :=
        blocked ⟨⟨by omega, by omega⟩, fault, permitted, accepts⟩
      cases fault with
      | none | zeroOver =>
          dsimp only [Fault.Accepts] at refused
          rw [if_neg refused]
      | fail left => rfl
  · rintro cell (rfl | rfl) <;> simp

/-- A program that starts behind the cells another one has worked on finds its own as they were. -/
theorem wp_bind_behind {first : FlashProg geometry α} {next : α → FlashProg geometry β}
    {start border stop : Nat} {wanted : β → Prop}
    (touches : Touches geometry (Set.Ico start border) first) (lower : start ≤ border)
    (upper : border ≤ stop)
    (rest : ∀ value (after : State), (∀ cell, border ≤ cell → after.mem cell = state.mem cell) →
      (next value).wp allowed (confinedPost geometry (Set.Ico border stop) wanted after) after) :
    (first >>= next).wp allowed (confinedPost geometry (Set.Ico start stop) wanted state)
      state := by
  have subset : Set.Ico start border ⊆ Set.Ico start stop := Set.Ico_subset_Ico_right upper
  rw [Prog.wp_bind]
  refine Prog.wp_mono (wp_of_touches touches state) ?_
    (fun _ confined => confined.mono subset) fun _ confined => confined.mono subset
  intro value after confined
  have kept (cell : Nat) (behind : border ≤ cell) : after.mem cell = state.mem cell :=
    confined.mem_eq fun member => absurd (Set.mem_Ico.mp member).2 (Nat.not_lt.mpr behind)
  exact confinedPost_trans (confined.mono subset) (rest value after kept)
    (Set.Ico_subset_Ico_left lower) fun _ holds => holds

/-- Programming stops at a half-word that no allowed call takes. -/
theorem wp_programHalves_refused {count addr number half : Nat} (inside : half < count)
    (blocked : ¬ Takes geometry allowed state.mem (addr + 2 * half)
      (LittleEndian.byte number (2 * half)) (LittleEndian.byte number (2 * half + 1))) :
    (programHalves geometry count addr number).wp allowed
      (confinedPost geometry (Set.Ico addr (addr + 2 * half + 2)) (· = false) state) state := by
  induction count generalizing addr number half state with
  | zero => omega
  | succ count ih =>
      rw [programHalves]
      cases half with
      | zero =>
          rw [Prog.wp_bind]
          refine Prog.wp_mono (wp_program_refused blocked) ?_ (fun _ confined => confined)
            fun _ confined => confined
          rintro accepted after ⟨rfl, confined⟩
          exact (Prog.wp_done _ _ _).mpr ⟨rfl, confined⟩
      | succ half =>
          refine @wp_bind_behind _ _ _ _ _ _ _ addr (addr + 2) _ _ (.program (by simp) (by simp))
            (by omega) (by omega) fun accepted after kept => ?_
          cases accepted with
          | false => exact (Prog.wp_done _ _ _).mpr ⟨rfl, Confined.refl after⟩
          | true =>
              have position : addr + 2 + 2 * half = addr + 2 * (half + 1) := by omega
              have low : 2 + 2 * half = 2 * (half + 1) := by omega
              have high : 2 + (2 * half + 1) = 2 * (half + 1) + 1 := by omega
              have rest := @ih after (addr + 2) (number / 65536) half (by omega) (by
                rw [takes_congr (kept _ (by omega)) (kept _ (by omega)), position,
                  LittleEndian.byte_half]
                simpa only [low, high] using blocked)
              rw [position] at rest
              exact rest

theorem wp_programUnits_refused {halves count addr half : Nat} {source : Nat → UInt8}
    (inside : half < halves * count)
    (blocked : ¬ Takes geometry allowed state.mem (addr + 2 * half) (source (2 * half))
      (source (2 * half + 1))) :
    (programUnits geometry halves count addr source).wp allowed
      (confinedPost geometry (Set.Ico addr (addr + 2 * half + 2)) (· < count) state) state := by
  induction count generalizing addr source half state with
  | zero => omega
  | succ count ih =>
      rw [programUnits]
      rcases Nat.lt_or_ge half halves with early | late
      · rw [Prog.wp_bind]
        have first := @wp_programHalves_refused geometry allowed state halves addr
          (LittleEndian.value (2 * halves) source) half early (by
            rw [LittleEndian.byte_value source (by omega),
              LittleEndian.byte_value source (by omega)]
            exact blocked)
        refine Prog.wp_mono first ?_ (fun _ confined => confined) fun _ confined => confined
        rintro accepted after ⟨rfl, confined⟩
        exact (Prog.wp_done _ _ _).mpr ⟨Nat.succ_pos _, confined⟩
      · have total : halves * (count + 1) = halves + halves * count := by ring
        refine @wp_bind_behind _ _ _ _ _ _ _ addr (addr + 2 * halves) _ _
          (touches_programHalves halves addr _ Set.Subset.rfl) (by omega) (by omega)
          fun accepted after kept => ?_
        cases accepted with
        | false => exact (Prog.wp_done _ _ _).mpr ⟨Nat.succ_pos _, Confined.refl after⟩
        | true =>
            have position : addr + 2 * halves + 2 * (half - halves) = addr + 2 * half := by omega
            have low : 2 * halves + 2 * (half - halves) = 2 * half := by omega
            have high : 2 * halves + (2 * (half - halves) + 1) = 2 * half + 1 := by omega
            have rest := @ih after (addr + 2 * halves) (half - halves)
              (fun index => source (2 * halves + index)) (by omega) (by
                rw [takes_congr (kept _ (by omega)) (kept _ (by omega)), position, low, high]
                exact blocked)
            rw [position] at rest
            change (programUnits geometry halves count (addr + 2 * halves)
              (fun index => source (2 * halves + index)) >>= fun written =>
              .done (written + 1)).wp allowed _ after
            rw [Prog.wp_bind]
            refine Prog.wp_mono rest ?_ (fun _ confined => confined) fun _ confined => confined
            rintro written final ⟨bound, confined⟩
            exact (Prog.wp_done _ _ _).mpr ⟨Nat.succ_lt_succ bound, confined⟩

end NorFlash
