import LedFirmware.NorFlashProgramming

/-!
# What a returned value says about the cells

Whatever fails, programs report how far they came: half-words that were accepted are
stored, and a count of units says how much of a buffer is.  Cells for which every
program operation has an erased byte stay erased.
-/

namespace NorFlash

open CrashProgram

/-- A postcondition on normal completion only. -/
def onDone {geometry : Geometry} (holds : α → State → Prop) : FlashPost geometry α :=
  ⟨holds, fun _ => True, fun _ => True⟩

variable {geometry : Geometry} {allowed : Fault → Prop} {state : State}

theorem wp_onDone_mono {program : FlashProg geometry α} {first second : α → State → Prop}
    (holds : program.wp allowed (onDone first) state)
    (implies : ∀ value after, first value after → second value after) :
    program.wp allowed (onDone second) state :=
  Prog.wp_mono holds implies (fun _ _ => trivial) fun _ _ => trivial

theorem wp_onDone_bind {program : FlashProg geometry α} {next : α → FlashProg geometry β}
    {middle : α → State → Prop} {final : β → State → Prop}
    (first : program.wp allowed (onDone middle) state)
    (rest : ∀ value after, middle value after → (next value).wp allowed (onDone final) after) :
    (program >>= next).wp allowed (onDone final) state := by
  rw [Prog.wp_bind]
  exact Prog.wp_mono first rest (fun _ _ => trivial) fun _ _ => trivial

theorem wp_onDone_and {program : FlashProg geometry α} {first second : α → State → Prop}
    (one : program.wp allowed (onDone first) state)
    (other : program.wp allowed (onDone second) state) :
    program.wp allowed (onDone fun value after => first value after ∧ second value after) state :=
  Prog.wp_mono (Prog.wp_and one other) (fun _ _ both => both) (fun _ _ => trivial)
    fun _ _ => trivial

theorem wp_onDone_confined {program : FlashProg geometry α} {region : Set Nat}
    (touches : Touches geometry region program) :
    program.wp allowed (onDone fun _ after => Confined geometry region state after) state :=
  Prog.wp_mono (wp_of_touches touches state) (fun _ _ confined => confined) (fun _ _ => trivial)
    fun _ _ => trivial

/-! ## Accepted half-words -/

theorem wp_program_accepted {addr : Nat} {low high : UInt8} :
    (program geometry addr low high).wp allowed
      (onDone fun accepted after =>
        accepted = true → after.mem = putHalf addr low high state.mem) state := by
  refine (Prog.wp_call _ _ _ _).mpr ⟨trivial, fun fault _ => (Prog.wp_done _ _ _).mpr ?_⟩
  change (applyProgram geometry addr low high fault state).1 = true →
    (applyProgram geometry addr low high fault state).2.mem = putHalf addr low high state.mem
  unfold applyProgram
  split
  · intro impossible
    cases impossible
  · cases fault with
    | none | zeroOver =>
        dsimp only
        split
        · exact fun _ => rfl
        · intro impossible
          cases impossible
    | fail left =>
        intro impossible
        cases impossible

/-- A number whose half-words were all accepted is stored. -/
theorem wp_programHalves_accepted {count addr number : Nat} :
    (programHalves geometry count addr number).wp allowed
      (onDone fun accepted after => accepted = true →
        after.mem = overlay addr (2 * count) (LittleEndian.byte number) state.mem) state := by
  induction count generalizing addr number state with
  | zero =>
      refine (Prog.wp_done _ _ _).mpr fun _ => ?_
      rw [Nat.mul_zero, overlay_zero]
  | succ count ih =>
      rw [programHalves]
      refine wp_onDone_bind wp_program_accepted fun accepted middle first => ?_
      refine Prog.wp_ite (fun yes => ?_) fun no => (Prog.wp_done _ _ _).mpr fun impossible => ?_
      · refine wp_onDone_mono ih fun later after rest all => ?_
        rw [rest all, first yes, putHalf_eq_overlay, LittleEndian.byte_half, overlay_append,
          show 2 + 2 * count = 2 * (count + 1) by omega]
      · cases impossible

theorem wp_programHalves_value_accepted {count addr : Nat} {source : Nat → UInt8} :
    (programHalves geometry count addr (LittleEndian.value (2 * count) source)).wp allowed
      (onDone fun accepted after => accepted = true →
        after.mem = overlay addr (2 * count) source state.mem) state := by
  refine wp_onDone_mono wp_programHalves_accepted fun accepted after stored yes => ?_
  rw [stored yes]
  exact overlay_congr _ fun index inside => LittleEndian.byte_value source inside

/-- As many units of the source are stored as are counted. -/
theorem wp_programUnits_counted {halves count addr : Nat} {source : Nat → UInt8} :
    (programUnits geometry halves count addr source).wp allowed
      (onDone fun written after => written ≤ count ∧
        ∀ index < 2 * halves * written, after.mem (addr + index) = source index) state := by
  induction count generalizing addr source state with
  | zero =>
      refine (Prog.wp_done _ _ _).mpr ⟨le_rfl, fun index inside => ?_⟩
      rw [Nat.mul_zero] at inside
      exact absurd inside (Nat.not_lt_zero _)
  | succ count ih =>
      have none (after : State) : ((0 : Nat) ≤ count + 1) ∧
          ∀ index < 2 * halves * 0, after.mem (addr + index) = source index :=
        ⟨Nat.zero_le _, fun index inside => absurd inside (Nat.not_lt_zero _)⟩
      rw [programUnits]
      refine wp_onDone_bind wp_programHalves_value_accepted fun accepted middle first => ?_
      refine Prog.wp_ite (fun yes => ?_) fun no => (Prog.wp_done _ _ _).mpr (none middle)
      -- The later units lie behind the first one.
      have apart := @touches_programUnits geometry _ halves count (addr + 2 * halves)
        (fun index => source (2 * halves + index)) Set.Subset.rfl
      refine wp_onDone_bind (wp_onDone_and ih (wp_onDone_confined apart))
        fun written after both => (Prog.wp_done _ _ _).mpr ?_
      obtain ⟨⟨few, rest⟩, confined⟩ := both
      refine ⟨Nat.succ_le_succ few, fun index inside => ?_⟩
      rw [Nat.mul_succ] at inside
      rcases Nat.lt_or_ge index (2 * halves) with early | late
      · have kept : after.mem (addr + index) = middle.mem (addr + index) :=
          confined.kept fun member => absurd (Set.mem_Ico.mp member).1 (by omega)
        rw [kept, first yes, overlay_inside _ _ (by omega) (by omega), Nat.add_sub_cancel_left]
      · have stored := rest (index - 2 * halves) (by omega)
        rw [show addr + 2 * halves + (index - 2 * halves) = addr + index by omega,
          show 2 * halves + (index - 2 * halves) = index by omega] at stored
        exact stored

/-! ## Cells that stay erased -/

/-- The operation programs an erased byte to the cell, if it addresses it at all. -/
def Op.Spares (cell : Nat) : Op → Prop
  | .program addr low high =>
      (addr = cell → low = erasedByte) ∧ (addr + 1 = cell → high = erasedByte)
  | .erase _ | .read | .setLock _ | .stamp _ _ _ => True

/-- A failing operation leaves the cell erased. -/
def Fault.Spares (cell : Nat) (fault : Fault) : Prop :=
  ∀ left, fault = .fail left → left cell = erasedByte

/-- Operations that spare an erased cell leave it erased, whatever fails. -/
theorem wp_spares {cell : Nat} {program : FlashProg geometry α}
    (calls : program.Calls (Op.Spares cell)) (erased : state.mem cell = erasedByte) :
    program.wp (Fault.Spares cell) (onDone fun _ after => after.mem cell = erasedByte) state := by
  have preserved (op : Op) (fault : Fault) (before : State) (spares : op.Spares cell)
      (spared : fault.Spares cell) :
      before.mem cell = erasedByte → (apply geometry op fault before).2.mem cell = erasedByte := by
    intro erased
    have half {addr : Nat} {low high : UInt8} (first : addr = cell → low = erasedByte)
        (second : addr + 1 = cell → high = erasedByte) :
        putHalf addr low high before.mem cell = erasedByte := by
      unfold putHalf
      split_ifs with atLow atHigh
      · exact first atLow.symm
      · exact second atHigh.symm
      · exact erased
    cases op with
    | erase addr =>
        simp only [apply, applyErase]
        split
        · exact erased
        · cases fault with
          | none | zeroOver => exact ite_eq_left_iff.mpr fun _ => erased
          | fail left =>
              have cellLeft : left cell = erasedByte := spared left rfl
              simp only [fillPage, cellLeft]
              split
              · rfl
              · exact erased
    | program addr low high =>
        simp only [apply, applyProgram]
        split
        · exact erased
        · cases fault with
          | none | zeroOver =>
              dsimp only
              split
              · exact half spares.1 spares.2
              · exact erased
          | fail left =>
              refine half (fun same => ?_) fun same => ?_
              · rw [same]
                exact spared left rfl
              · rw [same]
                exact spared left rfl
    | read | setLock _ | stamp _ _ _ => exact erased
  have kept := Prog.wp_of_calls (D := flash geometry)
    (fun before after : State => before.mem cell = erasedByte → after.mem cell = erasedByte)
    (fun _ erased => erased) (fun early late erased => late (early erased)) preserved calls state
  exact Prog.wp_mono kept (fun _ _ still => still erased) (fun _ _ => trivial) fun _ _ => trivial

/-- Programs confined to other cells spare a cell. -/
theorem Touches.spares {region : Set Nat} {cell : Nat} {program : FlashProg geometry α}
    (touches : Touches geometry region program) (outside : cell ∉ region) :
    program.Calls (Op.Spares cell) := by
  refine Prog.calls_mono touches.calls fun op inside => ?_
  cases op with
  | program addr low high =>
      refine ⟨fun same => ?_, fun same => ?_⟩
      · exact absurd (inside (Or.inl same.symm)) outside
      · exact absurd (inside (Or.inr same.symm)) outside
  | erase _ | read | setLock _ | stamp _ _ _ => trivial

/-- Programming a source spares the cells for which it has an erased byte. -/
theorem spares_programHalves {count addr number cell : Nat}
    (erased : ∀ index < 2 * count, addr + index = cell →
      LittleEndian.byte number index = erasedByte) :
    (programHalves geometry count addr number).Calls (Op.Spares cell) := by
  induction count generalizing addr number with
  | zero => trivial
  | succ count ih =>
      refine Prog.calls_bind (D := flash geometry)
        ⟨⟨erased 0 (by omega), erased 1 (by omega)⟩, fun _ => trivial⟩ fun accepted => ?_
      cases accepted with
      | true =>
          refine ih fun index inside same => ?_
          have byte := erased (index + 2) (by omega) (by omega)
          rw [LittleEndian.byte_succ, LittleEndian.byte_succ, Nat.div_div_eq_div_mul] at byte
          exact byte
      | false => trivial

end NorFlash
