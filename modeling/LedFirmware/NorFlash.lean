import LedFirmware.CrashProgram
import Mathlib.Order.Interval.Set.Basic

/-!
# NOR flash with page erase and half-word programming

The memory maps addresses to bytes.  An erase sets a whole page to `0xFF`; a
program operation stores a half-word into two erased cells and is refused,
leaving them as they are, when either cell is not erased; a flash may make the
exception that the HAL names and take a half-word of zeros there.  A transient
failure may leave anything in the cells the operation addresses, and in no
others.

Every erase, every program operation and every verification stamp is recorded
in a log, newest first, so that a property can speak about what happened since
the last write to a region.
-/

namespace NorFlash

open CrashProgram

abbrev Mem := Nat → UInt8

/-- The value of an erased cell. -/
def erasedByte : UInt8 := 0xFF

/-- The address range a flash occupies and its page size. -/
structure Geometry where
  base : Nat
  size : Nat
  page : Nat

def Geometry.Contains (geometry : Geometry) (addr : Nat) : Prop :=
  geometry.base ≤ addr ∧ addr < geometry.base + geometry.size

instance (geometry : Geometry) (addr : Nat) : Decidable (geometry.Contains addr) :=
  inferInstanceAs (Decidable (_ ∧ _))

/-- Calls to the flash controller.  `stamp` has no effect on the flash: it
records that a range was found to have a digest. -/
inductive Op
  | erase (addr : Nat)
  | program (addr : Nat) (low high : UInt8)
  | read
  | setLock (locked : Bool)
  | stamp (addr length digest : Nat)

inductive Record
  | erased (addr : Nat)
  | programmed (addr : Nat)
  | stamped (addr length digest : Nat)
  deriving DecidableEq

structure State where
  mem : Mem
  locked : Bool
  log : List Record

/-- How a call goes: without a fault, where cells in use take nothing; without a fault,
where they take a half-word of zeros; or with a transient failure that leaves the given
contents. -/
inductive Fault
  | none
  | zeroOver
  | fail (left : Mem)

/-- The half-word goes into erased cells, or it is one of zeros. -/
def Storable (mem : Mem) (addr : Nat) (low high : UInt8) : Prop :=
  (mem addr = erasedByte ∧ mem (addr + 1) = erasedByte) ∨ (low = 0 ∧ high = 0)

instance (mem : Mem) (addr : Nat) (low high : UInt8) : Decidable (Storable mem addr low high) :=
  inferInstanceAs (Decidable (_ ∨ _))

/-- Overwrite `length` bytes from `addr` on. -/
def overlay (addr length : Nat) (source : Nat → UInt8) (mem : Mem) : Mem :=
  fun cell => if addr ≤ cell ∧ cell < addr + length then source (cell - addr) else mem cell

/-- Replace the contents of the page that contains `addr`. -/
def fillPage (geometry : Geometry) (addr : Nat) (contents : Mem) (mem : Mem) : Mem :=
  fun cell => if cell / geometry.page = addr / geometry.page then contents cell else mem cell

def putHalf (addr : Nat) (low high : UInt8) (mem : Mem) : Mem :=
  fun cell => if cell = addr then low else if cell = addr + 1 then high else mem cell

def applyErase (geometry : Geometry) (addr : Nat) (fault : Fault) (state : State) :
    Bool × State :=
  let log := Record.erased addr :: state.log
  if state.locked = true ∨ ¬ geometry.Contains addr then (false, { state with log })
  else match fault with
    | .none | .zeroOver =>
        (true, { state with mem := fillPage geometry addr (fun _ => erasedByte) state.mem, log })
    | .fail left => (false, { state with mem := fillPage geometry addr left state.mem, log })

def applyProgram (geometry : Geometry) (addr : Nat) (low high : UInt8) (fault : Fault)
    (state : State) : Bool × State :=
  let log := Record.programmed addr :: state.log
  if state.locked = true ∨ ¬ geometry.Contains addr ∨ ¬ geometry.Contains (addr + 1) ∨
      addr % 2 ≠ 0 then (false, { state with log })
  else match fault with
    | .none =>
        if state.mem addr = erasedByte ∧ state.mem (addr + 1) = erasedByte then
          (true, { state with mem := putHalf addr low high state.mem, log })
        else (false, { state with log })
    | .zeroOver =>
        -- 0x0000 is the only half-word that may go over one that is not erased.
        if Storable state.mem addr low high then
          (true, { state with mem := putHalf addr low high state.mem, log })
        else (false, { state with log })
    | .fail left =>
        (false, { state with mem := putHalf addr (left addr) (left (addr + 1)) state.mem, log })

def Op.Reply : Op → Type
  | .erase _ | .program _ _ _ => Bool
  | .read => Mem
  | .setLock _ | .stamp _ _ _ => Unit

def apply (geometry : Geometry) : (op : Op) → Fault → State → op.Reply × State
  | .erase addr, fault, state => applyErase geometry addr fault state
  | .program addr low high, fault, state => applyProgram geometry addr low high fault state
  | .read, _, state => (state.mem, state)
  | .setLock locked, _, state => ((), { state with locked })
  | .stamp addr length digest, _, state =>
      ((), { state with log := .stamped addr length digest :: state.log })

/-- The flash as a device that programs can drive. -/
abbrev flash (geometry : Geometry) : Device where
  State := State
  Op := Op
  Reply := Op.Reply
  Fault := Fault
  apply := apply geometry

abbrev FlashProg (geometry : Geometry) := Prog (flash geometry)

abbrev FlashPost (geometry : Geometry) := Post (flash geometry)

abbrev FlashSchedule := Nat → Option Fault

section Calls

variable (geometry : Geometry)

def erase (addr : Nat) : FlashProg geometry Bool := .call (.erase addr) .done

def program (addr : Nat) (low high : UInt8) : FlashProg geometry Bool :=
  .call (.program addr low high) .done

def read : FlashProg geometry Mem := .call .read .done

def setLock (locked : Bool) : FlashProg geometry Unit := .call (.setLock locked) .done

def stamp (addr length digest : Nat) : FlashProg geometry Unit :=
  .call (.stamp addr length digest) .done

end Calls

/-! ## Memory updates -/

theorem overlay_inside {addr length cell : Nat} (source : Nat → UInt8) (mem : Mem)
    (lower : addr ≤ cell) (upper : cell < addr + length) :
    overlay addr length source mem cell = source (cell - addr) := by
  simp [overlay, lower, upper]

theorem overlay_outside {addr length cell : Nat} (source : Nat → UInt8) (mem : Mem)
    (outside : cell < addr ∨ addr + length ≤ cell) :
    overlay addr length source mem cell = mem cell := by
  have : ¬ (addr ≤ cell ∧ cell < addr + length) := by omega
  simp [overlay, this]

theorem overlay_eqOn (addr length : Nat) (source : Nat → UInt8) (mem : Mem) :
    Set.EqOn (overlay addr length source mem) mem (Set.Ico addr (addr + length))ᶜ := by
  intro cell outside
  apply overlay_outside
  simp only [Set.mem_compl_iff, Set.mem_Ico] at outside
  omega

@[simp] theorem overlay_zero (addr : Nat) (source : Nat → UInt8) (mem : Mem) :
    overlay addr 0 source mem = mem := by
  funext cell
  exact overlay_outside source mem (by omega)

/-- Two adjacent overlays from consecutive parts of one source are one. -/
theorem overlay_append (addr first second : Nat) (source : Nat → UInt8) (mem : Mem) :
    overlay (addr + first) second (fun index => source (first + index))
        (overlay addr first source mem) =
      overlay addr (first + second) source mem := by
  funext cell
  simp only [overlay]
  by_cases late : addr + first ≤ cell ∧ cell < addr + first + second
  · have index : first + (cell - (addr + first)) = cell - addr := by omega
    have both : addr ≤ cell ∧ cell < addr + (first + second) := by omega
    simp only [if_pos late, if_pos both, index]
  · by_cases early : addr ≤ cell ∧ cell < addr + first
    · have both : addr ≤ cell ∧ cell < addr + (first + second) := by omega
      simp only [if_neg late, if_pos early, if_pos both]
    · have neither : ¬ (addr ≤ cell ∧ cell < addr + (first + second)) := by omega
      simp only [if_neg late, if_neg early, if_neg neither]

theorem overlay_congr {addr length : Nat} {first second : Nat → UInt8} (mem : Mem)
    (same : ∀ index < length, first index = second index) :
    overlay addr length first mem = overlay addr length second mem := by
  funext cell
  by_cases inside : addr ≤ cell ∧ cell < addr + length
  · simp only [overlay, if_pos inside]
    exact same _ (by omega)
  · simp only [overlay, if_neg inside]

theorem putHalf_eq_overlay (addr : Nat) (source : Nat → UInt8) (mem : Mem) :
    putHalf addr (source 0) (source 1) mem = overlay addr 2 source mem := by
  funext cell
  by_cases first : cell = addr
  · subst first
    simp [putHalf, overlay]
  · by_cases second : cell = addr + 1
    · subst second
      simp [putHalf, overlay]
    · have outside : ¬ (addr ≤ cell ∧ cell < addr + 2) := by omega
      simp [putHalf, overlay, first, second, outside]

/-- The cells of the page that starts at an address. -/
theorem samePage_iff {geometry : Geometry} {addr cell : Nat} (positive : 0 < geometry.page)
    (aligned : addr % geometry.page = 0) :
    cell / geometry.page = addr / geometry.page ↔
      addr ≤ cell ∧ cell < addr + geometry.page := by
  have start := Nat.div_add_mod addr geometry.page
  have commuted := Nat.mul_comm (addr / geometry.page) geometry.page
  rw [Nat.div_eq_iff positive]
  omega

/-- On a page boundary, filling the page overlays one page. -/
theorem fillPage_eq_overlay {geometry : Geometry} {addr : Nat}
    (positive : 0 < geometry.page) (aligned : addr % geometry.page = 0)
    (contents mem : Mem) :
    fillPage geometry addr contents mem =
      overlay addr geometry.page (fun index => contents (addr + index)) mem := by
  funext cell
  by_cases inside : addr ≤ cell ∧ cell < addr + geometry.page
  · have index : addr + (cell - addr) = cell := by omega
    simp only [fillPage, overlay, samePage_iff positive aligned, if_pos inside, index]
  · simp only [fillPage, overlay, samePage_iff positive aligned, if_neg inside]

/-! ## What a call can touch -/

/-- The cells an operation addresses. -/
def Op.footprint (geometry : Geometry) : Op → Set Nat
  | .erase addr => {cell | cell / geometry.page = addr / geometry.page}
  | .program addr _ _ => {cell | cell = addr ∨ cell = addr + 1}
  | .read | .setLock _ | .stamp _ _ _ => ∅

/-- The cells a logged operation addressed. -/
def Record.footprint (geometry : Geometry) : Record → Set Nat
  | .erased addr => {cell | cell / geometry.page = addr / geometry.page}
  | .programmed addr => {cell | cell = addr ∨ cell = addr + 1}
  | .stamped _ _ _ => ∅

/-- From `before` to `after`, cells outside the region kept their contents and
every logged operation addressed the region only. -/
structure Confined (geometry : Geometry) (region : Set Nat) (before after : State) : Prop where
  kept : Set.EqOn after.mem before.mem regionᶜ
  logged : ∃ newer, after.log = newer ++ before.log ∧
    ∀ record ∈ newer, record.footprint geometry ⊆ region

namespace Confined

variable {geometry : Geometry} {region larger : Set Nat} {first second third : State}

theorem refl (state : State) : Confined geometry region state state :=
  ⟨fun _ _ => rfl, [], rfl, by simp⟩

theorem trans (early : Confined geometry region first second)
    (late : Confined geometry region second third) : Confined geometry region first third := by
  obtain ⟨newer, appended, inside⟩ := early.logged
  obtain ⟨newest, appendedLater, insideLater⟩ := late.logged
  refine ⟨late.kept.trans early.kept, newest ++ newer, ?_, ?_⟩
  · rw [appendedLater, appended, List.append_assoc]
  · intro record member
    rcases List.mem_append.mp member with recent | older
    · exact insideLater record recent
    · exact inside record older

theorem mono (confined : Confined geometry region first second) (subset : region ⊆ larger) :
    Confined geometry larger first second := by
  obtain ⟨newer, appended, inside⟩ := confined.logged
  exact ⟨confined.kept.mono (Set.compl_subset_compl.mpr subset), newer, appended,
    fun record member => (inside record member).trans subset⟩

/-- Cells outside the region keep their contents. -/
theorem mem_eq (confined : Confined geometry region first second) {cell : Nat}
    (outside : cell ∉ region) : second.mem cell = first.mem cell :=
  confined.kept outside

end Confined

theorem apply_confined (geometry : Geometry) (region : Set Nat) (op : Op) (fault : Fault)
    (state : State) (inside : op.footprint geometry ⊆ region) :
    Confined geometry region state (apply geometry op fault state).2 := by
  have notIn {cell : Nat} (outside : cell ∈ regionᶜ) : cell ∉ op.footprint geometry :=
    fun member => outside (inside member)
  cases op with
  | erase addr =>
      refine ⟨?_, [.erased addr], ?_, by simpa [Record.footprint, Op.footprint] using inside⟩
      · intro cell outside
        have other : ¬ cell / geometry.page = addr / geometry.page := notIn outside
        simp only [apply, applyErase]
        split
        · rfl
        · cases fault <;> simp [fillPage, other]
      · simp only [apply, applyErase]
        split
        · rfl
        · cases fault <;> rfl
  | program addr low high =>
      refine ⟨?_, [.programmed addr], ?_, by simpa [Record.footprint, Op.footprint] using inside⟩
      · intro cell outside
        have other : ¬ (cell = addr ∨ cell = addr + 1) := notIn outside
        rw [not_or] at other
        simp only [apply, applyProgram]
        split
        · rfl
        · cases fault with
          | none | zeroOver => dsimp only; split <;> simp [putHalf, other]
          | fail left => simp [putHalf, other]
      · simp only [apply, applyProgram]
        split
        · rfl
        · cases fault with
          | none | zeroOver => dsimp only; split <;> rfl
          | fail left => rfl
  | read => exact Confined.refl state
  | setLock locked => exact ⟨fun _ _ => rfl, [], rfl, by simp⟩
  | stamp addr length digest =>
      exact ⟨fun _ _ => rfl, [.stamped addr length digest], rfl, by simp [Record.footprint]⟩

/-- Every operation the program can call addresses the region only. -/
structure Touches (geometry : Geometry) (region : Set Nat) (program : FlashProg geometry α) :
    Prop where
  calls : program.Calls fun op : Op => op.footprint geometry ⊆ region

/-- A program that touches a region only is confined to it, whatever fails and
wherever power is lost. -/
theorem wp_of_touches {geometry : Geometry} {region : Set Nat} {allowed : Fault → Prop}
    {program : FlashProg geometry α} (touches : Touches geometry region program)
    (state : State) :
    program.wp allowed
      ⟨fun _ => Confined geometry region state, Confined geometry region state,
        Confined geometry region state⟩ state :=
  Prog.wp_of_calls (D := flash geometry) (Confined geometry region) Confined.refl
    (fun early late => early.trans late)
    (fun op fault state inside _ => apply_confined geometry region op fault state inside)
    touches.calls state

namespace Touches

variable {geometry : Geometry} {region larger : Set Nat} {α β : Type}

theorem mono {program : FlashProg geometry α} (touches : Touches geometry region program)
    (subset : region ⊆ larger) : Touches geometry larger program :=
  ⟨Prog.calls_mono touches.calls fun _ inside => inside.trans subset⟩

theorem done (value : α) : Touches geometry region (.done value) := ⟨trivial⟩

theorem spin : Touches geometry region (.spin : FlashProg geometry α) := ⟨trivial⟩

theorem bind {program : FlashProg geometry α} {next : α → FlashProg geometry β}
    (first : Touches geometry region program)
    (rest : ∀ value, Touches geometry region (next value)) :
    Touches geometry region (program >>= next) :=
  ⟨Prog.calls_bind first.calls fun value => (rest value).calls⟩

theorem ite {condition : Prop} [Decidable condition] {yes no : FlashProg geometry α}
    (whenYes : condition → Touches geometry region yes)
    (whenNo : ¬ condition → Touches geometry region no) :
    Touches geometry region (if condition then yes else no) := by
  split
  · exact whenYes ‹_›
  · exact whenNo ‹_›

theorem erase {addr : Nat} (inside : ∀ cell, cell / geometry.page = addr / geometry.page →
    cell ∈ region) : Touches geometry region (erase geometry addr) :=
  ⟨inside, fun _ => trivial⟩

theorem program {addr : Nat} {low high : UInt8} (first : addr ∈ region)
    (second : addr + 1 ∈ region) : Touches geometry region (program geometry addr low high) := by
  refine ⟨?_, fun _ => trivial⟩
  rintro cell (rfl | rfl)
  · exact first
  · exact second

theorem read : Touches geometry region (read geometry) :=
  ⟨Set.empty_subset _, fun _ => trivial⟩

theorem setLock (locked : Bool) : Touches geometry region (setLock geometry locked) :=
  ⟨Set.empty_subset _, fun _ => trivial⟩

theorem stamp (addr length digest : Nat) :
    Touches geometry region (stamp geometry addr length digest) :=
  ⟨Set.empty_subset _, fun _ => trivial⟩

end Touches

/-! ## Rules for single calls -/

/-- No transient failure, and cells in use take nothing. -/
def Reliable (fault : Fault) : Prop := fault = .none

/-- Any transient failure. -/
def AnyFault (_ : Fault) : Prop := True

theorem anyFault_within {geometry : Geometry} (schedule : FlashSchedule) :
    Schedule.Within (D := flash geometry) AnyFault schedule := fun _ _ _ => trivial

/-- Failures that leave exactly the given contents keep the memory at them. -/
theorem wp_frozen {geometry : Geometry} {mem : Mem} (program : FlashProg geometry α)
    {state : State} (start : state.mem = mem) :
    program.wp (fun fault : Fault => fault = .fail mem)
      ⟨fun _ (after : State) => after.mem = mem, fun after => after.mem = mem,
        fun after => after.mem = mem⟩ state := by
  have frozen (op : Op) (before : State) (same : before.mem = mem) :
      (apply geometry op (.fail mem) before).2.mem = mem := by
    have page (addr : Nat) : fillPage geometry addr mem mem = mem := by
      funext cell
      simp [fillPage]
    have half (addr : Nat) : putHalf addr (mem addr) (mem (addr + 1)) mem = mem := by
      funext cell
      by_cases low : cell = addr
      · simp [putHalf, low]
      · by_cases high : cell = addr + 1 <;> simp [putHalf, low, high]
    cases op with
    | erase addr =>
        simp only [apply, applyErase, same, page]
        split <;> rfl
    | program addr low high =>
        simp only [apply, applyProgram, same, half]
        split <;> rfl
    | read => exact same
    | setLock locked => exact same
    | stamp addr length digest => exact same
  refine Prog.wp_mono (Prog.wp_of_calls (D := flash geometry)
    (fun before after : State => before.mem = mem → after.mem = mem) (fun _ same => same)
    (fun early late same => late (early same)) ?_ (Prog.calls_true program) state)
    (fun _ _ kept => kept start) (fun _ kept => kept start) fun _ kept => kept start
  rintro op fault before - rfl same
  exact frozen op before same

section Rules

variable {geometry : Geometry} {allowed : Fault → Prop} {state : State}

theorem wp_read {post : FlashPost geometry Mem} (lost : post.lost state)
    (done : post.done state.mem state) : (read geometry).wp allowed post state :=
  (Prog.wp_call _ _ _ _).mpr ⟨lost, fun _ _ => (Prog.wp_done _ _ _).mpr done⟩

theorem wp_setLock {locked : Bool} {post : FlashPost geometry Unit} (lost : post.lost state)
    (done : post.done () { state with locked }) :
    (setLock geometry locked).wp allowed post state :=
  (Prog.wp_call _ _ _ _).mpr ⟨lost, fun _ _ => (Prog.wp_done _ _ _).mpr done⟩

theorem wp_stamp {addr length digest : Nat} {post : FlashPost geometry Unit}
    (lost : post.lost state)
    (done : post.done () { state with log := .stamped addr length digest :: state.log }) :
    (stamp geometry addr length digest).wp allowed post state :=
  (Prog.wp_call _ _ _ _).mpr ⟨lost, fun _ _ => (Prog.wp_done _ _ _).mpr done⟩

/-- Without failures a call has one effect only. -/
theorem wp_reliable (op : Op) {post : FlashPost geometry op.Reply} (lost : post.lost state)
    (done : post.done (apply geometry op .none state).1 (apply geometry op .none state).2) :
    (Prog.ask (D := flash geometry) op).wp Reliable post state := by
  refine (Prog.wp_call _ _ _ _).mpr ⟨lost, ?_⟩
  rintro fault rfl
  exact (Prog.wp_done _ _ _).mpr done

/-- Without failures, an erase of an unlocked flash erases the page. -/
theorem wp_erase {addr : Nat} {post : FlashPost geometry Bool}
    (unlocked : state.locked = false) (contains : geometry.Contains addr)
    (lost : post.lost state)
    (done : post.done true
      { mem := fillPage geometry addr (fun _ => erasedByte) state.mem
        locked := false
        log := .erased addr :: state.log }) :
    (erase geometry addr).wp Reliable post state := by
  refine @wp_reliable geometry state (.erase addr) post lost ?_
  have accepted : ¬ (state.locked = true ∨ ¬ geometry.Contains addr) := by
    simp [unlocked, contains]
  change post.done (applyErase geometry addr .none state).1
    (applyErase geometry addr .none state).2
  rw [applyErase, if_neg accepted, unlocked]
  exact done

/-- Without failures, programming two erased cells stores the half-word. -/
theorem wp_program {addr : Nat} {low high : UInt8} {post : FlashPost geometry Bool}
    (unlocked : state.locked = false) (first : geometry.Contains addr)
    (second : geometry.Contains (addr + 1)) (even : addr % 2 = 0)
    (lowErased : state.mem addr = erasedByte) (highErased : state.mem (addr + 1) = erasedByte)
    (lost : post.lost state)
    (done : post.done true
      { mem := putHalf addr low high state.mem
        locked := false
        log := .programmed addr :: state.log }) :
    (program geometry addr low high).wp Reliable post state := by
  refine @wp_reliable geometry state (.program addr low high) post lost ?_
  have accepted : ¬ (state.locked = true ∨ ¬ geometry.Contains addr ∨
      ¬ geometry.Contains (addr + 1) ∨ addr % 2 ≠ 0) := by
    simp [unlocked, first, second, even]
  change post.done (applyProgram geometry addr low high .none state).1
    (applyProgram geometry addr low high .none state).2
  simp only [applyProgram, if_neg accepted]
  rw [if_pos ⟨lowErased, highErased⟩, unlocked]
  exact done

/-- Without failures, programming cells with what they already hold leaves the
memory as it is, whether or not the operation is refused. -/
theorem wp_program_same {addr : Nat} {low high : UInt8} {post : FlashPost geometry Bool}
    (lowSame : state.mem addr = low) (highSame : state.mem (addr + 1) = high)
    (lost : post.lost state)
    (done : ∀ accepted, post.done accepted
      { state with log := .programmed addr :: state.log }) :
    (program geometry addr low high).wp Reliable post state := by
  refine @wp_reliable geometry state (.program addr low high) post lost ?_
  have same : putHalf addr low high state.mem = state.mem := by
    funext cell
    by_cases atLow : cell = addr
    · simp [putHalf, atLow, lowSame]
    · by_cases atHigh : cell = addr + 1
      · simp [putHalf, atHigh, highSame]
      · simp [putHalf, atLow, atHigh]
  change post.done (applyProgram geometry addr low high .none state).1
    (applyProgram geometry addr low high .none state).2
  simp only [applyProgram, same]
  split
  · exact done false
  · split
    · exact done true
    · exact done false

end Rules

end NorFlash
