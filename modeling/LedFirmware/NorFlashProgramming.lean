import LedFirmware.LittleEndian
import LedFirmware.NorFlash
import Mathlib.Tactic.Ring

/-!
# Multi-word programming and multi-page erase

Programs built from single flash calls, together with the memory they produce
when no call fails.  `Ends` is the failure-free result of a program; what holds
when power is lost on the way follows from the region the program touches.
-/

namespace NorFlash

open CrashProgram

/-- Without failures, and while power lasts, the program takes the memory and
the lock to the given ones and returns the value, whatever the log. -/
structure Ends {geometry : Geometry} (program : FlashProg geometry α) (mem : Mem)
    (locked : Bool) (value : α) (finalMem : Mem) (finalLocked : Bool) : Prop where
  wp : ∀ log, program.wp Reliable
    ⟨fun result (after : State) =>
        result = value ∧ after.mem = finalMem ∧ after.locked = finalLocked,
      fun _ => True, fun _ => False⟩ (⟨mem, locked, log⟩ : State)

namespace Ends

variable {geometry : Geometry} {mem middle final : Mem} {locked open' closed : Bool}
  {α β : Type} {value : α} {result : β}

theorem done (value : α) :
    Ends (.done value : FlashProg geometry α) mem locked value mem locked :=
  ⟨fun _ => (Prog.wp_done _ _ _).mpr ⟨rfl, rfl, rfl⟩⟩

theorem bind {program : FlashProg geometry α} {next : α → FlashProg geometry β}
    (first : Ends program mem locked value middle open')
    (rest : Ends (next value) middle open' result final closed) :
    Ends (program >>= next) mem locked result final closed := by
  refine ⟨fun log => ?_⟩
  rw [Prog.wp_bind]
  refine Prog.wp_mono (first.wp log) ?_ (fun _ _ => trivial) (fun _ impossible => impossible)
  rintro found ⟨afterMem, afterLocked, afterLog⟩ ⟨rfl, rfl, rfl⟩
  exact rest.wp afterLog

theorem read : Ends (read geometry) mem locked mem mem locked :=
  ⟨fun _ => wp_read trivial ⟨rfl, rfl, rfl⟩⟩

theorem setLock (wanted : Bool) : Ends (setLock geometry wanted) mem locked () mem wanted :=
  ⟨fun _ => wp_setLock trivial ⟨rfl, rfl, rfl⟩⟩

theorem stamp (addr length digest : Nat) :
    Ends (stamp geometry addr length digest) mem locked () mem locked :=
  ⟨fun _ => wp_stamp trivial ⟨rfl, rfl, rfl⟩⟩

theorem erase {addr : Nat} (contains : geometry.Contains addr) :
    Ends (erase geometry addr) mem false true
      (fillPage geometry addr (fun _ => erasedByte) mem) false :=
  ⟨fun _ => wp_erase rfl contains trivial ⟨rfl, rfl, rfl⟩⟩

theorem program {addr : Nat} {low high : UInt8} (first : geometry.Contains addr)
    (second : geometry.Contains (addr + 1)) (even : addr % 2 = 0)
    (lowErased : mem addr = erasedByte) (highErased : mem (addr + 1) = erasedByte) :
    Ends (program geometry addr low high) mem false true (putHalf addr low high mem) false :=
  ⟨fun _ => wp_program rfl first second even lowErased highErased trivial ⟨rfl, rfl, rfl⟩⟩

/-- Programming the first two bytes of a source stores them. -/
theorem program_source {addr : Nat} {source : Nat → UInt8} (first : geometry.Contains addr)
    (second : geometry.Contains (addr + 1)) (even : addr % 2 = 0)
    (lowErased : mem addr = erasedByte) (highErased : mem (addr + 1) = erasedByte) :
    Ends (NorFlash.program geometry addr (source 0) (source 1)) mem false true
      (overlay addr 2 source mem) false := by
  rw [← putHalf_eq_overlay]
  exact program first second even lowErased highErased

/-- A powered run without failures reaches the result. -/
theorem run {program : FlashProg geometry α}
    (ends : Ends program mem locked value final closed) (log : List Record)
    {schedule : FlashSchedule}
    (within : Schedule.Within (D := flash geometry) Reliable schedule)
    (powered : Schedule.Powered (D := flash geometry) schedule) :
    ∃ newLog used, Prog.run program schedule (⟨mem, locked, log⟩ : State) =
      .done value (⟨final, closed, newLog⟩ : State) fun index => schedule (index + used) := by
  obtain ⟨found, ⟨afterMem, afterLocked, afterLog⟩, used, ended, rfl, rfl, rfl⟩ :=
    Prog.run_completes (ends.wp log) within powered (fun _ impossible => impossible)
  exact ⟨afterLog, used, ended⟩

end Ends

/-- Whatever fails, the program only reads: it leaves the state as it is and
returns the value. -/
structure Returns {geometry : Geometry} (program : FlashProg geometry α) (mem : Mem)
    (value : α) : Prop where
  wp : ∀ (allowed : Fault → Prop) (post : FlashPost geometry α) (state : State),
    state.mem = mem → post.lost state → post.done value state → program.wp allowed post state

namespace Returns

variable {geometry : Geometry} {mem : Mem} {α β : Type} {value : α} {result : β}

theorem done (value : α) : Returns (.done value : FlashProg geometry α) mem value :=
  ⟨fun _ _ _ _ _ holds => (Prog.wp_done _ _ _).mpr holds⟩

theorem read : Returns (read geometry) mem mem := by
  refine ⟨?_⟩
  rintro allowed post state rfl lost done
  exact wp_read lost done

/-- A program that only reads may be skipped. -/
theorem wp_bind {program : FlashProg geometry α} {next : α → FlashProg geometry β}
    {allowed : Fault → Prop} {post : FlashPost geometry β} {state : State}
    (first : Returns program state.mem value) (lost : post.lost state)
    (rest : (next value).wp allowed post state) : (program >>= next).wp allowed post state := by
  rw [Prog.wp_bind]
  exact first.wp _ _ state rfl lost rest

theorem bind {program : FlashProg geometry α} {next : α → FlashProg geometry β}
    (first : Returns program mem value) (rest : Returns (next value) mem result) :
    Returns (program >>= next) mem result := by
  refine ⟨?_⟩
  rintro allowed post state rfl lost done
  exact first.wp_bind lost (rest.wp _ _ state rfl lost done)

theorem ends {program : FlashProg geometry α} (returns : Returns program mem value)
    (locked : Bool) : Ends program mem locked value mem locked :=
  ⟨fun _ => returns.wp _ _ _ rfl trivial ⟨rfl, rfl, rfl⟩⟩

end Returns

/-- `Ends`, and at whatever point the power is lost, only the region has changed.
The program may spin only if its iteration budget is not `enough`. -/
structure Completes {geometry : Geometry} (enough : Prop) (region : Set Nat)
    (program : FlashProg geometry α) (mem : Mem) (locked : Bool) (value : α) (finalMem : Mem)
    (finalLocked : Bool) : Prop where
  wp : ∀ log, program.wp Reliable
    ⟨fun result (after : State) =>
        (result = value ∧ after.mem = finalMem ∧ after.locked = finalLocked) ∧
          Confined geometry region ⟨mem, locked, log⟩ after,
      Confined geometry region ⟨mem, locked, log⟩,
      fun after => ¬ enough ∧ Confined geometry region ⟨mem, locked, log⟩ after⟩
    (⟨mem, locked, log⟩ : State)

namespace Completes

variable {geometry : Geometry} {enough : Prop} {region : Set Nat} {mem middle final : Mem}
  {locked open' closed : Bool} {α β : Type} {value : α} {result : β}

theorem of_ends {program : FlashProg geometry α}
    (ends : Ends program mem locked value final closed)
    (touches : Touches geometry region program) :
    Completes enough region program mem locked value final closed :=
  ⟨fun log => Prog.wp_mono (Prog.wp_and (ends.wp log) (wp_of_touches touches _))
    (fun _ _ both => both) (fun _ both => both.2) fun _ impossible => impossible.1.elim⟩

theorem of_returns {program : FlashProg geometry α} (returns : Returns program mem value) :
    Completes enough region program mem locked value mem locked :=
  ⟨fun _ => returns.wp _ _ _ rfl (Confined.refl _) ⟨⟨rfl, rfl, rfl⟩, Confined.refl _⟩⟩

theorem done (value : α) :
    Completes enough region (.done value : FlashProg geometry α) mem locked value mem locked :=
  of_returns (.done value)

theorem bind {program : FlashProg geometry α} {next : α → FlashProg geometry β}
    (first : Completes enough region program mem locked value middle open')
    (rest : Completes enough region (next value) middle open' result final closed) :
    Completes enough region (program >>= next) mem locked result final closed := by
  refine ⟨fun log => ?_⟩
  rw [Prog.wp_bind]
  refine Prog.wp_mono (first.wp log) ?_ (fun _ holds => holds) (fun _ holds => holds)
  rintro found ⟨afterMem, afterLocked, afterLog⟩ ⟨⟨rfl, rfl, rfl⟩, early⟩
  exact Prog.wp_mono (rest.wp afterLog) (fun _ _ later => ⟨later.1, early.trans later.2⟩)
    (fun _ later => early.trans later) fun _ later => ⟨later.1, early.trans later.2⟩

theorem ends {program : FlashProg geometry α}
    (completes : Completes enough region program mem locked value final closed)
    (budget : enough) : Ends program mem locked value final closed :=
  ⟨fun log => Prog.wp_mono (completes.wp log) (fun _ _ both => both.1) (fun _ _ => trivial)
    fun _ spins => spins.1 budget⟩

end Completes

section Programs

variable (geometry : Geometry)

/-- Program `count` half-words of a number, least significant first, up to the
first failure. -/
def programHalves : (count addr number : Nat) → FlashProg geometry Bool
  | 0, _, _ => .done true
  | count + 1, addr, number =>
      program geometry addr (LittleEndian.byte number 0) (LittleEndian.byte number 1) >>=
        fun accepted =>
          if accepted then programHalves count (addr + 2) (number / 65536) else .done false

/-- Program `count` consecutive units of `halves` half-words each and return
how many succeeded before the first failure. -/
def programUnits (halves : Nat) : (count addr : Nat) → (source : Nat → UInt8) →
    FlashProg geometry Nat
  | 0, _, _ => .done 0
  | count + 1, addr, source =>
      programHalves geometry halves addr (LittleEndian.value (2 * halves) source) >>=
        fun accepted =>
          if accepted then
            programUnits halves count (addr + 2 * halves)
                (fun index => source (2 * halves + index)) >>=
              fun written => .done (written + 1)
          else .done 0

/-- Erase `count` consecutive pages, up to the first failure. -/
def erasePages : (count addr : Nat) → FlashProg geometry Bool
  | 0, _ => .done true
  | count + 1, addr =>
      erase geometry addr >>= fun erased =>
        if erased then erasePages count (addr + geometry.page) else .done false

end Programs

variable {geometry : Geometry} {mem : Mem}

theorem programUnits_congr {halves count addr : Nat} {first second : Nat → UInt8}
    (same : ∀ index < 2 * halves * count, first index = second index) :
    programUnits geometry halves count addr first =
      programUnits geometry halves count addr second := by
  induction count generalizing addr first second with
  | zero => rfl
  | succ count ih =>
      have unit : LittleEndian.value (2 * halves) first = LittleEndian.value (2 * halves) second :=
        LittleEndian.value_congr fun index inside => same index (by rw [Nat.mul_succ]; omega)
      have rest := @ih (addr + 2 * halves) (fun index => first (2 * halves + index))
        (fun index => second (2 * halves + index))
        fun index inside => same _ (by rw [Nat.mul_succ]; omega)
      rw [programUnits, programUnits, unit, rest]

/-! ## Regions -/

theorem touches_programHalves {region : Set Nat} (count addr number : Nat)
    (inside : Set.Ico addr (addr + 2 * count) ⊆ region) :
    Touches geometry region (programHalves geometry count addr number) := by
  induction count generalizing addr number with
  | zero => exact .done true
  | succ count ih =>
      refine .bind (.program (inside ?_) (inside ?_)) fun accepted => .ite (fun _ => ?_)
        fun _ => .done false
      · simp only [Set.mem_Ico]; omega
      · simp only [Set.mem_Ico]; omega
      · exact ih _ _ ((Set.Ico_subset_Ico (by omega) (by omega)).trans inside)

theorem touches_programUnits {region : Set Nat} (halves count addr : Nat)
    (source : Nat → UInt8)
    (inside : Set.Ico addr (addr + 2 * halves * count) ⊆ region) :
    Touches geometry region (programUnits geometry halves count addr source) := by
  induction count generalizing addr source with
  | zero => exact .done 0
  | succ count ih =>
      have total : 2 * halves * (count + 1) = 2 * halves + 2 * halves * count := by ring
      refine .bind (touches_programHalves _ _ _ ?_) fun accepted => .ite (fun _ => ?_)
        fun _ => .done 0
      · exact (Set.Ico_subset_Ico (by omega) (by omega)).trans inside
      · exact .bind (ih _ _ ((Set.Ico_subset_Ico (by omega) (by omega)).trans inside))
          fun written => .done (written + 1)

/-- On page boundaries an erase touches whole pages. -/
theorem touches_erasePages {region : Set Nat} (positive : 0 < geometry.page) (count addr : Nat)
    (aligned : addr % geometry.page = 0)
    (inside : Set.Ico addr (addr + geometry.page * count) ⊆ region) :
    Touches geometry region (erasePages geometry count addr) := by
  induction count generalizing addr with
  | zero => exact .done true
  | succ count ih =>
      have total : geometry.page * (count + 1) = geometry.page + geometry.page * count := by ring
      refine .bind (.erase fun cell samePage => inside ?_) fun erased => .ite (fun _ => ?_)
        fun _ => .done false
      · have bounds := (samePage_iff positive aligned).mp samePage
        simp only [Set.mem_Ico]
        omega
      · refine ih _ ?_ ((Set.Ico_subset_Ico (by omega) (by omega)).trans inside)
        rw [Nat.add_mod_right, aligned]

/-! ## Termination -/

theorem halts_read : (read geometry).Halts := fun mem => Prog.halts_done mem

theorem halts_setLock (locked : Bool) : (setLock geometry locked).Halts :=
  fun reply => Prog.halts_done reply

theorem halts_stamp (addr length digest : Nat) : (stamp geometry addr length digest).Halts :=
  fun reply => Prog.halts_done reply

theorem halts_programHalves (count addr number : Nat) :
    (programHalves geometry count addr number).Halts := by
  induction count generalizing addr number with
  | zero => trivial
  | succ count ih =>
      refine Prog.halts_bind (fun _ => trivial) fun accepted => ?_
      cases accepted with
      | true => exact ih _ _
      | false => trivial

theorem halts_programUnits (halves count addr : Nat) (source : Nat → UInt8) :
    (programUnits geometry halves count addr source).Halts := by
  induction count generalizing addr source with
  | zero => trivial
  | succ count ih =>
      refine Prog.halts_bind (halts_programHalves _ _ _) fun accepted => ?_
      cases accepted with
      | true => exact Prog.halts_bind (ih _ _) fun _ => trivial
      | false => trivial

theorem halts_erasePages (count addr : Nat) : (erasePages geometry count addr).Halts := by
  induction count generalizing addr with
  | zero => trivial
  | succ count ih =>
      refine Prog.halts_bind (fun _ => trivial) fun erased => ?_
      cases erased with
      | true => exact ih _
      | false => trivial

/-! ## Results without failures -/

/-- The address range lies in the flash. -/
def Geometry.Covers (geometry : Geometry) (addr length : Nat) : Prop :=
  geometry.base ≤ addr ∧ addr + length ≤ geometry.base + geometry.size

theorem ends_programHalves {count addr number : Nat} {mem : Mem}
    (covers : geometry.Covers addr (2 * count)) (even : addr % 2 = 0)
    (erased : ∀ index < 2 * count, mem (addr + index) = erasedByte) :
    Ends (programHalves geometry count addr number) mem false true
      (overlay addr (2 * count) (LittleEndian.byte number) mem) false := by
  induction count generalizing addr number mem with
  | zero => simpa [programHalves] using Ends.done true
  | succ count ih =>
      obtain ⟨lower, upper⟩ := covers
      have first := @Ends.program_source geometry mem addr (LittleEndian.byte number)
        ⟨lower, by omega⟩ ⟨by omega, by omega⟩ even (erased 0 (by omega)) (erased 1 (by omega))
      have restErased : ∀ index < 2 * count,
          overlay addr 2 (LittleEndian.byte number) mem (addr + 2 + index) = erasedByte := by
        intro index inside
        rw [overlay_outside _ _ (by omega), Nat.add_assoc]
        exact erased _ (by omega)
      have restCovers : geometry.Covers (addr + 2) (2 * count) := ⟨by omega, by omega⟩
      have rest := @ih _ (number / 65536) _ restCovers (by omega) restErased
      rw [LittleEndian.byte_half, overlay_append,
        show 2 + 2 * count = 2 * (count + 1) by omega] at rest
      exact first.bind rest

/-- Programming a number read from a source stores the source. -/
theorem ends_programHalves_value {count addr : Nat} {source : Nat → UInt8} {mem : Mem}
    (covers : geometry.Covers addr (2 * count)) (even : addr % 2 = 0)
    (erased : ∀ index < 2 * count, mem (addr + index) = erasedByte) :
    Ends (programHalves geometry count addr (LittleEndian.value (2 * count) source)) mem false
      true (overlay addr (2 * count) source mem) false := by
  have stored : overlay addr (2 * count)
      (LittleEndian.byte (LittleEndian.value (2 * count) source)) mem =
      overlay addr (2 * count) source mem :=
    overlay_congr mem fun index inside => LittleEndian.byte_value source inside
  rw [← stored]
  exact ends_programHalves covers even erased

theorem ends_programUnits {halves count addr : Nat} {source : Nat → UInt8} {mem : Mem}
    (covers : geometry.Covers addr (2 * halves * count)) (even : addr % 2 = 0)
    (erased : ∀ index < 2 * halves * count, mem (addr + index) = erasedByte) :
    Ends (programUnits geometry halves count addr source) mem false count
      (overlay addr (2 * halves * count) source mem) false := by
  induction count generalizing addr source mem with
  | zero => simpa [programUnits] using Ends.done 0
  | succ count ih =>
      obtain ⟨lower, upper⟩ := covers
      have total : 2 * halves * (count + 1) = 2 * halves + 2 * halves * count := by ring
      have first : Ends (programHalves geometry halves addr
          (LittleEndian.value (2 * halves) source)) mem false true
          (overlay addr (2 * halves) source mem) false :=
        ends_programHalves_value ⟨lower, by omega⟩ even fun index inside =>
          erased index (by omega)
      have restErased : ∀ index < 2 * halves * count,
          overlay addr (2 * halves) source mem (addr + 2 * halves + index) = erasedByte := by
        intro index inside
        rw [overlay_outside _ _ (by omega), Nat.add_assoc]
        exact erased _ (by omega)
      have restCovers : geometry.Covers (addr + 2 * halves) (2 * halves * count) :=
        ⟨by omega, by omega⟩
      have rest := @ih _ (fun index => source (2 * halves + index)) _ restCovers (by omega)
        restErased
      rw [overlay_append, ← total] at rest
      exact first.bind (rest.bind (.done (count + 1)))

/-- Erasing the page that starts at an address. -/
theorem Ends.erase_page {addr : Nat} (positive : 0 < geometry.page)
    (aligned : addr % geometry.page = 0) (contains : geometry.Contains addr) :
    Ends (NorFlash.erase geometry addr) mem false true
      (overlay addr geometry.page (fun _ => erasedByte) mem) false := by
  rw [← fillPage_eq_overlay positive aligned (fun _ => erasedByte)]
  exact .erase contains

/-- Erasing pages from a page boundary leaves them all erased. -/
theorem ends_erasePages {count addr : Nat} {mem : Mem} (positive : 0 < geometry.page)
    (aligned : addr % geometry.page = 0)
    (covers : geometry.Covers addr (geometry.page * count)) :
    Ends (erasePages geometry count addr) mem false true
      (overlay addr (geometry.page * count) (fun _ => erasedByte) mem) false := by
  induction count generalizing addr mem with
  | zero => simpa [erasePages] using Ends.done true
  | succ count ih =>
      obtain ⟨lower, upper⟩ := covers
      have total : geometry.page * (count + 1) = geometry.page + geometry.page * count := by ring
      have first := @Ends.erase_page _ mem _ positive aligned ⟨lower, by omega⟩
      have restAligned : (addr + geometry.page) % geometry.page = 0 := by
        rw [Nat.add_mod_right, aligned]
      have restCovers : geometry.Covers (addr + geometry.page) (geometry.page * count) :=
        ⟨by omega, by omega⟩
      have rest := @ih _ (overlay addr geometry.page (fun _ => erasedByte) mem) restAligned
        restCovers
      rw [overlay_append addr geometry.page _ (fun _ => erasedByte), ← total] at rest
      exact first.bind rest

/-! ## Programming what is already there -/

/-- `Ends` for programs whose returned value does not matter. -/
structure Settles {geometry : Geometry} (program : FlashProg geometry α) (mem : Mem)
    (locked : Bool) (finalMem : Mem) (finalLocked : Bool) : Prop where
  wp : ∀ log, program.wp Reliable
    ⟨fun _ (after : State) => after.mem = finalMem ∧ after.locked = finalLocked,
      fun _ => True, fun _ => False⟩ (⟨mem, locked, log⟩ : State)

theorem Ends.settles {program : FlashProg geometry α} {mem final : Mem} {locked closed : Bool}
    {value : α} (ends : Ends program mem locked value final closed) :
    Settles program mem locked final closed :=
  ⟨fun log => Prog.wp_mono (ends.wp log) (fun _ _ reached => reached.2) (fun _ _ => trivial)
    fun _ impossible => impossible⟩

/-- What follows starts in the final memory, whatever was returned. -/
theorem Settles.wp_bind {program : FlashProg geometry α} {next : α → FlashProg geometry β}
    {mem middle : Mem} {locked open' : Bool} {post : FlashPost geometry β}
    (first : Settles program mem locked middle open') (lost : ∀ state, post.lost state)
    (rest : ∀ value log, (next value).wp Reliable post ⟨middle, open', log⟩) (log : List Record) :
    (program >>= next).wp Reliable post ⟨mem, locked, log⟩ := by
  rw [Prog.wp_bind]
  refine Prog.wp_mono (first.wp log) ?_ (fun _ _ => lost _) (fun _ impossible => impossible.elim)
  rintro value ⟨afterMem, afterLocked, afterLog⟩ ⟨rfl, rfl⟩
  exact rest value afterLog

theorem Settles.bind {program : FlashProg geometry α} {next : α → FlashProg geometry β}
    {mem middle final : Mem} {locked open' closed : Bool}
    (first : Settles program mem locked middle open')
    (rest : ∀ value, Settles (next value) middle open' final closed) :
    Settles (program >>= next) mem locked final closed :=
  ⟨first.wp_bind (fun _ => trivial) fun value => (rest value).wp⟩

/-- Where the first value does not matter, the second one is returned. -/
theorem Settles.ends_bind {program : FlashProg geometry α} {next : α → FlashProg geometry β}
    {mem middle final : Mem} {locked open' closed : Bool} {result : β}
    (first : Settles program mem locked middle open')
    (rest : ∀ value, Ends (next value) middle open' result final closed) :
    Ends (program >>= next) mem locked result final closed :=
  ⟨first.wp_bind (fun _ => trivial) fun value => (rest value).wp⟩

theorem Settles.done (value : α) (mem : Mem) (locked : Bool) :
    Settles (.done value : FlashProg geometry α) mem locked mem locked :=
  ⟨fun _ => (Prog.wp_done _ _ _).mpr ⟨rfl, rfl⟩⟩

theorem settles_programHalves {count addr number : Nat} {mem : Mem} {locked : Bool}
    (same : ∀ index < 2 * count, mem (addr + index) = LittleEndian.byte number index) :
    Settles (programHalves geometry count addr number) mem locked mem locked := by
  induction count generalizing addr number with
  | zero => exact .done true mem locked
  | succ count ih =>
      have restSame : ∀ index < 2 * count,
          mem (addr + 2 + index) = LittleEndian.byte (number / 65536) index := by
        intro index inside
        rw [LittleEndian.byte_half, Nat.add_assoc]
        exact same (2 + index) (by omega)
      refine .bind ⟨fun log => wp_program_same (same 0 (by omega)) (same 1 (by omega)) trivial
        fun _ => ⟨rfl, rfl⟩⟩ fun accepted => ?_
      cases accepted with
      | true => exact ih restSame
      | false => exact .done false mem locked

theorem settles_programUnits {halves count addr : Nat} {source : Nat → UInt8} {mem : Mem}
    {locked : Bool}
    (same : ∀ index < 2 * halves * count, mem (addr + index) = source index) :
    Settles (programUnits geometry halves count addr source) mem locked mem locked := by
  induction count generalizing addr source with
  | zero => exact .done 0 mem locked
  | succ count ih =>
      have total : 2 * halves * (count + 1) = 2 * halves + 2 * halves * count := by ring
      have restSame : ∀ index < 2 * halves * count,
          mem (addr + 2 * halves + index) = source (2 * halves + index) := by
        intro index inside
        rw [Nat.add_assoc]
        exact same _ (by omega)
      refine .bind (settles_programHalves fun index inside => ?_) fun accepted => ?_
      · rw [LittleEndian.byte_value source inside]
        exact same index (by omega)
      · cases accepted with
        | true => exact .bind (ih restSame) fun written => .done (written + 1) mem locked
        | false => exact .done 0 mem locked

end NorFlash
