import LedFirmware.NorFlashIssued
import LedFirmware.NorFlashRefusals

/-!
# The buffer write shared by both firmwares

`Flash_Write` exists twice, with a unit of eight bytes in the bootloader and of
four in the application.  `flashWriteBy` is that function with the unit, in
half-words, as a parameter.
-/

namespace LedFirmware

open CrashProgram NorFlash

/-- A buffer that starts with the given bytes. -/
def bufferOf (bytes : List UInt8) : Nat → UInt8 := fun index => bytes.getD index 0

theorem bufferOf_append_left {first second : List UInt8} {index : Nat}
    (inside : index < first.length) : bufferOf (first ++ second) index = bufferOf first index := by
  simp only [bufferOf, List.getD_eq_getElem?_getD, List.getElem?_append_left inside]

theorem bufferOf_append_right (first second : List UInt8) (index : Nat) :
    bufferOf (first ++ second) (first.length + index) = bufferOf second index := by
  simp only [bufferOf, List.getD_eq_getElem?_getD,
    List.getElem?_append_right (Nat.le_add_right _ _), Nat.add_sub_cancel_left]

/-- The first `length` bytes of a buffer, then erased cells. -/
def padded (length : Nat) (buf : Nat → UInt8) : Nat → UInt8 :=
  fun index => if index < length then buf index else erasedByte

/-- The length in whole units that `length` bytes occupy. -/
def roundUp (unit length : Nat) : Nat := unit * ((length + unit - 1) / unit)

/-- Program a buffer unit by unit and then a last unit padded with `0xFF`;
return the number of bytes programmed. -/
def flashWriteBy (geometry : Geometry) (halves addr : Nat) (buf : Nat → UInt8) (len : Nat) :
    FlashProg geometry Nat :=
  let unit := 2 * halves
  let leftNum := len % unit
  let full := len / unit
  if addr % unit ≠ 0 then .done 0
  else
    setLock geometry false >>= fun _ =>
    programUnits geometry halves full addr buf >>= fun written =>
    if written ≠ full then
      setLock geometry true >>= fun _ => .done (unit * written)
    else if leftNum ≠ 0 then
      programHalves geometry halves (addr + unit * full)
        (LittleEndian.value unit (padded leftNum fun index => buf (unit * full + index))) >>=
      fun accepted => setLock geometry true >>= fun _ =>
      .done (if accepted then len else unit * full)
    else
      setLock geometry true >>= fun _ => .done len

theorem padded_inside {length index : Nat} (buf : Nat → UInt8) (inside : index < length) :
    padded length buf index = buf index := if_pos inside

theorem le_roundUp {unit : Nat} (positive : 0 < unit) (length : Nat) :
    length ≤ roundUp unit length := by
  have split := Nat.div_add_mod (length + unit - 1) unit
  have bound := Nat.mod_lt (length + unit - 1) positive
  rw [roundUp]
  omega

theorem roundUp_le {unit length pages : Nat} (positive : 0 < unit)
    (fits : length ≤ unit * pages) : roundUp unit length ≤ unit * pages := by
  refine Nat.mul_le_mul_left unit (Nat.lt_succ_iff.mp ?_)
  rw [Nat.div_lt_iff_lt_mul positive, Nat.succ_mul, Nat.mul_comm pages]
  omega

theorem roundUp_split {unit : Nat} (positive : 0 < unit) (length : Nat) :
    roundUp unit length =
      unit * (length / unit) + if length % unit = 0 then 0 else unit := by
  have split := Nat.div_add_mod length unit
  have bound := Nat.mod_lt length positive
  rw [roundUp]
  by_cases exact : length % unit = 0
  · have count : (length + unit - 1) / unit = length / unit := by
      rw [Nat.div_eq_iff positive, Nat.mul_comm]
      omega
    simp [exact, count]
  · have count : (length + unit - 1) / unit = length / unit + 1 := by
      rw [Nat.div_eq_iff positive, Nat.mul_comm, Nat.mul_add]
      omega
    simp [exact, count, Nat.mul_add]

/-- Padding an erased range with erased cells writes the buffer only. -/
theorem overlay_padded {addr length whole : Nat} {buf : Nat → UInt8} {mem : Mem}
    (longer : length ≤ whole) (erased : ∀ index < whole, mem (addr + index) = erasedByte) :
    overlay addr whole (padded length buf) mem = overlay addr length buf mem := by
  funext cell
  by_cases inside : addr ≤ cell ∧ cell < addr + length
  · rw [overlay_inside _ _ inside.1 (by omega), overlay_inside _ _ inside.1 inside.2,
      padded_inside buf (by omega)]
  · rw [overlay_outside _ _ (by omega : cell < addr ∨ addr + length ≤ cell)]
    by_cases padding : addr ≤ cell ∧ cell < addr + whole
    · have still := erased (cell - addr) (by omega)
      rw [show addr + (cell - addr) = cell by omega] at still
      rw [overlay_inside _ _ padding.1 padding.2, padded, if_neg (by omega), still]
    · exact overlay_outside _ _ (by omega)

/-- A multiple of the unit is even. -/
theorem even_of_units {halves addr : Nat} (aligned : addr % (2 * halves) = 0) : addr % 2 = 0 := by
  have divides : 2 ∣ 2 * halves := ⟨halves, rfl⟩
  rw [← Nat.mod_mod_of_dvd addr divides, aligned]

section Write

variable {geometry : Geometry} {halves addr len : Nat} {buf : Nat → UInt8} {mem : Mem}

theorem touches_flashWriteBy {region : Set Nat} (positive : 0 < halves)
    (inside : Set.Ico addr (addr + roundUp (2 * halves) len) ⊆ region) :
    Touches geometry region (flashWriteBy geometry halves addr buf len) := by
  rw [roundUp_split (by omega)] at inside
  refine .ite (fun _ => .done 0) fun _ => .bind (.setLock false) fun _ => .bind ?_ fun written =>
    .ite (fun _ => .bind (.setLock true) fun _ => .done _) fun _ => .ite (fun partial' => ?_)
      fun _ => .bind (.setLock true) fun _ => .done len
  · exact touches_programUnits _ _ _ _
      ((Set.Ico_subset_Ico_right (by omega)).trans inside)
  · rw [if_neg partial'] at inside
    exact .bind (touches_programHalves _ _ _
        ((Set.Ico_subset_Ico (by omega) (by omega)).trans inside))
      fun accepted => .bind (.setLock true) fun _ => .done _

/-- A write reads the bytes of its buffer up to its length only. -/
theorem flashWriteBy_congr {other : Nat → UInt8} (same : ∀ index < len, buf index = other index) :
    flashWriteBy geometry halves addr buf len = flashWriteBy geometry halves addr other len := by
  have split := Nat.div_add_mod len (2 * halves)
  have full : programUnits geometry halves (len / (2 * halves)) addr buf =
      programUnits geometry halves (len / (2 * halves)) addr other :=
    programUnits_congr fun index inside => same index (by omega)
  have left : padded (len % (2 * halves))
        (fun index => buf (2 * halves * (len / (2 * halves)) + index)) =
      padded (len % (2 * halves)) fun index =>
        other (2 * halves * (len / (2 * halves)) + index) := by
    funext index
    by_cases inside : index < len % (2 * halves)
    · rw [padded, padded, if_pos inside, if_pos inside, same _ (by omega)]
    · rw [padded, padded, if_neg inside, if_neg inside]
  rw [flashWriteBy, flashWriteBy, full, left]

theorem halts_flashWriteBy : (flashWriteBy geometry halves addr buf len).Halts := by
  refine Prog.halts_ite trivial (Prog.halts_bind (fun _ => trivial) fun _ =>
    Prog.halts_bind (halts_programUnits _ _ _ _) fun written => Prog.halts_ite (fun _ => trivial)
      (Prog.halts_ite ?_ fun _ => trivial))
  exact Prog.halts_bind (halts_programHalves _ _ _) fun _ _ => trivial

/-- Writing a buffer to erased cells stores the buffer and changes nothing
else. -/
theorem ends_flashWriteBy (positive : 0 < halves) (aligned : addr % (2 * halves) = 0)
    (covers : geometry.Covers addr (roundUp (2 * halves) len))
    (erased : ∀ index < roundUp (2 * halves) len, mem (addr + index) = erasedByte)
    (locked : Bool) :
    Ends (flashWriteBy geometry halves addr buf len) mem locked len
      (overlay addr len buf mem) true := by
  obtain ⟨lower, upper⟩ := covers
  have even := even_of_units aligned
  have split := Nat.div_add_mod len (2 * halves)
  have bound := Nat.mod_lt len (show 0 < 2 * halves by omega)
  have rounded := roundUp_split (show 0 < 2 * halves by omega) len
  have units : Ends (programUnits geometry halves (len / (2 * halves)) addr buf) mem false
      (len / (2 * halves)) (overlay addr (2 * halves * (len / (2 * halves))) buf mem) false :=
    ends_programUnits ⟨lower, by omega⟩ even fun index inside => erased index (by omega)
  rw [flashWriteBy, if_neg (by omega)]
  refine (Ends.setLock false).bind (units.bind ?_)
  simp only [ne_eq, not_true_eq_false, if_false]
  by_cases exact : len % (2 * halves) = 0
  · rw [if_neg (by omega), show 2 * halves * (len / (2 * halves)) = len by omega]
    exact (Ends.setLock true).bind (.done len)
  · rw [if_pos exact]
    rw [if_neg exact] at rounded
    have last : ∀ index < 2 * halves,
        overlay addr (2 * halves * (len / (2 * halves))) buf mem
          (addr + 2 * halves * (len / (2 * halves)) + index) = erasedByte := by
      intro index inside
      rw [overlay_outside _ _ (by omega), Nat.add_assoc]
      exact erased _ (by omega)
    have step := @ends_programHalves_value geometry halves
      (addr + 2 * halves * (len / (2 * halves)))
      (padded (len % (2 * halves)) fun index => buf (2 * halves * (len / (2 * halves)) + index))
      _ ⟨by omega, by omega⟩
      (by rw [Nat.mul_assoc, Nat.add_mul_mod_self_left]; exact even) last
    rw [overlay_padded (by omega) last, overlay_append, split] at step
    exact step.bind ((Ends.setLock true).bind (.done len))

/-- The padded rest of a buffer is the end of the padded buffer. -/
theorem padded_rest (unit len : Nat) (buf : Nat → UInt8) :
    (padded (len % unit) fun index => buf (unit * (len / unit) + index)) =
      fun index => padded len buf (unit * (len / unit) + index) := by
  have split := Nat.div_add_mod len unit
  funext index
  rw [padded, padded]
  by_cases inside : index < len % unit
  · rw [if_pos inside, if_pos (by omega)]
  · rw [if_neg inside, if_neg (by omega)]

/-- Writing a buffer that is already stored changes nothing, whatever count is
returned. -/
theorem settles_flashWriteBy (positive : 0 < halves) (aligned : addr % (2 * halves) = 0)
    (same : ∀ index < roundUp (2 * halves) len, mem (addr + index) = padded len buf index)
    (locked : Bool) :
    Settles (flashWriteBy geometry halves addr buf len) mem locked mem true := by
  have split := Nat.div_add_mod len (2 * halves)
  have bound := Nat.mod_lt len (show 0 < 2 * halves by omega)
  have rounded := roundUp_split (show 0 < 2 * halves by omega) len
  have close {α : Type} (value : α) :
      Settles (setLock geometry true >>= fun _ => .done value) mem false mem true :=
    ((Ends.setLock true).bind (.done value)).settles
  have units : Settles (programUnits geometry halves (len / (2 * halves)) addr buf)
      mem false mem false := by
    refine settles_programUnits fun index inside => ?_
    rw [same index (by omega), padded_inside buf (by omega)]
  rw [flashWriteBy, if_neg (by omega)]
  refine (Ends.setLock false).settles.bind fun _ => units.bind fun written => ?_
  split_ifs with failed partial'
  · exact close _
  · rw [if_neg partial'] at rounded
    refine Settles.bind (settles_programHalves fun index inside => ?_) fun accepted => close _
    rw [LittleEndian.byte_value _ inside, Nat.add_assoc, same _ (by omega), padded_rest]
  · exact close _

/-- Without failures, a write to any memory stores the padded buffer up to the
first half-word that is not erased. -/
theorem ends_flashWriteBy_upTo (positive : 0 < halves) (aligned : addr % (2 * halves) = 0)
    (covers : geometry.Covers addr (roundUp (2 * halves) len)) (locked : Bool) :
    ∃ written, Ends (flashWriteBy geometry halves addr buf len) mem locked written
      (overlay addr (2 * erasedHalves mem (roundUp (2 * halves) len / 2) addr) (padded len buf) mem)
      true := by
  obtain ⟨lower, upper⟩ := covers
  have even := even_of_units aligned
  have split := Nat.div_add_mod len (2 * halves)
  have bound := Nat.mod_lt len (show 0 < 2 * halves by omega)
  have rounded := roundUp_split (show 0 < 2 * halves by omega) len
  have product : 2 * halves * (len / (2 * halves)) = 2 * (halves * (len / (2 * halves))) :=
    Nat.mul_assoc _ _ _
  have units := @ends_programUnits_upTo geometry mem halves (len / (2 * halves)) addr buf positive
    ⟨lower, by omega⟩ even
  have most := erasedHalves_le mem (halves * (len / (2 * halves))) addr
  have stored : overlay addr (2 * erasedHalves mem (halves * (len / (2 * halves))) addr) buf mem =
      overlay addr (2 * erasedHalves mem (halves * (len / (2 * halves))) addr)
        (padded len buf) mem :=
    overlay_congr mem fun index inside => (padded_inside buf (by omega)).symm
  rw [stored] at units
  have unlock := @Ends.setLock geometry mem locked false
  rw [flashWriteBy, if_neg (by omega)]
  by_cases whole : erasedHalves mem (halves * (len / (2 * halves))) addr =
      halves * (len / (2 * halves))
  · rw [whole, Nat.mul_div_cancel_left _ positive] at units
    by_cases exact : len % (2 * halves) = 0
    · have half : roundUp (2 * halves) len / 2 = halves * (len / (2 * halves)) := by
        rw [if_pos exact] at rounded
        omega
      rw [half, whole]
      refine ⟨len, unlock.bind (units.bind ?_)⟩
      rw [if_neg (by omega), if_neg (by omega)]
      exact (Ends.setLock true).bind (.done len)
    · have half : roundUp (2 * halves) len / 2 = halves * (len / (2 * halves)) + halves := by
        rw [if_neg exact] at rounded
        omega
      have same : erasedHalves (overlay addr (2 * (halves * (len / (2 * halves))))
          (padded len buf) mem) halves (addr + 2 * halves * (len / (2 * halves))) =
          erasedHalves mem halves (addr + 2 * halves * (len / (2 * halves))) :=
        erasedHalves_congr fun index _ => overlay_outside _ _ (by omega)
      have last := @ends_programHalves_value_upTo geometry
        (overlay addr (2 * (halves * (len / (2 * halves)))) (padded len buf) mem) halves
        (addr + 2 * halves * (len / (2 * halves)))
        (padded (len % (2 * halves)) fun index => buf (2 * halves * (len / (2 * halves)) + index))
        ⟨by omega, by omega⟩ (by omega)
      have source := padded_rest (2 * halves) len buf
      rw [same, ← product, source, overlay_append, ← source] at last
      rw [half, erasedHalves_add, if_pos whole, Nat.mul_add, ← product]
      generalize decide (erasedHalves mem halves (addr + 2 * halves * (len / (2 * halves))) =
        halves) = accepted at last
      refine ⟨if accepted then len else 2 * halves * (len / (2 * halves)),
        unlock.bind (units.bind ?_)⟩
      rw [if_neg (by omega), if_pos exact, ← product]
      exact last.bind ((Ends.setLock true).bind (.done _))
  · have stops : erasedHalves mem (halves * (len / (2 * halves))) addr / halves ≠
        len / (2 * halves) := by
      intro full
      have below := Nat.mul_div_le (erasedHalves mem (halves * (len / (2 * halves))) addr) halves
      rw [full] at below
      omega
    have half : erasedHalves mem (roundUp (2 * halves) len / 2) addr =
        erasedHalves mem (halves * (len / (2 * halves))) addr := by
      have count : roundUp (2 * halves) len / 2 =
          halves * (len / (2 * halves)) + (roundUp (2 * halves) len / 2 -
            halves * (len / (2 * halves))) := by
        omega
      rw [count, erasedHalves_add, if_neg whole]
    rw [half]
    refine ⟨2 * halves * (erasedHalves mem (halves * (len / (2 * halves))) addr / halves),
      unlock.bind (units.bind ?_)⟩
    rw [if_pos stops]
    exact (Ends.setLock true).bind (.done _)

/-- On every allowed schedule a write addresses nothing behind a half-word that no
allowed call takes. -/
theorem wp_flashWriteBy_refused {allowed : Fault → Prop} {state : State} {half : Nat}
    (positive : 0 < halves) (inside : 2 * half < roundUp (2 * halves) len)
    (blocked : ¬ Takes geometry allowed state.mem (addr + 2 * half) (padded len buf (2 * half))
      (padded len buf (2 * half + 1))) :
    (flashWriteBy geometry halves addr buf len).wp allowed
      (confinedPost geometry (Set.Ico addr (addr + 2 * half + 2)) (fun _ => True) state) state := by
  have rounded := roundUp_split (show 0 < 2 * halves by omega) len
  have product : 2 * halves * (len / (2 * halves)) = 2 * (halves * (len / (2 * halves))) :=
    Nat.mul_assoc _ _ _
  have split := Nat.div_add_mod len (2 * halves)
  -- Locking the flash and returning adds nothing to what was addressed before.
  have close {value : Nat} {after : State}
      (confined : Confined geometry (Set.Ico addr (addr + 2 * half + 2)) state after) :
      (setLock geometry true >>= fun _ => .done value).wp allowed
        (confinedPost geometry (Set.Ico addr (addr + 2 * half + 2)) (fun _ => True) state)
        after := by
    have locks := @wp_of_touches _ geometry ∅ allowed _
      (Touches.bind (.setLock true) fun _ => .done value) after
    exact Prog.wp_mono locks
      (fun _ _ holds => ⟨trivial, confined.trans (holds.mono (Set.empty_subset _))⟩)
      (fun _ holds => confined.trans (holds.mono (Set.empty_subset _)))
      fun _ holds => confined.trans (holds.mono (Set.empty_subset _))
  rw [flashWriteBy]
  refine Prog.wp_ite (fun _ => (Prog.wp_done _ _ _).mpr ⟨trivial, Confined.refl state⟩) fun _ => ?_
  rw [Prog.wp_bind]
  refine wp_setLock (Confined.refl state) ((Prog.wp_bind _ _ _ _).mpr ?_)
  rcases Nat.lt_or_ge half (halves * (len / (2 * halves))) with early | late
  · have units := @wp_programUnits_refused geometry allowed { state with locked := false } halves
      (len / (2 * halves)) addr half buf early (by
        rw [← padded_inside buf (show 2 * half < len by omega),
          ← padded_inside buf (show 2 * half + 1 < len by omega)]
        exact blocked)
    refine Prog.wp_mono units ?_ (fun _ confined => ⟨confined.kept, confined.logged⟩)
      fun _ confined => ⟨confined.kept, confined.logged⟩
    rintro written after ⟨stops, confined⟩
    exact Prog.wp_ite (fun _ => close ⟨confined.kept, confined.logged⟩)
      fun whole => absurd (not_not.mp whole) (Nat.ne_of_lt stops)
  · have subset : Set.Ico addr (addr + 2 * halves * (len / (2 * halves))) ⊆
        Set.Ico addr (addr + 2 * half + 2) := Set.Ico_subset_Ico_right (by omega)
    refine Prog.wp_mono (wp_of_touches (touches_programUnits halves (len / (2 * halves)) addr buf
      Set.Subset.rfl) { state with locked := false }) ?_
      (fun _ confined => Confined.mono ⟨confined.kept, confined.logged⟩ subset)
      fun _ confined => Confined.mono ⟨confined.kept, confined.logged⟩ subset
    intro written after units
    have confined : Confined geometry (Set.Ico addr (addr + 2 * half + 2)) state after :=
      Confined.mono ⟨units.kept, units.logged⟩ subset
    have partial' : len % (2 * halves) ≠ 0 := by
      intro exact
      rw [if_pos exact] at rounded
      omega
    rw [if_neg partial'] at rounded
    refine Prog.wp_ite (fun _ => close confined) fun _ => ?_
    rw [if_pos partial', Prog.wp_bind]
    have position : addr + 2 * halves * (len / (2 * halves)) +
        2 * (half - halves * (len / (2 * halves))) = addr + 2 * half := by
      omega
    have low : 2 * halves * (len / (2 * halves)) +
        2 * (half - halves * (len / (2 * halves))) = 2 * half := by
      omega
    have high : 2 * halves * (len / (2 * halves)) +
        (2 * (half - halves * (len / (2 * halves))) + 1) = 2 * half + 1 := by
      omega
    have kept {cell : Nat} (behind : addr + 2 * halves * (len / (2 * halves)) ≤ cell) :
        after.mem cell = state.mem cell :=
      units.kept fun member => absurd (Set.mem_Ico.mp member).2 (by omega)
    have last := @wp_programHalves_refused geometry allowed after halves
      (addr + 2 * halves * (len / (2 * halves)))
      (LittleEndian.value (2 * halves) (padded (len % (2 * halves)) fun index =>
        buf (2 * halves * (len / (2 * halves)) + index)))
      (half - halves * (len / (2 * halves))) (by omega) (by
        rw [padded_rest, LittleEndian.byte_value _ (by omega), LittleEndian.byte_value _ (by omega),
          position, low, high, takes_congr (kept (by omega)) (kept (by omega))]
        exact blocked)
    rw [position] at last
    refine Prog.wp_mono (confinedPost_trans confined last
      (Set.Ico_subset_Ico_left (by omega)) (fun _ same => same)) ?_ (fun _ holds => holds)
      fun _ holds => holds
    rintro accepted final ⟨-, reached⟩
    exact close reached

/-- Some allowed run programs a half-word of the padded buffer, if one before the other is
taken. -/
theorem mayIssue_flashWriteBy {allowed : Fault → Prop} {half : Nat}
    (works : ∃ fault, allowed fault) (positive : 0 < halves) (aligned : addr % (2 * halves) = 0)
    (inside : 2 * half < roundUp (2 * halves) len)
    (gets : GetsTo geometry allowed mem addr (padded len buf) half) (locked : Bool) :
    MayIssue allowed (flashWriteBy geometry halves addr buf len) (.programmed (addr + 2 * half)) mem
      locked := by
  have even := even_of_units aligned
  have rounded := roundUp_split (show 0 < 2 * halves by omega) len
  have product : 2 * halves * (len / (2 * halves)) = 2 * (halves * (len / (2 * halves))) :=
    Nat.mul_assoc _ _ _
  have split := Nat.div_add_mod len (2 * halves)
  rw [flashWriteBy, if_neg (by omega)]
  refine MayIssue.bind_right (.setLock works false) ?_
  rcases Nat.lt_or_ge half (halves * (len / (2 * halves))) with early | late
  · have whole := gets.congr fun index before =>
      padded_inside buf (show index < len by omega)
    exact (mayIssue_programUnits works even early whole).bind_left
  · have partial' : len % (2 * halves) ≠ 0 := by
      intro exact
      rw [if_pos exact] at rounded
      omega
    rw [if_neg partial'] at rounded
    have first : GetsTo geometry allowed mem addr buf (halves * (len / (2 * halves))) :=
      GetsTo.congr (fun earlier before => gets earlier (by omega)) fun index before =>
        padded_inside buf (show index < len by omega)
    refine MayIssue.bind_right (mayEnd_programUnits even first) ?_
    have behind := @GetsTo.behind _ _ _ (overlay addr (2 * halves * (len / (2 * halves))) buf mem)
      _ _ _ gets (halves * (len / (2 * halves))) fun cell outside =>
        overlay_outside _ _ (by omega)
    rw [← product] at behind
    rw [if_neg (by omega), if_pos partial', padded_rest]
    have last := @mayIssue_programHalves geometry allowed
      (overlay addr (2 * halves * (len / (2 * halves))) buf mem) halves
      (addr + 2 * halves * (len / (2 * halves))) (LittleEndian.value (2 * halves) fun index =>
        padded len buf (2 * halves * (len / (2 * halves)) + index))
      (half - halves * (len / (2 * halves))) works (by omega) (by omega)
      (behind.congr fun index before => by rw [LittleEndian.byte_value _ (by omega)])
    rw [show addr + 2 * halves * (len / (2 * halves)) +
      2 * (half - halves * (len / (2 * halves))) = addr + 2 * half by omega] at last
    exact last.bind_left

/-- A range of half-words lies in a region if each of them does. -/
theorem Ico_subset_of_halves {region : Set Nat} {addr length : Nat} (even : length % 2 = 0)
    (each : ∀ half, 2 * half < length → addr + 2 * half ∈ region ∧ addr + 2 * half + 1 ∈ region) :
    Set.Ico addr (addr + length) ⊆ region := by
  intro cell member
  obtain ⟨lower, upper⟩ := Set.mem_Ico.mp member
  have inside := each ((cell - addr) / 2) (by omega)
  rcases Nat.mod_two_eq_zero_or_one (cell - addr) with low | high
  · rw [show addr + 2 * ((cell - addr) / 2) = cell by omega] at inside
    exact inside.1
  · rw [show addr + 2 * ((cell - addr) / 2) + 1 = cell by omega] at inside
    exact inside.2

/-- The allowed runs of a write address a region only, exactly if every half-word that the write
may get to lies in the region. -/
theorem flashWriteBy_within_iff {allowed : Fault → Prop} {region : Set Nat} {state : State}
    (works : ∃ fault, allowed fault) (positive : 0 < halves) :
    (∀ schedule : FlashSchedule, Schedule.Within (D := flash geometry) allowed schedule →
      LogWithin geometry region state
        (Prog.run (flashWriteBy geometry halves addr buf len) schedule state).state) ↔
      (addr % (2 * halves) = 0 → ∀ half, 2 * half < roundUp (2 * halves) len →
        GetsTo geometry allowed state.mem addr (padded len buf) half →
        addr + 2 * half ∈ region ∧ addr + 2 * half + 1 ∈ region) := by
  constructor
  · intro within aligned half inside gets
    have issues := mayIssue_flashWriteBy works positive aligned inside gets state.locked
    have subset := issues.footprint_subset within
    exact ⟨subset (Or.inl rfl), subset (Or.inr rfl)⟩
  · intro reached schedule within
    by_cases aligned : addr % (2 * halves) = 0
    · have even : roundUp (2 * halves) len % 2 = 0 := by
        rw [roundUp, Nat.mul_assoc, Nat.mul_mod_right]
      by_cases all : ∀ half, 2 * half < roundUp (2 * halves) len →
          GetsTo geometry allowed state.mem addr (padded len buf) half
      · refine LogWithin.of_touches (touches_flashWriteBy positive ?_) schedule state
        exact Ico_subset_of_halves even fun half inside => reached aligned half inside
          (all half inside)
      · simp only [not_forall] at all
        obtain ⟨beyond, inside, stuck⟩ := all
        obtain ⟨half, before, gets, blocked⟩ := exists_blocked stuck
        have stops := @wp_flashWriteBy_refused geometry halves addr len buf allowed state half
          positive (by omega) blocked
        have confined := Prog.run_state (Prog.wp_mono stops (fun _ _ holds => holds.2)
          (fun _ holds => holds) fun _ holds => holds) within
        refine (confined.mono ?_).logged
        rw [Nat.add_assoc]
        refine Ico_subset_of_halves (by omega) fun stored upper => ?_
        exact reached aligned stored (by omega) fun earlier sooner => gets earlier (by omega)
    · rw [flashWriteBy, if_pos aligned]
      exact LogWithin.refl state

end Write

end LedFirmware
