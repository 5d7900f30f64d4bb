import LedFirmware.AppFlash
import LedFirmware.CanDemux
import LedFirmware.NorFlashOutcomes

/-!
# The outcome of a buffer write

Whichever operation of `Flash_Write` fails, the returned count says how much of the
buffer is stored.  A write leaves the cells around it alone and the padding of its last
unit erased.
-/

namespace LedFirmware

open CrashProgram NorFlash

/-- `Flash_Write` -/
def CanFirmware.flashWrite (chip : Chip) : CanFirmware → (addr : Nat) → (buf : Nat → UInt8) →
    (len : Nat) → FlashProg chip.geometry Nat
  | .app => App.flashWrite chip
  | .iap => LedFirmware.flashWrite chip

/-- The half-words of one program operation, `FLASH_ProgramWord` or
`FLASH_TYPEPROGRAM_DOUBLEWORD`. -/
def CanFirmware.halves : CanFirmware → Nat
  | .app => 2
  | .iap => 4

def CanFirmware.unit (firmware : CanFirmware) : Nat := 2 * firmware.halves

theorem CanFirmware.flashWrite_eq (firmware : CanFirmware) (chip : Chip) (addr : Nat)
    (buf : Nat → UInt8) (len : Nat) : firmware.flashWrite chip addr buf len =
      flashWriteBy chip.geometry firmware.halves addr buf len := by
  cases firmware <;> rfl

section Write

variable {geometry : Geometry} {halves addr len : Nat} {buf : Nat → UInt8} {state : State}

/-- As much of the buffer is stored as is counted. -/
theorem wp_flashWriteBy_counted {allowed : Fault → Prop} (positive : 0 < halves) :
    (flashWriteBy geometry halves addr buf len).wp allowed
      (onDone fun count after => count ≤ len ∧
        ∀ index < count, after.mem (addr + index) = buf index) state := by
  have split := Nat.div_add_mod len (2 * halves)
  -- Locking the flash and returning keeps what is stored.
  have close {count : Nat} {after : State} (few : count ≤ len)
      (stored : ∀ index < count, after.mem (addr + index) = buf index) :
      (setLock geometry true >>= fun _ => .done count).wp allowed
        (onDone fun count after => count ≤ len ∧
          ∀ index < count, after.mem (addr + index) = buf index) after :=
    (Prog.wp_bind _ _ _ _).mpr (wp_setLock trivial ((Prog.wp_done _ _ _).mpr ⟨few, stored⟩))
  rw [flashWriteBy]
  refine Prog.wp_ite (fun _ => (Prog.wp_done _ _ _).mpr ⟨Nat.zero_le len, ?_⟩) fun _ => ?_
  · intro index inside
    exact absurd inside (Nat.not_lt_zero _)
  rw [Prog.wp_bind]
  refine wp_setLock trivial (wp_onDone_bind wp_programUnits_counted ?_)
  rintro written middle ⟨few, stored⟩
  have enough : 2 * halves * written ≤ len := by
    have product := Nat.mul_le_mul_left (2 * halves) few
    omega
  refine Prog.wp_ite (fun _ => close enough stored) fun whole => ?_
  obtain rfl : written = len / (2 * halves) := not_not.mp whole
  refine Prog.wp_ite (fun partial' => ?_) fun exact => ?_
  · have apart := @touches_programHalves geometry _ halves
      (addr + 2 * halves * (len / (2 * halves)))
      (LittleEndian.value (2 * halves) (padded (len % (2 * halves)) fun index =>
        buf (2 * halves * (len / (2 * halves)) + index))) Set.Subset.rfl
    refine wp_onDone_bind (wp_onDone_and wp_programHalves_value_accepted
      (wp_onDone_confined apart)) fun accepted after both => ?_
    obtain ⟨last, confined⟩ := both
    have before (index : Nat) (inside : index < 2 * halves * (len / (2 * halves))) :
        after.mem (addr + index) = buf index := by
      rw [← stored index inside]
      exact confined.kept fun member => absurd (Set.mem_Ico.mp member).1 (by omega)
    cases accepted with
    | false => exact close enough before
    | true =>
        rw [if_pos rfl]
        refine close le_rfl fun index inside => ?_
        rcases Nat.lt_or_ge index (2 * halves * (len / (2 * halves))) with early | late
        · exact before index early
        · have bound := Nat.mod_lt len (show 0 < 2 * halves by omega)
          rw [last rfl, overlay_inside _ _ (by omega) (by omega), padded_inside _ (by omega)]
          congr 1
          omega
  · have length : 2 * halves * (len / (2 * halves)) = len := by omega
    exact close le_rfl fun index inside => stored index (by omega)

/-- Between the end of the buffer and the end of its last unit only erased bytes are
programmed. -/
theorem spares_flashWriteBy {cell : Nat} (behind : addr + len ≤ cell) :
    (flashWriteBy geometry halves addr buf len).Calls (Op.Spares cell) := by
  have split := Nat.div_add_mod len (2 * halves)
  have close {count : Nat} : (setLock geometry true >>= fun _ => .done count).Calls
      (Op.Spares cell) :=
    ((Touches.setLock true).bind fun _ => .done count).spares (Set.notMem_empty cell)
  have outside : cell ∉ Set.Ico addr (addr + 2 * halves * (len / (2 * halves))) :=
    fun member => absurd (Set.mem_Ico.mp member).2 (by omega)
  have whole := (@touches_programUnits geometry _ halves (len / (2 * halves)) addr buf
    Set.Subset.rfl).spares outside
  have unlock : (setLock geometry false).Calls (Op.Spares cell) :=
    (Touches.setLock false).spares (Set.notMem_empty cell)
  rw [flashWriteBy]
  split
  · trivial
  · refine Prog.calls_bind unlock fun _ => Prog.calls_bind whole fun written => ?_
    split
    · exact close
    · split
      · refine Prog.calls_bind (spares_programHalves fun index inside same => ?_) fun _ => close
        rw [LittleEndian.byte_value _ inside, padded, if_neg (by omega)]
      · exact close

end Write

/-- The first `count` bytes of a buffer are stored at an address, in a range of units that
is erased behind the buffer; nothing else has changed. -/
structure Stored (addr len whole : Nat) (buf : Nat → UInt8) (before after : Mem) (count : Nat) :
    Prop where
  few : count ≤ len
  bytes : ∀ index < count, after (addr + index) = buf index
  kept : Set.EqOn after before (Set.Ico addr (addr + whole))ᶜ
  padding : ∀ cell ∈ Set.Ico (addr + len) (addr + whole), after cell = erasedByte

/-- Whatever fails, a write stores as many bytes of the buffer as it returns, leaves
everything around the units unchanged and their padding erased, if the failing operations
leave the padding erased; it stores all bytes if nothing fails.  A write to a misaligned
address does nothing. -/
theorem flash_write_outcome (firmware : CanFirmware) (chip : Chip) (addr : Nat)
    (buf : Nat → UInt8) (len : Nat) (state : State) (schedule : FlashSchedule) :
    (addr % firmware.unit = 0 →
      chip.geometry.Covers addr (roundUp firmware.unit len) →
      (∀ index < roundUp firmware.unit len, state.mem (addr + index) = erasedByte) →
      Schedule.Powered (D := flash chip.geometry) schedule →
      (∀ cell ∈ Set.Ico (addr + len) (addr + roundUp firmware.unit len),
        Schedule.Within (D := flash chip.geometry) (Fault.Spares cell) schedule) →
      ∃ count after rest,
        Prog.run (firmware.flashWrite chip addr buf len) schedule state = .done count after rest ∧
        Stored addr len (roundUp firmware.unit len) buf state.mem after.mem count ∧
        (Schedule.Within (D := flash chip.geometry) Reliable schedule → count = len)) ∧
    (addr % firmware.unit ≠ 0 →
      Prog.run (firmware.flashWrite chip addr buf len) schedule state =
        .done 0 state schedule) := by
  have positive : 0 < firmware.halves := by cases firmware <;> decide
  rw [firmware.flashWrite_eq]
  constructor
  · intro aligned covers erased powered padding
    have confined := @wp_of_touches _ chip.geometry _ AnyFault _
      (@touches_flashWriteBy chip.geometry firmware.halves addr len buf _ positive
        Set.Subset.rfl) state
    have counted := @wp_flashWriteBy_counted chip.geometry firmware.halves addr len buf state
      AnyFault positive
    obtain ⟨count, after, used, ended, ⟨few, bytes⟩, around⟩ := Prog.run_completes
      (Prog.wp_halts halts_flashWriteBy (Prog.wp_and counted confined))
      (anyFault_within schedule) powered
      fun _ impossible => impossible
    refine ⟨count, after, _, ended, ⟨few, bytes, around.kept, ?_⟩, ?_⟩
    · rintro cell ⟨lower, upper⟩
      have start : state.mem cell = erasedByte := by
        rw [show cell = addr + (cell - addr) by omega]
        exact erased _ (by omega)
      have spares := @spares_flashWriteBy chip.geometry firmware.halves addr len buf cell lower
      have spared := Prog.run_meets (wp_spares spares start) (padding cell ⟨lower, upper⟩)
      rw [ended] at spared
      exact spared
    · intro reliable
      obtain ⟨log, all, run⟩ := (@ends_flashWriteBy chip.geometry firmware.halves addr len buf
        state.mem positive aligned covers erased state.locked).run state.log reliable powered
      have same := ended.symm.trans run
      injection same
  · intro misaligned
    have refused : addr % (2 * firmware.halves) ≠ 0 := misaligned
    rw [flashWriteBy, if_pos refused]
    rfl

/-- The second half-word fails and stays erased. -/
def oneFailure : FlashSchedule :=
  fun index => some (if index = 2 then .fail fun _ => erasedByte else .none)

theorem flash_write_outcome_failure : ∃ count after rest,
    Prog.run (CanFirmware.app.flashWrite sampleChip sampleChip.addrAppInfo
        (bufferOf [1, 2, 3, 4, 5, 6]) 6) oneFailure ⟨fun _ => erasedByte, true, []⟩ =
      .done count after rest ∧
    Stored sampleChip.addrAppInfo 6 (roundUp CanFirmware.app.unit 6)
      (bufferOf [1, 2, 3, 4, 5, 6]) (fun _ => erasedByte) after.mem count ∧
    (Schedule.Within (D := flash sampleChip.geometry) Reliable oneFailure → count = 6) := by
  refine (flash_write_outcome .app sampleChip sampleChip.addrAppInfo (bufferOf [1, 2, 3, 4, 5, 6])
    6 ⟨fun _ => erasedByte, true, []⟩ oneFailure).1 (by decide +kernel)
    (covers_pageFromEnd sampleChip (by omega) (by decide)) (fun _ _ => rfl)
    (fun _ => by simp [oneFailure]) ?_
  intro cell member index fault scheduled left failing
  rw [failing, oneFailure] at scheduled
  split at scheduled
  · cases scheduled
    rfl
  · cases scheduled

end LedFirmware
