import LedFirmware.AppStart
import LedFirmware.CanRequests
import LedFirmware.CommDev

/-!
# What a CAN command reads

The CAN handler of the application checks the length of a frame, but no command looks
at it before it reads its fields.  Two buffers with the same frame are treated alike if
the fields of the command lie in the frame; otherwise some bytes behind the frame make a
difference.
-/

namespace LedFirmware.App

open CrashProgram NorFlash

/-- Wherever the frame is accepted, the bytes around it have no influence: every run is
the same. -/
def UsesOnlyFrame (chip : Chip) (ram : Ram) (stack : Nat → UInt8) (frame : List UInt8) : Prop :=
  ∀ (i fuel fuel' len len' : Nat) (buf other : Nat → UInt8),
    Protocol.appCan500.Accepts fuel buf len i frame.length →
    Protocol.appCan500.Accepts fuel' other len' i frame.length →
    Holds buf i frame → Holds other i frame →
    ∀ (schedule : FlashSchedule) (state : State),
      Prog.run (can500ProtocolAnylise chip fuel ram stack buf len) schedule state =
        Prog.run (can500ProtocolAnylise chip fuel' ram stack other len') schedule state

/-- A byte of the chip ID in the frame is not the one of the device. -/
def ChipIDDiffers (chipID : Fin 6 → UInt16) (frame : List UInt8) : Prop :=
  ∃ index : Fin 6,
    (8 + 2 * index < frame.length ∧
      bufferOf frame (8 + 2 * index) ≠ lowByte (chipID index)) ∨
    (9 + 2 * index < frame.length ∧
      bufferOf frame (9 + 2 * index) ≠ highByte (chipID index))

/-- The update frame of eleven bytes, whose piece has a wrapped length, is written. -/
def WritesWrapped (ram : Ram) (frame : List UInt8) : Prop :=
  frame.length = 11 ∧ Protocol.appCan500.start ram (bufferOf frame) < otaBinMaxSize ∧
    Protocol.appCan500.start ram (bufferOf frame) % 4 = 0

/-- The bytes that the command reads lie in the frame, or do not matter. -/
def SelfContained (ram : Ram) (frame : List UInt8) : Prop :=
  match CanCommand.decode (bufferOf frame 3) with
  | some .otaStart => 34 ≤ frame.length
  | some .otaUpdate => 10 ≤ frame.length ∧ ¬ WritesWrapped ram frame
  | some .paramsetWrite => 13 ≤ frame.length
  | some .deviceParamsetSearch => 28 ≤ frame.length ∨ ChipIDDiffers ram.iapParam.chipUniqueID frame
  | _ => True

variable {chip : Chip} {ram : Ram} {stack buf : Nat → UInt8} {frame : List UInt8}
  {i dataLen : Nat} {info : DelInfo}

/-- A command looks at the buffer from the frame on. -/
theorem canExecute_from : canExecute chip ram stack buf i dataLen info =
    canExecute chip ram stack (bytesFrom buf i) 0 dataLen info := by
  unfold canExecute
  simp only [bytesFrom_zero]

/-! ## Reading inside the frame -/

section Inside

variable {first second : Nat → UInt8}

theorem field_congr {offset width : Nat}
    (same : ∀ index < dataLen, first index = second index) (inside : offset + width ≤ dataLen) :
    field first offset width = field second offset width :=
  LittleEndian.value_congr fun index within => same _ (by omega)

theorem half_congr {offset : Nat} (same : ∀ index < dataLen, first index = second index)
    (inside : offset + 2 ≤ dataLen) : half first offset = half second offset :=
  congrArg UInt16.ofNat (field_congr same inside)

theorem updataParamData_congr {version : Nat}
    (same : ∀ index < dataLen, first index = second index) (inside : 34 ≤ dataLen) :
    updataParamData version (bytesFrom first 8) stack =
      updataParamData version (bytesFrom second 8) stack := by
  funext index
  rw [updataParamData, updataParamData]
  by_cases low : index < 2
  · rw [if_pos low, if_pos low]
  · by_cases high : index < 26
    · rw [if_neg low, if_neg low, if_pos high, if_pos high, bytesFrom, bytesFrom,
        same _ (by omega)]
    · rw [if_neg low, if_neg low, if_neg high, if_neg high]

/-- The piece of an update frame with a length that is not wrapped lies in the frame. -/
theorem writePiece_congr {progress : OtaProgress}
    (same : ∀ index < dataLen, first index = second index) (short : dataLen < 2 ^ 32)
    (whole : dataLen = 11 → ¬ (progress.frameNum * progress.subSize < otaBinMaxSize ∧
      progress.frameNum * progress.subSize % 4 = 0)) :
    writePiece chip progress (bytesFrom first 10) (10 < dataLen) (sub32 dataLen 12) =
      writePiece chip progress (bytesFrom second 10) (10 < dataLen) (sub32 dataLen 12) := by
  rw [writePiece, writePiece]
  by_cases admitted : decide (10 < dataLen) = true ∧
      progress.frameNum * progress.subSize < otaBinMaxSize
  · rw [if_pos admitted, if_pos admitted]
    have long := of_decide_eq_true admitted.1
    by_cases wrapped : dataLen = 11
    · have odd : ¬ progress.frameNum * progress.subSize % 4 = 0 :=
        fun aligned => whole wrapped ⟨admitted.2, aligned⟩
      have refused : (chip.addrAppCopy + progress.frameNum * progress.subSize) % (2 * 2) ≠ 0 := by
        have aligned := @Protocol.copy_aligned chip .appCan500
          (progress.frameNum * progress.subSize)
        rw [Protocol.halves] at aligned
        rw [aligned]
        exact odd
      rw [flashWrite, flashWrite, flashWriteBy, flashWriteBy, if_pos refused, if_pos refused]
    · have writes : flashWrite chip (chip.addrAppCopy + progress.frameNum * progress.subSize)
          (bytesFrom first 10) (sub32 dataLen 12) =
          flashWrite chip (chip.addrAppCopy + progress.frameNum * progress.subSize)
            (bytesFrom second 10) (sub32 dataLen 12) := by
        apply flashWriteBy_congr
        rw [sub32_le (by omega) short]
        intro index inside
        exact same _ (by omega)
      rw [writes]
  · rw [if_neg admitted, if_neg admitted]

theorem half_eq_iff {offset : Nat} {number : UInt16} : half first offset = number ↔
    first offset = lowByte number ∧ first (offset + 1) = highByte number := by
  have low := (first offset).toNat_lt
  have high := (first (offset + 1)).toNat_lt
  have value := half_toNat first offset
  constructor
  · rintro rfl
    rw [← UInt8.toNat_inj, ← UInt8.toNat_inj, lowByte, highByte, UInt16.toNat_toUInt8,
      UInt16.toNat_toUInt8, UInt16.toNat_shiftRight, value, Nat.shiftRight_eq_div_pow]
    simp only [UInt16.toNat_ofNat, Nat.reduceMod, Nat.reducePow]
    omega
  · rintro ⟨lower, upper⟩
    exact field_half lower upper

/-- With another chip ID nothing is set. -/
theorem setSearchedID_differs {param : IapParam}
    (same : ∀ index < frame.length, first index = bufferOf frame index)
    (differs : ChipIDDiffers param.chipUniqueID frame) : setSearchedID param first = param := by
  obtain ⟨index, other⟩ := differs
  apply if_neg
  intro matched
  obtain ⟨low, high⟩ := half_eq_iff.mp (matched index)
  rcases other with ⟨inside, other⟩ | ⟨inside, other⟩
  · exact other (by rw [← same _ inside, low])
  · apply other
    rw [← same _ inside, ← high, Nat.add_right_comm]

/-- A command whose fields lie in the frame looks at the frame only. -/
theorem canExecute_selfContained (same : ∀ index < frame.length, first index = bufferOf frame index)
    (lower : commProtocolMinLen ≤ frame.length) (upper : frame.length < 2 ^ 32)
    (selfContained : SelfContained ram frame) :
    canExecute chip ram stack first 0 frame.length info =
      canExecute chip ram stack (bufferOf frame) 0 frame.length info := by
  have minimum : commProtocolMinLen = 8 := rfl
  have halves {offset : Nat} (inside : offset + 2 ≤ frame.length) :
      half first offset = half (bufferOf frame) offset := half_congr same inside
  have fields {offset width : Nat} (inside : offset + width ≤ frame.length) :
      field first offset width = field (bufferOf frame) offset width := field_congr same inside
  unfold canExecute
  simp only [bytesFrom_zero, halves (show 4 + 2 ≤ frame.length by omega),
    halves (show 6 + 2 ≤ frame.length by omega), same 3 (by omega)]
  unfold SelfContained at selfContained
  cases decoded : CanCommand.decode (bufferOf frame 3) with
  | none => rfl
  | some command =>
      rw [decoded] at selfContained
      cases command with
      | otaStart =>
          simp only at selfContained
          simp only [fields (show 8 + 2 ≤ frame.length by omega),
            fields (show 12 + 4 ≤ frame.length by omega),
            fields (show 16 + 2 ≤ frame.length by omega),
            fields (show 18 + 4 ≤ frame.length by omega),
            updataParamData_congr same selfContained]
      | otaUpdate =>
          simp only at selfContained
          obtain ⟨long, whole⟩ := selfContained
          have piece (progress : OtaProgress)
              (start : progress.frameNum * progress.subSize =
                Protocol.appCan500.start ram (bufferOf frame)) :
              writePiece chip progress (bytesFrom first 10) (10 < frame.length)
                  (sub32 frame.length 12) =
                writePiece chip progress (bytesFrom (bufferOf frame) 10) (10 < frame.length)
                  (sub32 frame.length 12) :=
            writePiece_congr same upper fun wrapped writes =>
              whole ⟨wrapped, start ▸ writes.1, start ▸ writes.2⟩
          simp only [fields (show 8 + 2 ≤ frame.length from long)]
          rw [piece _ rfl]
      | paramsetWrite =>
          simp only at selfContained
          simp only [canParamsetReceiveAnalyse, halves (show 8 + 2 ≤ frame.length by omega),
            same 10 (by omega), same 11 (by omega), same 12 (by omega)]
      | deviceParamsetSearch =>
          simp only at selfContained
          have set (param : IapParam) (chipID : param.chipUniqueID = ram.iapParam.chipUniqueID) :
              setSearchedID param first = setSearchedID param (bufferOf frame) := by
            rcases selfContained with long | differs
            · simp only [setSearchedID, halves long,
                fun index : Fin 6 => halves (show 8 + 2 * index + 2 ≤ frame.length by omega)]
            · rw [← chipID] at differs
              rw [setSearchedID_differs same differs,
                setSearchedID_differs (fun _ _ => rfl) differs]
          rw [set]
          rfl
      | otaEnd => rfl
      | paramsetRead => rfl
      | paramsetSave => rfl
      | deviceRestart => rfl
      | paramsetDefault => rfl
      | deviceSearch => rfl
      | automaticCheck => rfl

end Inside

/-! ## Reading behind the frame -/

/-- A buffer with a frame at its start and other bytes behind it. -/
def followedBy (frame : List UInt8) (rest : Nat → UInt8) : Nat → UInt8 :=
  fun index => if index < frame.length then bufferOf frame index else rest index

theorem followedBy_inside {rest : Nat → UInt8} {index : Nat} (inside : index < frame.length) :
    followedBy frame rest index = bufferOf frame index := if_pos inside

theorem followedBy_behind {rest : Nat → UInt8} {index : Nat} (behind : frame.length ≤ index) :
    followedBy frame rest index = rest index := if_neg (Nat.not_lt.mpr behind)

theorem followedBy_holds {rest : Nat → UInt8} : Holds (followedBy frame rest) 0 frame := by
  intro index inside
  rw [Nat.zero_add, followedBy_inside inside]

theorem followedBy_accepts (isFrame : IsFrame .appCan500 frame) (rest : Nat → UInt8) :
    Protocol.appCan500.Accepts 1 (followedBy frame rest) frame.length 0 frame.length := by
  have bounds := (maxLen_le .appCan500).2
  have upper := isFrame.whole.upper
  rw [isFrame.length] at upper
  exact ⟨isFrame.lower, isFrame.scan_whole followedBy_holds (List.prefix_refl _) (by omega) 0⟩

/-- Nothing fails before power is lost at the given call. -/
def cutAfter (calls : Nat) : FlashSchedule :=
  fun index => if index < calls then some .none else none

theorem cutAfter_tail (calls : Nat) :
    (fun index => cutAfter (calls + 1) (index + 1)) = cutAfter calls := by
  funext index
  simp only [cutAfter, Nat.add_lt_add_iff_right]

section Calls

variable {α β : Type} {geometry : Geometry} {calls : Nat} {state : State}

theorem run_setLock {locked : Bool} {next : Unit → FlashProg geometry α} :
    Prog.run (setLock geometry locked >>= next) (cutAfter (calls + 1)) state =
      Prog.run (next ()) (cutAfter calls) { state with locked } := by
  rw [← cutAfter_tail calls]
  rfl

theorem run_program {addr : Nat} {low high : UInt8} {next : Bool → FlashProg geometry α} :
    Prog.run (program geometry addr low high >>= next) (cutAfter (calls + 1)) state =
      Prog.run (next (applyProgram geometry addr low high .none state).1) (cutAfter calls)
        (applyProgram geometry addr low high .none state).2 := by
  rw [← cutAfter_tail calls]
  rfl

theorem run_program_lost {addr : Nat} {low high : UInt8} {next : Bool → FlashProg geometry α} :
    Prog.run (program geometry addr low high >>= next) (cutAfter 0) state = .lost state := rfl

end Calls

theorem putHalf_second {addr : Nat} {low high : UInt8} {mem : Mem} :
    putHalf addr low high mem (addr + 1) = high := by
  simp [putHalf]

/-- Cut off after its first half-word, a write has programmed the first two bytes. -/
theorem run_firstHalf {addr len : Nat} {next : Nat → FlashProg chip.geometry Handled}
    (aligned : addr % 4 = 0) (whole : 4 ≤ len) (covers : chip.geometry.Covers addr 2) :
    Prog.run (flashWriteBy chip.geometry 2 addr buf len >>= next) (cutAfter 2)
        (⟨erasedFlash, true, []⟩ : State) =
      .lost ⟨putHalf addr (buf 0) (buf 1) erasedFlash, false, [.programmed addr]⟩ := by
  obtain ⟨count, full⟩ : ∃ count, len / (2 * 2) = count + 1 := ⟨len / 4 - 1, by omega⟩
  have unit (index : Nat) (inside : index < 4) :
      LittleEndian.byte (LittleEndian.value (2 * 2) buf) index = buf index :=
    LittleEndian.byte_value buf inside
  obtain ⟨lower, upper⟩ := covers
  have contained : chip.geometry.Contains addr ∧ chip.geometry.Contains (addr + 1) :=
    ⟨⟨lower, by omega⟩, ⟨by omega, by omega⟩⟩
  have programmed : applyProgram chip.geometry addr (buf 0) (buf 1) .none ⟨erasedFlash, false, []⟩ =
      (true, ⟨putHalf addr (buf 0) (buf 1) erasedFlash, false, [.programmed addr]⟩) := by
    rw [applyProgram, if_neg (by simp [contained]; omega)]
    rfl
  rw [flashWriteBy, if_neg (by omega), full, programUnits, programHalves, unit 0 (by decide),
    unit 1 (by decide)]
  simp only [Prog.bind_bind]
  rw [run_setLock, run_program, programmed]
  simp only [if_true, programHalves, Prog.bind_bind]
  exact run_program_lost

section Behind

variable (uses : UsesOnlyFrame chip ram stack frame) (isFrame : IsFrame .appCan500 frame)
  (addressed : IapPort.can.Addressed ram.iapParam.id (bufferOf frame))

include uses isFrame

theorem runs_alike (rest rest' : Nat → UInt8) (schedule : FlashSchedule) (state : State) :
    Prog.run (canExecute chip ram stack (followedBy frame rest) 0 frame.length
        ⟨.accept, add32 frame.length 0⟩) schedule state =
      Prog.run (canExecute chip ram stack (followedBy frame rest') 0 frame.length
        ⟨.accept, add32 frame.length 0⟩) schedule state := by
  have first := followedBy_accepts isFrame rest
  have second := followedBy_accepts isFrame rest'
  have same := uses 0 1 1 _ _ _ _ first second followedBy_holds followedBy_holds schedule state
  rw [can500_accepts first.1 first.2, can500_accepts second.1 second.2] at same
  exact same

/-- What the command returns is the same for all bytes behind the frame. -/
theorem done_alike {rest rest' : Nat → UInt8} {handled handled' : Handled}
    (done : canExecute chip ram stack (followedBy frame rest) 0 frame.length
      ⟨.accept, add32 frame.length 0⟩ = .done handled)
    (done' : canExecute chip ram stack (followedBy frame rest') 0 frame.length
      ⟨.accept, add32 frame.length 0⟩ = .done handled') : handled = handled' := by
  have same := runs_alike uses isFrame rest rest'
  rw [done, done'] at same
  have run := same faultless ⟨fun _ => erasedByte, true, []⟩
  simp only [Prog.run, Outcome.done.injEq] at run
  exact run.1

omit uses isFrame in
theorem followedBy_addressed (lower : commProtocolMinLen ≤ frame.length)
    (addressed : IapPort.can.Addressed ram.iapParam.id (bufferOf frame)) (rest : Nat → UInt8) :
    IapPort.can.Addressed ram.iapParam.id (bytesFrom (followedBy frame rest) 0) := by
  have device : half (followedBy frame rest) 4 = half (bufferOf frame) 4 :=
    half_congr (fun index => followedBy_inside) (le_trans (by decide) lower)
  rw [bytesFrom_zero]
  exact addressed.imp (fun same => device.trans same) id

include addressed

/-- The rest of the chip ID of a device, and then one byte over and over. -/
def chipIDBehind (chipID : Fin 6 → UInt16) (last : UInt8) : Nat → UInt8 := fun index =>
  if inside : (index - 8) / 2 < 6 then
    if index % 2 = 0 then lowByte (chipID ⟨(index - 8) / 2, inside⟩)
    else highByte (chipID ⟨(index - 8) / 2, inside⟩)
  else last

omit uses isFrame addressed in
theorem chipIDBehind_matches {chipID : Fin 6 → UInt16} {last : UInt8}
    (agrees : ¬ ChipIDDiffers chipID frame) (index : Fin 6) :
    half (followedBy frame (chipIDBehind chipID last)) (8 + 2 * index) = chipID index := by
  simp only [ChipIDDiffers, not_exists, not_or, not_and, not_not] at agrees
  obtain ⟨low, high⟩ := agrees index
  have bound := index.isLt
  rw [half_eq_iff]
  constructor
  · by_cases inside : 8 + 2 * index.val < frame.length
    · rw [followedBy_inside inside, low inside]
    · have position : (8 + 2 * index.val - 8) / 2 = index := by omega
      rw [followedBy_behind (by omega), chipIDBehind]
      simp only [position, bound, dif_pos, show (8 + 2 * index.val) % 2 = 0 by omega, if_true]
  · rw [Nat.add_right_comm]
    by_cases inside : 9 + 2 * index.val < frame.length
    · rw [followedBy_inside inside, high inside]
    · have position : (9 + 2 * index.val - 8) / 2 = index := by omega
      rw [followedBy_behind (by omega), chipIDBehind]
      simp only [position, bound, dif_pos, show ¬ (9 + 2 * index.val) % 2 = 0 by omega, if_false]

theorem reads_paramsetWrite (decoded : CanCommand.decode (bufferOf frame 3) = some .paramsetWrite) :
    13 ≤ frame.length := by
  have lower : 8 ≤ frame.length := isFrame.lower
  have done (rest : Nat → UInt8) : ∃ handled : Handled,
      canExecute chip ram stack (followedBy frame rest) 0 frame.length
        ⟨.accept, add32 frame.length 0⟩ = .done handled ∧
      handled.ram.dev.analogDialSwitch = followedBy frame rest 12 := by
    have code : CanCommand.decode (followedBy frame rest 3) = some .paramsetWrite := by
      rw [followedBy_inside (by omega), decoded]
    unfold canExecute
    rw [if_neg (not_foreign (followedBy_addressed isFrame.lower addressed rest))]
    simp only [bytesFrom_zero, code]
    exact ⟨_, rfl, rfl⟩
  by_contra short
  obtain ⟨handled, first, zero⟩ := done fun _ => 0
  obtain ⟨handled', second, one⟩ := done fun _ => 1
  rw [done_alike uses isFrame first second, one, followedBy_behind (by omega),
    followedBy_behind (by omega)] at zero
  exact absurd zero (by decide)

theorem reads_deviceParamsetSearch
    (decoded : CanCommand.decode (bufferOf frame 3) = some .deviceParamsetSearch) :
    28 ≤ frame.length ∨ ChipIDDiffers ram.iapParam.chipUniqueID frame := by
  have lower : 8 ≤ frame.length := isFrame.lower
  by_contra outside
  obtain ⟨short, agrees⟩ := not_or.mp outside
  have done (last : UInt8) : ∃ handled : Handled,
      canExecute chip ram stack
          (followedBy frame (chipIDBehind ram.iapParam.chipUniqueID last)) 0 frame.length
          ⟨.accept, add32 frame.length 0⟩ = .done handled ∧
        handled.ram.iapParam.id =
          half (followedBy frame (chipIDBehind ram.iapParam.chipUniqueID last)) 26 := by
    have code : CanCommand.decode
        (followedBy frame (chipIDBehind ram.iapParam.chipUniqueID last) 3) =
        some .deviceParamsetSearch := by
      rw [followedBy_inside (by omega), decoded]
    have set : ∀ index : Fin 6,
        half (followedBy frame (chipIDBehind ram.iapParam.chipUniqueID last)) (8 + 2 * index) =
          ram.iapParam.chipUniqueID index :=
      chipIDBehind_matches agrees
    unfold canExecute
    rw [if_neg (not_foreign (followedBy_addressed isFrame.lower addressed _))]
    simp only [bytesFrom_zero, code, setSearchedID, if_pos set]
    exact ⟨_, rfl, rfl⟩
  obtain ⟨handled, first, zero⟩ := done 0
  obtain ⟨handled', second, one⟩ := done 1
  rw [done_alike uses isFrame first second, one, half_eq_iff] at zero
  have last := zero.2.trans (half_eq_iff.mp rfl).2.symm
  rw [followedBy_behind (by omega), followedBy_behind (by omega)] at last
  change (1 : UInt8) = 0 at last
  exact absurd last (by decide)

/-- A short update frame takes part of the sequence number from behind. -/
theorem reads_frameNum (decoded : CanCommand.decode (bufferOf frame 3) = some .otaUpdate) :
    10 ≤ frame.length := by
  have lower : 8 ≤ frame.length := isFrame.lower
  by_contra short
  have done (rest : Nat → UInt8) : ∃ handled : Handled,
      canExecute chip ram stack (followedBy frame rest) 0 frame.length
        ⟨.accept, add32 frame.length 0⟩ = .done handled ∧
      handled.ram.can.frameNum = field (followedBy frame rest) 8 2 := by
    have code : CanCommand.decode (followedBy frame rest 3) = some .otaUpdate := by
      rw [followedBy_inside (by omega), decoded]
    have refused : ¬ 10 < frame.length := by omega
    unfold canExecute
    rw [if_neg (not_foreign (followedBy_addressed isFrame.lower addressed rest))]
    simp only [bytesFrom_zero, code, writePiece, refused, decide_false, Bool.false_eq_true,
      false_and, if_false, Prog.done_bind]
    exact ⟨_, rfl, rfl⟩
  obtain ⟨handled, first, zero⟩ := done fun _ => 0
  obtain ⟨handled', second, one⟩ := done fun _ => 1
  rw [done_alike uses isFrame first second, one, field, field, LittleEndian.value_inj] at zero
  have last := zero 1 (by decide)
  rw [followedBy_behind (by omega), followedBy_behind (by omega)] at last
  exact absurd last (by decide)

/-- Byte 33 of a start frame is the last one of the header. -/
theorem reads_otaStart (decoded : CanCommand.decode (bufferOf frame 3) = some .otaStart) :
    34 ≤ frame.length := by
  have lower : 8 ≤ frame.length := isFrame.lower
  by_contra short
  have start (rest : Nat → UInt8) : ∃ handled after closed,
      Ends (canExecute chip ram stack (followedBy frame rest) 0 frame.length
          ⟨.accept, add32 frame.length 0⟩) erasedFlash true handled after closed ∧
        after (chip.addrAppInfo + 25) = rest 33 := by
    have accepts := followedBy_accepts isFrame rest
    have code : bytesFrom (followedBy frame rest) 0 3 = 0x01 := by
      rw [bytesFrom_zero, followedBy_inside (by omega)]
      exact CanCommand.decode_eq_some decoded
    obtain ⟨handled, after, closed, ends, effect⟩ := @ends_start chip .can 1 frame.length 0
      frame.length ram stack (followedBy frame rest) accepts
      (followedBy_addressed isFrame.lower addressed rest) code erasedFlash true
    have executes := @can500_accepts chip 1 0 frame.length frame.length ram stack
      (followedBy frame rest) accepts.1 accepts.2
    rw [can500ProtocolAnylise] at executes
    rw [executes] at ends
    refine ⟨handled, after, closed, ends, ?_⟩
    have free : erasedHalves erasedFlash 14 chip.addrAppInfo = 14 :=
      le_antisymm (erasedHalves_le _ _ _)
        (lt_erasedHalves_iff.mpr ⟨show 13 < 14 by decide, fun _ _ => rfl⟩)
    rw [effect.info 25 (by decide), if_pos (by rw [free]; decide)]
    exact @followedBy_behind frame rest 33 (by omega)
  obtain ⟨handled, after, closed, ends, zero⟩ := start fun _ => 0
  obtain ⟨handled', after', closed', ends', one⟩ := start fun _ => 1
  have same := (Ends.agree (runs_alike uses isFrame (fun _ => 0) fun _ => 1) ends ends').2
  rw [same, one] at zero
  exact absurd zero (by decide)

/-- The wrapped write starts with the tail of the frame and the byte behind it. -/
theorem not_writesWrapped (decoded : CanCommand.decode (bufferOf frame 3) = some .otaUpdate) :
    ¬ WritesWrapped ram frame := by
  rintro ⟨eleven, within, aligned⟩
  have writes (rest : Nat → UInt8) : ∃ next,
      canExecute chip ram stack (followedBy frame rest) 0 frame.length
          ⟨.accept, add32 frame.length 0⟩ =
        flashWriteBy chip.geometry 2
            (chip.addrAppCopy + Protocol.appCan500.start ram (bufferOf frame))
            (bytesFrom (followedBy frame rest) 10) (sub32 frame.length 12) >>= next := by
    have code : CanCommand.decode (followedBy frame rest 3) = some .otaUpdate := by
      rw [followedBy_inside (by omega), decoded]
    have number : field (followedBy frame rest) 8 2 = field (bufferOf frame) 8 2 :=
      field_congr (fun index => followedBy_inside) (by omega)
    have admitted : decide (10 < frame.length) = true ∧
        field (bufferOf frame) 8 2 * ram.can.subSize < otaBinMaxSize :=
      ⟨decide_eq_true (by omega), within⟩
    unfold canExecute
    rw [if_neg (not_foreign (followedBy_addressed isFrame.lower addressed rest))]
    simp only [bytesFrom_zero, code, number, writePiece, if_pos admitted, Prog.bind_bind]
    exact ⟨_, rfl⟩
  obtain ⟨next, zero⟩ := writes fun _ => 0
  obtain ⟨next', one⟩ := writes fun _ => 1
  have place : (chip.addrAppCopy + Protocol.appCan500.start ram (bufferOf frame)) % 4 = 0 := by
    have offset := @Protocol.copy_aligned chip .appCan500
      (Protocol.appCan500.start ram (bufferOf frame))
    exact offset.trans aligned
  have covers := @covers_copy chip (Protocol.appCan500.start ram (bufferOf frame)) 2 (by
    have size : otaBinMaxSize % 4 = 0 := by decide
    omega)
  have whole : 4 ≤ sub32 frame.length 12 := by
    rw [eleven]
    decide
  have same := runs_alike uses isFrame (fun _ => 0) (fun _ => 1) (cutAfter 2)
    ⟨erasedFlash, true, []⟩
  rw [zero, one, run_firstHalf place whole covers, run_firstHalf place whole covers] at same
  simp only [Outcome.lost.injEq, State.mk.injEq] at same
  have second := congrFun same.1
    (chip.addrAppCopy + Protocol.appCan500.start ram (bufferOf frame) + 1)
  rw [putHalf_second, putHalf_second, bytesFrom, bytesFrom, followedBy_behind (by omega),
    followedBy_behind (by omega)] at second
  exact absurd second (by decide)

theorem selfContained_of_uses : SelfContained ram frame := by
  unfold SelfContained
  cases decoded : CanCommand.decode (bufferOf frame 3) with
  | none => trivial
  | some command =>
      cases command with
      | otaStart => exact reads_otaStart uses isFrame addressed decoded
      | otaUpdate =>
          exact ⟨reads_frameNum uses isFrame addressed decoded,
            not_writesWrapped uses isFrame addressed decoded⟩
      | paramsetWrite => exact reads_paramsetWrite uses isFrame addressed decoded
      | deviceParamsetSearch => exact reads_deviceParamsetSearch uses isFrame addressed decoded
      | otaEnd => trivial
      | paramsetRead => trivial
      | paramsetSave => trivial
      | deviceRestart => trivial
      | paramsetDefault => trivial
      | deviceSearch => trivial
      | automaticCheck => trivial

end Behind

/-- A frame for another device is not looked at beyond its IDs. -/
theorem canExecute_foreign {first : Nat → UInt8}
    (same : ∀ index < frame.length, first index = bufferOf frame index)
    (lower : commProtocolMinLen ≤ frame.length)
    (foreign : ¬ IapPort.can.Addressed ram.iapParam.id (bufferOf frame)) :
    canExecute chip ram stack first 0 frame.length info =
      canExecute chip ram stack (bufferOf frame) 0 frame.length info := by
  have minimum : commProtocolMinLen = 8 := rfl
  simp only [IapPort.Addressed, not_or] at foreign
  have device : half first 4 = half (bufferOf frame) 4 := half_congr same (by omega)
  have remote : half first 6 = half (bufferOf frame) 6 := half_congr same (by omega)
  have other : ram.iapParam.id ≠ half (bufferOf frame) 4 ∧ ram.iapParam.id ≠ 0xFFFF :=
    ⟨fun own => foreign.1 own.symm, foreign.2⟩
  unfold canExecute
  simp only [bytesFrom_zero, device, remote]
  rw [if_pos other, if_pos other]

/-- The CAN handler uses nothing but the accepted frame exactly if the frame is for another
device or contains the fields that its command reads. -/
theorem uses_only_frame_iff (chip : Chip) (ram : Ram) (stack : Nat → UInt8) (frame : List UInt8)
    (isFrame : IsFrame .appCan500 frame) :
    UsesOnlyFrame chip ram stack frame ↔
      ¬ IapPort.can.Addressed ram.iapParam.id (bufferOf frame) ∨ SelfContained ram frame := by
  constructor
  · intro uses
    by_cases addressed : IapPort.can.Addressed ram.iapParam.id (bufferOf frame)
    · exact Or.inr (selfContained_of_uses uses isFrame addressed)
    · exact Or.inl addressed
  · intro contained i fuel fuel' len len' buf other accepts accepts' holds holds' schedule state
    have bounds := (maxLen_le .appCan500).2
    have upper := isFrame.whole.upper
    rw [isFrame.length] at upper
    have alone {memory : Nat → UInt8} {info : DelInfo} (holds : Holds memory i frame) :
        canExecute chip ram stack memory i frame.length info =
          canExecute chip ram stack (bufferOf frame) 0 frame.length info := by
      rw [canExecute_from]
      rcases contained with foreign | selfContained
      · exact canExecute_foreign holds isFrame.lower foreign
      · exact canExecute_selfContained holds isFrame.lower (by omega) selfContained
    rw [can500_accepts accepts.1 accepts.2, can500_accepts accepts'.1 accepts'.2, alone holds,
      alone holds']

/-- A parameter write without parameters, from device 0 to all devices. -/
def emptyParamsetWrite : List UInt8 := construct 0xA2 [0xFF, 0xFF, 0, 0]

theorem emptyParamsetWrite_isFrame : IsFrame .appCan500 emptyParamsetWrite :=
  (isFrame_construct 0xA2 [0xFF, 0xFF, 0, 0] (by decide) (by decide)).1

theorem uses_only_frame_iff_sample :
    UsesOnlyFrame sampleChip sampleRam (fun _ => 0) emptyParamsetWrite ↔
      ¬ IapPort.can.Addressed sampleRam.iapParam.id (bufferOf emptyParamsetWrite) ∨
        SelfContained sampleRam emptyParamsetWrite :=
  uses_only_frame_iff sampleChip sampleRam (fun _ => 0) emptyParamsetWrite
    emptyParamsetWrite_isFrame

/-- It stores three bytes from behind the frame. -/
theorem emptyParamsetWrite_reads_behind :
    ¬ ∀ (chip : Chip) (ram : Ram) (stack : Nat → UInt8) (frame : List UInt8),
      IsFrame .appCan500 frame → UsesOnlyFrame chip ram stack frame := by
  intro uses
  have long := reads_paramsetWrite (uses sampleChip sampleRam (fun _ => 0) emptyParamsetWrite
    emptyParamsetWrite_isFrame) emptyParamsetWrite_isFrame (Or.inr rfl) rfl
  exact absurd long (by decide)

end LedFirmware.App
