import LedFirmware.IapCommands
import LedFirmware.IapPlainUpdate
import LedFirmware.ImagePieces

/-!
# An update session in IAP mode

A session is a start frame, update frames in any order and with any repetitions,
and an end frame, all through one handler.  The invariant `Staging` says which
pieces of the image are stored; a repeated piece programs cells with what they
already hold.  After the end frame the next boot installs the image.
-/

namespace LedFirmware

open CrashProgram NorFlash

/-! ## Frames of a session -/

namespace IapPort

def startCode : IapPort → UInt8
  | .can => 0x01
  | .uart => 0xE0

def updateCode : IapPort → UInt8
  | .can => 0x02
  | .uart => 0xE1

def endCode : IapPort → UInt8
  | .can => 0x03
  | .uart => 0xE2

/-- Where the sequence number of an update frame lies. -/
def frameNumOffset : IapPort → Nat
  | .can => 8
  | .uart => 6

/-- Where the header of a start frame and the piece of an update frame lie. -/
def dataOffset : IapPort → Nat
  | .can => 10
  | .uart => 8

/-- The bytes of an update frame besides its piece. -/
def overhead : IapPort → Nat
  | .can => 12
  | .uart => 10

def progress : IapPort → IapRam → OtaProgress
  | .can, ram => ram.can
  | .uart, ram => ram.uart

/-- A CAN frame must carry the device ID, unless the device has none. -/
def Addressed : IapPort → (id : UInt16) → (frame : Nat → UInt8) → Prop
  | .can, id, frame => half frame 4 = id ∨ id = 0xFFFF
  | .uart, _, _ => True

end IapPort

/-- One call of a handler with the buffer it is given. -/
structure Call where
  buf : Nat → UInt8
  len : Nat
  fuel : Nat

section Frames

variable (port : IapPort) (header : IapUpdataParam) (image : Nat → UInt8)

/-- The scan of the call accepts the frame of `dataLen` bytes at index `i`. -/
def Call.Accepts (call : Call) (i dataLen : Nat) : Prop :=
  commProtocolMinLen ≤ call.len ∧
    scan port.protocol (unchecked call.buf) call.len call.fuel 0 = .ended (.accept i dataLen)

/-- The length of piece `k`; only the last one may be short. -/
def pieceLen (k : Nat) : Nat :=
  min header.updatesSubSize (header.updatesTotalSize - k * header.updatesSubSize)

def IsStart (frame : Nat → UInt8) : Prop :=
  frame 3 = port.startCode ∧ IapUpdataParam.read (bytesFrom frame port.dataOffset) = header

/-- A frame with piece `k` of the image. -/
structure IsUpdate (k : Nat) (frame : Nat → UInt8) (dataLen : Nat) : Prop where
  code : frame 3 = port.updateCode
  inside : k * header.updatesSubSize < header.updatesTotalSize
  frameNum : field frame port.frameNumOffset 2 = k
  length : dataLen = port.overhead + pieceLen header k
  data : ∀ index < pieceLen header k,
    frame (port.dataOffset + index) = image (k * header.updatesSubSize + index)

/-- The call is accepted with a frame for which the property holds, addressed to
the device. -/
def Call.Carries (call : Call) (id : UInt16)
    (frameIs : (frame : Nat → UInt8) → (dataLen : Nat) → Prop) : Prop :=
  ∃ i dataLen, call.Accepts port i dataLen ∧ port.Addressed id (bytesFrom call.buf i) ∧
    frameIs (bytesFrom call.buf i) dataLen

end Frames

/-- Run a handler on one call after another until it resets; the result says
whether it did. -/
def handleAll (chip : Chip) (port : IapPort) : List Call → IapRam →
    FlashProg chip.geometry (IapRam × Bool)
  | [], ram => .done (ram, false)
  | call :: later, ram =>
      protocolAnylise chip port call.fuel ram call.buf call.len >>= fun handled =>
      if handled.reset then .done (handled.ram, true) else handleAll chip port later handled.ram

/-! ## What a session leaves in the flash -/

/-- The header is stored, and the copy area holds the pieces in `written` and is
erased elsewhere. -/
structure Staging (chip : Chip) (header : IapUpdataParam) (image : Nat → UInt8)
    (written : Set Nat) (mem : Mem) : Prop where
  headed : headerAt chip mem = header
  stored : ∀ index < header.updatesTotalSize, index / header.updatesSubSize ∈ written →
    mem (chip.addrAppCopy + index) = image index
  erased : ∀ index < roundUp flashPageSize header.updatesTotalSize,
    (index < header.updatesTotalSize → index / header.updatesSubSize ∉ written) →
    mem (chip.addrAppCopy + index) = erasedByte

/-- A header that a session can carry out. -/
structure Sendable (header : IapUpdataParam) : Prop where
  positive : 0 < header.updatesTotalSize
  fits : header.updatesTotalSize ≤ otaBinMaxSize
  subPositive : 0 < header.updatesSubSize
  subMultiple : header.updatesSubSize % 8 = 0

/-- The handler goes on with its variables as the session needs them. -/
structure Continues (port : IapPort) (header : IapUpdataParam) (id : UInt16)
    (handled : Handled) : Prop where
  running : handled.reset = false
  sameID : handled.ram.iapParam.id = id
  subSize : (port.progress handled.ram).subSize = header.updatesSubSize

variable {chip : Chip} {port : IapPort} {header : IapUpdataParam} {image : Nat → UInt8}
  {written : Set Nat} {mem : Mem} {locked : Bool}

theorem field_bytesFrom (frame : Nat → UInt8) (start offset width : Nat) :
    field (bytesFrom frame start) offset width = field frame (start + offset) width := by
  simp only [field, bytesFrom, Nat.add_assoc]

theorem covers_copy {offset length : Nat} (inside : offset + length ≤ otaBinMaxSize) :
    chip.geometry.Covers (chip.addrAppCopy + offset) length := by
  obtain ⟨lower, upper⟩ := covers_pageFromEnd chip (le_refl 57)
    (show offset + length ≤ 57 * flashPageSize by
      simp only [otaBinMaxSize, flashPageSize] at inside ⊢
      omega)
  exact ⟨le_trans lower (Nat.le_add_right _ _), by rw [Nat.add_assoc]; exact upper⟩

/-! ### Start -/

/-- The flash after a start command. -/
def startMem (chip : Chip) (pData : Nat → UInt8) (totalSize : Nat) (mem : Mem) : Mem :=
  overlay chip.addrAppCopy (roundUp flashPageSize totalSize) (fun _ => erasedByte)
    (overlay chip.addrAppInfo IapUpdataParam.size pData
      (overlay chip.addrAppInfo flashPageSize (fun _ => erasedByte) mem))

theorem ends_startCommand {pData : Nat → UInt8} {totalSize : Nat} (positive : 0 < totalSize)
    (fits : totalSize ≤ otaBinMaxSize) (handled : Handled) :
    Ends (flashStorageHeader chip pData >>= fun _ =>
        flashErasePage chip chip.addrAppCopy totalSize >>= fun _ => .done handled) mem locked
      handled (startMem chip pData totalSize mem) true := by
  have covers := @covers_copy chip 0 (roundUp flashPageSize totalSize)
    (by rw [Nat.zero_add]; exact roundUp_le_max fits)
  rw [Nat.add_zero] at covers
  exact (ends_flashStorageHeader pData).bind ((ends_flashErasePage positive fits
    (pageFromEnd_aligned chip 57) covers true).bind (.done handled))

/-- After the start command the header is stored and no piece is. -/
theorem staging_startMem {pData : Nat → UInt8} (fits : header.updatesTotalSize ≤ otaBinMaxSize)
    (carried : IapUpdataParam.read pData = header) :
    Staging chip header image ∅ (startMem chip pData header.updatesTotalSize mem) := by
  have copyInfo := copy_below_info chip
  have rounded := roundUp_le_max fits
  refine ⟨?_, fun index _ impossible => absurd impossible (Set.notMem_empty _), ?_⟩
  · refine (IapUpdataParam.read_congr fun index inside => ?_).trans carried
    rw [bytesAt, startMem, overlay_outside _ _ (by omega), overlay_inside _ _ (by omega)
      (by omega), Nat.add_sub_cancel_left]
  · intro index inside _
    exact overlay_inside _ _ (by omega) (by omega)

theorem not_foreign {id : UInt16} {frame : Nat → UInt8}
    (addressed : IapPort.can.Addressed id frame) : ¬ (id ≠ half frame 4 ∧ id ≠ 0xFFFF) := by
  rintro ⟨other, assigned⟩
  exact addressed.elim (fun same => other same.symm) assigned

theorem ends_start (sendable : Sendable header) {ram : IapRam} {buf : Nat → UInt8}
    {i dataLen : Nat} {info : DelInfo}
    (addressed : port.Addressed ram.iapParam.id (bytesFrom buf i))
    (start : IsStart port header (bytesFrom buf i)) :
    ∃ handled after, Ends (port.execute chip ram buf i dataLen info) mem locked handled after
        true ∧
      Staging chip header image ∅ after ∧ Continues port header ram.iapParam.id handled := by
  obtain ⟨code, carried⟩ := start
  have total : header.updatesTotalSize =
      field (bytesFrom buf i) (port.dataOffset + 2) 4 := by
    rw [← carried, ← field_bytesFrom]
    rfl
  have sub : field (bytesFrom buf i) (port.dataOffset + 6) 2 = header.updatesSubSize := by
    rw [← carried, ← field_bytesFrom]
    rfl
  have staging : Staging chip header image ∅ (startMem chip _ _ mem) :=
    staging_startMem sendable.fits carried
  have positive := sendable.positive
  have fits := sendable.fits
  rw [total] at staging positive fits
  cases port with
  | can =>
      have decoded : CanCommand.decode (bytesFrom buf i 3) = some .otaStart := by
        rw [code]
        rfl
      refine ⟨?handled, _, ?ends, staging, ?continues⟩
      case ends =>
        rw [IapPort.execute, canExecute]
        simp only [if_neg (not_foreign addressed), decoded]
        exact ends_startCommand positive fits _
      case continues => exact ⟨rfl, rfl, sub⟩
  | uart =>
      have decoded : UartCommand.decode (bytesFrom buf i 3) = some .otaStart := by
        rw [code]
        rfl
      refine ⟨?answered, _, ?finishes, staging, ?goesOn⟩
      case finishes =>
        rw [IapPort.execute, uartExecute]
        simp only [decoded]
        exact ends_startCommand positive fits _
      case goesOn => exact ⟨rfl, rfl, sub⟩

/-! ### Update -/

/-- Writing a piece, for the first time or again, adds it to the stored ones. -/
theorem ends_writePiece (staging : Staging chip header image written mem)
    (sendable : Sendable header) {k : Nat} {progress : OtaProgress} {piece : Nat → UInt8}
    (inside : k * header.updatesSubSize < header.updatesTotalSize)
    (num : progress.frameNum = k) (sub : progress.subSize = header.updatesSubSize)
    (data : ∀ index < pieceLen header k, piece index = image (k * header.updatesSubSize + index)) :
    ∃ after, Ends (writePiece chip progress piece true (pieceLen header k)) mem locked true after
        true ∧
      Staging chip header image (insert k written) after := by
  have total := sendable.fits
  have rounded := roundUp_le_max total
  have copyAligned : chip.addrAppCopy % (2 * 4) = 0 := by
    have page : chip.addrAppCopy % flashPageSize = 0 := pageFromEnd_aligned chip 57
    simp only [flashPageSize] at page
    omega
  have pagesAligned : roundUp flashPageSize header.updatesTotalSize % (2 * 4) = 0 := by
    rw [roundUp, flashPageSize]
    omega
  have covers := @covers_copy chip 0 (roundUp flashPageSize header.updatesTotalSize)
    (by rw [Nat.zero_add]; exact rounded)
  rw [Nat.add_zero] at covers
  have assembled : Assembled chip.addrAppCopy (roundUp flashPageSize header.updatesTotalSize) image
      header.updatesTotalSize header.updatesSubSize written mem :=
    ⟨staging.stored, staging.erased⟩
  obtain ⟨after, settles, ⟨stored, erased⟩, kept⟩ := @Assembled.settles_write _ _ _ _ k _ _ _
    chip.geometry 4 piece assembled (by omega) sendable.subPositive sendable.subMultiple
    pagesAligned copyAligned (le_roundUp page_pos _) covers inside data locked
  refine ⟨after, ?ends, ?headed, stored, erased⟩
  case ends =>
    rw [writePiece, num, sub]
    simp only [true_and, if_pos (show k * header.updatesSubSize < otaBinMaxSize by omega)]
    exact settles.ends_bind fun _ => .done true
  case headed =>
    have copyInfo := copy_below_info chip
    refine (IapUpdataParam.read_congr fun index _ => kept ?_).trans staging.headed
    simp only [Set.mem_compl_iff, Set.mem_Ico]
    omega

theorem pieceLen_bounds (sendable : Sendable header) {k : Nat}
    (inside : k * header.updatesSubSize < header.updatesTotalSize) :
    0 < pieceLen header k ∧ pieceLen header k ≤ otaBinMaxSize := by
  have positive := sendable.subPositive
  have fits := sendable.fits
  rw [pieceLen]
  omega

theorem ends_update (staging : Staging chip header image written mem)
    (sendable : Sendable header) {k : Nat} {ram : IapRam} {buf : Nat → UInt8} {i dataLen : Nat}
    {info : DelInfo} (addressed : port.Addressed ram.iapParam.id (bytesFrom buf i))
    (sub : (port.progress ram).subSize = header.updatesSubSize)
    (update : IsUpdate port header image k (bytesFrom buf i) dataLen) :
    ∃ handled after, Ends (port.execute chip ram buf i dataLen info) mem locked handled after
        true ∧
      Staging chip header image (insert k written) after ∧
      Continues port header ram.iapParam.id handled := by
  obtain ⟨code, inside, num, length, data⟩ := update
  obtain ⟨positive, bounded⟩ := pieceLen_bounds sendable inside
  have registers : otaBinMaxSize + 12 < 2 ^ 32 := by decide
  cases port with
  | can =>
      have decoded : CanCommand.decode (bytesFrom buf i 3) = some .otaUpdate := by
        rw [code]
        rfl
      have overhead : dataLen = 12 + pieceLen header k := length
      have payload : sub32 dataLen 12 = pieceLen header k := by
        rw [sub32_le (by omega) (by omega)]
        omega
      obtain ⟨after, write, stored⟩ := @ends_writePiece chip header image written mem locked
        staging sendable k { ram.can with updateFlag := 2, frameNum := field (bytesFrom buf i) 8 2 }
        (bytesFrom (bytesFrom buf i) 10) inside num sub data
      refine ⟨?handled, after, ?ends, stored, ?continues⟩
      case ends =>
        rw [IapPort.execute, canExecute]
        simp only [if_neg (not_foreign addressed), decoded, payload,
          decide_eq_true (show 10 < dataLen by omega)]
        refine write.bind ?_
        exact .done _
      case continues => exact ⟨rfl, rfl, sub⟩
  | uart =>
      have decoded : UartCommand.decode (bytesFrom buf i 3) = some .otaUpdate := by
        rw [code]
        rfl
      have overhead : dataLen = 10 + pieceLen header k := length
      have payload : sub32 dataLen 10 = pieceLen header k := by
        rw [sub32_le (by omega) (by omega)]
        omega
      obtain ⟨after, write, stored⟩ := @ends_writePiece chip header image written mem locked
        staging sendable k
        { ram.uart with updateFlag := 2, frameNum := field (bytesFrom buf i) 6 2 }
        (bytesFrom (bytesFrom buf i) 8) inside num sub data
      refine ⟨?answered, after, ?finishes, stored, ?goesOn⟩
      case finishes =>
        rw [IapPort.execute, uartExecute]
        simp only [decoded, payload, decide_eq_true (show 10 < dataLen by omega)]
        refine write.bind ?_
        exact .done _
      case goesOn => exact ⟨rfl, rfl, sub⟩

/-! ### End -/

/-- The end command requests the update and resets. -/
theorem ends_end {ram : IapRam} {buf : Nat → UInt8} {i dataLen : Nat} {info : DelInfo}
    (addressed : port.Addressed ram.iapParam.id (bytesFrom buf i))
    (code : bytesFrom buf i 3 = port.endCode) :
    ∃ handled after, Ends (port.execute chip ram buf i dataLen info) mem locked handled after
        true ∧
      handled.reset = true ∧ iapFlag chip after = otaUpdateApp ∧
      Set.EqOn after mem (pageAt chip.addrIapFlag)ᶜ := by
  obtain ⟨after, ends, flag, kept⟩ := @ends_updateAppMode chip mem locked
  cases port with
  | can =>
      have decoded : CanCommand.decode (bytesFrom buf i 3) = some .otaEnd := by
        rw [code]
        rfl
      refine ⟨?handled, after, ?ends, ?resets, flag, kept⟩
      case ends =>
        rw [IapPort.execute, canExecute]
        simp only [if_neg (not_foreign addressed), decoded]
        refine ends.bind ?_
        exact .done _
      case resets => rfl
  | uart =>
      have decoded : UartCommand.decode (bytesFrom buf i 3) = some .otaEnd := by
        rw [code]
        rfl
      refine ⟨?answered, after, ?finishes, ?restarts, flag, kept⟩
      case finishes =>
        rw [IapPort.execute, uartExecute]
        simp only [decoded]
        refine ends.bind ?_
        exact .done _
      case restarts => rfl

/-! ## Whole sessions -/

/-- An accepted call carries one piece only. -/
theorem Call.Carries.frameNum_unique {call : Call} {id : UInt16} {k piece i dataLen : Nat}
    (carries : call.Carries port id (IsUpdate port header image piece))
    (accepts : call.Accepts port i dataLen)
    (update : IsUpdate port header image k (bytesFrom call.buf i) dataLen) : piece = k := by
  obtain ⟨other, otherLen, otherAccepts, -, otherUpdate⟩ := carries
  cases otherAccepts.2.symm.trans accepts.2
  exact otherUpdate.frameNum.symm.trans update.frameNum

theorem ends_handleAll_cons {call : Call} {later : List Call} {ram : IapRam} {i dataLen : Nat}
    {handled : Handled} {middle final : Mem} {open' closed : Bool} {result : IapRam × Bool}
    (accepts : call.Accepts port i dataLen)
    (first : Ends (port.execute chip ram call.buf i dataLen (ScanEnd.accept i dataLen).info) mem
      locked handled middle open')
    (running : handled.reset = false)
    (rest : Ends (handleAll chip port later handled.ram) middle open' result final closed) :
    Ends (handleAll chip port (call :: later) ram) mem locked result final closed := by
  rw [handleAll, protocolAnylise_accepts accepts.1 accepts.2]
  refine first.bind ?_
  rw [running]
  exact rest

/-- All pieces are stored and the update is requested. -/
structure SessionDone (chip : Chip) (header : IapUpdataParam) (image : Nat → UInt8)
    (mem : Mem) : Prop where
  updating : iapFlag chip mem = otaUpdateApp
  headed : headerAt chip mem = header
  stored : ∀ index < header.updatesTotalSize, mem (chip.addrAppCopy + index) = image index

/-- From any stored pieces on: if the update frames carry the missing ones, the
end frame finds the whole image in the copy area. -/
theorem ends_updates (sendable : Sendable header) {updates : List Call} {final : Call}
    {ram : IapRam} (staging : Staging chip header image written mem)
    (sub : (port.progress ram).subSize = header.updatesSubSize)
    (pieces : ∀ call ∈ updates, ∃ k, call.Carries port ram.iapParam.id
      (IsUpdate port header image k))
    (covered : ∀ k, k * header.updatesSubSize < header.updatesTotalSize → k ∈ written ∨
      ∃ call ∈ updates, call.Carries port ram.iapParam.id (IsUpdate port header image k))
    (ended : final.Carries port ram.iapParam.id fun frame _ => frame 3 = port.endCode) :
    ∃ ramAfter after, Ends (handleAll chip port (updates ++ [final]) ram) mem locked
        (ramAfter, true) after true ∧ SessionDone chip header image after := by
  induction updates generalizing written mem locked ram with
  | nil =>
      obtain ⟨i, dataLen, accepts, addressed, code⟩ := ended
      obtain ⟨handled, after, ends, resets, flag, kept⟩ :=
        @ends_end chip port mem locked ram final.buf i dataLen (ScanEnd.accept i dataLen).info
          addressed code
      have infoFlag := info_lt_flag chip
      have copyInfo := copy_below_info chip
      have fits := sendable.fits
      have outside {cell : Nat} (low : cell < chip.addrIapFlag) : after cell = mem cell :=
        kept fun inside => absurd (Set.mem_Ico.mp inside).1 (not_le.mpr low)
      have positivePage := page_pos
      refine ⟨handled.ram, after, ?_, flag, ?_, ?_⟩
      · rw [List.nil_append, handleAll, protocolAnylise_accepts accepts.1 accepts.2]
        refine ends.bind ?_
        rw [resets]
        exact .done _
      · refine (IapUpdataParam.read_congr fun index inside => outside ?_).trans staging.headed
        simp only [IapUpdataParam.size, flashPageSize] at inside infoFlag
        omega
      · intro index inside
        rw [outside (by omega)]
        refine staging.stored index inside ?_
        have split := Nat.div_mul_le_self index header.updatesSubSize
        rcases covered (index / header.updatesSubSize) (by omega) with stored | ⟨call, member, -⟩
        · exact stored
        · exact absurd member (List.not_mem_nil)
  | cons call later ih =>
      obtain ⟨k, i, dataLen, accepts, addressed, update⟩ := pieces call List.mem_cons_self
      obtain ⟨handled, middle, ends, stored, running, sameID, sameSub⟩ :=
        @ends_update chip port header image written mem locked staging sendable k ram call.buf i
          dataLen (ScanEnd.accept i dataLen).info addressed sub update
      have rest := @ih (insert k written) middle true handled.ram stored sameSub
      rw [sameID] at rest
      obtain ⟨ramAfter, after, finish, done⟩ := rest
        (fun other member => pieces other (List.mem_cons_of_mem _ member))
        (fun piece inside => by
          rcases covered piece inside with old | ⟨other, member, carries⟩
          · exact Or.inl (Set.mem_insert_of_mem k old)
          · rcases List.mem_cons.mp member with rfl | behind
            · rw [carries.frameNum_unique accepts update]
              exact Or.inl (Set.mem_insert k written)
            · exact Or.inr ⟨other, behind, carries⟩)
        ended
      exact ⟨ramAfter, after, ends_handleAll_cons accepts ends running finish, done⟩

/-- An update session through either handler, with its update frames in any order
and with any repetitions, ends in a reset, and the next boot installs the image. -/
theorem iap_session_correct (chip : Chip) (uncompress : Uncompress) (port : IapPort)
    (image : Nat → UInt8) (size subSize : Nat) (positive : 0 < size)
    (fits : size ≤ otaBinMaxSize) (subPositive : 0 < subSize) (subMultiple : subSize % 8 = 0)
    (disjoint : flashAppRunAddr + otaBinMaxSize ≤ chip.addrAppCopy)
    (header : IapUpdataParam) (plain : header.compressFlag = 0)
    (total : header.updatesTotalSize = size) (sub : header.updatesSubSize = subSize)
    (crc : header.updatesCRC32 = (crc32 image size).toNat)
    (state : State) (ram : IapRam) (start : Call) (updates : List Call) (final : Call)
    (started : start.Carries port ram.iapParam.id fun frame _ => IsStart port header frame)
    (pieces : ∀ call ∈ updates, ∃ k, call.Carries port ram.iapParam.id
      (IsUpdate port header image k))
    (covered : ∀ k, k * subSize < size → ∃ call ∈ updates,
      call.Carries port ram.iapParam.id (IsUpdate port header image k))
    (ended : final.Carries port ram.iapParam.id fun frame _ => frame 3 = port.endCode) :
    ∃ (staged installed : Mem) (ramAfter : IapRam),
      (∀ schedule : FlashSchedule, Schedule.Within (D := flash chip.geometry) Reliable schedule →
        Schedule.Powered (D := flash chip.geometry) schedule → ∃ log rest,
        Prog.run (handleAll chip port (start :: updates ++ [final]) ram) schedule state =
          .done (ramAfter, true) (⟨staged, true, log⟩ : State) rest) ∧
      (∀ index < size, installed (flashAppRunAddr + index) = image index) ∧
      iapFlag chip installed = otaRunApp ∧
      ∀ fuel locked log, BootsTo chip uncompress fuel ⟨staged, locked, log⟩ installed := by
  subst total sub
  have sendable : Sendable header := ⟨positive, fits, subPositive, subMultiple⟩
  obtain ⟨i, dataLen, accepts, addressed, isStart⟩ := started
  obtain ⟨handled, middle, ends, staging, running, sameID, sameSub⟩ :=
    @ends_start chip port header image state.mem state.locked sendable ram start.buf i dataLen
      (ScanEnd.accept i dataLen).info addressed isStart
  rw [← sameID] at pieces covered ended
  obtain ⟨ramAfter, staged, finish, updating, headed, stored⟩ :=
    @ends_updates chip port header image ∅ middle true sendable updates final handled.ram staging
      sameSub pieces (fun k inside => Or.inr (covered k inside)) ended
  have session := ends_handleAll_cons accepts ends running finish
  have pending : PlainPending chip staged := by
    refine ⟨updating, ?_, ?_, ⟨?_, ?_⟩, ?_⟩
    · rw [headed, plain]
      decide
    · rw [headed]
      exact positive
    · rw [headed]
      exact fits
    · rw [headed, crc]
      exact congrArg UInt32.toNat (crc32_congr fun index inside => (stored index inside).symm)
    · rw [headed]
      exact le_trans (Nat.add_le_add_left (roundUp_le_max fits) _) disjoint
  refine ⟨staged, plainFinal chip staged, ramAfter, ?_, ?_, iapFlag_erased, ?_⟩
  · intro schedule within powered
    obtain ⟨log, used, run⟩ := session.run state.log within powered
    exact ⟨log, _, run⟩
  · intro index inside
    have runBelow := run_below_info chip
    have infoFlag := info_lt_flag chip
    rw [plainFinal, flagErased, overlay_outside _ _ (Or.inl (by omega)), headed,
      installed_run inside]
    exact stored index inside
  · intro fuel locked log
    exact @PlainPending.bootsTo chip ⟨staged, locked, log⟩ pending uncompress fuel

/-! ## A session for two pieces -/

/-- A call with one frame and nothing else in its buffer. -/
def frameCall (frame : List UInt8) : Call := ⟨bufferOf frame, frame.length, 1⟩

/-- Two pieces of eight bytes. -/
def sampleImage : List UInt8 := [1, 2, 3, 4, 5, 6, 7, 8, 9, 10, 11, 12, 13, 14, 15, 16]

def sessionStart : List UInt8 :=
  construct 0x01 [0xFF, 0xFF, 0, 0, 1, 0, 0, 0, 16, 0, 0, 0, 8, 0, 0xF1, 0x80, 0x4C, 0x09,
    16, 0, 0, 0, 1, 0, 8, 0, 0xF1, 0x80, 0x4C, 0x09]

def sampleStart : Call := frameCall sessionStart

/-- The update frame with a piece of the sample image. -/
def samplePiece (k : UInt8) : List UInt8 :=
  construct 0x02 ([0xFF, 0xFF, 0, 0, k, 0] ++ (sampleImage.drop (k.toNat * 8)).take 8)

def firstUpdate : Call := frameCall (samplePiece 0)

def secondUpdate : Call := frameCall (samplePiece 1)

def sampleEnd : Call := frameCall (construct 0x03 [0xFF, 0xFF, 0, 0])

def sampleHeader : IapUpdataParam := ⟨0, 16, 8, 0x94C80F1, 16, 1, 8, 0x94C80F1⟩

def sampleRam : IapRam := .loaded (IapParam.default sampleChip)

theorem firstUpdate_carries : firstUpdate.Carries .can sampleRam.iapParam.id
    (IsUpdate .can sampleHeader (bufferOf sampleImage) 0) := by
  refine ⟨0, 20, ⟨by decide, by decide +kernel⟩, Or.inr rfl, ?_⟩
  exact ⟨by decide, by decide, by decide, by decide, by decide⟩

theorem secondUpdate_carries : secondUpdate.Carries .can sampleRam.iapParam.id
    (IsUpdate .can sampleHeader (bufferOf sampleImage) 1) := by
  refine ⟨0, 20, ⟨by decide, by decide +kernel⟩, Or.inr rfl, ?_⟩
  exact ⟨by decide, by decide, by decide, by decide, by decide⟩

/-- The second piece comes first, and once more at the end. -/
theorem iap_session_correct_sample : ∃ (staged installed : Mem) (ramAfter : IapRam),
    (∀ schedule : FlashSchedule,
      Schedule.Within (D := flash sampleChip.geometry) Reliable schedule →
      Schedule.Powered (D := flash sampleChip.geometry) schedule → ∃ log rest,
      Prog.run (handleAll sampleChip .can (sampleStart ::
          [secondUpdate, firstUpdate, secondUpdate] ++ [sampleEnd]) sampleRam) schedule
          (⟨stagedFlash sampleChip otaForceUpdateApp [] [], true, []⟩ : State) =
        .done (ramAfter, true) (⟨staged, true, log⟩ : State) rest) ∧
    (∀ index < 16, installed (flashAppRunAddr + index) = bufferOf sampleImage index) ∧
    iapFlag sampleChip installed = otaRunApp ∧
    ∀ fuel locked log, BootsTo sampleChip zeroUncompress fuel ⟨staged, locked, log⟩ installed := by
  apply iap_session_correct sampleChip zeroUncompress .can (bufferOf sampleImage) 16 8 (by decide)
    (by decide) (by decide) (by decide) (by decide +kernel) sampleHeader rfl rfl rfl
    (by decide +kernel) _ sampleRam sampleStart [secondUpdate, firstUpdate, secondUpdate] sampleEnd
  · exact ⟨0, 36, ⟨by decide, by decide +kernel⟩, Or.inr rfl, by decide, by decide +kernel⟩
  · intro call member
    simp only [List.mem_cons, List.not_mem_nil, or_false] at member
    rcases member with rfl | rfl | rfl
    · exact ⟨1, secondUpdate_carries⟩
    · exact ⟨0, firstUpdate_carries⟩
    · exact ⟨1, secondUpdate_carries⟩
  · intro k inside
    obtain rfl | rfl : k = 0 ∨ k = 1 := by omega
    · exact ⟨firstUpdate, by simp, firstUpdate_carries⟩
    · exact ⟨secondUpdate, by simp, secondUpdate_carries⟩
  · exact ⟨0, 10, ⟨by decide, by decide +kernel⟩, Or.inr rfl, by decide⟩

end LedFirmware
