import LedFirmware.AppFlag
import LedFirmware.AppStart
import LedFirmware.Download

/-!
# Updates through the application

A session through a handler of the application stages an image and asks the bootloader
for the update.  The bootloader reads the header of the application one half-word too
early; for nearly every size it finds an image that is too large, refuses the update and
starts the old program again.
-/

namespace LedFirmware.App

open CrashProgram NorFlash

/-- One call of a handler after another, until it resets; the result says whether it did. -/
def handleAll (chip : Chip) (port : Port) : List Delivery → Ram →
    FlashProg chip.geometry (Ram × Bool)
  | [], ram => .done (ram, false)
  | call :: later, ram =>
      protocolAnylise chip port call.fuel ram call.stack call.buf call.len >>= fun handled =>
      if handled.reset then .done (handled.ram, true) else handleAll chip port later handled.ram

/-- The piece length that the last start frame of the bus has announced. -/
def Port.subSize : Port → Ram → Nat
  | .can, ram => ram.can.subSize
  | .uart, ram => ram.uart.subSize

/-- The call is accepted with a frame for which the property holds, addressed to the
device. -/
def Port.Carries (port : Port) (id : UInt16)
    (frameIs : (frame : Nat → UInt8) → (dataLen : Nat) → Prop) (call : Delivery) : Prop :=
  ∃ i dataLen, port.protocol.Accepts call.fuel call.buf call.len i dataLen ∧
    port.protocol.bus.Addressed id (bytesFrom call.buf i) ∧ frameIs (bytesFrom call.buf i) dataLen

/-- A start frame for an image of the size, in pieces of the piece size. -/
structure IsStart (port : Port) (size subSize : Nat) (frame : Nat → UInt8) : Prop where
  code : frame 3 = port.protocol.bus.startCode
  total : port.totalSize frame = size
  sub : field frame (port.headerOffset + 8) 2 = subSize

/-! ## What the routines touch -/

section Touches

variable {chip : Chip} {region : Set Nat}

theorem touches_eraseEach {count addr : Nat} (aligned : addr % flashPageSize = 0)
    (inside : Set.Ico addr (addr + flashPageSize * count) ⊆ region) :
    Touches chip.geometry region (eraseEach chip count addr) := by
  induction count generalizing addr with
  | zero => exact .done ()
  | succ count ih =>
      have page : 0 < flashPageSize := by decide
      have total : flashPageSize * (count + 1) = flashPageSize + flashPageSize * count := by ring
      refine .bind (.erase fun cell samePage => inside ?_) fun _ => ih ?_ ?_
      · have bounds := (samePage_iff (page_positive chip) aligned).mp samePage
        have size : chip.geometry.page = flashPageSize := rfl
        simp only [Set.mem_Ico]
        omega
      · rw [Nat.add_mod_right, aligned]
      · exact (Set.Ico_subset_Ico (by omega) (by omega)).trans inside

theorem touches_eraseCopy {size : Nat} (inside : copyArea chip ⊆ region) :
    Touches chip.geometry region (flashErasePage chip chip.addrAppCopy size) := by
  refine .ite (fun _ => .done false) fun accepted => .bind (.setLock false) fun _ =>
    .bind (touches_eraseEach (pageFromEnd_aligned chip 57) ?_) fun _ =>
    .bind (.setLock true) fun _ => .done true
  rw [not_or] at accepted
  have fits := @roundUp_le_max size (by omega)
  rw [roundUp] at fits
  exact (Set.Ico_subset_Ico_right (Nat.add_le_add_left fits _)).trans inside

theorem touches_flashStorageHeader (pData : Nat → UInt8)
    (inside : pageAt chip.addrAppInfo ⊆ region) :
    Touches chip.geometry region (flashStorageHeader chip pData) := by
  refine .bind (.setLock false) fun _ => .bind (touches_programUnits _ _ _ _ ?_) fun written =>
    .ite (fun _ => .bind (.setLock true) fun _ => .done true) fun _ => .done false
  exact (Set.Ico_subset_Ico_right (by simp [flashPageSize])).trans inside

theorem touches_programIapFlag (flag : Nat) (inside : pageAt chip.addrIapFlag ⊆ region) :
    Touches chip.geometry region (programIapFlag chip flag) := by
  refine .bind (.setLock false) fun _ => .bind (touches_programHalves _ _ _ ?_) fun _ =>
    .bind (touches_programHalves _ _ _ ?_) fun _ => .setLock true
  · exact (Set.Ico_subset_Ico_right (by simp [flashPageSize])).trans inside
  · exact (Set.Ico_subset_Ico (by omega) (by simp [flashPageSize])).trans inside

theorem touches_updateAppMode (inside : pageAt chip.addrIapFlag ⊆ region) :
    Touches chip.geometry region (updateAppMode chip) :=
  .bind touches_readIAPMode fun _ => .bind
    (.ite (fun _ => touches_runAppMode inside) fun _ => .done ())
    fun _ => touches_programIapFlag _ inside

theorem touches_startFlash {port : Port} {size : Nat} {pData : Nat → UInt8}
    (copy : copyArea chip ⊆ region) (info : pageAt chip.addrAppInfo ⊆ region) :
    Touches chip.geometry region (startFlash chip port size pData) := by
  cases port with
  | can =>
      exact .bind (touches_flashStorageHeader pData info) fun _ =>
        .bind (touches_eraseCopy copy) fun _ => .done ()
  | uart =>
      exact .bind (touches_eraseCopy copy) fun _ =>
        .bind (touches_flashStorageHeader pData info) fun _ => .done ()

end Touches

/-! ## One call of a session -/

/-- The handler goes on with its variables as the session needs them. -/
structure Continues (port : Port) (subSize : Nat) (id : UInt16) (handled : Handled) : Prop where
  running : handled.reset = false
  sameID : handled.ram.iapParam.id = id
  sub : port.subSize handled.ram = subSize

/-- The flash in a session: the header of its start frame, the pieces in `written` and
erased cells, and below the copy area what was there before. -/
structure Staged (chip : Chip) (port : Port) (start image : Nat → UInt8) (size subSize : Nat)
    (written : Set Nat) (before mem : Mem) : Prop where
  header : ∀ index < 26, mem (chip.addrAppInfo + index) = port.headerBytes start index
  pieces : Assembled chip.addrAppCopy (roundUp flashPageSize size) image size subSize written mem
  kept : ∀ cell < chip.addrAppCopy, mem cell = before cell

variable {chip : Chip} {port : Port} {size subSize fuel len i dataLen : Nat} {ram : Ram}
  {start image stack buf : Nat → UInt8} {written : Set Nat} {before mem : Mem} {locked : Bool}

/-- A start frame is answered by its flash operations alone. -/
theorem anylise_start (accepts : port.protocol.Accepts fuel buf len i dataLen)
    (addressed : port.protocol.bus.Addressed ram.iapParam.id (bytesFrom buf i))
    (isStart : IsStart port size subSize (bytesFrom buf i)) :
    ∃ handled, protocolAnylise chip port fuel ram stack buf len =
        (startFlash chip port (port.eraseSize size) (port.header (bytesFrom buf i) stack) >>=
          fun _ => .done handled) ∧
      Continues port subSize ram.iapParam.id handled := by
  obtain ⟨code, rfl, sub⟩ := isStart
  rw [protocolAnylise_accepts accepts.1 accepts.2]
  cases port with
  | can =>
      have decoded : CanCommand.decode (bytesFrom buf i 3) = some .otaStart := by
        rw [code]
        rfl
      refine ⟨?canHandled, ?canSame, ?canGoes⟩
      case canSame =>
        simp only [Port.execute, canExecute, if_neg (not_foreign addressed), decoded, startFlash,
          Prog.bind_bind, Prog.done_bind]
        rfl
      case canGoes => exact ⟨rfl, rfl, sub⟩
  | uart =>
      have decoded : UartCommand.decode (bytesFrom buf i 3) = some .otaStart := by
        rw [code]
        rfl
      refine ⟨?uartHandled, ?uartSame, ?uartGoes⟩
      case uartSame =>
        simp only [Port.execute, uartExecute, decoded, startFlash, Prog.bind_bind, Prog.done_bind]
        rfl
      case uartGoes => exact ⟨rfl, rfl, sub⟩

/-- Over an erased info page, a start frame stages its header and no piece. -/
theorem ends_startCall (accepts : port.protocol.Accepts fuel buf len i dataLen)
    (addressed : port.protocol.bus.Addressed ram.iapParam.id (bytesFrom buf i))
    (isStart : IsStart port size subSize (bytesFrom buf i))
    (erasable : port.eraseSize size ≤ otaBinMaxSize) (fits : size ≤ otaBinMaxSize)
    (blank : ∀ index < flashPageSize, mem (chip.addrAppInfo + index) = erasedByte) :
    ∃ handled after closed,
      Ends (protocolAnylise chip port fuel ram stack buf len) mem locked handled after closed ∧
      Staged chip port (bytesFrom buf i) image size subSize ∅ mem after ∧
      Continues port subSize ram.iapParam.id handled := by
  obtain ⟨handled, equation, continues⟩ := @anylise_start chip port size subSize fuel len i dataLen
    ram stack buf accepts addressed isStart
  obtain ⟨after, closed, ends, effect⟩ := @ends_startFlash chip port (port.eraseSize size)
    (port.header (bytesFrom buf i) stack) mem locked
  have copyInfo := copy_below_info chip
  have larger : size ≤ port.eraseSize size := by
    cases port with
    | can => exact le_rfl
    | uart =>
        have registers : otaBinMaxSize + 64 < 2 ^ 32 := by decide
        rw [Port.eraseSize, Nat.mod_eq_of_lt (by omega)]
        exact Nat.le_add_right _ _
  refine ⟨handled, after, closed, ?_, ⟨fun index inside => ?_, ⟨?_, ?_⟩, fun cell below => ?_⟩,
    continues⟩
  · rw [equation]
    exact ends.bind (.done handled)
  · refine (effect.header_iff inside).mpr (.inr fun offset early => blank offset ?_)
    simp only [flashPageSize]
    omega
  · exact fun index _ impossible => absurd impossible (Set.notMem_empty _)
  · intro index inside _
    have positive : 0 < size := by
      rw [roundUp, flashPageSize] at inside
      omega
    refine effect.erased (by omega) erasable index (lt_of_lt_of_le inside ?_)
    exact Nat.mul_le_mul_left _ (Nat.div_le_div_right (by omega))
  · refine ends.kept (@touches_startFlash chip (Set.Ici chip.addrAppCopy) _ _ _ ?_ ?_) ?_
    · exact fun other inside => inside.1
    · exact fun other inside => le_trans (by omega) inside.1
    · simpa using below

/-- Writing a piece, for the first time or again, adds it to the staged ones. -/
theorem Staged.ends_writePiece
    (staged : Staged chip port start image size subSize written before mem) (locked : Bool)
    (fits : size ≤ otaBinMaxSize) (positive : 0 < subSize) (units : subSize % 4 = 0) {k : Nat}
    (progress : OtaProgress) {piece : Nat → UInt8} (inside : k * subSize < size)
    (num : progress.frameNum = k) (sub : progress.subSize = subSize)
    (data : ∀ index < pieceSize size subSize k, piece index = image (k * subSize + index)) :
    ∃ after, Ends (writePiece chip progress piece true (pieceSize size subSize k)) mem locked true
        after true ∧
      Staged chip port start image size subSize (insert k written) before after := by
  have copyInfo := copy_below_info chip
  have rounded := roundUp_le_max fits
  have copyAligned : chip.addrAppCopy % (2 * 2) = 0 := by
    have aligned : chip.addrAppCopy % flashPageSize = 0 := pageFromEnd_aligned chip 57
    rw [flashPageSize] at aligned
    omega
  have pagesAligned : roundUp flashPageSize size % (2 * 2) = 0 := by
    rw [roundUp, flashPageSize]
    omega
  have covers := @covers_copy chip 0 (roundUp flashPageSize size)
    (by rw [Nat.zero_add]; exact rounded)
  rw [Nat.add_zero] at covers
  obtain ⟨after, settles, assembled, kept⟩ := @Assembled.settles_write _ _ _ _ k _ _ _
    chip.geometry 2 piece staged.pieces (by omega) positive units pagesAligned copyAligned
    (le_roundUp page_pos _) covers inside data locked
  have outside {cell : Nat} (apart : cell < chip.addrAppCopy ∨ chip.addrAppInfo ≤ cell) :
      after cell = mem cell := by
    refine kept ?_
    simp only [Set.mem_compl_iff, Set.mem_Ico]
    omega
  refine ⟨after, ?_, ⟨fun index early => ?_, assembled, fun cell below => ?_⟩⟩
  · rw [writePiece, num, sub]
    simp only [true_and, if_pos (show k * subSize < otaBinMaxSize by omega)]
    exact settles.ends_bind fun _ => .done true
  · rw [outside (.inr (Nat.le_add_right _ _)), staged.header index early]
  · rw [outside (.inl below), staged.kept cell below]

/-- An update frame adds its piece. -/
theorem Staged.ends_updateCall
    (staged : Staged chip port start image size subSize written before mem)
    (fits : size ≤ otaBinMaxSize) (positive : 0 < subSize) (units : subSize % 4 = 0) {k : Nat}
    (accepts : port.protocol.Accepts fuel buf len i dataLen)
    (addressed : port.protocol.bus.Addressed ram.iapParam.id (bytesFrom buf i))
    (sub : port.subSize ram = subSize)
    (isPiece : IsPiece port.protocol.bus image size subSize k (bytesFrom buf i) dataLen) :
    ∃ handled after,
      Ends (protocolAnylise chip port fuel ram stack buf len) mem locked handled after true ∧
      Staged chip port start image size subSize (insert k written) before after ∧
      Continues port subSize ram.iapParam.id handled := by
  obtain ⟨code, inside, num, length, data⟩ := isPiece
  have some' : 0 < pieceSize size subSize k := by
    rw [pieceSize]
    omega
  have whole := piece_end inside
  have registers : otaBinMaxSize + 12 < 2 ^ 32 := by decide
  rw [protocolAnylise_accepts accepts.1 accepts.2]
  cases port with
  | can =>
      have decoded : CanCommand.decode (bytesFrom buf i 3) = some .otaUpdate := by
        rw [code]
        rfl
      have overhead : dataLen = 12 + pieceSize size subSize k := length
      have payload : sub32 dataLen 12 = pieceSize size subSize k := by
        rw [sub32_le (by omega) (by omega), overhead, Nat.add_sub_cancel_left]
      obtain ⟨after, write, next⟩ := staged.ends_writePiece locked fits positive units
        { ram.can with updateFlag := 2, frameNum := field (bytesFrom buf i) 8 2 } inside num sub
        data
      refine ⟨?canHandled, after, ?canEnds, next, ?canGoes⟩
      case canEnds =>
        simp only [Port.execute, canExecute, if_neg (not_foreign addressed), decoded, payload,
          decide_eq_true (show 10 < dataLen by omega)]
        refine write.bind ?_
        exact .done _
      case canGoes => exact ⟨rfl, rfl, sub⟩
  | uart =>
      have decoded : UartCommand.decode (bytesFrom buf i 3) = some .otaUpdate := by
        rw [code]
        rfl
      have overhead : dataLen = 10 + pieceSize size subSize k := length
      have payload : sub32 dataLen 10 = pieceSize size subSize k := by
        rw [sub32_le (by omega) (by omega), overhead, Nat.add_sub_cancel_left]
      obtain ⟨after, write, next⟩ := staged.ends_writePiece locked fits positive units
        { ram.uart with updateFlag := 2, frameNum := field (bytesFrom buf i) 6 2 } inside num sub
        data
      refine ⟨?uartHandled, after, ?uartEnds, next, ?uartGoes⟩
      case uartEnds =>
        simp only [Port.execute, uartExecute, decoded, payload,
          decide_eq_true (show 10 < dataLen by omega)]
        refine write.bind ?_
        exact .done _
      case uartGoes => exact ⟨rfl, rfl, sub⟩

/-- The end frame asks the bootloader for the update and resets. -/
theorem ends_endCall (accepts : port.protocol.Accepts fuel buf len i dataLen)
    (addressed : port.protocol.bus.Addressed ram.iapParam.id (bytesFrom buf i))
    (code : bytesFrom buf i 3 = port.protocol.bus.endCode) :
    ∃ handled after,
      Ends (protocolAnylise chip port fuel ram stack buf len) mem locked handled after true ∧
      handled.reset = true ∧ iapFlag chip after = otaUpdateApp ∧
      ∀ cell < chip.addrIapFlag, after cell = mem cell := by
  obtain ⟨after, ends, flag⟩ := @FlagRoutine.ends_program chip mem locked .updateAppMode
  have kept := ends.kept (touches_updateAppMode Set.Subset.rfl)
  rw [protocolAnylise_accepts accepts.1 accepts.2]
  have below (cell : Nat) (early : cell < chip.addrIapFlag) : after cell = mem cell :=
    kept fun inside => absurd inside.1 (not_le.mpr early)
  cases port with
  | can =>
      have decoded : CanCommand.decode (bytesFrom buf i 3) = some .otaEnd := by
        rw [code]
        rfl
      refine ⟨?canHandled, after, ?canEnds, ?canResets, flag, below⟩
      case canEnds =>
        simp only [Port.execute, canExecute, if_neg (not_foreign addressed), decoded]
        refine Ends.bind ends ?_
        exact .done _
      case canResets => rfl
  | uart =>
      have decoded : UartCommand.decode (bytesFrom buf i 3) = some .otaEnd := by
        rw [code]
        rfl
      refine ⟨?uartHandled, after, ?uartEnds, ?uartResets, flag, below⟩
      case uartEnds =>
        simp only [Port.execute, uartExecute, decoded]
        refine Ends.bind ends ?_
        exact .done _
      case uartResets => rfl

/-! ## Whole sessions -/

/-- An accepted call carries one piece only. -/
theorem Port.Carries.frameNum_unique {id : UInt16} {k piece : Nat} {call : Delivery}
    (carries : port.Carries id (IsPiece port.protocol.bus image size subSize piece) call)
    (accepts : port.protocol.Accepts call.fuel call.buf call.len i dataLen)
    (isPiece : IsPiece port.protocol.bus image size subSize k (bytesFrom call.buf i) dataLen) :
    piece = k := by
  obtain ⟨other, otherLen, otherAccepts, -, otherPiece⟩ := carries
  cases otherAccepts.2.symm.trans accepts.2
  exact otherPiece.frameNum.symm.trans isPiece.frameNum

/-- The image is staged and its update requested; the rest of the flash is the old one. -/
structure SessionDone (chip : Chip) (port : Port) (start image : Nat → UInt8) (size : Nat)
    (before mem : Mem) : Prop where
  updating : iapFlag chip mem = otaUpdateApp
  header : ∀ index < 26, mem (chip.addrAppInfo + index) = port.headerBytes start index
  stored : ∀ index < size, mem (chip.addrAppCopy + index) = image index
  kept : ∀ cell < chip.addrAppCopy, mem cell = before cell

/-- From any staged pieces on: if the update frames carry the missing ones, the end frame
finds the whole image. -/
theorem Staged.ends_updates {updates : List Delivery} {final : Delivery}
    (staged : Staged chip port start image size subSize written before mem) (locked : Bool)
    (fits : size ≤ otaBinMaxSize) (positive : 0 < subSize) (units : subSize % 4 = 0)
    (sub : port.subSize ram = subSize)
    (pieces : ∀ call ∈ updates, ∃ k, port.Carries ram.iapParam.id
      (IsPiece port.protocol.bus image size subSize k) call)
    (covered : ∀ k, k * subSize < size → k ∈ written ∨ ∃ call ∈ updates,
      port.Carries ram.iapParam.id (IsPiece port.protocol.bus image size subSize k) call)
    (ended : port.Carries ram.iapParam.id (fun frame _ => frame 3 = port.protocol.bus.endCode)
      final) :
    ∃ ramAfter after, Ends (handleAll chip port (updates ++ [final]) ram) mem locked
        (ramAfter, true) after true ∧ SessionDone chip port start image size before after := by
  induction updates generalizing written mem locked ram with
  | nil =>
      obtain ⟨i, dataLen, accepts, addressed, code⟩ := ended
      obtain ⟨handled, after, ends, resets, flag, below⟩ :=
        @ends_endCall chip port final.fuel final.len i dataLen ram final.stack final.buf mem locked
          accepts addressed code
      have page : flashPageSize = 2048 := rfl
      have copyInfo := copy_below_info chip
      have infoParam := info_below_param chip
      have paramFlag := param_below_flag chip
      refine ⟨handled.ram, after, ?_, flag, fun index early => ?_, fun index inside => ?_,
        fun cell early => ?_⟩
      · rw [List.nil_append, handleAll]
        refine ends.bind ?_
        rw [resets]
        exact .done _
      · rw [below _ (by omega), staged.header index early]
      · rw [below _ (by omega)]
        refine staged.pieces.stored index inside ?_
        have split := Nat.div_mul_le_self index subSize
        rcases covered (index / subSize) (by omega) with stored | ⟨call, member, -⟩
        · exact stored
        · exact absurd member List.not_mem_nil
      · rw [below _ (by omega), staged.kept cell early]
  | cons call later ih =>
      obtain ⟨k, i, dataLen, accepts, addressed, isPiece⟩ := pieces call List.mem_cons_self
      obtain ⟨handled, middle, ends, next, running, sameID, sameSub⟩ :=
        @Staged.ends_updateCall chip port size subSize call.fuel call.len i dataLen ram start image
          call.stack call.buf written before mem locked staged fits positive units k accepts
          addressed sub isPiece
      have rest := @ih handled.ram (insert k written) middle next true sameSub
      rw [sameID] at rest
      obtain ⟨ramAfter, after, finish, done⟩ := rest
        (fun other member => pieces other (List.mem_cons_of_mem _ member))
        (fun piece inside => by
          rcases covered piece inside with old | ⟨other, member, carries⟩
          · exact .inl (Set.mem_insert_of_mem k old)
          · rcases List.mem_cons.mp member with rfl | behind
            · rw [carries.frameNum_unique accepts isPiece]
              exact .inl (Set.mem_insert k written)
            · exact .inr ⟨other, behind, carries⟩)
        ended
      refine ⟨ramAfter, after, ?_, done⟩
      rw [List.cons_append, handleAll]
      refine ends.bind ?_
      rw [running]
      exact finish

/-! ## The boots that follow -/

/-- The size that the bootloader reads has the low half of the real one as its high half. -/
theorem SessionDone.total (done : SessionDone chip port start image size before mem) :
    (headerAt chip mem).updatesTotalSize =
      field start (port.headerOffset + 2) 2 + 2 ^ 16 * (port.totalSize start % 2 ^ 16) := by
  have shifted : field (bytesAt mem chip.addrAppInfo) 2 4 =
      field start (port.headerOffset + 2) 4 := by
    refine LittleEndian.value_congr fun index inside => ?_
    rw [bytesAt, done.header _ (by omega), Port.headerBytes, if_neg (by omega), Nat.add_assoc]
  have split (offset : Nat) : field start offset 4 =
      field start offset 2 + 2 ^ 16 * field start (offset + 2) 2 := by
    simp only [field, LittleEndian.value, Nat.add_assoc, Nat.zero_add, Nat.reduceAdd]
    omega
  have low : port.totalSize start % 2 ^ 16 = field start (port.headerOffset + 4) 2 :=
    @LittleEndian.value_mod_of_le 2 4 (by omega) fun index => start (port.headerOffset + 4 + index)
  rw [low, ← split]
  exact shifted

theorem SessionDone.oversize (done : SessionDone chip port start image size before mem)
    (large : 2 ≤ port.totalSize start % 2 ^ 16) :
    otaBinMaxSize < (headerAt chip mem).updatesTotalSize := by
  rw [done.total]
  have most : otaBinMaxSize < 2 ^ 16 * 2 := by decide
  omega

theorem headerAt_congr {first second : Mem}
    (same : Set.EqOn first second (pageAt chip.addrAppInfo)) :
    headerAt chip first = headerAt chip second := by
  apply IapUpdataParam.read_congr
  intro index inside
  have page : IapUpdataParam.size ≤ flashPageSize := by decide
  exact same ⟨Nat.le_add_right _ _, Nat.add_lt_add_left (lt_of_lt_of_le inside page) _⟩

/-- One boot, whatever fails in it, up to its end or a power loss. -/
def Boot (chip : Chip) (uncompress : Uncompress) (state after : State) : Prop :=
  ∃ (rounds : Nat) (schedule : FlashSchedule),
    after = (Prog.run (main chip uncompress rounds) schedule (powerUp state)).state

variable {uncompress : Uncompress} {state after : State}

/-- With a header that asks for too much, a boot writes the pages of the flag and of the
parameters only. -/
theorem Boot.keeps (boot : Boot chip uncompress state after)
    (oversize : otaBinMaxSize < (headerAt chip state.mem).updatesTotalSize) :
    Set.EqOn after.mem state.mem (pageAt chip.addrIapFlag ∪ pageAt chip.addrIapParam)ᶜ := by
  obtain ⟨rounds, schedule, rfl⟩ := boot
  have noUpdate (header : IapUpdataParam) :
      verdict chip (powerUp state).mem ≠ .update header := by
    intro found
    have updating := (verdict_accepts found).1
    rw [verdict_reject updating fun accepted => absurd accepted.1 (not_le.mpr oversize)] at found
    cases found
  have confined := @wp_main_confined chip (pageAt chip.addrIapFlag ∪ pageAt chip.addrIapParam)
    AnyFault (powerUp state) uncompress rounds Set.subset_union_left Set.subset_union_right noUpdate
  exact (Prog.run_state confined (anyFault_within schedule)).kept

/-- So do any number of boots. -/
theorem boots_keep (boots : Relation.ReflTransGen (Boot chip uncompress) state after)
    (oversize : otaBinMaxSize < (headerAt chip state.mem).updatesTotalSize) :
    Set.EqOn after.mem state.mem (pageAt chip.addrIapFlag ∪ pageAt chip.addrIapParam)ᶜ := by
  induction boots with
  | refl => exact Set.eqOn_refl _ _
  | tail _ boot ih =>
      refine (boot.keeps ?_).trans ih
      have info := Set.subset_union_right.trans (imageAreas_subset chip)
      rwa [headerAt_congr (ih.mono info)]

/-- After a refused update the old program is started, if it has a stack. -/
theorem ends_rejectedBoot (uncompress : Uncompress) (rounds : Nat)
    (updating : iapFlag chip mem = otaUpdateApp)
    (refused : ¬ GateAccepts chip mem (headerAt chip mem))
    (program : field (bytesAt mem flashAppRunAddr) 0 4 &&& 0x2FFE0000 = 0x20000000) : ∃ after,
    Ends (bootEntry chip uncompress rounds) mem locked
        (.jump (field (bytesAt mem flashAppRunAddr) 0 4) (field (bytesAt mem flashAppRunAddr) 4 4))
        after true ∧ iapFlag chip after = otaRunApp := by
  have same {index : Nat} (inside : index < 8) :
      overlay chip.addrIapFlag flashPageSize (fun _ => erasedByte) mem (flashAppRunAddr + index) =
        mem (flashAppRunAddr + index) := by
    have run := run_below_info chip
    have infoFlag := info_lt_flag chip
    have large : 8 ≤ otaBinMaxSize := by decide
    exact overlay_outside _ _ (.inl (by omega))
  have word {offset : Nat} (inside : offset + 4 ≤ 8) :
      field (bytesAt (overlay chip.addrIapFlag flashPageSize (fun _ => erasedByte) mem)
        flashAppRunAddr) offset 4 = field (bytesAt mem flashAppRunAddr) offset 4 :=
    field_congr fun index early => same (by omega)
  refine ⟨_, (returns_bootChecks.ends locked).bind ?_, @iapFlag_erased chip mem⟩
  rw [verdict_reject updating refused]
  refine ends_runAppMode.bind (((returns_flashRead _).ends true).bind ?_)
  rw [word (by omega), word (by omega), if_pos program]
  exact .done _

/-- A complete session through either handler of the application, with its update frames in
any order and with any repetitions, stages the image and resets.  Unless the size is at
most one modulo 2 ^ 16, no boots that follow change the old program, however many there are
and whatever fails in them; and as long as the update is requested, a boot without failures
clears the request and starts the old program. -/
theorem app_update_refused (chip : Chip) (uncompress : Uncompress) (port : Port)
    (image : Nat → UInt8) (size subSize : Nat)
    (fits : size ≤ otaBinMaxSize) (erasable : port.eraseSize size ≤ otaBinMaxSize)
    (subPositive : 0 < subSize) (subUnits : subSize % 4 = 0)
    (state : State) (ram : Ram) (start : Delivery) (updates : List Delivery) (final : Delivery)
    (blank : ∀ index < flashPageSize, state.mem (chip.addrAppInfo + index) = erasedByte)
    (started : port.Carries ram.iapParam.id (fun frame _ => IsStart port size subSize frame) start)
    (pieces : ∀ call ∈ updates, ∃ k, port.Carries ram.iapParam.id
      (IsPiece port.protocol.bus image size subSize k) call)
    (covered : ∀ k, k * subSize < size → ∃ call ∈ updates, port.Carries ram.iapParam.id
      (IsPiece port.protocol.bus image size subSize k) call)
    (ended : port.Carries ram.iapParam.id (fun frame _ => frame 3 = port.protocol.bus.endCode)
      final) :
    ∃ (staged : Mem) (ramAfter : Ram),
      (∀ schedule : FlashSchedule, Schedule.Within (D := flash chip.geometry) Reliable schedule →
        Schedule.Powered (D := flash chip.geometry) schedule → ∃ log rest,
        Prog.run (handleAll chip port (start :: updates ++ [final]) ram) schedule state =
          .done (ramAfter, true) (⟨staged, true, log⟩ : State) rest) ∧
      (∀ index < size, staged (chip.addrAppCopy + index) = image index) ∧
      iapFlag chip staged = otaUpdateApp ∧
      (2 ≤ size % 2 ^ 16 → flashAppRunAddr + otaBinMaxSize ≤ chip.addrAppCopy →
        ∀ log after, Relation.ReflTransGen (Boot chip uncompress) ⟨staged, true, log⟩ after →
          Set.EqOn after.mem state.mem runArea ∧
          (iapFlag chip after.mem = otaUpdateApp →
            field (bytesAt state.mem flashAppRunAddr) 0 4 &&& 0x2FFE0000 = 0x20000000 →
            ∀ rounds, Ensures (bootEntry chip uncompress rounds) (powerUp after) fun entry final =>
              entry = .jump (field (bytesAt state.mem flashAppRunAddr) 0 4)
                (field (bytesAt state.mem flashAppRunAddr) 4 4) ∧
              iapFlag chip final = otaRunApp)) := by
  obtain ⟨mem, locked, log⟩ := state
  obtain ⟨i, dataLen, accepts, addressed, isStart⟩ := started
  obtain ⟨handled, middle, opened, first, staging, running, sameID, sameSub⟩ :=
    @ends_startCall chip port size subSize start.fuel start.len i dataLen ram image start.stack
      start.buf mem locked accepts addressed isStart erasable fits blank
  rw [← sameID] at pieces covered ended
  obtain ⟨ramAfter, staged, finish, done⟩ := staging.ends_updates opened fits subPositive
    subUnits sameSub pieces (fun k inside => .inr (covered k inside)) ended
  have session : Ends (handleAll chip port (start :: updates ++ [final]) ram) mem locked
      (ramAfter, true) staged true := by
    rw [List.cons_append, handleAll]
    refine first.bind ?_
    rw [running]
    exact finish
  refine ⟨staged, ramAfter, fun schedule within powered => ?_, done.stored, done.updating,
    fun large disjoint log after boots => ?_⟩
  · obtain ⟨newLog, used, run⟩ := session.run log within powered
    exact ⟨newLog, _, run⟩
  have oversize := done.oversize (by rwa [isStart.total])
  have kept := (boots_keep boots oversize).mono (imageAreas_subset chip)
  have below : Set.EqOn after.mem mem runArea := fun cell inside =>
    (kept (.inl (.inl inside))).trans (done.kept cell (lt_of_lt_of_le inside.2 disjoint))
  refine ⟨below, fun updating program rounds => ?_⟩
  have word (offset : Nat) (inside : offset + 4 ≤ 8) :
      field (bytesAt after.mem flashAppRunAddr) offset 4 =
        field (bytesAt mem flashAppRunAddr) offset 4 := by
    have most : 8 ≤ otaBinMaxSize := by decide
    exact field_congr fun index early => below ⟨Nat.le_add_right _ _, by omega⟩
  have refused : ¬ GateAccepts chip after.mem (headerAt chip after.mem) := by
    rw [headerAt_congr (kept.mono Set.subset_union_right)]
    exact fun accepted => absurd accepted.1 (not_le.mpr oversize)
  rw [← word 0 (by omega)] at program
  obtain ⟨final, ends, cleared⟩ := @ends_rejectedBoot chip after.mem true uncompress rounds
    updating refused program
  refine (ends.ensures_iff after.log).mpr ⟨?_, cleared⟩
  rw [word 0 (by omega), word 4 (by omega)]

/-- A session for the image of sixteen bytes. -/
def startDelivery : Delivery := ⟨bufferOf sessionStart, 36, 1, fun _ => 0⟩

theorem startDelivery_carries : Port.can.Carries sampleRam.iapParam.id
    (fun frame _ => IsStart .can 16 8 frame) startDelivery := by
  refine ⟨0, 36, ⟨by decide, by decide +kernel⟩, .inr rfl, ?_⟩
  exact ⟨by decide, by decide, by decide⟩

def endDelivery : Delivery := ⟨bufferOf (construct 0x03 [0xFF, 0xFF, 0, 0]), 10, 1, fun _ => 0⟩

theorem endDelivery_carries : Port.can.Carries sampleRam.iapParam.id
    (fun frame _ => frame 3 = Port.can.protocol.bus.endCode) endDelivery :=
  ⟨0, 10, ⟨by decide, by decide +kernel⟩, .inr rfl, by decide⟩

/-- The old program has a stack, and the rest of the flash is erased. -/
def oldProgram : Mem := overlay flashAppRunAddr 4 (LittleEndian.byte 0x20001000) fun _ => erasedByte

theorem oldProgram_blank (index : Nat) :
    oldProgram (sampleChip.addrAppInfo + index) = erasedByte := by
  have below := run_below_info sampleChip
  have room : 4 ≤ otaBinMaxSize := by decide
  exact overlay_outside _ _ (.inr (by omega))

/-- The second piece comes first, and once more at the end. -/
theorem app_update_refused_sample : ∃ staged : Mem,
    (∀ index < 16, staged (sampleChip.addrAppCopy + index) = bufferOf sampleImage index) ∧
      iapFlag sampleChip staged = otaUpdateApp ∧
      ∀ after, Relation.ReflTransGen (Boot sampleChip zeroUncompress) ⟨staged, true, []⟩ after →
        Set.EqOn after.mem oldProgram runArea ∧
          (iapFlag sampleChip after.mem = otaUpdateApp →
            Ensures (bootEntry sampleChip zeroUncompress 1) (powerUp after) fun entry final =>
              ∃ jumpAddress, entry = .jump 0x20001000 jumpAddress ∧
                iapFlag sampleChip final = otaRunApp) := by
  have word : field (bytesAt oldProgram flashAppRunAddr) 0 4 = 0x20001000 := by decide
  have carries : ∀ call ∈ [secondDelivery, firstDelivery, secondDelivery], ∃ k,
      Port.can.Carries sampleRam.iapParam.id
        (IsPiece Port.can.protocol.bus (bufferOf sampleImage) 16 8 k) call := by
    intro call member
    simp only [List.mem_cons, List.not_mem_nil, or_false] at member
    rcases member with rfl | rfl | rfl
    · exact ⟨1, secondDelivery_carries⟩
    · exact ⟨0, firstDelivery_carries⟩
    · exact ⟨1, secondDelivery_carries⟩
  have covered : ∀ k, k * 8 < 16 → ∃ call ∈ [secondDelivery, firstDelivery, secondDelivery],
      Port.can.Carries sampleRam.iapParam.id
        (IsPiece Port.can.protocol.bus (bufferOf sampleImage) 16 8 k) call := by
    intro k inside
    obtain rfl | rfl : k = 0 ∨ k = 1 := by omega
    · exact ⟨firstDelivery, by simp, firstDelivery_carries⟩
    · exact ⟨secondDelivery, by simp, secondDelivery_carries⟩
  obtain ⟨staged, ramAfter, -, stored, updating, boots⟩ := app_update_refused sampleChip
    zeroUncompress .can (bufferOf sampleImage) 16 8 (by decide) (by decide) (by decide) (by decide)
    ⟨oldProgram, true, []⟩ sampleRam startDelivery [secondDelivery, firstDelivery, secondDelivery]
    endDelivery (fun index _ => oldProgram_blank index) startDelivery_carries carries covered
    endDelivery_carries
  refine ⟨staged, stored, updating, fun after reached => ?_⟩
  obtain ⟨kept, starts⟩ := boots (by decide) (by decide +kernel) [] after reached
  refine ⟨kept, fun requested schedule within powered => ?_⟩
  rw [word] at starts
  obtain ⟨entry, final, rest, run, jumps, cleared⟩ :=
    starts requested (by decide) 1 schedule within powered
  exact ⟨entry, final, rest, run, _, jumps, cleared⟩

end LedFirmware.App
