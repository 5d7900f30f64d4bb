import LedFirmware.StaleBytes

/-!
# Noise in front of a UART frame

The UART handlers find a frame behind bytes without a head.  Their commands read the
frame from its start on, so the noise has no effect by itself.  But the command that
writes the IAP parameters takes the ID from the start of the buffer, and a start frame
is read up to byte 31 without a look at its length, so that what the noise has moved the
frame in front of counts.
-/

namespace LedFirmware

open CrashProgram NorFlash

/-- The same response with more bytes to delete. -/
def Response.behind {Ram : Type} (response : Response Ram) (count : Nat) : Response Ram :=
  { response with info := ⟨response.info.state, response.info.delLen + count⟩ }

namespace Protocol

/-- In a buffer that starts with noise and a frame, the handler does what it does in the
buffer `alone` that starts with the frame, and deletes the noise as well. -/
def IgnoresNoise (protocol : Protocol) (chip : Chip) (fuel : Nat) (ram : protocol.Ram)
    (stack buf alone : Nat → UInt8) (noise frame : List UInt8) : Prop :=
  ∀ (schedule : FlashSchedule) (state : State),
    Prog.run (protocol.handle chip fuel ram stack buf (noise ++ frame).length) schedule state =
      Prog.run (protocol.handle chip fuel ram stack alone frame.length >>=
        fun response => .done (response.behind noise.length)) schedule state

/-- Store the own ID. -/
def setID : (protocol : Protocol) → protocol.Ram → UInt16 → protocol.Ram
  | .appCan500, (ram : App.Ram), id | .appUart, (ram : App.Ram), id =>
      { ram with iapParam := { ram.iapParam with id } }
  | .iapUart, (ram : IapRam), id | .iapCan500, (ram : IapRam), id =>
      { ram with iapParam := { ram.iapParam with id } }

end Protocol

/-- The two buffers agree on what the command reads: a start frame up to byte 31, of which
the last ones may lie behind the frame, and the ID at the start of the buffer. -/
structure ReadsAlike (buf alone : Nat → UInt8) (noise frame : List UInt8) : Prop where
  start : bufferOf frame 3 = 0xE0 → ∀ index < 32, frame.length ≤ index →
    buf (noise.length + index) = alone index
  id : bufferOf frame 3 = 0x0F → half (bufferOf (noise ++ frame)) 4 = half (bufferOf frame) 4

variable {chip : Chip} {protocol : Protocol} {ram : protocol.Ram} {stack buf alone : Nat → UInt8}
  {fuel i dataLen : Nat} {info other : DelInfo} {noise frame : List UInt8}

theorem ownID_setID {id : UInt16} : protocol.ownID (protocol.setID ram id) = id := by
  cases protocol <;> rfl

theorem decode_eq_otaStart_iff {code : UInt8} :
    UartCommand.decode code = some .otaStart ↔ code = 0xE0 := by
  constructor
  · intro decoded
    unfold UartCommand.decode at decoded
    grind
  · rintro rfl
    rfl

theorem decode_eq_paramIapWrite_iff {code : UInt8} :
    UartCommand.decode code = some .paramIapWrite ↔ code = 0x0F := by
  constructor
  · intro decoded
    unfold UartCommand.decode at decoded
    grind
  · rintro rfl
    rfl

/-- The place of the frame in the buffer matters to no other command. -/
theorem uartExecute_from {ram : IapRam}
    (relative : UartCommand.decode (bytesFrom buf i 3) ≠ some .paramIapWrite) :
    uartExecute chip ram buf i dataLen info =
      uartExecute chip ram (bytesFrom buf i) 0 dataLen other >>= fun handled =>
        .done { handled with info } := by
  unfold uartExecute
  simp only [bytesFrom_zero]
  cases decoded : UartCommand.decode (bytesFrom buf i 3) with
  | none => rw [Prog.done_bind]
  | some command =>
      cases command with
      | otaStart => simp only [Prog.bind_bind, Prog.done_bind]
      | otaUpdate => simp only [Prog.bind_bind, Prog.done_bind]
      | otaEnd => simp only [Prog.bind_bind, Prog.done_bind]
      | paramIapRead => rw [Prog.done_bind]
      | paramIapWrite => exact absurd decoded relative
      | paramsetSave => simp only [Prog.bind_bind, Prog.done_bind]
      | paramsetReset => rw [Prog.done_bind]

theorem App.uartExecute_from {ram : App.Ram}
    (relative : UartCommand.decode (bytesFrom buf i 3) ≠ some .paramIapWrite) :
    App.uartExecute chip ram stack buf i dataLen info =
      App.uartExecute chip ram stack (bytesFrom buf i) 0 dataLen other >>= fun handled =>
        .done { handled with info } := by
  unfold App.uartExecute
  simp only [bytesFrom_zero]
  cases decoded : UartCommand.decode (bytesFrom buf i 3) with
  | none => rw [Prog.done_bind]
  | some command =>
      cases command with
      | otaStart => simp only [Prog.bind_bind, Prog.done_bind]
      | otaUpdate => simp only [Prog.bind_bind, Prog.done_bind]
      | otaEnd => simp only [Prog.bind_bind, Prog.done_bind]
      | paramIapRead => rw [Prog.done_bind]
      | paramIapWrite => exact absurd decoded relative
      | paramsetSave => simp only [Prog.bind_bind, Prog.done_bind]
      | paramsetReset => rw [Prog.done_bind]

theorem execute_from (uart : protocol.bus = .uart)
    (relative : UartCommand.decode (bytesFrom buf i 3) ≠ some .paramIapWrite) :
    protocol.execute chip ram stack buf i dataLen info =
      protocol.execute chip ram stack (bytesFrom buf i) 0 dataLen other >>= fun response =>
        .done { response with info } := by
  cases protocol with
  | appUart =>
      have moved := @App.uartExecute_from chip stack buf i dataLen info other ram relative
      simp only [Protocol.execute, moved, Prog.bind_bind, Prog.done_bind]
      rfl
  | iapUart =>
      have moved := @uartExecute_from chip buf i dataLen info other ram relative
      simp only [Protocol.execute, moved, Prog.bind_bind, Prog.done_bind]
      rfl
  | appCan500 => cases uart
  | iapCan500 => cases uart

/-- `iap_param_analysis` reads the start of the buffer. -/
theorem execute_paramIapWrite (uart : protocol.bus = .uart)
    (write : UartCommand.decode (bytesFrom buf i 3) = some .paramIapWrite) :
    protocol.execute chip ram stack buf i dataLen info =
      .done ⟨info, protocol.setID ram (half buf 4), [], false⟩ := by
  cases protocol with
  | appUart =>
      simp only [Protocol.execute, App.uartExecute, write]
      rfl
  | iapUart =>
      simp only [Protocol.execute, uartExecute, write]
      rfl
  | appCan500 => cases uart
  | iapCan500 => cases uart

/-! ## What a command reads -/

section Reads

variable {first second : Nat → UInt8} (same : ∀ index < dataLen, first index = second index)
  (lower : commProtocolMinLen ≤ dataLen) (upper : dataLen < 2 ^ 32)
  (start : first 3 = 0xE0 → ∀ index < 32, first index = second index)

include same

/-- The piece of an update frame lies in the frame. -/
theorem flashWriteBy_piece {halves addr : Nat} (upper : dataLen < 2 ^ 32) (long : 10 < dataLen) :
    flashWriteBy chip.geometry halves addr (bytesFrom first 8) (sub32 dataLen 10) =
      flashWriteBy chip.geometry halves addr (bytesFrom second 8) (sub32 dataLen 10) := by
  apply flashWriteBy_congr
  rw [sub32_le (by omega) upper]
  intro index inside
  exact same _ (by omega)

include lower upper start

theorem uartExecute_congr {ram : IapRam} :
    uartExecute chip ram first 0 dataLen info = uartExecute chip ram second 0 dataLen info := by
  have minimum : commProtocolMinLen = 8 := rfl
  unfold uartExecute
  simp only [bytesFrom_zero, same 3 (by omega)]
  cases decoded : UartCommand.decode (second 3) with
  | none => rfl
  | some command =>
      cases command with
      | otaStart =>
          rw [decode_eq_otaStart_iff, ← same 3 (by omega)] at decoded
          have read := start decoded
          have header : flashStorageHeader chip (bytesFrom first 8) =
              flashStorageHeader chip (bytesFrom second 8) := by
            have units := @programUnits_congr chip.geometry 4 3 chip.addrAppInfo
              (bytesFrom first 8) (bytesFrom second 8) fun index inside => read _ (by omega)
            rw [flashStorageHeader, flashStorageHeader, units]
          simp only [read 6 (by decide), read 7 (by decide), header,
            App.field_congr read (show 10 + 4 ≤ 32 by decide),
            App.field_congr read (show 14 + 2 ≤ 32 by decide),
            App.field_congr read (show 16 + 4 ≤ 32 by decide)]
      | otaUpdate =>
          have piece (progress : OtaProgress) :
              writePiece chip progress (bytesFrom first 8) (10 < dataLen) (sub32 dataLen 10) =
                writePiece chip progress (bytesFrom second 8) (10 < dataLen)
                  (sub32 dataLen 10) := by
            rw [writePiece, writePiece]
            split
            · rename_i admitted
              rw [flashWrite, flashWrite,
                flashWriteBy_piece same upper (of_decide_eq_true admitted.1)]
            · rfl
          simp only [App.field_congr same (show 6 + 2 ≤ dataLen by omega), piece]
      | otaEnd => rfl
      | paramIapRead => rfl
      | paramIapWrite => simp only [App.half_congr same (show 4 + 2 ≤ dataLen by omega)]
      | paramsetSave => rfl
      | paramsetReset => rfl

theorem App.uartExecute_congr {ram : App.Ram} :
    App.uartExecute chip ram stack first 0 dataLen info =
      App.uartExecute chip ram stack second 0 dataLen info := by
  have minimum : commProtocolMinLen = 8 := rfl
  unfold App.uartExecute
  simp only [bytesFrom_zero, same 3 (by omega)]
  cases decoded : UartCommand.decode (second 3) with
  | none => rfl
  | some command =>
      cases command with
      | otaStart =>
          rw [decode_eq_otaStart_iff, ← same 3 (by omega)] at decoded
          have read := start decoded
          have header (version : Nat) :
              updataParamData version (bytesFrom first 6) stack =
                updataParamData version (bytesFrom second 6) stack := by
            funext index
            rw [updataParamData, updataParamData]
            by_cases inside : index < 26
            · rw [bytesFrom, bytesFrom, read _ (by omega)]
            · rw [if_neg inside, if_neg inside]
          simp only [read 6 (by decide), read 7 (by decide), header,
            App.field_congr read (show 10 + 4 ≤ 32 by decide),
            App.field_congr read (show 14 + 2 ≤ 32 by decide),
            App.field_congr read (show 16 + 4 ≤ 32 by decide)]
      | otaUpdate =>
          have piece (progress : OtaProgress) :
              App.writePiece chip progress (bytesFrom first 8) (10 < dataLen)
                  (sub32 dataLen 10) =
                App.writePiece chip progress (bytesFrom second 8) (10 < dataLen)
                  (sub32 dataLen 10) := by
            rw [App.writePiece, App.writePiece]
            split
            · rename_i admitted
              rw [App.flashWrite, App.flashWrite,
                flashWriteBy_piece same upper (of_decide_eq_true admitted.1)]
            · rfl
          simp only [App.field_congr same (show 6 + 2 ≤ dataLen by omega), piece]
      | otaEnd => rfl
      | paramIapRead => rfl
      | paramIapWrite => simp only [App.half_congr same (show 4 + 2 ≤ dataLen by omega)]
      | paramsetSave => rfl
      | paramsetReset => rfl

/-- A UART command does the same with two buffers that agree on the frame and, if it is a
start command, on the bytes up to 31. -/
theorem execute_congr (uart : protocol.bus = .uart) :
    protocol.execute chip ram stack first 0 dataLen info =
      protocol.execute chip ram stack second 0 dataLen info := by
  cases protocol with
  | appUart =>
      have executed := @App.uartExecute_congr chip stack dataLen info first second same lower upper
        start ram
      exact congrArg (· >>= fun handled => .done handled.response) executed
  | iapUart =>
      have executed := @uartExecute_congr chip dataLen info first second same lower upper start ram
      exact congrArg (· >>= fun handled => .done handled.response) executed
  | appCan500 => cases uart
  | iapCan500 => cases uart

end Reads

theorem Holds.half {bytes : List UInt8} (holds : Holds buf 0 bytes) {offset : Nat}
    (inside : offset + 1 < bytes.length) : half buf offset = half (bufferOf bytes) offset := by
  have same (index : Nat) (within : index < bytes.length) : buf index = bufferOf bytes index := by
    rw [← holds index within, Nat.zero_add]
  rw [LedFirmware.half, LedFirmware.half, field, field, LittleEndian.value_congr]
  intro index small
  exact same _ (by omega)

theorem Holds.behind (holds : Holds buf 0 (noise ++ frame)) :
    Holds (bytesFrom buf noise.length) 0 frame := by
  intro index inside
  rw [Nat.zero_add, bytesFrom, ← Nat.zero_add (_ + index),
    holds _ (by rw [List.length_append]; omega), bufferOf_append_right]

/-! ## What a start frame stores -/

/-- The byte of a start frame that goes to the start of the info page. -/
def Protocol.headerStart : Protocol → Nat
  | .appUart => 6
  | .iapUart | .appCan500 | .iapCan500 => 8

/-- An erase of the copy area, of whatever size, keeps everything from the end of the area on. -/
theorem ends_eraseCopy_any (size : Nat) (mem : Mem) (locked : Bool) : ∃ erased after closed,
    Ends (flashErasePage chip chip.addrAppCopy size) mem locked erased after closed ∧
      ∀ cell, chip.addrAppCopy + otaBinMaxSize ≤ cell → after cell = mem cell := by
  by_cases legal : size > otaBinMaxSize ∨ size = 0
  · rw [flashErasePage, if_pos legal]
    exact ⟨false, mem, locked, .done false, fun _ _ => rfl⟩
  · have fits : roundUp flashPageSize size ≤ otaBinMaxSize := roundUp_le_max (by omega)
    have covers := @covers_copy chip 0 (roundUp flashPageSize size)
      (by rw [Nat.zero_add]; exact fits)
    rw [Nat.add_zero] at covers
    refine ⟨true, _, true, ends_flashErasePage (by omega) (by omega) (pageFromEnd_aligned chip 57)
      covers locked, fun cell behind => ?_⟩
    have below : chip.addrAppCopy + roundUp flashPageSize size ≤ cell :=
      le_trans (Nat.add_le_add_left fits _) behind
    exact overlay_outside _ _ (Or.inr below)

theorem App.execute_start {ram : App.Ram} (code : buf 3 = 0xE0) (dataLen : Nat) (info : DelInfo) :
    ∃ handled : App.Handled, App.uartExecute chip ram stack buf 0 dataLen info =
      startFlash chip .uart (Port.uart.eraseSize (Port.uart.totalSize buf))
        (Port.uart.header buf stack) >>= fun _ => .done handled := by
  have decoded : UartCommand.decode (buf 3) = some .otaStart := decode_eq_otaStart_iff.mpr code
  refine ⟨?handled, ?same⟩
  case same =>
    simp only [App.uartExecute, bytesFrom_zero, decoded, startFlash, Prog.bind_bind, Prog.done_bind]
    rfl

theorem execute_start {ram : IapRam} (code : buf 3 = 0xE0) (dataLen : Nat) (info : DelInfo) :
    ∃ handled : Handled, uartExecute chip ram buf 0 dataLen info =
      flashStorageHeader chip (bytesFrom buf 8) >>= fun _ =>
      flashErasePage chip chip.addrAppCopy (field buf 10 4) >>= fun _ => .done handled := by
  have decoded : UartCommand.decode (buf 3) = some .otaStart := decode_eq_otaStart_iff.mpr code
  refine ⟨?handled, ?same⟩
  case same =>
    simp only [uartExecute, bytesFrom_zero, decoded]
    rfl

/-- Bytes 8 to 31 of a start frame are in the info page, if that was erased. -/
theorem ends_execute_start (uart : protocol.bus = .uart) (code : buf 3 = 0xE0) (dataLen : Nat)
    (info : DelInfo) : ∃ response after closed,
    Ends (protocol.execute chip ram stack buf 0 dataLen info) erasedFlash true response after
        closed ∧
      ∀ index, 8 ≤ index → index < 32 →
        after (chip.addrAppInfo + (index - protocol.headerStart)) = buf index := by
  have copyInfo := copy_below_info chip
  cases protocol with
  | appUart =>
      obtain ⟨handled, executed⟩ := @App.execute_start chip stack buf ram code dataLen info
      obtain ⟨after, closed, ends, effect⟩ := @App.ends_startFlash chip .uart
        (App.Port.uart.eraseSize (App.Port.uart.totalSize buf)) (App.Port.uart.header buf stack)
        erasedFlash true
      have run : Ends (App.uartExecute chip ram stack buf 0 dataLen info >>= fun handled =>
          .done handled.response) erasedFlash true handled.response after closed := by
        rw [executed, Prog.bind_bind]
        exact ends.bind (.done _)
      refine ⟨handled.response, after, closed, run, fun index lower upper => ?_⟩
      have free : erasedHalves erasedFlash 14 chip.addrAppInfo = 14 :=
        le_antisymm (erasedHalves_le _ _ _)
          (lt_erasedHalves_iff.mpr ⟨show 13 < 14 by decide, fun _ _ => rfl⟩)
      have stored := effect.info (index - 6) (by omega)
      rw [free, if_pos (by omega), App.Port.header, App.updataParamData, if_neg (by omega),
        if_pos (by omega)] at stored
      refine stored.trans (congrArg buf ?_)
      change 6 + (index - 6) = index
      omega
  | iapUart =>
      obtain ⟨handled, executed⟩ := @execute_start chip buf ram code dataLen info
      have header := @ends_flashStorageHeader chip erasedFlash true (bytesFrom buf 8)
      obtain ⟨erased, after, closed, ends, kept⟩ := @ends_eraseCopy_any chip (field buf 10 4)
        (overlay chip.addrAppInfo IapUpdataParam.size (bytesFrom buf 8)
          (overlay chip.addrAppInfo flashPageSize (fun _ => erasedByte) erasedFlash)) true
      have run : Ends (uartExecute chip ram buf 0 dataLen info >>= fun handled =>
          .done handled.response) erasedFlash true handled.response after closed := by
        rw [executed]
        simp only [Prog.bind_bind]
        exact header.bind (ends.bind (.done _))
      refine ⟨handled.response, after, closed, run, fun index lower upper => ?_⟩
      have stored := kept (chip.addrAppInfo + (index - 8)) (by omega)
      rw [overlay_inside _ _ (by omega) (by simp only [IapUpdataParam.size]; omega)] at stored
      refine stored.trans (congrArg buf ?_)
      omega
  | appCan500 => cases uart
  | iapCan500 => cases uart

section Noise

variable (uart : protocol.bus = .uart) (noHead : commProtocolHead ∉ noise)
  (isFrame : IsFrame protocol frame) (bound : (noise ++ frame).length < 2 ^ 32)
  (holds : Holds buf 0 (noise ++ frame)) (holdsAlone : Holds alone 0 frame)

include noHead isFrame bound holds

theorem accepts_behind : protocol.Accepts (fuel + 2) buf (noise ++ frame).length noise.length
    frame.length := by
  have accepted := @IsFrame.scan_behind protocol frame isFrame noise [] noHead
    (by rw [List.append_nil]; exact bound) buf (by rw [List.append_nil]; exact holds) fuel
  rw [List.append_nil] at accepted
  refine ⟨?_, accepted⟩
  rw [List.length_append]
  exact le_trans isFrame.lower (Nat.le_add_left _ _)

include holdsAlone

omit noHead holds in
theorem accepts_alone : protocol.Accepts (fuel + 2) alone frame.length 0 frame.length := by
  rw [List.length_append] at bound
  exact ⟨isFrame.lower, isFrame.scan_whole holdsAlone (List.prefix_refl _) (by omega) (fuel + 1)⟩

include uart

/-- With any command but the one that writes the IAP parameters, the two buffers lead to the
execution of the frame from its start on. -/
theorem ignoresNoise_iff_runs (relative : bufferOf frame 3 ≠ 0x0F) :
    protocol.IgnoresNoise chip (fuel + 2) ram stack buf alone noise frame ↔
      ∀ (schedule : FlashSchedule) (state : State),
        Prog.run (protocol.execute chip ram stack (bytesFrom buf noise.length) 0 frame.length
            (Protocol.acceptInfo noise.length frame.length)) schedule state =
          Prog.run (protocol.execute chip ram stack alone 0 frame.length
            (Protocol.acceptInfo noise.length frame.length)) schedule state := by
  have minimum : commProtocolMinLen ≤ frame.length := isFrame.lower
  have deleted : add32 frame.length noise.length = add32 frame.length 0 + noise.length := by
    rw [List.length_append] at bound
    rw [add32, add32, Nat.mod_eq_of_lt (by omega), Nat.mod_eq_of_lt (by omega), Nat.add_zero]
  have other {memory : Nat → UInt8} (holds : Holds memory 0 frame) :
      UartCommand.decode (memory 3) ≠ some .paramIapWrite := by
    intro decoded
    apply relative
    rw [← decode_eq_paramIapWrite_iff.mp decoded, ← holds 3 (le_trans (by decide) minimum),
      Nat.zero_add]
  -- Where the deletion length is known the frame may be executed with any.
  have informed {memory : Nat → UInt8} (holds : Holds memory 0 frame) (info : DelInfo) :
      protocol.execute chip ram stack memory 0 frame.length info =
        protocol.execute chip ram stack memory 0 frame.length
            (Protocol.acceptInfo 0 frame.length) >>=
          fun response => .done { response with info } := by
    have moved := @execute_from chip protocol ram stack memory 0 frame.length info
      (Protocol.acceptInfo 0 frame.length) uart (by rw [bytesFrom_zero]; exact other holds)
    rwa [bytesFrom_zero] at moved
  have found := @execute_from chip protocol ram stack buf noise.length frame.length
    (Protocol.acceptInfo noise.length frame.length) (Protocol.acceptInfo 0 frame.length) uart
    (other holds.behind)
  rw [Protocol.IgnoresNoise, Protocol.handle_accepts (accepts_behind noHead isFrame bound holds),
    Protocol.handle_accepts (accepts_alone isFrame bound holdsAlone), found,
    ← informed holds.behind, informed holdsAlone (Protocol.acceptInfo noise.length frame.length)]
  conv_lhs => rw [informed holdsAlone (Protocol.acceptInfo 0 frame.length), Prog.bind_bind]
  simp only [Prog.done_bind, Response.behind, Protocol.acceptInfo, deleted]

/-- Every command but the one that writes the IAP parameters ignores the noise, if the bytes
behind a short start frame are the same. -/
theorem ignoresNoise_of_relative (relative : bufferOf frame 3 ≠ 0x0F)
    (start : bufferOf frame 3 = 0xE0 → ∀ index < 32, frame.length ≤ index →
      buf (noise.length + index) = alone index) :
    protocol.IgnoresNoise chip (fuel + 2) ram stack buf alone noise frame := by
  have minimum : commProtocolMinLen ≤ frame.length := isFrame.lower
  have same (index : Nat) (inside : index < frame.length) :
      bytesFrom buf noise.length index = alone index := by
    rw [← Nat.zero_add index, holds.behind index inside, holdsAlone index inside]
  have executed := @execute_congr chip protocol ram stack frame.length
    (Protocol.acceptInfo noise.length frame.length) _ _ same minimum
    (by rw [List.length_append] at bound; omega) (fun code index upper => by
      rcases Nat.lt_or_ge index frame.length with inside | behind
      · exact same index inside
      · refine start ?_ index upper behind
        rw [← code, ← holds.behind 3 (le_trans (by decide) minimum), Nat.zero_add]) uart
  rw [ignoresNoise_iff_runs uart noHead isFrame bound holds holdsAlone relative, executed]
  exact fun _ _ => rfl

/-- A start frame that ignores the noise has the same bytes behind it. -/
theorem start_of_ignoresNoise (code : bufferOf frame 3 = 0xE0)
    (ignores : protocol.IgnoresNoise chip (fuel + 2) ram stack buf alone noise frame) (index : Nat)
    (upper : index < 32) (behind : frame.length ≤ index) :
    buf (noise.length + index) = alone index := by
  have minimum : 8 ≤ frame.length := isFrame.lower
  have starts {memory : Nat → UInt8} (holds : Holds memory 0 frame) : memory 3 = 0xE0 := by
    rw [← code, ← holds 3 (by omega), Nat.zero_add]
  have runs := (ignoresNoise_iff_runs uart noHead isFrame bound holds holdsAlone
    (by rw [code]; decide)).mp ignores
  obtain ⟨response, after, closed, ends, stored⟩ := @ends_execute_start chip protocol ram stack
    (bytesFrom buf noise.length) uart (starts holds.behind) frame.length
    (Protocol.acceptInfo noise.length frame.length)
  obtain ⟨response', after', closed', ends', stored'⟩ := @ends_execute_start chip protocol ram stack
    alone uart (starts holdsAlone) frame.length (Protocol.acceptInfo noise.length frame.length)
  have found := stored index (by omega) upper
  rw [(Ends.agree runs ends ends').2, stored' index (by omega) upper] at found
  exact found.symm

/-- The command that writes the IAP parameters ignores the noise if it does not change the
bytes it reads. -/
theorem ignoresNoise_write_iff (write : bufferOf frame 3 = 0x0F) :
    protocol.IgnoresNoise chip (fuel + 2) ram stack buf alone noise frame ↔
      half (bufferOf (noise ++ frame)) 4 = half (bufferOf frame) 4 := by
  have minimum : commProtocolMinLen ≤ frame.length := isFrame.lower
  have longer : frame.length ≤ (noise ++ frame).length := by
    rw [List.length_append]
    exact Nat.le_add_left _ _
  have deleted : add32 frame.length noise.length = add32 frame.length 0 + noise.length := by
    rw [List.length_append] at bound
    rw [add32, add32, Nat.mod_eq_of_lt (by omega), Nat.mod_eq_of_lt (by omega), Nat.add_zero]
  have decoded {memory : Nat → UInt8} (holds : Holds memory 0 frame) :
      UartCommand.decode (memory 3) = some .paramIapWrite := by
    rw [decode_eq_paramIapWrite_iff, ← write, ← holds 3 (le_trans (by decide) minimum),
      Nat.zero_add]
  have found := @execute_paramIapWrite chip protocol ram stack buf noise.length frame.length
    (Protocol.acceptInfo noise.length frame.length) uart (decoded holds.behind)
  have first := @execute_paramIapWrite chip protocol ram stack alone 0
    frame.length (Protocol.acceptInfo 0 frame.length) uart
    (by rw [bytesFrom_zero]; exact decoded holdsAlone)
  rw [Protocol.IgnoresNoise, Protocol.handle_accepts (accepts_behind noHead isFrame bound holds),
    Protocol.handle_accepts (accepts_alone isFrame bound holdsAlone), found, first, Prog.done_bind,
    ← holds.half (lt_of_lt_of_le (by decide) (le_trans minimum longer)),
    ← holdsAlone.half (lt_of_lt_of_le (by decide) minimum)]
  constructor
  · intro same
    have run := same faultless ⟨fun _ => erasedByte, true, []⟩
    simp only [Prog.run, Response.behind, Outcome.done.injEq, Response.mk.injEq] at run
    have ids := congrArg protocol.ownID run.1.2.1
    rw [ownID_setID, ownID_setID] at ids
    exact ids
  · intro same schedule state
    rw [same]
    simp only [Response.behind, Protocol.acceptInfo, deleted]

end Noise

/-- Noise in front of a UART frame has no effect exactly if the buffers agree on what the
command reads: what lies behind a start frame of less than 32 bytes, and bytes 4 and 5 of the
buffer if the command writes the IAP parameters. -/
theorem uart_noise_iff (chip : Chip) (protocol : Protocol) (uart : protocol.bus = .uart)
    (fuel : Nat) (ram : protocol.Ram) (stack buf alone : Nat → UInt8) (noise frame : List UInt8)
    (noHead : commProtocolHead ∉ noise) (isFrame : IsFrame protocol frame)
    (bound : (noise ++ frame).length < 2 ^ 32) (holds : Holds buf 0 (noise ++ frame))
    (holdsAlone : Holds alone 0 frame) :
    protocol.IgnoresNoise chip (fuel + 2) ram stack buf alone noise frame ↔
      ReadsAlike buf alone noise frame := by
  by_cases write : bufferOf frame 3 = 0x0F
  · rw [ignoresNoise_write_iff uart noHead isFrame bound holds holdsAlone write]
    constructor
    · intro same
      refine ⟨fun code => ?_, fun _ => same⟩
      rw [write] at code
      exact absurd code (by decide)
    · exact fun alike => alike.id write
  · constructor
    · intro ignores
      exact ⟨fun code => start_of_ignoresNoise uart noHead isFrame bound holds holdsAlone code
        ignores, fun code => absurd code write⟩
    · intro alike
      exact ignoresNoise_of_relative uart noHead isFrame bound holds holdsAlone write alike.start

/-- The frame that sets the ID to 5. -/
def idFrame : List UInt8 := construct 0x0F [5, 0]

theorem idFrame_isFrame (protocol : Protocol) : IsFrame protocol idFrame :=
  (isFrame_construct 0x0F [5, 0] (by cases protocol <;> decide) (by decide)).1

/-- A start frame without a header. -/
def emptyStart : List UInt8 := construct 0xE0 [0, 0]

theorem emptyStart_isFrame (protocol : Protocol) : IsFrame protocol emptyStart :=
  (isFrame_construct 0xE0 [0, 0] (by cases protocol <;> decide) (by decide)).1

theorem holds_bufferOf (bytes : List UInt8) : Holds (bufferOf bytes) 0 bytes := fun index _ => by
  rw [Nat.zero_add]

theorem uart_noise_iff_sample :
    Protocol.appUart.IgnoresNoise sampleChip 2 App.sampleRam (fun _ => 0)
        (bufferOf ([0] ++ emptyStart)) (bufferOf (emptyStart ++ [1])) [0] emptyStart ↔
      ReadsAlike (bufferOf ([0] ++ emptyStart)) (bufferOf (emptyStart ++ [1])) [0] emptyStart :=
  uart_noise_iff sampleChip .appUart rfl 0 App.sampleRam (fun _ => 0)
    (bufferOf ([0] ++ emptyStart)) (bufferOf (emptyStart ++ [1])) [0] emptyStart (by decide)
    (emptyStart_isFrame .appUart) (by decide) (holds_bufferOf _)
    fun index inside => by rw [Nat.zero_add, bufferOf_append_left inside]

/-- Behind one byte of noise the ID is read from the code and the low byte of the ID. -/
theorem idFrame_not_ignoresNoise :
    ¬ ∀ (chip : Chip) (protocol : Protocol), protocol.bus = .uart →
      ∀ (fuel : Nat) (ram : protocol.Ram) (stack buf alone : Nat → UInt8)
        (noise frame : List UInt8),
      commProtocolHead ∉ noise → IsFrame protocol frame → (noise ++ frame).length < 2 ^ 32 →
      Holds buf 0 (noise ++ frame) → Holds alone 0 frame →
      protocol.IgnoresNoise chip (fuel + 2) ram stack buf alone noise frame := by
  intro ignores
  have same := ignores sampleChip .iapUart rfl 0 (IapRam.loaded (IapParam.default sampleChip))
    (fun _ => 0) (bufferOf ([0] ++ idFrame)) (bufferOf idFrame) [0] idFrame (by decide)
    (idFrame_isFrame .iapUart) (by decide) (holds_bufferOf _) (holds_bufferOf _)
  have unchanged := (ignoresNoise_write_iff rfl (by decide) (idFrame_isFrame .iapUart) (by decide)
    (holds_bufferOf _) (holds_bufferOf _) rfl).mp same
  exact absurd unchanged (by decide)

end LedFirmware
