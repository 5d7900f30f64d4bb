import LedFirmware.UpdateFrames

/-!
# Start frames of the application

Both handlers of the application store the header of a start frame and erase the
pages of the image, in either order, and look at no result.  The first part says
what a start frame leaves in the flash; the second when that is what the frame
asked for, and the third when the bootloader finds the values of the frame in it.
-/

namespace LedFirmware.App

open CrashProgram NorFlash

namespace Port

/-- Where the header of a start frame begins, with its version. -/
def headerOffset : Port → Nat
  | .can => 8
  | .uart => 6

/-- `OTA_Version`; the UART sends it with the high byte first. -/
def version : Port → (frame : Nat → UInt8) → Nat
  | .can, frame => field frame 8 2
  | .uart, frame => (frame 6).toNat * 256 + (frame 7).toNat

/-- `OTA_TotalSize`. -/
def totalSize (port : Port) (frame : Nat → UInt8) : Nat := field frame (port.headerOffset + 4) 4

/-- The size that the handler passes to `Flash_Erase_Page`. -/
def eraseSize : Port → (totalSize : Nat) → Nat
  | .can, totalSize => totalSize
  | .uart, totalSize => (totalSize + 64) % 2 ^ 32

/-- `iap_updata_param_data` of a start frame, and what lies behind it. -/
def header (port : Port) (frame stack : Nat → UInt8) : Nat → UInt8 :=
  updataParamData (port.version frame) (bytesFrom frame port.headerOffset) stack

end Port

/-- The flash operations of a start frame. -/
def startFlash (chip : Chip) (port : Port) (size : Nat) (pData : Nat → UInt8) :
    FlashProg chip.geometry Unit :=
  match port with
  | .can =>
      flashStorageHeader chip pData >>= fun _ =>
      flashErasePage chip chip.addrAppCopy size >>= fun _ => .done ()
  | .uart =>
      flashErasePage chip chip.addrAppCopy size >>= fun _ =>
      flashStorageHeader chip pData >>= fun _ => .done ()

/-- The header is stored up to the first half-word of the info page that was not
erased, and the pages are erased if the size was not refused. -/
structure StartEffect (chip : Chip) (size : Nat) (pData : Nat → UInt8) (before after : Mem) :
    Prop where
  info : ∀ index < 28, after (chip.addrAppInfo + index) =
    if index < 2 * erasedHalves before 14 chip.addrAppInfo then pData index
    else before (chip.addrAppInfo + index)
  erased : 0 < size → size ≤ otaBinMaxSize → ∀ index < roundUp flashPageSize size,
    after (chip.addrAppCopy + index) = erasedByte
  refused : ¬ (0 < size ∧ size ≤ otaBinMaxSize) → ∀ index < otaBinMaxSize,
    after (chip.addrAppCopy + index) = before (chip.addrAppCopy + index)

variable {chip : Chip} {port : Port} {size : Nat} {pData : Nat → UInt8} {mem : Mem}
  {locked : Bool}

/-- What `Flash_Erase_Page` leaves of the memory. -/
def eraseMem (chip : Chip) (size : Nat) (mem : Mem) : Mem :=
  if 0 < size ∧ size ≤ otaBinMaxSize then
    overlay chip.addrAppCopy (roundUp flashPageSize size) (fun _ => erasedByte) mem
  else mem

/-- What `Flash_Storage_Header` leaves of the memory. -/
def storeMem (chip : Chip) (pData : Nat → UInt8) (mem : Mem) : Mem :=
  overlay chip.addrAppInfo (2 * erasedHalves mem 14 chip.addrAppInfo) pData mem

theorem ends_eraseCopy (locked : Bool) : ∃ erased closed,
    Ends (flashErasePage chip chip.addrAppCopy size) mem locked erased (eraseMem chip size mem)
      closed := by
  by_cases legal : 0 < size ∧ size ≤ otaBinMaxSize
  · have covers := @covers_copy chip 0 (roundUp flashPageSize size)
      (by rw [Nat.zero_add]; exact roundUp_le_max legal.2)
    rw [Nat.add_zero] at covers
    rw [eraseMem, if_pos legal]
    exact ⟨true, true, ends_flashErasePage legal.1 legal.2 (pageFromEnd_aligned chip 57) covers
      locked⟩
  · rw [eraseMem, if_neg legal]
    exact ⟨false, locked, ends_flashErasePage_refused (by omega) locked⟩

/-- Erasing the copy area keeps everything from its end on. -/
theorem eraseMem_behind {cell : Nat} (behind : chip.addrAppCopy + otaBinMaxSize ≤ cell) :
    eraseMem chip size mem cell = mem cell := by
  rw [eraseMem]
  split
  · rename_i legal
    have fits := roundUp_le_max legal.2
    exact overlay_outside _ _ (Or.inr (by omega))
  · rfl

/-- Storing the header keeps everything below the info page. -/
theorem storeMem_below {cell : Nat} (below : cell < chip.addrAppInfo) :
    storeMem chip pData mem cell = mem cell := overlay_outside _ _ (Or.inl below)

theorem storeMem_info {index : Nat} : storeMem chip pData mem (chip.addrAppInfo + index) =
    if index < 2 * erasedHalves mem 14 chip.addrAppInfo then pData index
    else mem (chip.addrAppInfo + index) := by
  rw [storeMem]
  split
  · rename_i inside
    rw [overlay_inside _ _ (by omega) (by omega), Nat.add_sub_cancel_left]
  · exact overlay_outside _ _ (by omega)

/-- A start frame leaves the same flash on either path. -/
theorem ends_startFlash (locked : Bool) : ∃ after closed,
    Ends (startFlash chip port size pData) mem locked () after closed ∧
      StartEffect chip size pData mem after := by
  have copyInfo := copy_below_info chip
  have pages (contents : Mem) {index : Nat} (positive : 0 < size) (fits : size ≤ otaBinMaxSize)
      (inside : index < roundUp flashPageSize size) :
      eraseMem chip size contents (chip.addrAppCopy + index) = erasedByte := by
    rw [eraseMem, if_pos ⟨positive, fits⟩]
    exact overlay_inside _ _ (by omega) (by omega)
  cases port with
  | can =>
      obtain ⟨stored, open', first⟩ := @ends_flashStorageHeader chip mem pData locked
      obtain ⟨erased, closed, second⟩ := @ends_eraseCopy chip size (storeMem chip pData mem) open'
      refine ⟨_, closed, first.bind (second.bind (.done ())), ?_, ?_, ?_⟩
      · intro index _
        rw [eraseMem_behind (by omega), storeMem_info]
      · intro positive fits index inside
        exact pages _ positive fits inside
      · intro refused index inside
        rw [eraseMem, if_neg refused, storeMem_below (by omega)]
  | uart =>
      obtain ⟨erased, open', first⟩ := @ends_eraseCopy chip size mem locked
      obtain ⟨stored, closed, second⟩ := @ends_flashStorageHeader chip (eraseMem chip size mem)
        pData open'
      have same : erasedHalves (eraseMem chip size mem) 14 chip.addrAppInfo =
          erasedHalves mem 14 chip.addrAppInfo :=
        erasedHalves_congr fun index _ => eraseMem_behind (by omega)
      refine ⟨_, closed, first.bind (second.bind (.done ())), ?_, ?_, ?_⟩
      · intro index _
        rw [← storeMem, storeMem_info, same, eraseMem_behind (by omega)]
      · intro positive fits index inside
        have room := roundUp_le_max fits
        rw [← storeMem, storeMem_below (by omega)]
        exact pages _ positive fits inside
      · intro refused index inside
        rw [← storeMem, storeMem_below (by omega), eraseMem, if_neg refused]

section Handler

variable {fuel len i dataLen : Nat} {ram : Ram} {stack buf : Nat → UInt8}

/-- What a handler does with a start frame that is addressed to the device. -/
theorem protocolAnylise_start (accepts : port.protocol.Accepts fuel buf len i dataLen)
    (addressed : port.protocol.bus.Addressed ram.iapParam.id (bytesFrom buf i))
    (start : bytesFrom buf i 3 = port.protocol.bus.startCode) :
    ∃ handled, protocolAnylise chip port fuel ram stack buf len =
      (startFlash chip port (port.eraseSize (port.totalSize (bytesFrom buf i)))
        (port.header (bytesFrom buf i) stack) >>= fun _ => .done handled) := by
  rw [protocolAnylise_accepts accepts.1 accepts.2]
  cases port with
  | can =>
      have decoded : CanCommand.decode (bytesFrom buf i 3) = some .otaStart := by
        rw [start]
        rfl
      refine ⟨?canHandled, ?canSame⟩
      case canSame =>
        simp only [Port.execute, canExecute, if_neg (not_foreign addressed), decoded, startFlash,
          Prog.bind_bind, Prog.done_bind]
        rfl
  | uart =>
      have decoded : UartCommand.decode (bytesFrom buf i 3) = some .otaStart := by
        rw [start]
        rfl
      refine ⟨?uartHandled, ?uartSame⟩
      case uartSame =>
        simp only [Port.execute, uartExecute, decoded, startFlash, Prog.bind_bind, Prog.done_bind]
        rfl

/-- A start frame for another device changes nothing. -/
theorem protocolAnylise_foreign (accepts : port.protocol.Accepts fuel buf len i dataLen)
    (foreign : ¬ port.protocol.bus.Addressed ram.iapParam.id (bytesFrom buf i)) :
    ∃ handled, protocolAnylise chip port fuel ram stack buf len = .done handled := by
  rw [protocolAnylise_accepts accepts.1 accepts.2]
  cases port with
  | can =>
      have own : ram.iapParam.id ≠ half (bytesFrom buf i) 4 ∧ ram.iapParam.id ≠ 0xFFFF := by
        rw [IapPort.Addressed.eq_def] at foreign
        exact ⟨fun same => foreign (Or.inl same.symm), fun none => foreign (Or.inr none)⟩
      refine ⟨?handled, ?same⟩
      case same =>
        simp only [Port.execute, canExecute, if_pos own]
        rfl
  | uart => exact absurd trivial foreign

/-- Without failures, a start frame has its effect on the flash. -/
theorem ends_start (accepts : port.protocol.Accepts fuel buf len i dataLen)
    (addressed : port.protocol.bus.Addressed ram.iapParam.id (bytesFrom buf i))
    (start : bytesFrom buf i 3 = port.protocol.bus.startCode) (mem : Mem) (locked : Bool) :
    ∃ handled after closed,
      Ends (protocolAnylise chip port fuel ram stack buf len) mem locked handled after closed ∧
      StartEffect chip (port.eraseSize (port.totalSize (bytesFrom buf i)))
        (port.header (bytesFrom buf i) stack) mem after := by
  obtain ⟨handled, equation⟩ := @protocolAnylise_start chip port fuel len i dataLen ram stack buf
    accepts addressed start
  obtain ⟨after, closed, ends, effect⟩ := @ends_startFlash chip port
    (port.eraseSize (port.totalSize (bytesFrom buf i))) (port.header (bytesFrom buf i) stack) mem
    locked
  refine ⟨handled, after, closed, ?_, effect⟩
  rw [equation]
  exact ends.bind (.done handled)

end Handler

/-! ## When a start frame does what it asks for -/

section Established

/-- The 26 bytes of the header that a start frame carries, with its version as a
number. -/
def Port.headerBytes (port : Port) (frame : Nat → UInt8) : Nat → UInt8 := fun index =>
  if index < 2 then LittleEndian.byte (port.version frame) index
  else frame (port.headerOffset + index)

variable (chip : Chip) (port : Port) (frame : Nat → UInt8) (mem : Mem)

/-- The info page holds the header of the frame, and the pages of its image are
erased. -/
structure Established : Prop where
  header : ∀ index < 26, mem (chip.addrAppInfo + index) = port.headerBytes frame index
  pages : ∀ index < roundUp flashPageSize (port.totalSize frame),
    mem (chip.addrAppCopy + index) = erasedByte

/-- Each byte of the header is there already, or no half-word up to its own is in
the way; and the UART does not ask for more pages than may be erased, unless they
are erased already. -/
structure Establishable : Prop where
  header : ∀ index < 26, mem (chip.addrAppInfo + index) = port.headerBytes frame index ∨
    ∀ offset < 2 * (index / 2) + 2, mem (chip.addrAppInfo + offset) = erasedByte
  pages : port = .can ∨ port.totalSize frame + 64 ≤ otaBinMaxSize ∨
    ∀ index < roundUp flashPageSize (port.totalSize frame),
      mem (chip.addrAppCopy + index) = erasedByte

end Established

variable {frame stack : Nat → UInt8} {after : Mem}

theorem Port.header_bytes {index : Nat} (inside : index < 26) :
    port.header frame stack index = port.headerBytes frame index := by
  rw [Port.header, updataParamData, Port.headerBytes]
  split
  · rfl
  · rfl

/-- What is in a byte of the header after a start frame. -/
theorem StartEffect.header_iff (effect : StartEffect chip size (port.header frame stack) mem after)
    {index : Nat} (inside : index < 26) :
    after (chip.addrAppInfo + index) = port.headerBytes frame index ↔
      mem (chip.addrAppInfo + index) = port.headerBytes frame index ∨
        ∀ offset < 2 * (index / 2) + 2, mem (chip.addrAppInfo + offset) = erasedByte := by
  have reached := @lt_erasedHalves_iff mem 14 chip.addrAppInfo (index / 2)
  rw [effect.info index (by omega)]
  split
  · rename_i stored
    have free := (reached.mp (by omega)).2
    exact ⟨fun _ => Or.inr free, fun _ => Port.header_bytes inside⟩
  · rename_i missing
    refine ⟨Or.inl, fun either => either.resolve_right fun free => missing ?_⟩
    have half := reached.mpr ⟨by omega, free⟩
    omega

/-- What is in the pages of the image after a start frame. -/
theorem StartEffect.pages_iff {total : Nat} (positive : 0 < total) (fits : total ≤ otaBinMaxSize)
    (effect : StartEffect chip (port.eraseSize total) pData mem after) :
    (∀ index < roundUp flashPageSize total, after (chip.addrAppCopy + index) = erasedByte) ↔
      port = .can ∨ total + 64 ≤ otaBinMaxSize ∨
        ∀ index < roundUp flashPageSize total, mem (chip.addrAppCopy + index) = erasedByte := by
  have room := roundUp_le_max fits
  have registers : otaBinMaxSize + 64 < 2 ^ 32 := by decide
  cases port with
  | can =>
      refine iff_of_true (fun index inside => ?_) (Or.inl rfl)
      exact effect.erased positive fits index inside
  | uart =>
      have size : Port.uart.eraseSize total = total + 64 := Nat.mod_eq_of_lt (by omega)
      rw [size] at effect
      simp only [reduceCtorEq, false_or]
      by_cases legal : total + 64 ≤ otaBinMaxSize
      · refine iff_of_true (fun index inside => ?_) (Or.inl legal)
        refine effect.erased (by omega) legal index (lt_of_lt_of_le inside ?_)
        exact Nat.mul_le_mul_left _ (Nat.div_le_div_right (by omega))
      · have kept := effect.refused fun both => legal both.2
        rw [or_iff_right legal]
        refine forall₂_congr fun index inside => ?_
        rw [kept index (by omega)]

theorem StartEffect.established_iff (positive : 0 < port.totalSize frame)
    (fits : port.totalSize frame ≤ otaBinMaxSize)
    (effect : StartEffect chip (port.eraseSize (port.totalSize frame)) (port.header frame stack) mem
      after) :
    Established chip port frame after ↔ Establishable chip port frame mem := by
  have header : (∀ index < 26, after (chip.addrAppInfo + index) =
      port.headerBytes frame index) ↔ _ :=
    forall₂_congr fun index inside => effect.header_iff inside
  have pages := effect.pages_iff positive fits
  constructor
  · intro established
    exact ⟨header.mp established.header, pages.mp established.pages⟩
  · intro establishable
    exact ⟨header.mpr establishable.header, pages.mpr establishable.pages⟩

/-- After a start frame the info page holds its header and the pages of its image
are erased, from exactly those flash contents from which the header can be stored
and the size may be erased. -/
theorem start_establishes (chip : Chip) (port : Port) (fuel : Nat) (ram : Ram)
    (stack buf : Nat → UInt8) (len i dataLen : Nat)
    (accepts : port.protocol.Accepts fuel buf len i dataLen)
    (addressed : port.protocol.bus.Addressed ram.iapParam.id (bytesFrom buf i))
    (start : bytesFrom buf i 3 = port.protocol.bus.startCode)
    (positive : 0 < port.totalSize (bytesFrom buf i))
    (fits : port.totalSize (bytesFrom buf i) ≤ otaBinMaxSize) (state : State) :
    Ensures (protocolAnylise chip port fuel ram stack buf len) state
        (fun _ after => Established chip port (bytesFrom buf i) after) ↔
      Establishable chip port (bytesFrom buf i) state.mem := by
  obtain ⟨mem, locked, log⟩ := state
  obtain ⟨handled, after, closed, ends, effect⟩ := @ends_start chip port fuel len i dataLen ram
    stack buf accepts addressed start mem locked
  rw [ends.ensures_iff]
  exact effect.established_iff positive fits

/-- A start frame for an image of eight bytes. -/
def startFrame : List UInt8 :=
  construct 0x01 [0xFF, 0xFF, 0, 0, 1, 0, 0, 0, 8, 0, 0, 0, 8, 0, 0xC5, 0x88, 0xCA, 0x3F,
    8, 0, 0, 0, 1, 0, 8, 0, 0xC5, 0x88, 0xCA, 0x3F]

theorem startFrame_accepts : Port.can.protocol.Accepts 1 (bufferOf startFrame) 36 0 36 := by
  constructor
  · decide
  · decide +kernel

/-- Over a header that was stored before, a new one is not stored. -/
theorem startFrame_not_established :
    ¬ Ensures (protocolAnylise sampleChip .can 1 sampleRam (fun _ => 0) (bufferOf startFrame) 36)
      ⟨fun _ => 0, true, []⟩
      fun _ after => Established sampleChip .can (bytesFrom (bufferOf startFrame) 0) after := by
  obtain ⟨handled, after, closed, ends, effect⟩ := @ends_start sampleChip .can 1 36 0 36 sampleRam
    (fun _ => 0) (bufferOf startFrame) startFrame_accepts (Or.inr rfl) rfl (fun _ => 0) true
  rw [ends.ensures_iff, effect.established_iff (by decide) (by decide)]
  intro establishable
  rcases establishable.header 0 (by decide) with stored | free
  · exact absurd stored (by decide)
  · exact absurd (free 0 (by decide)) (by decide)

theorem start_establishes_sample :
    Ensures (protocolAnylise sampleChip .can 1 sampleRam (fun _ => 0) (bufferOf startFrame) 36)
        ⟨erasedFlash, true, []⟩
        (fun _ after => Established sampleChip .can (bytesFrom (bufferOf startFrame) 0) after) ↔
      Establishable sampleChip .can (bytesFrom (bufferOf startFrame) 0) erasedFlash :=
  start_establishes sampleChip .can 1 sampleRam (fun _ => 0) (bufferOf startFrame) 36 0 36
    startFrame_accepts (Or.inr rfl) rfl (by decide) (by decide) ⟨erasedFlash, true, []⟩

/-! ## What the bootloader finds -/

/-- A header has the compression flag, the sizes and the checksum of the frame. -/
structure HeaderAgrees (port : Port) (frame : Nat → UInt8) (header : IapUpdataParam) : Prop where
  compressFlag : header.compressFlag = field frame (port.headerOffset + 2) 2
  totalSize : header.updatesTotalSize = field frame (port.headerOffset + 4) 4
  subSize : header.updatesSubSize = field frame (port.headerOffset + 8) 2
  crc32 : header.updatesCRC32 = field frame (port.headerOffset + 10) 4

/-- The six half-words behind the version are all equal to it. -/
def SameAsVersion (port : Port) (frame : Nat → UInt8) : Prop :=
  ∀ index < 12, frame (port.headerOffset + 2 + index) =
    LittleEndian.byte (port.version frame) (index % 2)

/-- The four values are twelve bytes in a row, in the frame as in the bootloader's
record; the record begins two bytes earlier. -/
theorem headerAgrees_read {bytes : Nat → UInt8} :
    HeaderAgrees port frame (IapUpdataParam.read bytes) ↔
      ∀ index < 12, bytes index = frame (port.headerOffset + 2 + index) := by
  constructor
  · rintro ⟨flag, total, sub, crc⟩ index inside
    have flagBytes := LittleEndian.value_inj.mp flag
    have totalBytes := LittleEndian.value_inj.mp total
    have subBytes := LittleEndian.value_inj.mp sub
    have crcBytes := LittleEndian.value_inj.mp crc
    rcases Nat.lt_or_ge index 2 with first | later
    · simpa only [Nat.zero_add] using flagBytes index first
    · rcases Nat.lt_or_ge index 6 with second | later
      · have same := totalBytes (index - 2) (by omega)
        rwa [show 2 + (index - 2) = index by omega,
          show port.headerOffset + 4 + (index - 2) = port.headerOffset + 2 + index by omega] at same
      · rcases Nat.lt_or_ge index 8 with third | last
        · have same := subBytes (index - 6) (by omega)
          rwa [show 6 + (index - 6) = index by omega,
            show port.headerOffset + 8 + (index - 6) = port.headerOffset + 2 + index by omega]
            at same
        · have same := crcBytes (index - 8) (by omega)
          rwa [show 8 + (index - 8) = index by omega,
            show port.headerOffset + 10 + (index - 8) = port.headerOffset + 2 + index by omega]
            at same
  · intro same
    have part {width : Nat} (start : Nat) (inside : start + width ≤ 12) :
        field bytes start width = field frame (port.headerOffset + 2 + start) width := by
      refine LittleEndian.value_inj.mpr fun index bound => ?_
      rw [same _ (by omega), Nat.add_assoc (port.headerOffset + 2)]
    exact ⟨part 0 (by omega), part 2 (by omega), part 6 (by omega), part 8 (by omega)⟩

/-- The bytes that are stored are shifted by one half-word against the values, so
each half-word must be equal to the one before it. -/
theorem headerBytes_shifted_iff :
    (∀ index < 12, port.headerBytes frame index = frame (port.headerOffset + 2 + index)) ↔
      SameAsVersion port frame := by
  constructor
  · intro shifted index
    induction index using Nat.strong_induction_on with
    | _ index ih =>
        intro inside
        rw [← shifted index inside, Port.headerBytes]
        split
        · rename_i first
          rw [Nat.mod_eq_of_lt first]
        · have before := ih (index - 2) (by omega) (by omega)
          rw [show port.headerOffset + 2 + (index - 2) = port.headerOffset + index by omega,
            show (index - 2) % 2 = index % 2 by omega] at before
          exact before
  · intro same index inside
    rw [same index inside, Port.headerBytes]
    split
    · rename_i first
      rw [Nat.mod_eq_of_lt first]
    · have before := same (index - 2) (by omega)
      rw [show port.headerOffset + 2 + (index - 2) = port.headerOffset + index by omega,
        show (index - 2) % 2 = index % 2 by omega] at before
      exact before

/-- On an erased info page, what the bootloader reads after a start frame agrees with
the frame exactly if all half-words are equal to the version. -/
theorem StartEffect.headerAgrees_iff
    (effect : StartEffect chip size (port.header frame stack) mem after)
    (blank : ∀ index < flashPageSize, mem (chip.addrAppInfo + index) = erasedByte) :
    HeaderAgrees port frame (headerAt chip after) ↔ SameAsVersion port frame := by
  have large : 28 ≤ flashPageSize := by decide
  rw [headerAt, headerAgrees_read, ← headerBytes_shifted_iff]
  refine forall₂_congr fun index inside => ?_
  have stored := (effect.header_iff (show index < 26 by omega)).mpr
    (Or.inr fun offset bound => blank offset (by omega))
  rw [bytesAt, stored]

/-- The bootloader reads the header of the application without its version: after a
start frame on an erased info page it finds the values of the frame exactly if they
all repeat the version, or for a frame to another device if they look erased. -/
theorem bootloader_header_agrees (chip : Chip) (port : Port) (fuel : Nat) (ram : Ram)
    (stack buf : Nat → UInt8) (len i dataLen : Nat)
    (accepts : port.protocol.Accepts fuel buf len i dataLen)
    (start : bytesFrom buf i 3 = port.protocol.bus.startCode) (state : State)
    (blank : ∀ index < flashPageSize, state.mem (chip.addrAppInfo + index) = erasedByte) :
    Ensures (protocolAnylise chip port fuel ram stack buf len) state
        (fun _ after => HeaderAgrees port (bytesFrom buf i) (headerAt chip after)) ↔
      (port.protocol.bus.Addressed ram.iapParam.id (bytesFrom buf i) →
        SameAsVersion port (bytesFrom buf i)) ∧
      (¬ port.protocol.bus.Addressed ram.iapParam.id (bytesFrom buf i) →
        ∀ index < 12, bytesFrom buf i (port.headerOffset + 2 + index) = erasedByte) := by
  obtain ⟨mem, locked, log⟩ := state
  by_cases addressed : port.protocol.bus.Addressed ram.iapParam.id (bytesFrom buf i)
  · obtain ⟨handled, after, closed, ends, effect⟩ := @ends_start chip port fuel len i dataLen ram
      stack buf accepts addressed start mem locked
    rw [ends.ensures_iff, effect.headerAgrees_iff blank]
    simp only [addressed, true_imp_iff, not_true_eq_false, false_imp_iff, and_true]
  · obtain ⟨handled, equation⟩ := @protocolAnylise_foreign chip port fuel len i dataLen ram stack
      buf accepts addressed
    have ends : Ends (protocolAnylise chip port fuel ram stack buf len) mem locked handled mem
        locked := by
      rw [equation]
      exact .done handled
    rw [ends.ensures_iff, headerAt, headerAgrees_read]
    simp only [addressed, false_imp_iff, not_false_eq_true, true_imp_iff, true_and]
    have large : 12 ≤ flashPageSize := by decide
    refine forall₂_congr fun index inside => ?_
    have erased : mem (chip.addrAppInfo + index) = erasedByte := blank index (by omega)
    rw [bytesAt, erased, eq_comm]

/-- The bootloader takes the version of the frame for its compression flag. -/
theorem startFrame_not_agrees :
    ¬ Ensures (protocolAnylise sampleChip .can 1 sampleRam (fun _ => 0) (bufferOf startFrame) 36)
      ⟨erasedFlash, true, []⟩
      fun _ after => HeaderAgrees .can (bytesFrom (bufferOf startFrame) 0)
        (headerAt sampleChip after) := by
  obtain ⟨handled, after, closed, ends, effect⟩ := @ends_start sampleChip .can 1 36 0 36 sampleRam
    (fun _ => 0) (bufferOf startFrame) startFrame_accepts (Or.inr rfl) rfl erasedFlash true
  rw [ends.ensures_iff, effect.headerAgrees_iff fun _ _ => rfl]
  intro same
  exact absurd (same 0 (by decide)) (by decide)

theorem bootloader_header_agrees_sample :
    Ensures (protocolAnylise sampleChip .can 1 sampleRam (fun _ => 0) (bufferOf startFrame) 36)
        ⟨erasedFlash, true, []⟩
        (fun _ after => HeaderAgrees .can (bytesFrom (bufferOf startFrame) 0)
          (headerAt sampleChip after)) ↔
      (Port.can.protocol.bus.Addressed sampleRam.iapParam.id (bytesFrom (bufferOf startFrame) 0) →
        SameAsVersion .can (bytesFrom (bufferOf startFrame) 0)) ∧
      (¬ Port.can.protocol.bus.Addressed sampleRam.iapParam.id
          (bytesFrom (bufferOf startFrame) 0) →
        ∀ index < 12, bytesFrom (bufferOf startFrame) 0 (Port.can.headerOffset + 2 + index) =
          erasedByte) :=
  bootloader_header_agrees sampleChip .can 1 sampleRam (fun _ => 0) (bufferOf startFrame) 36 0 36
    startFrame_accepts rfl ⟨erasedFlash, true, []⟩ fun _ _ => rfl

end LedFirmware.App
