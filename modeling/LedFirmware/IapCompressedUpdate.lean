import LedFirmware.IapPlainUpdate
import Mathlib.Data.List.GetD

/-!
# The compressed update

The staged image is a sequence of zlib streams, one for each pack of the
original.  `Unpacks` says that the loop's calls of the decompressor produce
aligned consecutive pieces of one image; the loop invariant then keeps source
pointer, consumed and produced counts in step.
-/

namespace LedFirmware

open CrashProgram NorFlash

variable {chip : Chip} {uncompress : Uncompress} {header : IapUpdataParam}

/-- From the given counts on, the staged bytes unpack to the rest of the image:
each call yields the next piece at a programmable address, and the pieces end
with the image when the staged bytes are used up. -/
inductive Unpacks (uncompress : Uncompress) (header : IapUpdataParam)
    (source image : Nat → UInt8) : (comSizeCnt uncomSizeCnt : Nat) → Prop
  | finished {comSizeCnt : Nat} (consumed : header.updatesTotalSize ≤ comSizeCnt) :
      Unpacks uncompress header source image comSizeCnt header.comPackOriginalSize
  | piece {comSizeCnt uncomSizeCnt : Nat} {output : Uncompressed}
      (more : comSizeCnt < header.updatesTotalSize)
      (call : uncompress (fun index => source (comSizeCnt + index))
        (header.perComPackOriginalSize * 2) (header.perComPackOriginalSize * 2) = output)
      (aligned : uncomSizeCnt % 8 = 0) (buffered : output.destLen ≤ flashPageSize)
      (available : output.sourceLen ≤ header.perComPackOriginalSize * 2)
      (room : uncomSizeCnt + output.destLen ≤ header.comPackOriginalSize)
      (stored : ∀ index < output.destLen, output.dest index = image (uncomSizeCnt + index))
      (rest : Unpacks uncompress header source image (comSizeCnt + output.sourceLen)
        (uncomSizeCnt + output.destLen)) :
      Unpacks uncompress header source image comSizeCnt uncomSizeCnt

theorem copy_lt (chip : Chip) : chip.addrAppCopy + 2 ^ 18 < 2 ^ 32 := by
  have bound := chip.inRegister
  simp only [Chip.addrAppCopy, Chip.pageFromEnd, flashStartAddr, flashPageSize]
  omega

/-- The header fields that the checks and the field widths bound. -/
structure Bounded (header : IapUpdataParam) : Prop where
  total : header.updatesTotalSize ≤ otaBinMaxSize
  pack : header.perComPackOriginalSize < 2 ^ 16
  original : header.comPackOriginalSize ≤ otaBinMaxSize

/-- What an iteration finds and writes when its call yields the next piece of the image; none of
the counters and pointers leaves its word. -/
structure PieceStep (chip : Chip) (uncompress : Uncompress) (header : IapUpdataParam)
    (image : Nat → UInt8) (comSizeCnt uncomSizeCnt : Nat) (output : Uncompressed) (mem : Mem)
    (locked : Bool) : Prop where
  call : uncompress (bytesAt mem (chip.addrAppCopy + comSizeCnt))
    (header.perComPackOriginalSize * 2) (header.perComPackOriginalSize * 2) = output
  target : (flashAppRunAddr + uncomSizeCnt) % 2 ^ 32 = flashAppRunAddr + uncomSizeCnt
  source : (chip.addrAppCopy + comSizeCnt + output.sourceLen) % 2 ^ 32 =
    chip.addrAppCopy + (comSizeCnt + output.sourceLen)
  consumed : (comSizeCnt + output.sourceLen) % 2 ^ 32 = comSizeCnt + output.sourceLen
  produced : (uncomSizeCnt + output.destLen) % 2 ^ 32 = uncomSizeCnt + output.destLen
  inPages : Set.Ico (flashAppRunAddr + uncomSizeCnt)
    (flashAppRunAddr + uncomSizeCnt + roundUp 8 output.destLen) ⊆
      runPages header.comPackOriginalSize
  written : Ends (flashWrite chip (flashAppRunAddr + uncomSizeCnt) output.dest output.destLen) mem
    locked output.destLen (overlay (flashAppRunAddr + uncomSizeCnt) output.destLen
      (fun index => image (uncomSizeCnt + index)) mem) true

theorem piece_step {source image : Nat → UInt8} {comSizeCnt uncomSizeCnt : Nat}
    {output : Uncompressed} {mem : Mem}
    (bounded : Bounded header) (below : BelowCopy chip header.comPackOriginalSize)
    (more : comSizeCnt < header.updatesTotalSize)
    (call : uncompress (fun index => source (comSizeCnt + index))
      (header.perComPackOriginalSize * 2) (header.perComPackOriginalSize * 2) = output)
    (aligned : uncomSizeCnt % 8 = 0)
    (available : output.sourceLen ≤ header.perComPackOriginalSize * 2)
    (room : uncomSizeCnt + output.destLen ≤ header.comPackOriginalSize)
    (stored : ∀ index < output.destLen, output.dest index = image (uncomSizeCnt + index))
    (sameSource : ∀ index, mem (chip.addrAppCopy + index) = source index)
    (erased : ∀ index, uncomSizeCnt ≤ index →
      index < roundUp flashPageSize header.comPackOriginalSize →
        mem (flashAppRunAddr + index) = erasedByte) (locked : Bool) :
    PieceStep chip uncompress header image comSizeCnt uncomSizeCnt output mem locked := by
  have inPages := piece_in_pages aligned room
  have longer := le_roundUp (show 0 < 8 by omega) output.destLen
  have fits := roundUp_le_max bounded.original
  have copyLt := copy_lt chip
  have runLe := run_le_copy chip
  have inFlash := copy_in_flash chip
  have base := (covers_run chip (Nat.zero_le _)).1
  have total := bounded.total
  have pack := bounded.pack
  rw [BelowCopy] at below
  simp only [otaBinMaxSize, flashPageSize] at total
  have write := @ends_flashWrite chip mem (flashAppRunAddr + uncomSizeCnt) output.destLen
    output.dest (run_aligned_mod aligned) ⟨by omega, by omega⟩
    (fun index inside => by
      rw [Nat.add_assoc]
      exact erased _ (by omega) (by omega)) locked
  rw [overlay_congr mem stored] at write
  refine ⟨?_, Nat.mod_eq_of_lt (by omega), ?_, Nat.mod_eq_of_lt (by omega),
    Nat.mod_eq_of_lt (by omega), Set.Ico_subset_Ico (by omega) (by omega), write⟩
  · rw [← call]
    congr 1
    funext index
    rw [bytesAt, Nat.add_assoc, sameSource]
  · rw [Nat.add_assoc]
    exact Nat.mod_eq_of_lt (by omega)

/-- One iteration of the loop programs its piece at the place of the image and goes on. -/
theorem completes_decompressStep {image : Nat → UInt8} {comSizeCnt uncomSizeCnt : Nat}
    {output : Uncompressed} {fuel steps value : Nat} {mem final : Mem} {locked closed : Bool}
    (more : comSizeCnt < header.updatesTotalSize)
    (step : PieceStep chip uncompress header image comSizeCnt uncomSizeCnt output mem locked)
    (rest : Completes (steps ≤ fuel) (runPages header.comPackOriginalSize)
      (decompressLoop chip uncompress header fuel
        (chip.addrAppCopy + (comSizeCnt + output.sourceLen)) (comSizeCnt + output.sourceLen)
        (uncomSizeCnt + output.destLen))
      (overlay (flashAppRunAddr + uncomSizeCnt) output.destLen
        (fun index => image (uncomSizeCnt + index)) mem) true value final closed) :
    Completes (steps + 1 ≤ fuel + 1) (runPages header.comPackOriginalSize)
      (decompressLoop chip uncompress header (fuel + 1) (chip.addrAppCopy + comSizeCnt) comSizeCnt
        uncomSizeCnt) mem locked value final closed := by
  rw [decompressLoop, if_pos more]
  refine (Completes.of_returns (returns_flashRead _)).bind ?_
  simp only [step.call, step.target, step.source, step.consumed, step.produced]
  refine (Completes.of_ends step.written (touches_flashWrite step.inPages)).bind ?_
  simpa only [Nat.succ_le_succ_iff] using rest

/-- The decompress-and-program loop: with the rest of the image's pages erased
it programs the rest of the image, in a number of iterations that does not
depend on the memory. -/
theorem completes_decompressLoop {source image : Nat → UInt8} {comSizeCnt uncomSizeCnt : Nat}
    (bounded : Bounded header) (below : BelowCopy chip header.comPackOriginalSize)
    (unpacks : Unpacks uncompress header source image comSizeCnt uncomSizeCnt) :
    ∃ steps, ∀ (fuel pSrcData : Nat) (mem : Mem) (locked : Bool),
      pSrcData = chip.addrAppCopy + comSizeCnt →
      (∀ index, mem (chip.addrAppCopy + index) = source index) →
      (∀ index, uncomSizeCnt ≤ index → index < roundUp flashPageSize header.comPackOriginalSize →
        mem (flashAppRunAddr + index) = erasedByte) →
      ∃ closed, Completes (steps ≤ fuel) (runPages header.comPackOriginalSize)
        (decompressLoop chip uncompress header fuel pSrcData comSizeCnt uncomSizeCnt) mem locked
        header.comPackOriginalSize
        (overlay (flashAppRunAddr + uncomSizeCnt) (header.comPackOriginalSize - uncomSizeCnt)
          (fun index => image (uncomSizeCnt + index)) mem) closed := by
  have budget {fuel steps : Nat} {pSrcData com uncom : Nat} {mem final : Mem}
      {locked closed : Bool} (none : fuel = 0) :
      Completes (steps + 1 ≤ fuel) (runPages header.comPackOriginalSize)
        (decompressLoop chip uncompress header fuel pSrcData com uncom) mem locked
        header.comPackOriginalSize final closed := by
    subst none
    exact ⟨fun log => (Prog.wp_spin _ _).mpr ⟨by omega, Confined.refl _⟩⟩
  induction unpacks with
  | finished consumed =>
      refine ⟨0 + 1, fun fuel pSrcData mem locked _ _ _ => ⟨locked, ?_⟩⟩
      cases fuel with
      | zero => exact budget rfl
      | succ fuel =>
          rw [decompressLoop, if_neg (by omega), Nat.sub_self, overlay_zero]
          exact .done _
  | @piece comSizeCnt uncomSizeCnt output more call aligned buffered available room stored rest
      ih =>
      obtain ⟨steps, continues⟩ := ih
      refine ⟨steps + 1, fun fuel pSrcData mem locked pointer sameSource erased => ?_⟩
      subst pointer
      cases fuel with
      | zero => exact ⟨locked, budget rfl⟩
      | succ fuel =>
          have inPages := piece_in_pages aligned room
          have longer := le_roundUp (show 0 < 8 by omega) output.destLen
          rw [BelowCopy] at below
          obtain ⟨closed, loop⟩ := continues fuel _
            (overlay (flashAppRunAddr + uncomSizeCnt) output.destLen
              (fun index => image (uncomSizeCnt + index)) mem) true rfl
            (fun index => (overlay_outside _ _ (by omega)).trans (sameSource index))
            (fun index lower upper =>
              (overlay_outside _ _ (by omega)).trans (erased index (by omega) upper))
          have shifted : (fun index => image (uncomSizeCnt + output.destLen + index)) =
              fun index => image (uncomSizeCnt + (output.destLen + index)) := by
            funext index
            rw [Nat.add_assoc]
          rw [shifted, ← Nat.add_assoc flashAppRunAddr,
            overlay_append (flashAppRunAddr + uncomSizeCnt) output.destLen _
              (fun index => image (uncomSizeCnt + index)),
            show output.destLen + (header.comPackOriginalSize - (uncomSizeCnt + output.destLen)) =
              header.comPackOriginalSize - uncomSizeCnt by omega] at loop
          exact ⟨closed, completes_decompressStep more (piece_step bounded below more call aligned
            available room stored sameSource erased locked) loop⟩

theorem touches_flashErasePage_run {size : Nat} :
    Touches chip.geometry (runPages size) (flashErasePage chip flashAppRunAddr size) :=
  touches_flashErasePage run_aligned fun _ => subset_rfl

/-- One attempt on an image that unpacks verifies and installs the image. -/
theorem completes_compressedAttempt {source image : Nat → UInt8} (bounded : Bounded header)
    (below : BelowCopy chip header.comPackOriginalSize)
    (unpacks : Unpacks uncompress header source image 0 0)
    (crcMatches : header.comPackOriginalCRC32 =
      (crc32 image header.comPackOriginalSize).toNat) :
    ∃ steps, ∀ (fuel : Nat) (mem : Mem) (locked : Bool),
      (∀ index, mem (chip.addrAppCopy + index) = source index) → ∃ closed,
      Completes (steps ≤ fuel) (runPages header.comPackOriginalSize)
        (compressedAttempt chip uncompress fuel header chip.addrAppCopy) mem locked true
        (installed mem header.comPackOriginalSize image) closed := by
  obtain ⟨steps, loop⟩ := completes_decompressLoop bounded below unpacks
  refine ⟨steps, fun fuel mem locked stagedSource => ?_⟩
  obtain ⟨erased, afterErase, erase⟩ := @ends_flashErasePage_any chip mem flashAppRunAddr
    header.comPackOriginalSize bounded.original run_aligned
    (covers_run chip (roundUp_le_max bounded.original)) locked
  rw [BelowCopy] at below
  let cleared := overlay flashAppRunAddr (roundUp flashPageSize header.comPackOriginalSize)
    (fun _ => erasedByte) mem
  have clearedSource (index : Nat) : cleared (chip.addrAppCopy + index) = source index :=
    (overlay_outside _ _ (by omega)).trans (stagedSource index)
  have clearedErased (index : Nat)
      (inside : index < roundUp flashPageSize header.comPackOriginalSize) :
      cleared (flashAppRunAddr + index) = erasedByte := overlay_inside _ _ (by omega) (by omega)
  obtain ⟨closed, unpacked⟩ := loop fuel chip.addrAppCopy cleared afterErase
    (Nat.add_zero _).symm clearedSource fun index _ inside => clearedErased index inside
  have whole : overlay (flashAppRunAddr + 0) (header.comPackOriginalSize - 0)
      (fun index => image (0 + index)) cleared =
        installed mem header.comPackOriginalSize image := by
    rw [Nat.add_zero, Nat.sub_zero]
    exact overlay_congr cleared fun index _ => by rw [Nat.zero_add]
  rw [whole] at unpacked
  have readBack : crc32 (bytesAt (installed mem header.comPackOriginalSize image)
      flashAppRunAddr) header.comPackOriginalSize = crc32 image header.comPackOriginalSize :=
    crc32_congr fun index inside => installed_run inside
  refine ⟨closed, (Completes.of_ends erase touches_flashErasePage_run).bind (unpacked.bind
    ((Completes.of_returns (returns_flashRead _)).bind ?_))⟩
  rw [if_pos ⟨crcMatches.trans (congrArg UInt32.toNat readBack.symm), rfl⟩]
  exact .of_ends ((Ends.stamp _ _ _).bind (.done true))
    (.bind (.stamp _ _ _) fun _ => .done true)

/-- The run area was just read and found to have the check value. -/
def JustChecked (length digest : Nat) (state : State) : Prop :=
  (crc32 (bytesAt state.mem flashAppRunAddr) length).toNat = digest ∧
    ∃ older, state.log = .stamped flashAppRunAddr length digest :: older

/-- Whatever the decompressor does and whatever fails, a verified attempt has
checked the run area after its last write. -/
theorem compressedAttempt_checks {allowed : Fault → Prop} (fuel pSrcData : Nat) (state : State) :
    (compressedAttempt chip uncompress fuel header pSrcData).wp allowed
      ⟨fun verified after => verified = true →
          JustChecked header.comPackOriginalSize header.comPackOriginalCRC32 after,
        fun _ => True, fun _ => True⟩ state := by
  refine Prog.wp_bind_last (fun _ => trivial) (fun _ => trivial) fun erased opened => ?_
  refine Prog.wp_bind_last (fun _ => trivial) (fun _ => trivial) fun uncomSizeCnt after => ?_
  refine (@returns_flashRead chip _ flashAppRunAddr).wp_bind trivial ?_
  refine Prog.wp_ite (fun verified => ?_) fun _ => ?_
  · refine (Prog.wp_bind _ _ _ _).mpr (wp_stamp trivial ((Prog.wp_done _ _ _).mpr fun _ => ?_))
    refine ⟨?_, after.log, rfl⟩
    obtain ⟨crcMatches, rfl⟩ := verified
    exact crcMatches.symm
  · refine (Prog.wp_done _ _ _).mpr fun impossible => ?_
    exact absurd impossible Bool.false_ne_true

/-! ## Staged zlib streams -/

/-- What `uncompress` is documented to do with a buffer that starts with a
complete stream. -/
structure ZlibContract (uncompress : Uncompress)
    (ZlibStream : (stream output : List UInt8) → Prop) : Prop where
  nonempty : ∀ stream output, ZlibStream stream output → 0 < stream.length
  inflates : ∀ stream output, ZlibStream stream output →
    ∀ (source : Nat → UInt8) (sourceLen destLen : Nat),
      (∀ index < stream.length, source index = bufferOf stream index) →
      stream.length ≤ sourceLen → output.length ≤ destLen →
      (uncompress source sourceLen destLen).sourceLen = stream.length ∧
        (uncompress source sourceLen destLen).destLen = output.length ∧
        ∀ index < output.length,
          (uncompress source sourceLen destLen).dest index = bufferOf output index

/-- The staged bytes are one stream for each consecutive pack of the original;
only the last pack may be shorter than the others. -/
inductive Packed (ZlibStream : (stream output : List UInt8) → Prop) (packSize : Nat) :
    (original staged : List UInt8) → Prop
  | nil : Packed ZlibStream packSize [] []
  | cons {pack stream original staged : List UInt8} (compressed : ZlibStream stream pack)
      (short : stream.length ≤ packSize * 2) (nonempty : pack ≠ [])
      (full : pack.length = packSize ∨ pack.length ≤ packSize ∧ original = [])
      (rest : Packed ZlibStream packSize original staged) :
      Packed ZlibStream packSize (pack ++ original) (stream ++ staged)

variable {ZlibStream : (stream output : List UInt8) → Prop}

theorem Packed.staged_nil {packSize : Nat} {original staged : List UInt8}
    (packed : Packed ZlibStream packSize original staged) (empty : original = []) :
    staged = [] := by
  cases packed with
  | nil => rfl
  | cons _ _ nonempty => exact absurd (List.append_eq_nil_iff.mp empty).1 nonempty

/-- Under the contract, well-formed staged bytes unpack to the original. -/
theorem Packed.unpacks {packSize : Nat} {original staged : List UInt8}
    (contract : ZlibContract uncompress ZlibStream)
    (packed : Packed ZlibStream packSize original staged)
    (packs : header.perComPackOriginalSize = packSize) (multiple : packSize % 8 = 0)
    (buffered : packSize ≤ flashPageSize) {source image : Nat → UInt8}
    {comSizeCnt uncomSizeCnt : Nat} (aligned : uncomSizeCnt % 8 = 0)
    (total : header.updatesTotalSize = comSizeCnt + staged.length)
    (size : header.comPackOriginalSize = uncomSizeCnt + original.length)
    (sources : ∀ index < staged.length, source (comSizeCnt + index) = bufferOf staged index)
    (images : ∀ index < original.length,
      image (uncomSizeCnt + index) = bufferOf original index) :
    Unpacks uncompress header source image comSizeCnt uncomSizeCnt := by
  induction packed generalizing comSizeCnt uncomSizeCnt with
  | nil =>
      simp only [List.length_nil, Nat.add_zero] at total size
      rw [← size]
      exact .finished (by omega)
  | @cons pack stream original staged compressed short nonempty full rest ih =>
      rw [List.length_append] at total size sources images
      have streamLength := contract.nonempty stream pack compressed
      have packLength : pack.length ≤ packSize := by
        rcases full with whole | ⟨last, -⟩ <;> omega
      obtain ⟨consumed, produced, output⟩ := contract.inflates stream pack compressed
        (fun index => source (comSizeCnt + index)) (header.perComPackOriginalSize * 2)
        (header.perComPackOriginalSize * 2)
        (fun index inside => by
          rw [sources index (by omega), bufferOf_append_left inside])
        (by rw [packs]; exact short) (by omega)
      refine .piece (by omega) rfl aligned (by omega) (by omega) (by omega) ?_ ?_
      · intro index inside
        rw [produced] at inside
        rw [output index inside, images index (by omega), bufferOf_append_left inside]
      · rw [consumed, produced]
        rcases full with whole | ⟨-, last⟩
        · refine ih (by omega) (by omega) (by omega) ?_ ?_
          · intro index inside
            rw [Nat.add_assoc, sources _ (by omega), bufferOf_append_right]
          · intro index inside
            rw [Nat.add_assoc, images _ (by omega), bufferOf_append_right]
        · have staged := rest.staged_nil last
          subst staged last
          simp only [List.length_nil, Nat.add_zero] at total size
          rw [← size]
          exact .finished (by omega)

/-- A compressed update as the sender prepares it: the request, the header and
the staged streams belong to one original image. -/
structure CompressedStaged (chip : Chip) (ZlibStream : (stream output : List UInt8) → Prop)
    (mem : Mem) (original staged : List UInt8) : Prop where
  updating : iapFlag chip mem = otaUpdateApp
  compressed : (headerAt chip mem).compressFlag = 1
  total : (headerAt chip mem).updatesTotalSize = staged.length
  totalFits : staged.length ≤ otaBinMaxSize
  crc : (headerAt chip mem).updatesCRC32 = (crc32 (bufferOf staged) staged.length).toNat
  multiple : (headerAt chip mem).perComPackOriginalSize % 8 = 0
  buffered : (headerAt chip mem).perComPackOriginalSize ≤ flashPageSize
  size : (headerAt chip mem).comPackOriginalSize = original.length
  nonempty : 0 < original.length
  sizeFits : original.length ≤ otaBinMaxSize
  originalCrc : (headerAt chip mem).comPackOriginalCRC32 =
    (crc32 (bufferOf original) original.length).toNat
  packed : Packed ZlibStream (headerAt chip mem).perComPackOriginalSize original staged
  stored : ∀ index < staged.length, mem (chip.addrAppCopy + index) = bufferOf staged index

namespace CompressedStaged

variable {mem : Mem} {original staged : List UInt8}

theorem accepted (pending : CompressedStaged chip ZlibStream mem original staged) :
    GateAccepts chip mem (headerAt chip mem) := by
  refine ⟨by rw [pending.total]; exact pending.totalFits, ?_⟩
  rw [pending.crc, pending.total]
  exact congrArg UInt32.toNat (crc32_congr fun index inside => (pending.stored index inside).symm)

theorem verdict (pending : CompressedStaged chip ZlibStream mem original staged) :
    verdict chip mem = .update (headerAt chip mem) :=
  verdict_update pending.updating pending.accepted

theorem bounded (pending : CompressedStaged chip ZlibStream mem original staged) :
    Bounded (headerAt chip mem) := by
  refine ⟨pending.accepted.1, ?_, by rw [pending.size]; exact pending.sizeFits⟩
  have pack := pending.buffered
  simp only [flashPageSize] at pack
  omega

theorem below (pending : CompressedStaged chip ZlibStream mem original staged)
    (disjoint : flashAppRunAddr + otaBinMaxSize ≤ chip.addrAppCopy) :
    BelowCopy chip (headerAt chip mem).comPackOriginalSize :=
  le_trans (Nat.add_le_add_left (roundUp_le_max pending.bounded.original) _) disjoint

theorem unpacks (pending : CompressedStaged chip ZlibStream mem original staged)
    (contract : ZlibContract uncompress ZlibStream) :
    Unpacks uncompress (headerAt chip mem) (bytesAt mem chip.addrAppCopy) (bufferOf original)
      0 0 :=
  pending.packed.unpacks contract rfl pending.multiple pending.buffered rfl
    (by rw [Nat.zero_add]; exact pending.total) (by rw [Nat.zero_add]; exact pending.size)
    (fun index inside => by rw [Nat.zero_add]; exact pending.stored index inside)
    fun index _ => by rw [Nat.zero_add]

end CompressedStaged

theorem attempts_compressed (fuel : Nat) (compressed : header.compressFlag = 1) :
    attempts chip uncompress fuel header =
      compressedAttempt chip uncompress fuel header chip.addrAppCopy ::
        List.replicate 2 (compressedAttempt chip uncompress fuel header flashAppRunAddr) := by
  rw [attempts, if_pos compressed]
  rfl

/-- An update whose staged bytes unpack boots to the installed image. -/
theorem unpacked_bootsTo {state : State} {image : Nat → UInt8}
    (verdictIs : verdict chip state.mem = .update header)
    (compressed : header.compressFlag = 1) (bounded : Bounded header)
    (below : BelowCopy chip header.comPackOriginalSize)
    (unpacks : Unpacks uncompress header (bytesAt state.mem chip.addrAppCopy) image 0 0)
    (crcMatches : header.comPackOriginalCRC32 =
      (crc32 image header.comPackOriginalSize).toNat) :
    ∃ steps, ∀ fuel ≥ steps, BootsTo chip uncompress fuel state
      (flagErased chip (installed state.mem header.comPackOriginalSize image)) := by
  obtain ⟨steps, attempt⟩ := completes_compressedAttempt bounded below unpacks crcMatches
  refine ⟨steps, fun fuel enough schedule within powered => ?_⟩
  obtain ⟨closed, completes⟩ := attempt fuel state.mem false fun _ => rfl
  have boot : (main chip uncompress fuel).wp Reliable
      ⟨fun result (after : State) => result = .reset ∧
          after.mem = flagErased chip (installed state.mem header.comPackOriginalSize image),
        fun _ => True, fun _ => False⟩ (powerUp state) := by
    refine @wp_main_update _ _ _ _ _ _ _ _ (fun after : State =>
        after.mem = installed state.mem header.comPackOriginalSize image)
      verdictIs (attempts_compressed fuel compressed) (fun _ => trivial) ?_
      (fun _ _ _ => trivial) (fun _ _ _ => trivial) ?_
    · exact Prog.wp_mono (completes.wp state.log) (fun _ _ done => ⟨done.1.1, done.1.2.1⟩)
        (fun _ _ => trivial) fun _ spins => spins.1 enough
    · intro after reached
      refine ⟨rfl, ?_⟩
      rw [← reached]
  obtain ⟨result, after, used, ended, rfl, reached⟩ :=
    Prog.run_completes boot within powered fun _ impossible => impossible
  exact ⟨after, _, ended, reached⟩

/-- Below the flag the run area stays as it was checked. -/
theorem JustChecked.confined {before later : State}
    (checked : JustChecked header.comPackOriginalSize header.comPackOriginalCRC32 before)
    (inRange : flashAppRunAddr + header.comPackOriginalSize ≤ chip.addrIapFlag)
    (confined : Confined chip.geometry (pageAt chip.addrIapFlag) before later) :
    (crc32 (bytesAt later.mem flashAppRunAddr) header.comPackOriginalSize).toNat =
      header.comPackOriginalCRC32 := by
  rw [← checked.1]
  refine congrArg UInt32.toNat (crc32_congr fun index inside => confined.kept ?_)
  rw [Set.mem_compl_iff, pageAt, Set.mem_Ico]
  omega

/-- A boot of the compressed branch that resets has checked the run area. -/
theorem wp_main_checked {state : State} (fuel : Nat)
    (verdictIs : verdict chip state.mem = .update header)
    (compressed : header.compressFlag = 1)
    (inRange : flashAppRunAddr + header.comPackOriginalSize ≤ chip.addrIapFlag) :
    (main chip uncompress fuel).wp AnyFault
      ⟨fun result (later : State) => result = .reset →
          (crc32 (bytesAt later.mem flashAppRunAddr) header.comPackOriginalSize).toNat =
            header.comPackOriginalCRC32,
        fun _ => True, fun _ => True⟩ state := by
  have attemptsCheck (start : State) :=
    @updateAttempts_reset chip AnyFault
      (JustChecked header.comPackOriginalSize header.comPackOriginalCRC32)
      (attempts chip uncompress fuel header) (fun attempt member state => by
        rw [attempts_compressed fuel compressed] at member
        rcases List.mem_cons.mp member with rfl | later
        · exact compressedAttempt_checks fuel _ state
        · obtain ⟨-, rfl⟩ := List.mem_replicate.mp later
          exact compressedAttempt_checks fuel _ state) start
  have entryChecks : (bootEntry chip uncompress fuel).wp AnyFault
      ⟨fun entry (later : State) => entry = .reset →
          (crc32 (bytesAt later.mem flashAppRunAddr) header.comPackOriginalSize).toNat =
            header.comPackOriginalCRC32,
        fun _ => True, fun _ => True⟩ state := by
    refine wp_bootEntry trivial ?_
    rw [verdictIs]
    refine (Prog.wp_bind _ _ _ _).mpr (wp_setLock trivial (Prog.wp_mono (attemptsCheck _) ?_
      (fun _ holds => holds) fun _ holds => holds))
    intro entry later checks reset
    obtain ⟨before, checked, confined⟩ := checks reset
    exact checked.confined inRange confined
  refine (Prog.wp_bind _ _ _ _).mpr (Prog.wp_mono entryChecks ?_ (fun _ holds => holds)
    fun _ holds => holds)
  intro entry later checks
  cases entry with
  | jump stackPointer jumpAddress =>
      refine (Prog.wp_done _ _ _).mpr fun impossible => ?_
      cases impossible
  | reset => exact (Prog.wp_done _ _ _).mpr fun _ => checks rfl
  | otaoe =>
      refine Prog.wp_bind_last (fun _ => trivial) (fun _ => trivial) fun param last => ?_
      refine (Prog.wp_done _ _ _).mpr fun impossible => ?_
      cases impossible

/-- Without failures a boot with an update resets, or leaves the flag that forces the update. -/
theorem wp_main_flag {state : State} (fuel : Nat)
    (verdictIs : verdict chip state.mem = .update header) :
    (main chip uncompress fuel).wp Reliable
      ⟨fun result (later : State) => result = .reset ∨
          iapFlag chip later.mem = otaForceUpdateApp,
        fun _ => True, fun _ => True⟩ state := by
  have entryFlag : (bootEntry chip uncompress fuel).wp Reliable
      ⟨fun entry (later : State) => entry = .reset ∨
          entry = .otaoe ∧ iapFlag chip later.mem = otaForceUpdateApp,
        fun _ => True, fun _ => True⟩ state := by
    refine wp_bootEntry trivial ?_
    rw [verdictIs]
    exact (Prog.wp_bind _ _ _ _).mpr (wp_setLock trivial (updateAttempts_flag _ _))
  refine (Prog.wp_bind _ _ _ _).mpr (Prog.wp_mono entryFlag ?_ (fun _ holds => holds)
    fun _ holds => holds)
  rintro entry later (rfl | ⟨rfl, forced⟩)
  · exact (Prog.wp_done _ _ _).mpr (Or.inl rfl)
  · have touches : Touches chip.geometry (pageAt chip.addrIapParam)
        (iapParamLoad chip >>= fun iapParam => .done (BootEnd.iapLoop iapParam)) :=
      .bind (touches_iapParamLoad subset_rfl) fun _ => .done _
    refine Prog.wp_mono (wp_of_touches touches later) ?_ (fun _ _ => trivial)
      fun _ _ => trivial
    intro param last confined
    refine Or.inr ?_
    rw [← forced]
    refine LittleEndian.value_congr fun index _ => confined.kept ?_
    have page := param_below_flag chip
    rw [Set.mem_compl_iff, pageAt, Set.mem_Ico]
    omega

/-- However a compressed update goes, a boot that resets, and a boot without
failures that leaves the run flag, have checked the run area. -/
theorem compressed_boot_checks {state : State} (fuel : Nat)
    (verdictIs : verdict chip state.mem = .update header)
    (compressed : header.compressFlag = 1)
    (inRange : flashAppRunAddr + header.comPackOriginalSize ≤ chip.addrIapFlag)
    {schedule rest : FlashSchedule} {result : BootEnd} {after : State}
    (ended : Prog.run (main chip uncompress fuel) schedule state = .done result after rest)
    (runs : result = .reset ∨
      Schedule.Within (D := flash chip.geometry) Reliable schedule ∧
        iapFlag chip after.mem = otaRunApp) :
    (crc32 (bytesAt after.mem flashAppRunAddr) header.comPackOriginalSize).toNat =
      header.comPackOriginalCRC32 := by
  have checked := @wp_main_checked chip uncompress header state fuel verdictIs compressed inRange
  have resetMeets := Prog.run_meets checked (anyFault_within schedule)
  rw [ended] at resetMeets
  rcases runs with reset | ⟨reliable, running⟩
  · exact resetMeets reset
  · have flagMeets := Prog.run_meets (@wp_main_flag chip uncompress header state fuel verdictIs)
      reliable
    rw [ended] at flagMeets
    rcases flagMeets with reset | forced
    · exact resetMeets reset
    · rw [running] at forced
      exact absurd forced (by decide)

/-- The compressed update installs the original image of well-formed streams;
and whatever was staged, a boot of the compressed branch that sets the run flag
has checked the run area against the header. -/
theorem compressed_update_correct (chip : Chip) (uncompress : Uncompress) :
    (∀ ZlibStream : (stream output : List UInt8) → Prop,
      ZlibContract uncompress ZlibStream →
      flashAppRunAddr + otaBinMaxSize ≤ chip.addrAppCopy →
      ∀ (state : State) (original staged : List UInt8),
      CompressedStaged chip ZlibStream state.mem original staged →
      ∃ (final : Mem) (steps : Nat),
        (∀ index < original.length,
          final (flashAppRunAddr + index) = bufferOf original index) ∧
        iapFlag chip final = otaRunApp ∧
        ∀ fuel ≥ steps, BootsTo chip uncompress fuel state final) ∧
    (∀ (state after : State) (fuel : Nat) (schedule rest : FlashSchedule) (result : BootEnd),
      verdict chip state.mem = .update (headerAt chip state.mem) →
      (headerAt chip state.mem).compressFlag = 1 →
      flashAppRunAddr + (headerAt chip state.mem).comPackOriginalSize ≤ chip.addrIapFlag →
      Prog.run (main chip uncompress fuel) schedule (powerUp state) = .done result after rest →
      (result = .reset ∨
        Schedule.Within (D := flash chip.geometry) Reliable schedule ∧
          iapFlag chip after.mem = otaRunApp) →
      (crc32 (bytesAt after.mem flashAppRunAddr)
          (headerAt chip state.mem).comPackOriginalSize).toNat =
        (headerAt chip state.mem).comPackOriginalCRC32) := by
  refine ⟨fun ZlibStream contract disjoint state original staged pending => ?_,
    fun state after fuel schedule rest result verdictIs compressed inRange ended runs =>
      @compressed_boot_checks chip uncompress _ (powerUp state) fuel verdictIs compressed inRange
        schedule rest result after ended runs⟩
  obtain ⟨steps, boots⟩ := unpacked_bootsTo pending.verdict pending.compressed pending.bounded
    (pending.below disjoint) (pending.unpacks contract)
    (by rw [pending.originalCrc, pending.size])
  refine ⟨flagErased chip (installed state.mem (headerAt chip state.mem).comPackOriginalSize
    (bufferOf original)), steps, ?_, iapFlag_erased, boots⟩
  intro index inside
  have runBelow := run_below_info chip
  have infoFlag := info_lt_flag chip
  have fits := pending.sizeFits
  rw [flagErased, overlay_outside _ _ (Or.inl (by omega))]
  exact installed_run (by rw [pending.size]; exact inside)

/-! ## The stream of eight zero bytes -/

/-- The one stream that `zeroUncompress` knows. -/
def IsZeroStream (stream output : List UInt8) : Prop :=
  stream = zeroStream ∧ output = List.replicate 8 0

theorem zeroUncompress_contract : ZlibContract zeroUncompress IsZeroStream := by
  constructor
  · rintro stream output ⟨rfl, rfl⟩
    decide
  · rintro stream output ⟨rfl, rfl⟩ source sourceLen destLen starts available room
    have known : zeroStream.length ≤ sourceLen ∧ 8 ≤ destLen ∧
        ∀ index < zeroStream.length, source index = bufferOf zeroStream index :=
      ⟨available, by simpa using room, starts⟩
    rw [zeroUncompress, if_pos known]
    refine ⟨rfl, rfl, fun index inside => ?_⟩
    rw [bufferOf, List.getD_replicate]
    rwa [List.length_replicate] at inside

/-- Eight zero bytes staged as one compressed pack, with the given check value
of the original. -/
def zeroFlash (originalCrc : List UInt8) : Mem :=
  stagedFlash sampleChip otaUpdateApp
    ([1, 0, 11, 0, 0, 0, 16, 0, 0x3B, 0xFC, 0xF6, 0xB0, 8, 0, 0, 0, 1, 0, 8, 0] ++ originalCrc)
    zeroStream

def zeroSample : Mem := zeroFlash [0x69, 0xDF, 0x22, 0x65]

theorem zeroSample_staged :
    CompressedStaged sampleChip IsZeroStream zeroSample (List.replicate 8 0) zeroStream where
  updating := by decide +kernel
  compressed := by decide +kernel
  total := by decide +kernel
  totalFits := by decide +kernel
  crc := by decide +kernel
  multiple := by decide +kernel
  buffered := by decide +kernel
  size := by decide +kernel
  nonempty := by decide
  sizeFits := by decide
  originalCrc := by decide +kernel
  packed := by
    have pack : (headerAt sampleChip zeroSample).perComPackOriginalSize = 8 := by decide +kernel
    have single := @Packed.cons IsZeroStream 8 (List.replicate 8 0) zeroStream [] [] ⟨rfl, rfl⟩
      (by decide) (by decide) (Or.inl rfl) .nil
    rw [pack]
    simpa using single
  stored := by decide +kernel

theorem compressed_update_correct_sample : ∃ (final : Mem) (steps : Nat),
    (∀ index < 8, final (flashAppRunAddr + index) = bufferOf (List.replicate 8 0) index) ∧
    iapFlag sampleChip final = otaRunApp ∧
    ∀ fuel ≥ steps, BootsTo sampleChip zeroUncompress fuel ⟨zeroSample, true, []⟩ final :=
  (compressed_update_correct sampleChip zeroUncompress).1 IsZeroStream zeroUncompress_contract
    (by decide +kernel) ⟨zeroSample, true, []⟩ _ _ zeroSample_staged

end LedFirmware
