import LedFirmware.IapFlash

/-!
# The bootloader's main function

`main` reads the update flag, checks a staged update, copies or unpacks it into
the run area in up to three attempts, and then jumps to the application, resets
or enters IAP mode.  The labels of the source are the constructors of
`BootEntry`; the decompressor is a parameter.
-/

namespace LedFirmware

open CrashProgram NorFlash

/-- What `uncompress` leaves behind: the output, its length and the number of
source bytes it consumed. -/
structure Uncompressed where
  dest : Nat → UInt8
  destLen : Nat
  sourceLen : Nat

/-- `uncompress`, given the source, the bytes available there and the capacity
of the output buffer.  `main` ignores its status code. -/
abbrev Uncompress := (source : Nat → UInt8) → (sourceLen destLen : Nat) → Uncompressed

/-- The outcome of the checks at the start of `main`. -/
inductive Verdict
  | runApp
  | reject
  | update (header : IapUpdataParam)
  | iap

/-- Where control goes after the flash has been brought up to date. -/
inductive BootEntry
  | jump (stackPointer jumpAddress : Nat)
  | reset
  | otaoe

/-- How `main` ends: in the application, in a reset or in the IAP loop with the
loaded parameters. -/
inductive BootEnd
  | jump (stackPointer jumpAddress : Nat)
  | reset
  | iapLoop (iapParam : IapParam)

section Boot

variable (chip : Chip)

def headerAt (mem : Mem) : IapUpdataParam := IapUpdataParam.read (bytesAt mem chip.addrAppInfo)

/-- Feed `count` blocks from block `i` on to the running CRC. -/
def crcBlocks : (count i : Nat) → UInt32 → FlashProg chip.geometry UInt32
  | 0, _, crc => .done crc
  | count + 1, i, crc =>
      flashRead chip (chip.addrAppCopy + i * flashPageSize) >>= fun checkBuf =>
      crcBlocks count (i + 1) (crc32Update crc checkBuf flashPageSize)

/-- The CRC of the staged image, block by block. -/
def copyCrc (totalSize : Nat) : FlashProg chip.geometry UInt32 :=
  let pageNum := totalSize / flashPageSize
  let pageLeft := totalSize % flashPageSize
  crcBlocks chip pageNum 0 crc32Init >>= fun crc =>
  (if pageLeft ≠ 0 then
      flashRead chip (chip.addrAppCopy + pageNum * flashPageSize) >>= fun checkBuf =>
      .done (crc32Update crc checkBuf pageLeft)
    else .done crc) >>= fun crc => .done (crc32Final crc)

/-- The size and CRC checks of a staged update. -/
def checkUpdate (header : IapUpdataParam) : FlashProg chip.geometry Verdict :=
  if header.updatesTotalSize > otaBinMaxSize then .done .reject
  else
    copyCrc chip header.updatesTotalSize >>= fun crc =>
    if header.updatesCRC32 ≠ crc.toNat then .done .reject else .done (.update header)

def bootChecks : FlashProg chip.geometry Verdict :=
  readIAPMode chip >>= fun flag =>
  if flag = otaRunApp then .done .runApp
  else if flag = otaUpdateApp then
    flashRead chip chip.addrAppInfo >>= fun bytes => checkUpdate chip (IapUpdataParam.read bytes)
  else .done .iap

/-- Copy `count` blocks from block `i` on and feed what reads back to the
running CRC. -/
def copyBlocks : (count i : Nat) → UInt32 → FlashProg chip.geometry UInt32
  | 0, _, crc => .done crc
  | count + 1, i, crc =>
      flashRead chip (chip.addrAppCopy + i * flashPageSize) >>= fun checkBuf =>
      flashWrite chip (flashAppRunAddr + i * flashPageSize) checkBuf flashPageSize >>= fun _ =>
      flashRead chip (flashAppRunAddr + i * flashPageSize) >>= fun checkBuf =>
      copyBlocks count (i + 1) (crc32Update crc checkBuf flashPageSize)

/-- One attempt of the uncompressed branch; the result says whether the copy
verified. -/
def plainAttempt (header : IapUpdataParam) : FlashProg chip.geometry Bool :=
  let pageNum := header.updatesTotalSize / flashPageSize
  let pageLeft := header.updatesTotalSize % flashPageSize
  flashErasePage chip flashAppRunAddr header.updatesTotalSize >>= fun _ =>
  copyBlocks chip pageNum 0 crc32Init >>= fun crc =>
  (if pageLeft ≠ 0 then
      flashRead chip (chip.addrAppCopy + pageNum * flashPageSize) >>= fun checkBuf =>
      flashWrite chip (flashAppRunAddr + pageNum * flashPageSize) checkBuf pageLeft >>= fun _ =>
      flashRead chip (flashAppRunAddr + pageNum * flashPageSize) >>= fun checkBuf =>
      .done (crc32Update crc checkBuf pageLeft)
    else .done crc) >>= fun crc =>
  if header.updatesCRC32 = (crc32Final crc).toNat then
    stamp _ flashAppRunAddr header.updatesTotalSize header.updatesCRC32 >>= fun _ => .done true
  else .done false

/-- The decompress-and-program loop, with an iteration budget; it returns the
number of bytes produced.  The counters are 32 bits wide. -/
def decompressLoop (uncompress : Uncompress) (header : IapUpdataParam) :
    (fuel pSrcData comSizeCnt uncomSizeCnt : Nat) → FlashProg chip.geometry Nat
  | 0, _, _, _ => .spin
  | fuel + 1, pSrcData, comSizeCnt, uncomSizeCnt =>
      if comSizeCnt < header.updatesTotalSize then
        flashRead chip pSrcData >>= fun source =>
        let piece := uncompress source (header.perComPackOriginalSize * 2)
          (header.perComPackOriginalSize * 2)
        flashWrite chip ((flashAppRunAddr + uncomSizeCnt) % 2 ^ 32) piece.dest piece.destLen >>=
        fun _ =>
        decompressLoop uncompress header fuel ((pSrcData + piece.sourceLen) % 2 ^ 32)
          ((comSizeCnt + piece.sourceLen) % 2 ^ 32) ((uncomSizeCnt + piece.destLen) % 2 ^ 32)
      else .done uncomSizeCnt

/-- One attempt of the compressed branch, with the value `pSrcData` has on
entry. -/
def compressedAttempt (uncompress : Uncompress) (fuel : Nat) (header : IapUpdataParam)
    (pSrcData : Nat) : FlashProg chip.geometry Bool :=
  flashErasePage chip flashAppRunAddr header.comPackOriginalSize >>= fun _ =>
  decompressLoop chip uncompress header fuel pSrcData 0 0 >>= fun uncomSizeCnt =>
  flashRead chip flashAppRunAddr >>= fun pSrcData =>
  if header.comPackOriginalCRC32 = (crc32 pSrcData uncomSizeCnt).toNat ∧
      header.comPackOriginalSize = uncomSizeCnt then
    stamp _ flashAppRunAddr header.comPackOriginalSize header.comPackOriginalCRC32 >>= fun _ =>
    .done true
  else .done false

/-- The three attempts.  The compressed branch sets `pSrcData` to the copy area
once; its verification leaves it at the run area, where later attempts start. -/
def attempts (uncompress : Uncompress) (fuel : Nat) (header : IapUpdataParam) :
    List (FlashProg chip.geometry Bool) :=
  if header.compressFlag = 1 then
    [compressedAttempt chip uncompress fuel header chip.addrAppCopy,
      compressedAttempt chip uncompress fuel header flashAppRunAddr,
      compressedAttempt chip uncompress fuel header flashAppRunAddr]
  else List.replicate 3 (plainAttempt chip header)

def updateAttempts : List (FlashProg chip.geometry Bool) → FlashProg chip.geometry BootEntry
  | [] => setLock _ true >>= fun _ => forceUpdateAppMode chip >>= fun _ => .done .otaoe
  | attempt :: later =>
      attempt >>= fun verified =>
      if verified then setLock _ true >>= fun _ => runAppMode chip >>= fun _ => .done .reset
      else updateAttempts later

/-- From the label `RunAPP` on. -/
def runAPP : FlashProg chip.geometry BootEntry :=
  flashRead chip flashAppRunAddr >>= fun run =>
  if field run 0 4 &&& 0x2FFE0000 = 0x20000000 then .done (.jump (field run 0 4) (field run 4 4))
  else forceUpdateAppMode chip >>= fun _ => .done .otaoe

def enter (uncompress : Uncompress) (fuel : Nat) : Verdict → FlashProg chip.geometry BootEntry
  | .runApp => runAPP chip
  | .reject => runAppMode chip >>= fun _ => runAPP chip
  | .update header =>
      setLock _ false >>= fun _ => updateAttempts chip (attempts chip uncompress fuel header)
  | .iap => .done .otaoe

/-- `main` up to the jump, the reset or the label `OTAoE`. -/
def bootEntry (uncompress : Uncompress) (fuel : Nat) : FlashProg chip.geometry BootEntry :=
  bootChecks chip >>= enter chip uncompress fuel

def main (uncompress : Uncompress) (fuel : Nat) : FlashProg chip.geometry BootEnd :=
  bootEntry chip uncompress fuel >>= fun entry =>
  match entry with
  | .jump stackPointer jumpAddress => .done (.jump stackPointer jumpAddress)
  | .reset => .done .reset
  | .otaoe => iapParamLoad chip >>= fun iapParam => .done (.iapLoop iapParam)

/-- The state in which the processor starts after a reset or a power loss. -/
def powerUp (state : State) : State := { state with locked := true }

/-! ## The checks -/

/-- The header's size and CRC accept the staged image. -/
def GateAccepts (mem : Mem) (header : IapUpdataParam) : Prop :=
  header.updatesTotalSize ≤ otaBinMaxSize ∧
    header.updatesCRC32 =
      (crc32 (bytesAt mem chip.addrAppCopy) header.updatesTotalSize).toNat

instance (mem : Mem) (header : IapUpdataParam) : Decidable (GateAccepts chip mem header) :=
  inferInstanceAs (Decidable (_ ∧ _))

/-- The verdict as a function of the memory. -/
def verdict (mem : Mem) : Verdict :=
  if iapFlag chip mem = otaRunApp then .runApp
  else if iapFlag chip mem = otaUpdateApp then
    if GateAccepts chip mem (headerAt chip mem) then .update (headerAt chip mem) else .reject
  else .iap

end Boot

variable {chip : Chip} {mem : Mem}

theorem returns_crcBlocks (count i : Nat) (crc : UInt32) :
    Returns (crcBlocks chip count i crc) mem
      (crc32Update crc (bytesAt mem (chip.addrAppCopy + i * flashPageSize))
        (count * flashPageSize)) := by
  induction count generalizing i crc with
  | zero => simpa [crcBlocks, crc32Update] using Returns.done crc
  | succ count ih =>
      refine (returns_flashRead _).bind ?_
      have rest := ih (i + 1) (crc32Update crc
        (bytesAt mem (chip.addrAppCopy + i * flashPageSize)) flashPageSize)
      have shifted : bytesAt mem (chip.addrAppCopy + (i + 1) * flashPageSize) =
          fun index => bytesAt mem (chip.addrAppCopy + i * flashPageSize)
            (flashPageSize + index) := by
        funext index
        simp only [bytesAt, Nat.add_mul, Nat.one_mul, Nat.add_assoc]
      rw [shifted, crc32Update_append] at rest
      rw [Nat.add_mul, Nat.one_mul, Nat.add_comm (count * flashPageSize)]
      exact rest

/-- The block-wise CRC is the CRC of the whole image. -/
theorem returns_copyCrc (totalSize : Nat) :
    Returns (copyCrc chip totalSize) mem (crc32 (bytesAt mem chip.addrAppCopy) totalSize) := by
  have split := Nat.div_add_mod' totalSize flashPageSize
  have blocks := @returns_crcBlocks chip mem (totalSize / flashPageSize) 0 crc32Init
  rw [Nat.zero_mul, Nat.add_zero] at blocks
  refine blocks.bind ?_
  by_cases whole : totalSize % flashPageSize = 0
  · rw [if_neg (by omega)]
    rw [whole, Nat.add_zero] at split
    rw [split]
    exact (Returns.done _).bind (.done _)
  · rw [if_pos whole]
    have tail : Returns (flashRead chip
          (chip.addrAppCopy + totalSize / flashPageSize * flashPageSize) >>= fun checkBuf =>
        .done (crc32Update (crc32Update crc32Init (bytesAt mem chip.addrAppCopy)
          (totalSize / flashPageSize * flashPageSize)) checkBuf (totalSize % flashPageSize))) mem
        _ := (returns_flashRead _).bind (.done _)
    refine tail.bind ?_
    have last : crc32Update (crc32Update crc32Init (bytesAt mem chip.addrAppCopy)
          (totalSize / flashPageSize * flashPageSize))
        (bytesAt mem (chip.addrAppCopy + totalSize / flashPageSize * flashPageSize))
        (totalSize % flashPageSize) =
        crc32Update crc32Init (bytesAt mem chip.addrAppCopy) totalSize := by
      conv_rhs => rw [← split]
      rw [← crc32Update_append]
      exact crc32Update_congr fun index _ => by simp only [bytesAt, Nat.add_assoc]
    rw [last]
    exact .done _

theorem returns_checkUpdate (header : IapUpdataParam) :
    Returns (checkUpdate chip header) mem
      (if GateAccepts chip mem header then .update header else .reject) := by
  rw [checkUpdate]
  by_cases oversize : header.updatesTotalSize > otaBinMaxSize
  · have refused : ¬ GateAccepts chip mem header := fun accepted => by
      have := accepted.1
      omega
    rw [if_pos oversize, if_neg refused]
    exact .done _
  · rw [if_neg oversize]
    refine (returns_copyCrc header.updatesTotalSize).bind ?_
    by_cases accepted : GateAccepts chip mem header
    · rw [if_pos accepted, if_neg (not_not.mpr accepted.2)]
      exact .done _
    · rw [if_neg accepted, if_pos fun same => accepted ⟨by omega, same⟩]
      exact .done _

theorem returns_bootChecks : Returns (bootChecks chip) mem (verdict chip mem) := by
  refine returns_readIAPMode.bind ?_
  rw [verdict]
  by_cases running : iapFlag chip mem = otaRunApp
  · rw [if_pos running, if_pos running]
    exact .done _
  · rw [if_neg running, if_neg running]
    by_cases updating : iapFlag chip mem = otaUpdateApp
    · rw [if_pos updating, if_pos updating]
      exact (returns_flashRead _).bind (returns_checkUpdate (headerAt chip mem))
    · rw [if_neg updating, if_neg updating]
      exact .done _

/-! ## A small update -/

/-- An erased flash with an update flag, a header and a staged image. -/
def stagedFlash (chip : Chip) (flag : Nat) (header staged : List UInt8) : Mem :=
  overlay chip.addrIapFlag 8 (LittleEndian.byte flag)
    (overlay chip.addrAppInfo header.length (bufferOf header)
      (overlay chip.addrAppCopy staged.length (bufferOf staged) fun _ => erasedByte))

/-- Eight zero bytes as a zlib stream. -/
def zeroStream : List UInt8 :=
  [0x78, 0x9C, 0x63, 0x60, 0x80, 0x00, 0x00, 0x00, 0x08, 0x00, 0x01]

/-- A decompressor that knows this stream only and gives up behind the two
header bytes of any other. -/
def zeroUncompress : Uncompress := fun source sourceLen destLen =>
  if zeroStream.length ≤ sourceLen ∧ 8 ≤ destLen ∧
      ∀ index < zeroStream.length, source index = bufferOf zeroStream index then
    ⟨fun _ => 0, 8, zeroStream.length⟩
  else ⟨fun _ => 0, 0, min 2 sourceLen⟩

end LedFirmware
