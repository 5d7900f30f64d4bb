import LedFirmware.IapBoot
import LedFirmware.ReflectedCrc

/-!
# The table computes the bitwise CRC-32

Each table entry is the remainder of its index, so an update feeds its bytes bit by
bit, and in whatever chunks.
-/

namespace LedFirmware

open CrashProgram NorFlash ReflectedCrc

/-- The reflected polynomial of the CRC-32. -/
def crc32Poly : BitVec 32 := 0xEDB88320

/-- The bitwise reflected CRC-32. -/
def crc32Bitwise (bytes : List UInt8) : UInt32 :=
  ⟨remainder crc32Poly 0xFFFFFFFF bytes ^^^ 0xFFFFFFFF⟩

theorem crc32Table_eq_map : crc32Table =
    (List.range 256).map fun index => ⟨shifts crc32Poly 8 (BitVec.ofNat 32 index)⟩ := by
  decide +kernel

theorem crc32Table_getD (index : BitVec 8) :
    (crc32Table.getD index.toNat 0).toBitVec = shifts crc32Poly 8 (index.setWidth 32) := by
  have inside : index.toNat < 256 := index.isLt
  have same : BitVec.ofNat 32 index.toNat = index.setWidth 32 :=
    BitVec.ofNat_toNat 32 index
  simp [crc32Table_eq_map, inside, same]

theorem crc32Step_toBitVec (crc : UInt32) (data : UInt8) :
    (crc32Step crc data).toBitVec = feed crc32Poly crc.toBitVec data := by
  have entry := crc32Table_getD (crc.toUInt8 ^^^ data).toBitVec
  have down : (crc >>> 8).toBitVec = crc.toBitVec >>> 8 := UInt32.toBitVec_shiftRight crc 8
  have low : (crc.toUInt8 ^^^ data).toBitVec = crc.toBitVec.setWidth 8 ^^^ data.toBitVec := rfl
  rw [low] at entry
  rw [feed_eq_table, crc32Step, UInt32.toBitVec_xor, down, BitVec.xor_comm, ← entry]
  rfl

theorem crc32Update_toBitVec (crc : UInt32) (bytes : List UInt8) :
    (crc32Update crc (bufferOf bytes) bytes.length).toBitVec =
      remainder crc32Poly crc.toBitVec bytes := by
  induction bytes generalizing crc with
  | nil => rfl
  | cons byte bytes ih =>
      have step := ih (crc32Step crc byte)
      rw [crc32Step_toBitVec] at step
      exact step

/-- Feeding chunks in turn. -/
theorem crc32Update_chunks (crc : UInt32) (chunks : List (List UInt8)) :
    (chunks.foldl (fun crc chunk => crc32Update crc (bufferOf chunk) chunk.length) crc).toBitVec =
      remainder crc32Poly crc.toBitVec chunks.flatten := by
  rw [remainder_flatten]
  induction chunks generalizing crc with
  | nil => rfl
  | cons chunk chunks ih =>
      rw [List.foldl_cons, List.foldl_cons, ih, crc32Update_toBitVec]

/-- The one-shot check value of a buffer is the bitwise one of its bytes. -/
theorem crc32_eq_bitwise (data : Nat → UInt8) (len : Nat) :
    crc32 data len = crc32Bitwise ((List.range len).map data) := by
  have same : crc32 data len =
      crc32 (bufferOf ((List.range len).map data)) ((List.range len).map data).length := by
    rw [List.length_map, List.length_range]
    apply crc32_congr
    intro index inside
    simp [bufferOf, inside]
  rw [same]
  apply UInt32.toBitVec_inj.mp
  rw [crc32, crc32Final, UInt32.toBitVec_xor, crc32Update_toBitVec]
  rfl

/-- However the bytes are cut into chunks, the check value is the bitwise one of all of
them, and that is what the bootloader computes of an image block by block. -/
theorem crc32_chunks (chunks : List (List UInt8)) :
    crc32Final (chunks.foldl (fun crc chunk => crc32Update crc (bufferOf chunk) chunk.length)
        crc32Init) = crc32Bitwise chunks.flatten ∧
      ∀ (chip : Chip) (mem : Mem) (totalSize : Nat),
        Returns (copyCrc chip totalSize) mem
            (crc32Bitwise ((List.range totalSize).map (bytesAt mem chip.addrAppCopy))) ∧
          crc32 (bytesAt mem chip.addrAppCopy) totalSize =
            crc32Bitwise ((List.range totalSize).map (bytesAt mem chip.addrAppCopy)) := by
  refine ⟨?_, fun chip mem totalSize => ⟨?_, crc32_eq_bitwise _ _⟩⟩
  · apply UInt32.toBitVec_inj.mp
    rw [crc32Final, UInt32.toBitVec_xor, crc32Update_chunks]
    rfl
  · rw [← crc32_eq_bitwise]
    exact returns_copyCrc totalSize

-- The check value of the digits one to nine.
example : crc32Bitwise [0x31, 0x32, 0x33, 0x34, 0x35, 0x36, 0x37, 0x38, 0x39] = 0xCBF43926 := by
  decide +kernel

end LedFirmware
