import LedFirmware.CellBlocks
import LedFirmware.LittleEndian

/-!
# The kernel's memory functions

`rt_memset` and `rt_memcpy` work on words where the addresses are aligned and on bytes for
the rest.  Both have the effect of their loops over bytes.
-/

namespace LedFirmware

/-- Whether an address is not a multiple of the word size. -/
def unaligned (addr : Nat) : Bool := addr % 4 ≠ 0

def storeWord (addr : Nat) (word : UInt32) (mem : Nat → UInt8) : Nat → UInt8 :=
  Cells.store addr 4 (LittleEndian.byte word.toNat) mem

def loadWord (addr : Nat) (mem : Nat → UInt8) : UInt32 :=
  UInt32.ofNat (LittleEndian.value 4 fun index => mem (addr + index))

/-! ### `rt_memset` -/

def memsetBlocks (buffer : UInt32) (mem : Nat → UInt8) (addr count : Nat) :
    (Nat → UInt8) × Nat × Nat :=
  if 16 ≤ count then
    let mem := storeWord addr buffer mem
    let mem := storeWord (addr + 4) buffer mem
    let mem := storeWord (addr + 8) buffer mem
    let mem := storeWord (addr + 12) buffer mem
    memsetBlocks buffer mem (addr + 16) (count - 16)
  else (mem, addr, count)
termination_by count

def memsetWords (buffer : UInt32) (mem : Nat → UInt8) (addr count : Nat) :
    (Nat → UInt8) × Nat × Nat :=
  if 4 ≤ count then memsetWords buffer (storeWord addr buffer mem) (addr + 4) (count - 4)
  else (mem, addr, count)
termination_by count

def memsetBytes (d : UInt8) : (Nat → UInt8) → (addr count : Nat) → Nat → UInt8
  | mem, _, 0 => mem
  | mem, addr, count + 1 => memsetBytes d (Function.update mem addr d) (addr + 1) count

def rtMemset (mem : Nat → UInt8) (s : Nat) (c : UInt8) (count : Nat) : Nat → UInt8 :=
  if ¬ count < 4 ∧ ¬ unaligned s then
    let d := c.toUInt32
    let buffer := (d <<< 8) ||| d
    let buffer := buffer ||| (buffer <<< 16)
    let (mem, addr, count) := memsetBlocks buffer mem s count
    let (mem, addr, count) := memsetWords buffer mem addr count
    memsetBytes c mem addr count
  else memsetBytes c mem s count

/-! ### `rt_memcpy` -/

def memcpyBlocks (mem : Nat → UInt8) (dst src len : Nat) : (Nat → UInt8) × Nat × Nat × Nat :=
  if 16 ≤ len then
    let mem := storeWord dst (loadWord src mem) mem
    let mem := storeWord (dst + 4) (loadWord (src + 4) mem) mem
    let mem := storeWord (dst + 8) (loadWord (src + 8) mem) mem
    let mem := storeWord (dst + 12) (loadWord (src + 12) mem) mem
    memcpyBlocks mem (dst + 16) (src + 16) (len - 16)
  else (mem, dst, src, len)
termination_by len

def memcpyWords (mem : Nat → UInt8) (dst src len : Nat) : (Nat → UInt8) × Nat × Nat × Nat :=
  if 4 ≤ len then
    memcpyWords (storeWord dst (loadWord src mem) mem) (dst + 4) (src + 4) (len - 4)
  else (mem, dst, src, len)
termination_by len

def rtMemcpy (mem : Nat → UInt8) (dst src count : Nat) : Nat → UInt8 :=
  if ¬ count < 16 ∧ ¬ (unaligned src || unaligned dst) then
    let (mem, dst, src, len) := memcpyBlocks mem dst src count
    let (mem, dst, src, len) := memcpyWords mem dst src len
    Cells.copy len dst src mem
  else Cells.copy count dst src mem

/-! ### The words are their bytes -/

variable {mem : Nat → UInt8} {addr dst src count : Nat}

/-- The word of four equal bytes. -/
theorem byte_buffer : ∀ c : UInt8, ∀ index < 4,
    LittleEndian.byte (((c.toUInt32 <<< 8) ||| c.toUInt32) |||
      (((c.toUInt32 <<< 8) ||| c.toUInt32) <<< 16)).toNat index = c := by
  apply LittleEndian.forall_byte
  decide +kernel

theorem storeWord_loadWord (apart : dst = src ∨ dst + 4 ≤ src ∨ src + 4 ≤ dst) :
    storeWord dst (loadWord src mem) mem = Cells.copy 4 dst src mem := by
  rw [← Cells.store_eq_copy apart]
  funext place
  simp only [storeWord, Cells.store]
  by_cases inside : dst ≤ place ∧ place < dst + 4
  · rw [if_pos inside, if_pos inside, loadWord,
      UInt32.toNat_ofNat_of_lt' (LittleEndian.value_lt 4 _),
      LittleEndian.byte_value _ (by omega)]
  · rw [if_neg inside, if_neg inside]

/-- Addresses of words are equal or a word apart. -/
theorem words_apart (alignedDst : dst % 4 = 0) (alignedSrc : src % 4 = 0) :
    dst = src ∨ dst + 4 ≤ src ∨ src + 4 ≤ dst := by
  omega

/-! ### The loops -/

section

variable {c : UInt8} {buffer : UInt32}
  (repeated : ∀ index < 4, LittleEndian.byte buffer.toNat index = c)

include repeated

theorem storeWord_buffer : storeWord addr buffer mem = Cells.fill addr 4 c mem :=
  Cells.store_eq_fill repeated

theorem memsetBlocks_eq (addr count : Nat) (mem : Nat → UInt8) :
    ∃ done ≤ count, memsetBlocks buffer mem addr count =
      (Cells.fill addr done c mem, addr + done, count - done) := by
  induction count using Nat.strong_induction_on generalizing addr mem with
  | _ count ih =>
  rw [memsetBlocks]
  by_cases more : 16 ≤ count
  · obtain ⟨done, inside, rest⟩ := ih (count - 16) (by omega) (addr + 16)
      (Cells.fill addr 16 c mem)
    refine ⟨16 + done, by omega, ?_⟩
    simp only [if_pos more, storeWord_buffer repeated, Cells.fill_fill, Nat.reduceAdd, rest,
      Nat.add_assoc, Nat.sub_sub]
  · exact ⟨0, Nat.zero_le _, by rw [if_neg more, Cells.fill_zero]; rfl⟩

theorem memsetWords_eq (addr count : Nat) (mem : Nat → UInt8) :
    ∃ done ≤ count, memsetWords buffer mem addr count =
      (Cells.fill addr done c mem, addr + done, count - done) := by
  induction count using Nat.strong_induction_on generalizing addr mem with
  | _ count ih =>
  rw [memsetWords]
  by_cases more : 4 ≤ count
  · obtain ⟨done, inside, rest⟩ := ih (count - 4) (by omega) (addr + 4) (Cells.fill addr 4 c mem)
    refine ⟨4 + done, by omega, ?_⟩
    rw [if_pos more, storeWord_buffer repeated, rest, Cells.fill_fill, Nat.add_assoc, Nat.sub_sub]
  · exact ⟨0, Nat.zero_le _, by rw [if_neg more, Cells.fill_zero]; rfl⟩

end

theorem memsetBytes_eq (d : UInt8) (addr count : Nat) (mem : Nat → UInt8) :
    memsetBytes d mem addr count = Cells.fill addr count d mem := by
  induction count generalizing addr mem with
  | zero => rw [memsetBytes, Cells.fill_zero]
  | succ count ih =>
      have first : Function.update mem addr d = Cells.fill addr 1 d mem := by
        funext place
        by_cases here : place = addr
        · rw [here, Function.update_self, Cells.fill, if_pos (by omega)]
        · rw [Function.update_of_ne here, Cells.fill, if_neg (by omega)]
      rw [memsetBytes, ih, first, Cells.fill_fill, Nat.add_comm]

/-- `rt_memset` fills the block. -/
theorem rtMemset_eq (mem : Nat → UInt8) (s : Nat) (c : UInt8) (count : Nat) :
    rtMemset mem s c count = Cells.fill s count c mem := by
  rw [rtMemset]
  split
  · obtain ⟨blocks, inside, inBlocks⟩ := memsetBlocks_eq (byte_buffer c) s count mem
    obtain ⟨words, inside', inWords⟩ := memsetWords_eq (byte_buffer c) (s + blocks)
      (count - blocks) (Cells.fill s blocks c mem)
    simp only [inBlocks, inWords, memsetBytes_eq, Cells.fill_fill, Nat.add_assoc]
    congr 1
    omega
  · exact memsetBytes_eq c s count mem

theorem memcpyBlocks_eq (alignedDst : dst % 4 = 0) (alignedSrc : src % 4 = 0) (len : Nat)
    (mem : Nat → UInt8) :
    ∃ done ≤ len, done % 4 = 0 ∧ memcpyBlocks mem dst src len =
      (Cells.copy done dst src mem, dst + done, src + done, len - done) := by
  induction len using Nat.strong_induction_on generalizing dst src mem with
  | _ len ih =>
  rw [memcpyBlocks]
  by_cases more : 16 ≤ len
  · obtain ⟨done, inside, whole, rest⟩ := ih (len - 16) (by omega)
      (by omega : (dst + 16) % 4 = 0) (by omega : (src + 16) % 4 = 0)
      (Cells.copy 16 dst src mem)
    have word {offset : Nat} (mem : Nat → UInt8) :
        storeWord (dst + offset) (loadWord (src + offset) mem) mem =
          Cells.copy 4 (dst + offset) (src + offset) mem :=
      storeWord_loadWord (by omega)
    have block : Cells.copy 4 (dst + 12) (src + 12) (Cells.copy 4 (dst + 8) (src + 8)
        (Cells.copy 4 (dst + 4) (src + 4) (Cells.copy 4 dst src mem))) =
          Cells.copy 16 dst src mem := by
      rw [← Cells.copy_add 4 4 dst src, ← Cells.copy_add 8 4 dst src, ← Cells.copy_add 12 4 dst src]
    refine ⟨16 + done, by omega, by omega, ?_⟩
    simp only [if_pos more, word, storeWord_loadWord (words_apart alignedDst alignedSrc), block,
      rest, Cells.copy_add 16, Nat.add_assoc, Nat.sub_sub]
  · exact ⟨0, Nat.zero_le _, rfl, by rw [if_neg more]; rfl⟩

theorem memcpyWords_eq (alignedDst : dst % 4 = 0) (alignedSrc : src % 4 = 0) (len : Nat)
    (mem : Nat → UInt8) :
    ∃ done ≤ len, memcpyWords mem dst src len =
      (Cells.copy done dst src mem, dst + done, src + done, len - done) := by
  induction len using Nat.strong_induction_on generalizing dst src mem with
  | _ len ih =>
  rw [memcpyWords]
  by_cases more : 4 ≤ len
  · obtain ⟨done, inside, rest⟩ := ih (len - 4) (by omega) (by omega : (dst + 4) % 4 = 0)
      (by omega : (src + 4) % 4 = 0) (Cells.copy 4 dst src mem)
    refine ⟨4 + done, by omega, ?_⟩
    rw [if_pos more, storeWord_loadWord (words_apart alignedDst alignedSrc), rest,
      Cells.copy_add, Nat.add_assoc, Nat.add_assoc, Nat.sub_sub]
  · exact ⟨0, Nat.zero_le _, by rw [if_neg more]; rfl⟩

/-- `rt_memcpy` copies byte by byte upwards, also where it moves words. -/
theorem rtMemcpy_eq (mem : Nat → UInt8) (dst src count : Nat) :
    rtMemcpy mem dst src count = Cells.copy count dst src mem := by
  rw [rtMemcpy]
  split
  · rename_i words
    simp only [unaligned, Bool.or_eq_true, decide_eq_true_eq, not_or, not_not] at words
    obtain ⟨blocks, inside, whole, inBlocks⟩ :=
      memcpyBlocks_eq words.2.2 words.2.1 count mem
    obtain ⟨rest, inside', inWords⟩ := memcpyWords_eq (by omega : (dst + blocks) % 4 = 0)
      (by omega : (src + blocks) % 4 = 0) (count - blocks) (Cells.copy blocks dst src mem)
    simp only [inBlocks, inWords]
    rw [← Cells.copy_add blocks rest dst src, Nat.add_assoc dst, Nat.add_assoc src,
      ← Cells.copy_add (blocks + rest) _ dst src]
    congr 1
    omega
  · rfl

end LedFirmware
