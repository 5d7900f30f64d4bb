import Mathlib.Data.Nat.Bitwise
import Mathlib.Tactic.Ring

/-!
# The table-driven CRC-32

`CRC32_Init`, `CRC32_Update` and `CRC32_Final` with their table.  A buffer is a
function from positions to bytes, and the update takes a length, so that the
check value of a flash range is that of the memory shifted to its start.
-/

namespace LedFirmware

def crc32Table : List UInt32 :=
  [0x00000000, 0x77073096, 0xEE0E612C, 0x990951BA, 0x076DC419, 0x706AF48F, 0xE963A535, 0x9E6495A3,
   0x0EDB8832, 0x79DCB8A4, 0xE0D5E91E, 0x97D2D988, 0x09B64C2B, 0x7EB17CBD, 0xE7B82D07, 0x90BF1D91,
   0x1DB71064, 0x6AB020F2, 0xF3B97148, 0x84BE41DE, 0x1ADAD47D, 0x6DDDE4EB, 0xF4D4B551, 0x83D385C7,
   0x136C9856, 0x646BA8C0, 0xFD62F97A, 0x8A65C9EC, 0x14015C4F, 0x63066CD9, 0xFA0F3D63, 0x8D080DF5,
   0x3B6E20C8, 0x4C69105E, 0xD56041E4, 0xA2677172, 0x3C03E4D1, 0x4B04D447, 0xD20D85FD, 0xA50AB56B,
   0x35B5A8FA, 0x42B2986C, 0xDBBBC9D6, 0xACBCF940, 0x32D86CE3, 0x45DF5C75, 0xDCD60DCF, 0xABD13D59,
   0x26D930AC, 0x51DE003A, 0xC8D75180, 0xBFD06116, 0x21B4F4B5, 0x56B3C423, 0xCFBA9599, 0xB8BDA50F,
   0x2802B89E, 0x5F058808, 0xC60CD9B2, 0xB10BE924, 0x2F6F7C87, 0x58684C11, 0xC1611DAB, 0xB6662D3D,
   0x76DC4190, 0x01DB7106, 0x98D220BC, 0xEFD5102A, 0x71B18589, 0x06B6B51F, 0x9FBFE4A5, 0xE8B8D433,
   0x7807C9A2, 0x0F00F934, 0x9609A88E, 0xE10E9818, 0x7F6A0DBB, 0x086D3D2D, 0x91646C97, 0xE6635C01,
   0x6B6B51F4, 0x1C6C6162, 0x856530D8, 0xF262004E, 0x6C0695ED, 0x1B01A57B, 0x8208F4C1, 0xF50FC457,
   0x65B0D9C6, 0x12B7E950, 0x8BBEB8EA, 0xFCB9887C, 0x62DD1DDF, 0x15DA2D49, 0x8CD37CF3, 0xFBD44C65,
   0x4DB26158, 0x3AB551CE, 0xA3BC0074, 0xD4BB30E2, 0x4ADFA541, 0x3DD895D7, 0xA4D1C46D, 0xD3D6F4FB,
   0x4369E96A, 0x346ED9FC, 0xAD678846, 0xDA60B8D0, 0x44042D73, 0x33031DE5, 0xAA0A4C5F, 0xDD0D7CC9,
   0x5005713C, 0x270241AA, 0xBE0B1010, 0xC90C2086, 0x5768B525, 0x206F85B3, 0xB966D409, 0xCE61E49F,
   0x5EDEF90E, 0x29D9C998, 0xB0D09822, 0xC7D7A8B4, 0x59B33D17, 0x2EB40D81, 0xB7BD5C3B, 0xC0BA6CAD,
   0xEDB88320, 0x9ABFB3B6, 0x03B6E20C, 0x74B1D29A, 0xEAD54739, 0x9DD277AF, 0x04DB2615, 0x73DC1683,
   0xE3630B12, 0x94643B84, 0x0D6D6A3E, 0x7A6A5AA8, 0xE40ECF0B, 0x9309FF9D, 0x0A00AE27, 0x7D079EB1,
   0xF00F9344, 0x8708A3D2, 0x1E01F268, 0x6906C2FE, 0xF762575D, 0x806567CB, 0x196C3671, 0x6E6B06E7,
   0xFED41B76, 0x89D32BE0, 0x10DA7A5A, 0x67DD4ACC, 0xF9B9DF6F, 0x8EBEEFF9, 0x17B7BE43, 0x60B08ED5,
   0xD6D6A3E8, 0xA1D1937E, 0x38D8C2C4, 0x4FDFF252, 0xD1BB67F1, 0xA6BC5767, 0x3FB506DD, 0x48B2364B,
   0xD80D2BDA, 0xAF0A1B4C, 0x36034AF6, 0x41047A60, 0xDF60EFC3, 0xA867DF55, 0x316E8EEF, 0x4669BE79,
   0xCB61B38C, 0xBC66831A, 0x256FD2A0, 0x5268E236, 0xCC0C7795, 0xBB0B4703, 0x220216B9, 0x5505262F,
   0xC5BA3BBE, 0xB2BD0B28, 0x2BB45A92, 0x5CB36A04, 0xC2D7FFA7, 0xB5D0CF31, 0x2CD99E8B, 0x5BDEAE1D,
   0x9B64C2B0, 0xEC63F226, 0x756AA39C, 0x026D930A, 0x9C0906A9, 0xEB0E363F, 0x72076785, 0x05005713,
   0x95BF4A82, 0xE2B87A14, 0x7BB12BAE, 0x0CB61B38, 0x92D28E9B, 0xE5D5BE0D, 0x7CDCEFB7, 0x0BDBDF21,
   0x86D3D2D4, 0xF1D4E242, 0x68DDB3F8, 0x1FDA836E, 0x81BE16CD, 0xF6B9265B, 0x6FB077E1, 0x18B74777,
   0x88085AE6, 0xFF0F6A70, 0x66063BCA, 0x11010B5C, 0x8F659EFF, 0xF862AE69, 0x616BFFD3, 0x166CCF45,
   0xA00AE278, 0xD70DD2EE, 0x4E048354, 0x3903B3C2, 0xA7672661, 0xD06016F7, 0x4969474D, 0x3E6E77DB,
   0xAED16A4A, 0xD9D65ADC, 0x40DF0B66, 0x37D83BF0, 0xA9BCAE53, 0xDEBB9EC5, 0x47B2CF7F, 0x30B5FFE9,
   0xBDBDF21C, 0xCABAC28A, 0x53B39330, 0x24B4A3A6, 0xBAD03605, 0xCDD70693, 0x54DE5729, 0x23D967BF,
   0xB3667A2E, 0xC4614AB8, 0x5D681B02, 0x2A6F2B94, 0xB40BBE37, 0xC30C8EA1, 0x5A05DF1B, 0x2D02EF8D]

def crc32Init : UInt32 := 0xFFFFFFFF

/-- One iteration of `CRC32_Update`. -/
def crc32Step (crc : UInt32) (data : UInt8) : UInt32 :=
  crc >>> 8 ^^^ crc32Table.getD (crc.toUInt8 ^^^ data).toNat 0

def crc32Update : (crc : UInt32) → (data : Nat → UInt8) → (len : Nat) → UInt32
  | crc, _, 0 => crc
  | crc, data, len + 1 => crc32Update (crc32Step crc (data 0)) (fun index => data (index + 1)) len

def crc32Final (crc : UInt32) : UInt32 := crc ^^^ 0xFFFFFFFF

/-- The check value of the first `len` bytes. -/
def crc32 (data : Nat → UInt8) (len : Nat) : UInt32 :=
  crc32Final (crc32Update crc32Init data len)

theorem crc32Update_congr {crc : UInt32} {first second : Nat → UInt8} {len : Nat}
    (same : ∀ index < len, first index = second index) :
    crc32Update crc first len = crc32Update crc second len := by
  induction len generalizing crc first second with
  | zero => rfl
  | succ len ih =>
      rw [crc32Update, crc32Update, same 0 (by omega)]
      exact ih fun index inside => same (index + 1) (by omega)

theorem crc32_congr {first second : Nat → UInt8} {len : Nat}
    (same : ∀ index < len, first index = second index) : crc32 first len = crc32 second len :=
  congrArg crc32Final (crc32Update_congr same)

/-- Feeding a buffer in two parts is feeding it whole. -/
theorem crc32Update_append (crc : UInt32) (data : Nat → UInt8) (first second : Nat) :
    crc32Update (crc32Update crc data first) (fun index => data (first + index)) second =
      crc32Update crc data (first + second) := by
  induction first generalizing crc data with
  | zero => simp [crc32Update]
  | succ first ih =>
      rw [show first + 1 + second = first + second + 1 by omega, crc32Update, crc32Update,
        ← ih]
      exact crc32Update_congr fun index _ => by
        rw [show first + 1 + index = first + index + 1 by omega]

/-! ## Different data, different check value -/

/-- The index of each table entry, in the byte whose number is the top byte of the entry. -/
def crc32Indices : Nat :=
  (crc32Table.zipIdx.map fun (entry, index) => index <<< (8 * (entry.toNat >>> 24))).sum

theorem crc32Table_length : crc32Table.length = 256 := by decide +kernel

theorem crc32Table_indices : (crc32Table.map fun entry =>
    crc32Indices >>> (8 * (entry.toNat >>> 24)) % 256) = List.range 256 := by decide +kernel

/-- The top byte of a table entry determines its index. -/
theorem crc32Table_top {index : Nat} (inside : index < 256) :
    crc32Indices >>> (8 * ((crc32Table.getD index 0).toNat >>> 24)) % 256 = index := by
  have bound : index < crc32Table.length := crc32Table_length ▸ inside
  have entries := congrArg (fun indices : List Nat => indices[index]?) crc32Table_indices
  simp only [List.getElem?_map, List.getElem?_eq_getElem bound, Option.map_some,
    List.getElem?_range inside, Option.some.injEq] at entries
  rw [List.getD_eq_getElem _ _ bound, entries]

/-- An update step determines the table index and the shifted remainder. -/
theorem crc32Step_eq {first second : UInt32} {one other : UInt8}
    (same : crc32Step first one = crc32Step second other) :
    first.toUInt8 ^^^ one = second.toUInt8 ^^^ other ∧ first >>> 8 = second >>> 8 := by
  have tops := congrArg (fun crc : UInt32 => crc.toNat >>> 24) same
  have shiftedOut (crc : UInt32) : crc.toNat >>> 8 >>> 24 = 0 := by
    have bound := crc.toNat_lt
    rw [← Nat.shiftRight_add, Nat.shiftRight_eq_div_pow]
    omega
  simp only [crc32Step, UInt32.toNat_xor, UInt32.toNat_shiftRight, Nat.shiftRight_xor_distrib]
    at tops
  simp only [show (8 : UInt32).toNat % 32 = 8 from rfl, shiftedOut, Nat.zero_xor] at tops
  have firstIndex := crc32Table_top (first.toUInt8 ^^^ one).toNat_lt
  have secondIndex := crc32Table_top (second.toUInt8 ^^^ other).toNat_lt
  have index : first.toUInt8 ^^^ one = second.toUInt8 ^^^ other := by
    apply UInt8.toNat_inj.mp
    rw [← firstIndex, tops, secondIndex]
  refine ⟨index, ?_⟩
  rw [crc32Step, crc32Step, index] at same
  exact UInt32.xor_left_inj _ |>.mp same

theorem crc32Step_injective (data : UInt8) {first second : UInt32}
    (same : crc32Step first data = crc32Step second data) : first = second := by
  obtain ⟨low, high⟩ := crc32Step_eq same
  have lowEq := congrArg UInt8.toNat ((UInt8.xor_left_inj data).mp low)
  have highEq := congrArg UInt32.toNat high
  simp only [UInt32.toNat_shiftRight, UInt32.toNat_toUInt8, Nat.shiftRight_eq_div_pow,
    show (8 : UInt32).toNat % 32 = 8 from rfl] at lowEq highEq
  apply UInt32.toNat_inj.mp
  omega

theorem crc32Update_injective {data : Nat → UInt8} {len : Nat} {first second : UInt32}
    (same : crc32Update first data len = crc32Update second data len) : first = second := by
  induction len generalizing data first second with
  | zero => exact same
  | succ len ih => exact crc32Step_injective _ (ih same)

/-- Buffers that differ in their first byte only have different check values. -/
theorem crc32_ne_of_first {first second : Nat → UInt8} {len : Nat}
    (differ : first 0 ≠ second 0) (same : ∀ index, first (index + 1) = second (index + 1)) :
    crc32 first (len + 1) ≠ crc32 second (len + 1) := by
  intro equal
  have updates := (UInt32.xor_left_inj _).mp equal
  have rest : (fun index => first (index + 1)) = fun index => second (index + 1) := funext same
  rw [crc32Update, crc32Update, rest] at updates
  have low := (crc32Step_eq (crc32Update_injective updates)).1
  exact differ ((UInt8.xor_right_inj _).mp low)

end LedFirmware
