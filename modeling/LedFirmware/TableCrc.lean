import LedFirmware.FlashWrite
import LedFirmware.ReflectedCrc

/-!
# The table-driven CRC-16 and CRC-8

`Get_CRC16` keeps its register in two bytes and looks both of them up; `Get_CRC8` keeps
one.  The tables of the first hold the remainders of the reflected division, that of the
second the remainders of the division with the most significant bit first.
-/

namespace LedFirmware

open NorFlash ReflectedCrc

def auchCRCHi : List UInt8 :=
  [0x00, 0xC1, 0x81, 0x40, 0x01, 0xC0, 0x80, 0x41, 0x01, 0xC0, 0x80, 0x41, 0x00, 0xC1, 0x81, 0x40,
   0x01, 0xC0, 0x80, 0x41, 0x00, 0xC1, 0x81, 0x40, 0x00, 0xC1, 0x81, 0x40, 0x01, 0xC0, 0x80, 0x41,
   0x01, 0xC0, 0x80, 0x41, 0x00, 0xC1, 0x81, 0x40, 0x00, 0xC1, 0x81, 0x40, 0x01, 0xC0, 0x80, 0x41,
   0x00, 0xC1, 0x81, 0x40, 0x01, 0xC0, 0x80, 0x41, 0x01, 0xC0, 0x80, 0x41, 0x00, 0xC1, 0x81, 0x40,
   0x01, 0xC0, 0x80, 0x41, 0x00, 0xC1, 0x81, 0x40, 0x00, 0xC1, 0x81, 0x40, 0x01, 0xC0, 0x80, 0x41,
   0x00, 0xC1, 0x81, 0x40, 0x01, 0xC0, 0x80, 0x41, 0x01, 0xC0, 0x80, 0x41, 0x00, 0xC1, 0x81, 0x40,
   0x00, 0xC1, 0x81, 0x40, 0x01, 0xC0, 0x80, 0x41, 0x01, 0xC0, 0x80, 0x41, 0x00, 0xC1, 0x81, 0x40,
   0x01, 0xC0, 0x80, 0x41, 0x00, 0xC1, 0x81, 0x40, 0x00, 0xC1, 0x81, 0x40, 0x01, 0xC0, 0x80, 0x41,
   0x01, 0xC0, 0x80, 0x41, 0x00, 0xC1, 0x81, 0x40, 0x00, 0xC1, 0x81, 0x40, 0x01, 0xC0, 0x80, 0x41,
   0x00, 0xC1, 0x81, 0x40, 0x01, 0xC0, 0x80, 0x41, 0x01, 0xC0, 0x80, 0x41, 0x00, 0xC1, 0x81, 0x40,
   0x00, 0xC1, 0x81, 0x40, 0x01, 0xC0, 0x80, 0x41, 0x01, 0xC0, 0x80, 0x41, 0x00, 0xC1, 0x81, 0x40,
   0x01, 0xC0, 0x80, 0x41, 0x00, 0xC1, 0x81, 0x40, 0x00, 0xC1, 0x81, 0x40, 0x01, 0xC0, 0x80, 0x41,
   0x00, 0xC1, 0x81, 0x40, 0x01, 0xC0, 0x80, 0x41, 0x01, 0xC0, 0x80, 0x41, 0x00, 0xC1, 0x81, 0x40,
   0x01, 0xC0, 0x80, 0x41, 0x00, 0xC1, 0x81, 0x40, 0x00, 0xC1, 0x81, 0x40, 0x01, 0xC0, 0x80, 0x41,
   0x01, 0xC0, 0x80, 0x41, 0x00, 0xC1, 0x81, 0x40, 0x00, 0xC1, 0x81, 0x40, 0x01, 0xC0, 0x80, 0x41,
   0x00, 0xC1, 0x81, 0x40, 0x01, 0xC0, 0x80, 0x41, 0x01, 0xC0, 0x80, 0x41, 0x00, 0xC1, 0x81, 0x40]

def auchCRCLo : List UInt8 :=
  [0x00, 0xC0, 0xC1, 0x01, 0xC3, 0x03, 0x02, 0xC2, 0xC6, 0x06, 0x07, 0xC7, 0x05, 0xC5, 0xC4, 0x04,
   0xCC, 0x0C, 0x0D, 0xCD, 0x0F, 0xCF, 0xCE, 0x0E, 0x0A, 0xCA, 0xCB, 0x0B, 0xC9, 0x09, 0x08, 0xC8,
   0xD8, 0x18, 0x19, 0xD9, 0x1B, 0xDB, 0xDA, 0x1A, 0x1E, 0xDE, 0xDF, 0x1F, 0xDD, 0x1D, 0x1C, 0xDC,
   0x14, 0xD4, 0xD5, 0x15, 0xD7, 0x17, 0x16, 0xD6, 0xD2, 0x12, 0x13, 0xD3, 0x11, 0xD1, 0xD0, 0x10,
   0xF0, 0x30, 0x31, 0xF1, 0x33, 0xF3, 0xF2, 0x32, 0x36, 0xF6, 0xF7, 0x37, 0xF5, 0x35, 0x34, 0xF4,
   0x3C, 0xFC, 0xFD, 0x3D, 0xFF, 0x3F, 0x3E, 0xFE, 0xFA, 0x3A, 0x3B, 0xFB, 0x39, 0xF9, 0xF8, 0x38,
   0x28, 0xE8, 0xE9, 0x29, 0xEB, 0x2B, 0x2A, 0xEA, 0xEE, 0x2E, 0x2F, 0xEF, 0x2D, 0xED, 0xEC, 0x2C,
   0xE4, 0x24, 0x25, 0xE5, 0x27, 0xE7, 0xE6, 0x26, 0x22, 0xE2, 0xE3, 0x23, 0xE1, 0x21, 0x20, 0xE0,
   0xA0, 0x60, 0x61, 0xA1, 0x63, 0xA3, 0xA2, 0x62, 0x66, 0xA6, 0xA7, 0x67, 0xA5, 0x65, 0x64, 0xA4,
   0x6C, 0xAC, 0xAD, 0x6D, 0xAF, 0x6F, 0x6E, 0xAE, 0xAA, 0x6A, 0x6B, 0xAB, 0x69, 0xA9, 0xA8, 0x68,
   0x78, 0xB8, 0xB9, 0x79, 0xBB, 0x7B, 0x7A, 0xBA, 0xBE, 0x7E, 0x7F, 0xBF, 0x7D, 0xBD, 0xBC, 0x7C,
   0xB4, 0x74, 0x75, 0xB5, 0x77, 0xB7, 0xB6, 0x76, 0x72, 0xB2, 0xB3, 0x73, 0xB1, 0x71, 0x70, 0xB0,
   0x50, 0x90, 0x91, 0x51, 0x93, 0x53, 0x52, 0x92, 0x96, 0x56, 0x57, 0x97, 0x55, 0x95, 0x94, 0x54,
   0x9C, 0x5C, 0x5D, 0x9D, 0x5F, 0x9F, 0x9E, 0x5E, 0x5A, 0x9A, 0x9B, 0x5B, 0x99, 0x59, 0x58, 0x98,
   0x88, 0x48, 0x49, 0x89, 0x4B, 0x8B, 0x8A, 0x4A, 0x4E, 0x8E, 0x8F, 0x4F, 0x8D, 0x4D, 0x4C, 0x8C,
   0x44, 0x84, 0x85, 0x45, 0x87, 0x47, 0x46, 0x86, 0x82, 0x42, 0x43, 0x83, 0x41, 0x81, 0x80, 0x40]

def crc8Table : List UInt8 :=
  [0x00, 0x1C, 0x38, 0x24, 0x70, 0x6C, 0x48, 0x54, 0xE0, 0xFC, 0xD8, 0xC4, 0x90, 0x8C, 0xA8, 0xB4,
   0xDC, 0xC0, 0xE4, 0xF8, 0xAC, 0xB0, 0x94, 0x88, 0x3C, 0x20, 0x04, 0x18, 0x4C, 0x50, 0x74, 0x68,
   0xA4, 0xB8, 0x9C, 0x80, 0xD4, 0xC8, 0xEC, 0xF0, 0x44, 0x58, 0x7C, 0x60, 0x34, 0x28, 0x0C, 0x10,
   0x78, 0x64, 0x40, 0x5C, 0x08, 0x14, 0x30, 0x2C, 0x98, 0x84, 0xA0, 0xBC, 0xE8, 0xF4, 0xD0, 0xCC,
   0x54, 0x48, 0x6C, 0x70, 0x24, 0x38, 0x1C, 0x00, 0xB4, 0xA8, 0x8C, 0x90, 0xC4, 0xD8, 0xFC, 0xE0,
   0x88, 0x94, 0xB0, 0xAC, 0xF8, 0xE4, 0xC0, 0xDC, 0x68, 0x74, 0x50, 0x4C, 0x18, 0x04, 0x20, 0x3C,
   0xF0, 0xEC, 0xC8, 0xD4, 0x80, 0x9C, 0xB8, 0xA4, 0x10, 0x0C, 0x28, 0x34, 0x60, 0x7C, 0x58, 0x44,
   0x2C, 0x30, 0x14, 0x08, 0x5C, 0x40, 0x64, 0x78, 0xCC, 0xD0, 0xF4, 0xE8, 0xBC, 0xA0, 0x84, 0x98,
   0xA8, 0xB4, 0x90, 0x8C, 0xD8, 0xC4, 0xE0, 0xFC, 0x48, 0x54, 0x70, 0x6C, 0x38, 0x24, 0x00, 0x1C,
   0x74, 0x68, 0x4C, 0x50, 0x04, 0x18, 0x3C, 0x20, 0x94, 0x88, 0xAC, 0xB0, 0xE4, 0xF8, 0xDC, 0xC0,
   0x0C, 0x10, 0x34, 0x28, 0x7C, 0x60, 0x44, 0x58, 0xEC, 0xF0, 0xD4, 0xC8, 0x9C, 0x80, 0xA4, 0xB8,
   0xD0, 0xCC, 0xE8, 0xF4, 0xA0, 0xBC, 0x98, 0x84, 0x30, 0x2C, 0x08, 0x14, 0x40, 0x5C, 0x78, 0x64,
   0xFC, 0xE0, 0xC4, 0xD8, 0x8C, 0x90, 0xB4, 0xA8, 0x1C, 0x00, 0x24, 0x38, 0x6C, 0x70, 0x54, 0x48,
   0x20, 0x3C, 0x18, 0x04, 0x50, 0x4C, 0x68, 0x74, 0xC0, 0xDC, 0xF8, 0xE4, 0xB0, 0xAC, 0x88, 0x94,
   0x58, 0x44, 0x60, 0x7C, 0x28, 0x34, 0x10, 0x0C, 0xB8, 0xA4, 0x80, 0x9C, 0xC8, 0xD4, 0xF0, 0xEC,
   0x84, 0x98, 0xBC, 0xA0, 0xF4, 0xE8, 0xCC, 0xD0, 0x64, 0x78, 0x5C, 0x40, 0x14, 0x08, 0x2C, 0x30]

/-! ## Get_CRC16 -/

/-- The two bytes of the register under their names in the source.  The byte called high
holds the low bits of the reflected remainder. -/
structure Crc16 where
  uchCRCHi : UInt8
  uchCRCLo : UInt8

/-- One iteration of `Get_CRC16`. -/
def crc16Step (crc : Crc16) (data : UInt8) : Crc16 :=
  let uIndex := (crc.uchCRCHi ^^^ data).toNat
  ⟨crc.uchCRCLo ^^^ auchCRCHi.getD uIndex 0, auchCRCLo.getD uIndex 0⟩

def crc16Loop : (crc : Crc16) → (pData : Nat → UInt8) → (nLength : Nat) → Crc16
  | crc, _, 0 => crc
  | crc, pData, nLength + 1 =>
      crc16Loop (crc16Step crc (pData 0)) (fun index => pData (index + 1)) nLength

def getCRC16 (pData : Nat → UInt8) (nLength : Nat) : UInt16 :=
  let crc := crc16Loop ⟨0xFF, 0xFF⟩ pData nLength
  crc.uchCRCHi.toUInt16 <<< 8 ||| crc.uchCRCLo.toUInt16

/-- The reflected polynomial of the CRC-16/Modbus. -/
def crc16Poly : BitVec 16 := 0xA001

/-- The bitwise CRC-16/Modbus. -/
def crc16Modbus (bytes : List UInt8) : UInt16 := ⟨remainder crc16Poly 0xFFFF bytes⟩

/-- The byte order in which `Get_CRC16` returns its register: the low bits first. -/
def lowByteFirst (crc : UInt16) : UInt16 := crc <<< 8 ||| crc >>> 8

/-- Two bytes as a word. -/
def wordOf (high low : UInt8) : UInt16 := high.toUInt16 <<< 8 ||| low.toUInt16

theorem wordOf_toBitVec (high low : UInt8) : (wordOf high low).toBitVec =
    high.toBitVec.setWidth 16 <<< 8 ||| low.toBitVec.setWidth 16 := rfl

@[simp]
theorem getLsbD_wordOf (high low : UInt8) (index : Nat) :
    (wordOf high low).toBitVec.getLsbD index =
      if index < 8 then low.toBitVec.getLsbD index else high.toBitVec.getLsbD (index - 8) := by
  rw [wordOf_toBitVec]
  by_cases inside : index < 8
  · simp [inside, show index < 16 by omega]
  · have beyond : low.toBitVec.getLsbD index = false := BitVec.getLsbD_of_ge _ _ (by omega)
    by_cases word : index < 16
    · simp [inside, word, beyond]
    · have above : high.toBitVec.getLsbD (index - 8) = false :=
        BitVec.getLsbD_of_ge _ _ (by omega)
      simp [inside, word, beyond, above]

/-- The reflected remainder in the two bytes. -/
def Crc16.register (crc : Crc16) : BitVec 16 := (wordOf crc.uchCRCLo crc.uchCRCHi).toBitVec

theorem auchCRCHi_eq_map : auchCRCHi = (List.range 256).map fun index =>
    ⟨(shifts crc16Poly 8 (BitVec.ofNat 16 index)).setWidth 8⟩ := by
  decide +kernel

theorem auchCRCLo_eq_map : auchCRCLo = (List.range 256).map fun index =>
    ⟨(shifts crc16Poly 8 (BitVec.ofNat 16 index) >>> 8).setWidth 8⟩ := by
  decide +kernel

/-- A word is its high byte before its low byte. -/
theorem wordOf_bytes (word : BitVec 16) :
    (wordOf ⟨(word >>> 8).setWidth 8⟩ ⟨word.setWidth 8⟩).toBitVec = word := by
  apply BitVec.eq_of_getLsbD_eq
  intro index inside
  rw [getLsbD_wordOf]
  by_cases low : index < 8
  · simp [low]
  · have back : 8 + (index - 8) = index := by omega
    simp [low, back, show index - 8 < 8 by omega]

/-- The two tables hold the two bytes of one remainder. -/
theorem auchCRC_getD (index : BitVec 8) :
    (wordOf (auchCRCLo.getD index.toNat 0) (auchCRCHi.getD index.toNat 0)).toBitVec =
      shifts crc16Poly 8 (index.setWidth 16) := by
  have inside : index.toNat < 256 := index.isLt
  have same : BitVec.ofNat 16 index.toNat = index.setWidth 16 := BitVec.ofNat_toNat 16 index
  simp only [auchCRCHi_eq_map, auchCRCLo_eq_map, List.getD_eq_getElem?_getD, List.getElem?_map,
    List.getElem?_range inside, Option.map_some, Option.getD_some, same]
  exact wordOf_bytes _

/-- The split update feeds one byte to the bitwise remainder. -/
theorem crc16Step_register (crc : Crc16) (data : UInt8) :
    (crc16Step crc data).register = feed crc16Poly crc.register data := by
  have entry := auchCRC_getD (crc.uchCRCHi ^^^ data).toBitVec
  have low : crc.register.setWidth 8 = crc.uchCRCHi.toBitVec := by
    apply BitVec.eq_of_getLsbD_eq
    intro index inside
    simp [Crc16.register, inside]
  rw [feed_eq_table, low, ← UInt8.toBitVec_xor, ← entry]
  apply BitVec.eq_of_getLsbD_eq
  intro index inside
  simp only [Crc16.register, crc16Step, getLsbD_wordOf, BitVec.getLsbD_xor,
    BitVec.getLsbD_ushiftRight, UInt8.toBitVec_xor]
  by_cases low : index < 8
  · simp [low, Bool.xor_comm]
  · have above : crc.uchCRCLo.toBitVec.getLsbD index = false :=
      BitVec.getLsbD_of_ge _ _ (by omega)
    simp [low, above]

theorem crc16Loop_register (crc : Crc16) (bytes : List UInt8) :
    (crc16Loop crc (bufferOf bytes) bytes.length).register =
      remainder crc16Poly crc.register bytes := by
  induction bytes generalizing crc with
  | nil => rfl
  | cons byte bytes ih =>
      have step := ih (crc16Step crc byte)
      rw [crc16Step_register] at step
      exact step

/-- The function returns the bytes of its register in the order of their names. -/
theorem lowByteFirst_register (crc : Crc16) :
    lowByteFirst ⟨crc.register⟩ = wordOf crc.uchCRCHi crc.uchCRCLo := by
  apply UInt16.toBitVec_inj.mp
  apply BitVec.eq_of_getLsbD_eq
  intro index inside
  have swapped : (lowByteFirst ⟨crc.register⟩).toBitVec =
      crc.register <<< 8 ||| crc.register >>> 8 := rfl
  rw [swapped, getLsbD_wordOf, BitVec.getLsbD_or, BitVec.getLsbD_shiftLeft,
    BitVec.getLsbD_ushiftRight, Crc16.register, getLsbD_wordOf, getLsbD_wordOf]
  by_cases low : index < 8
  · simp [low]
  · have above : crc.uchCRCLo.toBitVec.getLsbD index = false :=
      BitVec.getLsbD_of_ge _ _ (by omega)
    simp [low, above, inside, show index - 8 < 8 by omega]

theorem getCRC16_eq (bytes : List UInt8) :
    getCRC16 (bufferOf bytes) bytes.length = lowByteFirst (crc16Modbus bytes) := by
  have run := crc16Loop_register ⟨0xFF, 0xFF⟩ bytes
  have start : Crc16.register ⟨0xFF, 0xFF⟩ = 0xFFFF := by decide
  rw [start] at run
  rw [crc16Modbus, ← run, lowByteFirst_register]
  rfl

/-! ## Get_CRC8 -/

def crc8Loop : (crcValue : UInt8) → (bufferPtr : Nat → UInt8) → (bufferLength : Nat) → UInt8
  | crcValue, _, 0 => crcValue
  | crcValue, bufferPtr, bufferLength + 1 =>
      crc8Loop (crc8Table.getD (crcValue ^^^ bufferPtr 0).toNat 0)
        (fun index => bufferPtr (index + 1)) bufferLength

def getCRC8 (bufferPtr : Nat → UInt8) (bufferLength : Nat) : UInt8 :=
  crc8Loop 0 bufferPtr bufferLength

/-- Divide one bit out of a byte, the most significant one first. -/
def crc8Shift (poly crc : UInt8) : UInt8 :=
  if crc.toBitVec.msb then crc <<< 1 ^^^ poly else crc <<< 1

/-- The bitwise CRC-8 of a polynomial, with the most significant bit first and from zero. -/
def crc8Bitwise (poly : UInt8) (bytes : List UInt8) : UInt8 :=
  bytes.foldl (fun crc byte => (crc8Shift poly)^[8] (crc ^^^ byte)) 0

theorem crc8Table_eq_map :
    crc8Table = (List.range 256).map fun index => (crc8Shift 0x1C)^[8] (UInt8.ofNat index) := by
  decide +kernel

theorem crc8Table_getD (index : UInt8) :
    crc8Table.getD index.toNat 0 = (crc8Shift 0x1C)^[8] index := by
  have inside : index.toNat < 256 := index.toNat_lt
  simp [crc8Table_eq_map, inside]

theorem crc8Loop_eq (crcValue : UInt8) (bytes : List UInt8) :
    crc8Loop crcValue (bufferOf bytes) bytes.length =
      bytes.foldl (fun crc byte => (crc8Shift 0x1C)^[8] (crc ^^^ byte)) crcValue := by
  induction bytes generalizing crcValue with
  | nil => rfl
  | cons byte bytes ih =>
      rw [List.foldl_cons, ← ih, ← crc8Table_getD]
      rfl

/-- Both functions compute the bitwise division: `Get_CRC16` the CRC-16/Modbus with its low
byte first, `Get_CRC8` the division by the polynomial 0x1C, the most significant bit first. -/
theorem table_crcs (bytes : List UInt8) :
    getCRC16 (bufferOf bytes) bytes.length = lowByteFirst (crc16Modbus bytes) ∧
      getCRC8 (bufferOf bytes) bytes.length = crc8Bitwise 0x1C bytes :=
  ⟨getCRC16_eq bytes, crc8Loop_eq 0 bytes⟩

/-- The division of `Get_CRC8` is not a reflected one, whether by 0x1C or by its mirror
image, nor is it the other one by that mirror image. -/
theorem getCRC8_not_reflected :
    getCRC8 (bufferOf [1]) 1 ≠ ⟨remainder (0x1C : BitVec 8) 0 [1]⟩ ∧
      getCRC8 (bufferOf [1]) 1 ≠ ⟨remainder (0x38 : BitVec 8) 0 [1]⟩ ∧
        getCRC8 (bufferOf [1]) 1 ≠ crc8Bitwise 0x38 [1] := by
  decide +kernel

-- The check values of the digits one to nine; that of the Modbus check is 0x4B37.
example :
    getCRC16 (bufferOf [0x31, 0x32, 0x33, 0x34, 0x35, 0x36, 0x37, 0x38, 0x39]) 9 = 0x374B := by
  decide +kernel

end LedFirmware
