import LedFirmware.RtMemory
import Mathlib.Tactic.IntervalCases

/-!
# The code of a chip

`drv_encrypt.c` reads the unique ID of a chip at an address that a table of bytes hides, and
computes a code of twelve bytes from it.  Some of the formulas shift bits of the ID out.
-/

namespace LedFirmware

/-! ### The table -/

def uuidAddr0 : UInt8 := 0x1F

def uuidAddr1 : UInt8 := 0xFF

def uuidAddr2 : UInt8 := 0xF7

def uuidAddr3 : UInt8 := 0xE8

/-- `GeneralID0` to `GeneralID11` -/
def generalID : UInt8 := 0xFF

def encryptOffsetData : List UInt8 :=
  [0x45, 0x08, 0xcb, 0x5a, 0xdd, 0x21, 0xff, 0xee, 0x62, generalID, generalID, 0x14, 0x66, 0x77,
    0x44, 0x55,
   0x2b, 0x90, 0x21, 0x32, 0x42, 0x54, 0x67, 0x76, 0xea, generalID, generalID, 0x89, 0xfe, 0xef,
    0x2c, 0xcd,
   0x00, 0x21, 0x22, uuidAddr0, 0x44, 0x65, 0xc6, 0x87, 0x88, generalID, generalID, 0xbb, 0xcc,
    0x3a, 0xce, 0x2c,
   0x31, 0x10, 0x32, uuidAddr1, 0xe5, 0xb4, 0xf7, 0x86, 0x34, generalID, generalID, 0x01, 0xc3,
    0x67, 0x54, 0x05,
   0xab, 0xbb, 0x88, uuidAddr2, 0xf7, 0xef, 0xcc, 0x8f, 0x33, generalID, generalID, 0x00, 0xd7,
    0x66, 0x55, 0xb4,
   0x5b, 0xba, 0x99, uuidAddr3, 0xdf, 0xf7, 0xdd, 0xfe, 0xef, generalID, generalID, 0xcf, 0xbb,
    0x3a, 0x99, 0x78,
   0x8a, 0xa9, 0xca, uuidAddr3 + 4, 0xdc, 0x2d, 0xfe, 0x6f, 0x2c, 0xa1, 0x30, 0x20, 0x50, 0x24,
    0x76, 0x3a,
   0x48, 0x45, 0x87, uuidAddr3 + 8, 0x08, 0x62, 0x32, 0x23, 0x66, 0x2c, 0x4c, 0x45, 0x2c, 0x33,
    0x00, 0x41]

def tableByte (offset : Nat) : UInt8 := encryptOffsetData.getD offset 0

/-- `General_ID_OFFSET0` to `General_ID_OFFSET11` -/
def generalIDOffset (index : Nat) : Nat :=
  if index < 6 then 0x09 + 0x10 * index else 0x0A + 0x10 * (index - 6)

/-- The code that a unit has before its first start. -/
def generalCode (index : Nat) : UInt8 := tableByte (generalIDOffset index)

/-! ### The unique ID -/

/-- The address of a word of the ID, put together from the table. -/
def mcuIDAddr (last : Nat) : UInt32 :=
  ((tableByte 0x23).toUInt32 <<< 24) + ((tableByte 0x33).toUInt32 <<< 16) +
    ((tableByte 0x43).toUInt32 <<< 8) + (tableByte last).toUInt32

/-- The three words of the ID. -/
def encryptReadID (info : Nat → UInt8) : Nat → UInt32
  | 0 => loadWord (mcuIDAddr 0x53).toNat info
  | 1 => loadWord (mcuIDAddr 0x63).toNat info
  | _ => loadWord (mcuIDAddr 0x73).toNat info

/-- The bytes of the words, as the union gives them. -/
def data08 (data32 : Nat → UInt32) (index : Nat) : UInt8 :=
  LittleEndian.byte (data32 (index / 4)).toNat (index % 4)

/-- Where a chip has its ID. -/
def uidAddr : Nat := 0x1FFFF7E8

theorem byte_loadWord {addr index : Nat} (info : Nat → UInt8) (inside : index < 4) :
    LittleEndian.byte (loadWord addr info).toNat index = info (addr + index) := by
  rw [loadWord, UInt32.toNat_ofNat_of_lt' (LittleEndian.value_lt 4 _),
    LittleEndian.byte_value _ inside]

/-- The addresses from the table are those of the words of the ID. -/
theorem encryptReadID_eq (info : Nat → UInt8) {word : Nat} (inside : word < 3) :
    encryptReadID info word = loadWord (uidAddr + 4 * word) info := by
  match word, inside with
  | 0, _ => exact congrArg (loadWord · info) (by decide : (mcuIDAddr 0x53).toNat = uidAddr)
  | 1, _ => exact congrArg (loadWord · info) (by decide : (mcuIDAddr 0x63).toNat = uidAddr + 4)
  | 2, _ => exact congrArg (loadWord · info) (by decide : (mcuIDAddr 0x73).toNat = uidAddr + 8)

/-- The driver reads the ID of the chip. -/
theorem data08_encryptReadID (info : Nat → UInt8) {index : Nat} (inside : index < 12) :
    data08 (encryptReadID info) index = info (uidAddr + index) := by
  have place : uidAddr + 4 * (index / 4) + index % 4 = uidAddr + index := by omega
  rw [data08, encryptReadID_eq info (by omega), byte_loadWord info (Nat.mod_lt _ (by decide)),
    place]

/-! ### The formulas -/

/-- A byte promoted to `int`. -/
def toInt (byte : UInt8) : Int32 := byte.toUInt32.toInt32

/-- An `int` stored in a byte. -/
def toByte (value : Int32) : UInt8 := value.toUInt32.toUInt8

/-- `+` binds more tightly than `>>`. -/
def code0 (uid : UInt8) : UInt8 := toByte ((~~~ toInt uid) >>> (2 + 0x01))

def code1 (uid : UInt8) : UInt8 := toByte ((~~~ toInt uid) * 3 - 0x02)

def code2 (uid : UInt8) : UInt8 := toByte ((~~~ toInt uid) + 3)

def code3 (uid : UInt8) : UInt8 := toByte ((~~~ toInt uid) - 0x04)

def code4 (uid : UInt8) : UInt8 := toByte ((~~~ toInt uid) * 4)

def code5 (code uid : UInt8) : UInt8 := toByte ((~~~ toInt uid) ^^^ toInt code)

def code6 (uid : UInt8) : UInt8 := toByte ((~~~ toInt uid) <<< 2)

def code7 (uid : UInt8) : UInt8 := toByte ((~~~ toInt uid) >>> 2)

def code8 (code uid : UInt8) : UInt8 := toByte ((~~~ toInt uid) + toInt code)

def code9 (uid : UInt8) : UInt8 := toByte ((~~~ toInt uid) <<< 5)

def code10 (uid : UInt8) : UInt8 := toByte ((~~~ toInt uid) >>> 3)

def code11 (uid : UInt8) : UInt8 := toByte (~~~ toInt uid)

def encryptMyIDCodeCalc (pUID : Nat → UInt8) : Nat → UInt8
  | 0 => code0 (pUID 0)
  | 1 => code1 (pUID 1)
  | 2 => code2 (pUID 2)
  | 3 => code3 (pUID 3)
  | 4 => code4 (pUID 4)
  | 5 => code5 (code4 (pUID 4)) (pUID 5)
  | 6 => code6 (pUID 6)
  | 7 => code7 (pUID 7)
  | 8 => code8 (code7 (pUID 7)) (pUID 8)
  | 9 => code9 (pUID 9)
  | 10 => code10 (pUID 10)
  | _ => code11 (pUID 11)

/-! ### What the formulas keep -/

/-- The bits of each byte of the ID that its formula does not shift out. -/
def keptBits : Nat → UInt8
  | 0 => 0xF8
  | 4 => 0x3F
  | 6 => 0x3F
  | 7 => 0xFC
  | 9 => 0x07
  | 10 => 0xF8
  | _ => 0xFF

/-- Twelve bytes are the same. -/
def SameBytes (first second : Nat → UInt8) : Prop := ∀ index < 12, first index = second index

instance (first second : Nat → UInt8) : Decidable (SameBytes first second) :=
  inferInstanceAs (Decidable (∀ index < 12, _))

/-- Two IDs agree in all bits that the formulas keep. -/
def SameKept (first second : Nat → UInt8) : Prop :=
  SameBytes (fun index => first index &&& keptBits index)
    fun index => second index &&& keptBits index

instance (first second : Nat → UInt8) : Decidable (SameKept first second) :=
  inferInstanceAs (Decidable (SameBytes _ _))

/-- A formula tells bytes apart by some of their bits. -/
def Keeps (formula : UInt8 → UInt8) (mask : UInt8) : Prop :=
  ∀ first second, formula first = formula second ↔ first &&& mask = second &&& mask

/-- The kept bits of a byte determine the result, and are found in it. -/
def Restores (formula back : UInt8 → UInt8) (mask uid : UInt8) : Prop :=
  formula (uid &&& mask) = formula uid ∧ back (formula uid) = uid &&& mask

instance (formula back : UInt8 → UInt8) (mask uid : UInt8) :
    Decidable (Restores formula back mask uid) :=
  inferInstanceAs (Decidable (_ ∧ _))

theorem Keeps.of_back {formula back : UInt8 → UInt8} {mask : UInt8}
    (restores : ∀ uid, Restores formula back mask uid) : Keeps formula mask := by
  intro first second
  constructor
  · intro same
    rw [← (restores first).2, same, (restores second).2]
  · intro same
    rw [← (restores first).1, same, (restores second).1]

/-- The formulas that depend on one byte only; 171 is the inverse of 3 modulo 256. -/
theorem restores_codes : ∀ uid,
    Restores code0 (fun code => ~~~ (code <<< 3) &&& 0xF8) 0xF8 uid ∧
    Restores code1 (fun code => ~~~ ((code + 2) * 171)) 0xFF uid ∧
    Restores code2 (fun code => ~~~ (code - 3)) 0xFF uid ∧
    Restores code3 (fun code => ~~~ (code + 4)) 0xFF uid ∧
    Restores code4 (fun code => ~~~ (code >>> 2) &&& 0x3F) 0x3F uid ∧
    Restores code6 (fun code => ~~~ (code >>> 2) &&& 0x3F) 0x3F uid ∧
    Restores code7 (fun code => ~~~ (code <<< 2) &&& 0xFC) 0xFC uid ∧
    Restores code9 (fun code => ~~~ (code >>> 5) &&& 0x07) 0x07 uid ∧
    Restores code11 (fun code => ~~~ code) 0xFF uid := by
  apply LittleEndian.forall_byte
  decide +kernel

theorem keeps_code0 : Keeps code0 0xF8 := .of_back fun uid => (restores_codes uid).1

theorem keeps_code1 : Keeps code1 0xFF := .of_back fun uid => (restores_codes uid).2.1

theorem keeps_code2 : Keeps code2 0xFF := .of_back fun uid => (restores_codes uid).2.2.1

theorem keeps_code3 : Keeps code3 0xFF := .of_back fun uid => (restores_codes uid).2.2.2.1

theorem keeps_code4 : Keeps code4 0x3F := .of_back fun uid => (restores_codes uid).2.2.2.2.1

theorem keeps_code6 : Keeps code6 0x3F := .of_back fun uid => (restores_codes uid).2.2.2.2.2.1

theorem keeps_code7 : Keeps code7 0xFC := .of_back fun uid => (restores_codes uid).2.2.2.2.2.2.1

theorem keeps_code9 : Keeps code9 0x07 := .of_back fun uid => (restores_codes uid).2.2.2.2.2.2.2.1

theorem keeps_code10 : Keeps code10 0xF8 := keeps_code0

theorem keeps_code11 : Keeps code11 0xFF := .of_back fun uid => (restores_codes uid).2.2.2.2.2.2.2.2

theorem and_ones (uid : UInt8) : uid &&& 0xFF = uid := UInt8.and_neg_one

/-- The formulas that add another byte of the code to theirs. -/
theorem keeps_code5 (code : UInt8) : Keeps (code5 code) 0xFF := by
  have plain (uid : UInt8) : code5 code uid = ~~~ uid ^^^ code := by
    simp [code5, toByte, toInt]
  apply @Keeps.of_back _ fun result => ~~~ (result ^^^ code)
  intro uid
  rw [Restores, and_ones, plain]
  exact ⟨rfl, by rw [UInt8.xor_assoc, UInt8.xor_self, UInt8.xor_zero, UInt8.not_not]⟩

theorem keeps_code8 (code : UInt8) : Keeps (code8 code) 0xFF := by
  have plain (uid : UInt8) : code8 code uid = ~~~ uid + code := by
    simp [code8, toByte, toInt]
  apply @Keeps.of_back _ fun result => ~~~ (result - code)
  intro uid
  rw [Restores, and_ones, plain]
  exact ⟨rfl, by rw [UInt8.add_sub_cancel, UInt8.not_not]⟩

theorem sameBytes_iff {first second : Nat → UInt8} : SameBytes first second ↔
    first 0 = second 0 ∧ first 1 = second 1 ∧ first 2 = second 2 ∧ first 3 = second 3 ∧
      first 4 = second 4 ∧ first 5 = second 5 ∧ first 6 = second 6 ∧ first 7 = second 7 ∧
      first 8 = second 8 ∧ first 9 = second 9 ∧ first 10 = second 10 ∧ first 11 = second 11 := by
  constructor
  · intro same
    exact ⟨same 0 (by decide), same 1 (by decide), same 2 (by decide), same 3 (by decide),
      same 4 (by decide), same 5 (by decide), same 6 (by decide), same 7 (by decide),
      same 8 (by decide), same 9 (by decide), same 10 (by decide), same 11 (by decide)⟩
  · rintro ⟨at0, at1, at2, at3, at4, at5, at6, at7, at8, at9, at10, at11⟩ index inside
    interval_cases index <;> assumption

/-- Two IDs have the same code where they agree in the kept bits. -/
theorem sameCode_iff (first second : Nat → UInt8) :
    SameBytes (encryptMyIDCodeCalc first) (encryptMyIDCodeCalc second) ↔
      SameKept first second := by
  rw [SameKept, sameBytes_iff, sameBytes_iff]
  constructor
  · rintro ⟨at0, at1, at2, at3, at4, at5, at6, at7, at8, at9, at10, at11⟩
    have fourth : code4 (first 4) = code4 (second 4) := at4
    have seventh : code7 (first 7) = code7 (second 7) := at7
    have fifth : code5 (code4 (first 4)) (first 5) = code5 (code4 (second 4)) (second 5) := at5
    have eighth : code8 (code7 (first 7)) (first 8) = code8 (code7 (second 7)) (second 8) := at8
    rw [fourth] at fifth
    rw [seventh] at eighth
    exact ⟨(keeps_code0 _ _).mp at0, (keeps_code1 _ _).mp at1, (keeps_code2 _ _).mp at2,
      (keeps_code3 _ _).mp at3, (keeps_code4 _ _).mp fourth, (keeps_code5 _ _ _).mp fifth,
      (keeps_code6 _ _).mp at6, (keeps_code7 _ _).mp seventh, (keeps_code8 _ _ _).mp eighth,
      (keeps_code9 _ _).mp at9, (keeps_code10 _ _).mp at10, (keeps_code11 _ _).mp at11⟩
  · rintro ⟨at0, at1, at2, at3, at4, at5, at6, at7, at8, at9, at10, at11⟩
    have fourth : code4 (first 4) = code4 (second 4) := (keeps_code4 _ _).mpr at4
    have seventh : code7 (first 7) = code7 (second 7) := (keeps_code7 _ _).mpr at7
    have fifth := (keeps_code5 (code4 (second 4)) _ _).mpr at5
    have eighth := (keeps_code8 (code7 (second 7)) _ _).mpr at8
    refine ⟨(keeps_code0 _ _).mpr at0, (keeps_code1 _ _).mpr at1, (keeps_code2 _ _).mpr at2,
      (keeps_code3 _ _).mpr at3, fourth, ?_, (keeps_code6 _ _).mpr at6, seventh, ?_,
      (keeps_code9 _ _).mpr at9, (keeps_code10 _ _).mpr at10, (keeps_code11 _ _).mpr at11⟩
    · rw [encryptMyIDCodeCalc, encryptMyIDCodeCalc, fourth]
      exact fifth
    · rw [encryptMyIDCodeCalc, encryptMyIDCodeCalc, seventh]
      exact eighth

/-- A code is never the general one: its fifth byte is a multiple of 4. -/
theorem code_ne_general (pUID : Nat → UInt8) :
    ¬ SameBytes generalCode (encryptMyIDCodeCalc pUID) := by
  have multiple : ∀ uid, code4 uid ≠ 0xFF := by
    apply LittleEndian.forall_byte
    decide +kernel
  intro same
  exact multiple (pUID 4) (same 4 (by decide)).symm

end LedFirmware
