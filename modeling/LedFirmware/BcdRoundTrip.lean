import LedFirmware.BcdNumber
import LedFirmware.TimeRepair

/-!
# Decimal numbers and packed digits

`GetBCDToDECU8` to `GetBCDToDECU64` weigh the digits of a word, and `GetDECToBCDU8` to
`GetDECToBCDU64` pack them by `DECToBCD`.  Each width also has a pair that works in place.
-/

namespace LedFirmware

/-! ### The conversions of each width -/

/-- A digit as the conversions of the narrow widths take it, in 32 bits. -/
def narrowDigit (bcd shift : UInt32) : UInt32 := (bcd >>> shift) &&& 0x0F

def getBCDToDECU8 (bcd : UInt8) : UInt8 := ((bcd >>> 4) &&& 0x0F) * 10 + (bcd &&& 0x0F)

def getBCDToDECU16 (bcd : UInt16) : UInt16 :=
  (narrowDigit bcd.toUInt32 12 * 1000 +
    narrowDigit bcd.toUInt32 8 * 100 +
    narrowDigit bcd.toUInt32 4 * 10 +
    (bcd.toUInt32 &&& 0x0F)).toUInt16

def getBCDToDECU32 (bcd : UInt32) : UInt32 :=
  narrowDigit bcd 28 * 10000000 +
  narrowDigit bcd 24 * 1000000 +
  narrowDigit bcd 20 * 100000 +
  narrowDigit bcd 16 * 10000 +
  narrowDigit bcd 12 * 1000 +
  narrowDigit bcd 8 * 100 +
  narrowDigit bcd 4 * 10 +
  (bcd &&& 0x0F)

def getBCDToDECU64 (bcd : UInt64) : UInt64 :=
  bcdDigit bcd 60 * 1000000000000000 +
  bcdDigit bcd 56 * 100000000000000 +
  bcdDigit bcd 52 * 10000000000000 +
  bcdDigit bcd 48 * 1000000000000 +
  bcdDigit bcd 44 * 100000000000 +
  bcdDigit bcd 40 * 10000000000 +
  bcdDigit bcd 36 * 1000000000 +
  bcdDigit bcd 32 * 100000000 +
  bcdDigit bcd 28 * 10000000 +
  bcdDigit bcd 24 * 1000000 +
  bcdDigit bcd 20 * 100000 +
  bcdDigit bcd 16 * 10000 +
  bcdDigit bcd 12 * 1000 +
  bcdDigit bcd 8 * 100 +
  bcdDigit bcd 4 * 10 +
  bcdDigit bcd 0 * 1

def bcdToDECU16 (bcd : UInt16) : UInt16 :=
  (narrowDigit bcd.toUInt32 12 * 1000 +
    narrowDigit bcd.toUInt32 8 * 100 +
    narrowDigit bcd.toUInt32 4 * 10 +
    (bcd.toUInt32 &&& 0x0F)).toUInt16

def bcdToDECU32 (bcd : UInt32) : UInt32 :=
  narrowDigit bcd 28 * 10000000 +
  narrowDigit bcd 24 * 1000000 +
  narrowDigit bcd 20 * 100000 +
  narrowDigit bcd 16 * 10000 +
  narrowDigit bcd 12 * 1000 +
  narrowDigit bcd 8 * 100 +
  narrowDigit bcd 4 * 10 +
  (bcd &&& 0x0F)

/-- `DECToBCD` over the word at a pointer. -/
def decToBCDAt (size : UInt8) (mem : Nat → UInt8) (dec : Nat) : Nat → UInt8 :=
  (decToBCD mem dec size
    (UInt64.ofNat (LittleEndian.value size.toNat fun place => mem (dec + place)))).1

def decToBCDU16 : (Nat → UInt8) → Nat → Nat → UInt8 := decToBCDAt 2

def decToBCDU32 : (Nat → UInt8) → Nat → Nat → UInt8 := decToBCDAt 4

def decToBCDU64 : (Nat → UInt8) → Nat → Nat → UInt8 := decToBCDAt 8

/-- The number that a function leaves in the place of its own argument. -/
def packedArgument (size : UInt8) (dec : UInt64) : Nat :=
  LittleEndian.value size.toNat (decToBCD (LittleEndian.byte dec.toNat) 0 size dec).1

/-- `GetDECToBCDU8`, with the loop of `DECToBCD`. -/
def getDECToBCDU8Loop (dec : UInt8) : UInt8 := UInt8.ofNat (packedArgument 1 dec.toUInt64)

def getDECToBCDU16 (dec : UInt16) : UInt16 := UInt16.ofNat (packedArgument 2 dec.toUInt64)

def getDECToBCDU32 (dec : UInt32) : UInt32 := UInt32.ofNat (packedArgument 4 dec.toUInt64)

/-! ### What the conversions are for -/

/-- The number that little-endian pairs of digits stand for. -/
def decimalValue : (width : Nat) → (bytes : Nat → UInt8) → Nat
  | 0, _ => 0
  | width + 1, bytes =>
      (bytes 0).toNat % 16 + 10 * ((bytes 0).toNat / 16) +
        100 * decimalValue width fun index => bytes (index + 1)

/-- `DECToBCD` fills its bytes with the digits of the number, and writes nowhere else. -/
structure FillsDigits (mem : Nat → UInt8) (dst : Nat) (len : UInt8) (dec : UInt64) : Prop where
  digits : ∀ place < len.toNat, DecimalByte ((decToBCD mem dst len dec).1 (dst + place))
  value : decimalValue len.toNat (fun place => (decToBCD mem dst len dec).1 (dst + place)) =
    dec.toNat
  kept : ∀ place, place < dst ∨ dst + len.toNat ≤ place →
    (decToBCD mem dst len dec).1 place = mem place

/-- The conversions of one width. -/
structure Conversions (Word : Type) where
  /-- The bytes of a word. -/
  size : Nat
  toNat : Word → Nat
  getBCDToDEC : Word → Word
  getDECToBCD : Word → Word
  /-- What is stored in the place of a word. -/
  bcdToDEC : Word → Word
  /-- The memory behind the conversion at a pointer. -/
  decToBCD : (Nat → UInt8) → Nat → Nat → UInt8

def conversionsU8 : Conversions UInt8 where
  size := 1
  toNat := UInt8.toNat
  getBCDToDEC := getBCDToDECU8
  getDECToBCD := getDECToBCDU8Loop
  bcdToDEC := bcdToDECU8
  decToBCD mem dec := Function.update mem dec (decToBCDU8 (mem dec))

def conversionsU16 : Conversions UInt16 where
  size := 2
  toNat := UInt16.toNat
  getBCDToDEC := getBCDToDECU16
  getDECToBCD := getDECToBCDU16
  bcdToDEC := bcdToDECU16
  decToBCD := decToBCDU16

def conversionsU32 : Conversions UInt32 where
  size := 4
  toNat := UInt32.toNat
  getBCDToDEC := getBCDToDECU32
  getDECToBCD := getDECToBCDU32
  bcdToDEC := bcdToDECU32
  decToBCD := decToBCDU32

def conversionsU64 : Conversions UInt64 where
  size := 8
  toNat := UInt64.toNat
  getBCDToDEC := getBCDToDECU64
  getDECToBCD := getDECToBCDU64
  bcdToDEC := bcdToDECU64
  decToBCD := decToBCDU64

section

variable {Word : Type}

/-- The conversions of a width undo each other, in place as well. -/
structure BcdRoundTrips (conversions : Conversions Word) : Prop where
  back : ∀ dec, conversions.toNat dec < 10 ^ (2 * conversions.size) →
    conversions.getBCDToDEC (conversions.getDECToBCD dec) = dec
  forth : ∀ bcd,
    (∀ position < 2 * conversions.size, conversions.toNat bcd / 16 ^ position % 16 ≤ 9) →
    conversions.getDECToBCD (conversions.getBCDToDEC bcd) = bcd
  bcdInPlace : ∀ bcd, conversions.bcdToDEC bcd = conversions.getBCDToDEC bcd
  decInPlace : ∀ mem pointer dec,
    LittleEndian.value conversions.size (fun place => mem (pointer + place)) =
      conversions.toNat dec →
    conversions.toNat dec < 10 ^ (2 * conversions.size) →
    LittleEndian.value conversions.size
        (fun place => conversions.decToBCD mem pointer (pointer + place)) =
      conversions.toNat (conversions.getDECToBCD dec) ∧
    ∀ place, place < pointer ∨ pointer + conversions.size ≤ place →
      conversions.decToBCD mem pointer place = mem place

end

/-! ### The digits of each width -/

theorem narrowDigit_toNat (bcd : UInt32) {shift : UInt32} {place : Nat}
    (isPlace : shift.toNat = place) (small : place < 32) :
    (narrowDigit bcd shift).toNat = bcd.toNat / 2 ^ place % 16 := by
  subst isPlace
  rw [narrowDigit, UInt32.toNat_and, UInt32.toNat_shiftRight, Nat.mod_eq_of_lt small,
    Nat.shiftRight_eq_div_pow]
  exact Nat.and_two_pow_sub_one_eq_mod _ 4

theorem lowDigit_toNat (bcd : UInt32) : (bcd &&& 0x0F).toNat = bcd.toNat % 16 :=
  Nat.and_two_pow_sub_one_eq_mod _ 4

theorem rebase_eight {number : Nat} (fits : number < 2 ^ 32) :
    Numerals.rebase 16 10 number =
      number / 2 ^ 28 % 16 * 10000000 + number / 2 ^ 24 % 16 * 1000000 +
      number / 2 ^ 20 % 16 * 100000 + number / 2 ^ 16 % 16 * 10000 +
      number / 2 ^ 12 % 16 * 1000 + number / 2 ^ 8 % 16 * 100 +
      number / 2 ^ 4 % 16 * 10 + number % 16 := by
  rw [rebase_sixteen (by omega)]
  omega

theorem getBCDToDECU32_toNat (bcd : UInt32) :
    (getBCDToDECU32 bcd).toNat = Numerals.rebase 16 10 bcd.toNat := by
  rw [rebase_eight bcd.toNat_lt, getBCDToDECU32]
  simp only [UInt32.toNat_add, UInt32.toNat_mul, lowDigit_toNat,
    narrowDigit_toNat bcd (rfl : (28 : UInt32).toNat = 28) (by decide),
    narrowDigit_toNat bcd (rfl : (24 : UInt32).toNat = 24) (by decide),
    narrowDigit_toNat bcd (rfl : (20 : UInt32).toNat = 20) (by decide),
    narrowDigit_toNat bcd (rfl : (16 : UInt32).toNat = 16) (by decide),
    narrowDigit_toNat bcd (rfl : (12 : UInt32).toNat = 12) (by decide),
    narrowDigit_toNat bcd (rfl : (8 : UInt32).toNat = 8) (by decide),
    narrowDigit_toNat bcd (rfl : (4 : UInt32).toNat = 4) (by decide),
    UInt32.reduceToNat]
  omega

theorem getBCDToDECU16_toNat (bcd : UInt16) :
    (getBCDToDECU16 bcd).toNat = Numerals.rebase 16 10 bcd.toNat := by
  have fits := bcd.toNat_lt
  rw [rebase_eight (by omega), getBCDToDECU16]
  simp only [UInt32.toNat_toUInt16, UInt16.toNat_toUInt32, UInt32.toNat_add, UInt32.toNat_mul,
    lowDigit_toNat,
    narrowDigit_toNat _ (rfl : (12 : UInt32).toNat = 12) (by decide),
    narrowDigit_toNat _ (rfl : (8 : UInt32).toNat = 8) (by decide),
    narrowDigit_toNat _ (rfl : (4 : UInt32).toNat = 4) (by decide),
    UInt32.reduceToNat]
  omega

theorem getBCDToDECU8_toNat (bcd : UInt8) :
    (getBCDToDECU8 bcd).toNat = Numerals.rebase 16 10 bcd.toNat := by
  have halves : ∀ bcd, (getBCDToDECU8 bcd).toNat = bcd.toNat / 16 * 10 + bcd.toNat % 16 := by
    apply LittleEndian.forall_byte
    decide +kernel
  have fits := bcd.toNat_lt
  rw [rebase_eight (by omega), halves]
  omega

/-- `DECToBCD` over an argument of some width packs its digits. -/
theorem packedArgument_eq {size : UInt8} (nonempty : size ≠ 0) (dec : UInt64) :
    packedArgument size dec = Numerals.rebase 10 16 (dec.toNat % 100 ^ size.toNat) := by
  have written := @value_decToBCD (LittleEndian.byte dec.toNat) 0 size dec
    fun empty => absurd empty nonempty
  simp only [Nat.zero_add] at written
  exact written

theorem packedArgument_lt (size : UInt8) (dec : UInt64) :
    packedArgument size dec < 256 ^ size.toNat :=
  LittleEndian.value_lt _ _

theorem getDECToBCDU8Loop_toNat (dec : UInt8) :
    (getDECToBCDU8Loop dec).toNat = Numerals.rebase 10 16 (dec.toNat % 10 ^ (2 * 1)) := by
  rw [getDECToBCDU8Loop, UInt8.toNat_ofNat_of_lt' (packedArgument_lt 1 _),
    packedArgument_eq (by decide), UInt8.toNat_toUInt64]
  rfl

theorem getDECToBCDU16_toNat (dec : UInt16) :
    (getDECToBCDU16 dec).toNat = Numerals.rebase 10 16 (dec.toNat % 10 ^ (2 * 2)) := by
  rw [getDECToBCDU16, UInt16.toNat_ofNat_of_lt' (packedArgument_lt 2 _),
    packedArgument_eq (by decide), UInt16.toNat_toUInt64]
  rfl

theorem getDECToBCDU32_toNat (dec : UInt32) :
    (getDECToBCDU32 dec).toNat = Numerals.rebase 10 16 (dec.toNat % 10 ^ (2 * 4)) := by
  rw [getDECToBCDU32, UInt32.toNat_ofNat_of_lt' (packedArgument_lt 4 _),
    packedArgument_eq (by decide), UInt32.toNat_toUInt64]
  rfl

/-! ### Bytes of digits -/

/-- The packed digits of a number are decimal, and stand for the number. -/
theorem packedByte_digits (number : Nat) :
    DecimalByte (packedByte number) ∧
      (packedByte number).toNat % 16 + 10 * ((packedByte number).toNat / 16) = number % 100 := by
  have byte : (packedByte number).toNat = number % 10 + 16 * (number / 10 % 10) := by
    rw [packedByte, UInt8.toNat_ofNat']
    omega
  rw [DecimalByte, byte]
  omega

theorem decimalValue_congr {width : Nat} {first second : Nat → UInt8}
    (same : ∀ index < width, first index = second index) :
    decimalValue width first = decimalValue width second := by
  induction width generalizing first second with
  | zero => rfl
  | succ width ih =>
      have rest := ih fun index inside => same (index + 1) (by omega)
      simp only [decimalValue, same 0 (by omega), rest]

theorem decimalValue_packedByte (width number : Nat) :
    decimalValue width (fun index => packedByte (number / 100 ^ index)) =
      number % 100 ^ width := by
  induction width generalizing number with
  | zero => simp [decimalValue, Nat.mod_one]
  | succ width ih =>
      have rest (index : Nat) : number / 100 ^ (index + 1) = number / 100 / 100 ^ index := by
        rw [pow_succ', Nat.div_div_eq_div_mul]
      simp only [decimalValue, pow_zero, Nat.div_one, rest, ih, (packedByte_digits number).2]
      rw [pow_succ', Nat.mod_mul]

/-- A number with two digits for each byte is packed without loss. -/
theorem fillsDigits (mem : Nat → UInt8) (dst : Nat) {len : UInt8} {dec : UInt64}
    (fits : dec.toNat < 10 ^ (2 * len.toNat)) : FillsDigits mem dst len dec := by
  have room : len = 0 → dec = 0 := by
    rintro rfl
    exact UInt64.toNat_inj.mp (Nat.lt_one_iff.mp fits)
  obtain ⟨bytes, kept⟩ := @decToBCD_bytes mem dst len dec room
  refine ⟨fun place inside => ?_, ?_, kept⟩
  · rw [bytes place inside]
    exact (packedByte_digits _).1
  · rw [decimalValue_congr bytes, decimalValue_packedByte]
    rw [pow_mul] at fits
    exact Nat.mod_eq_of_lt fits

/-! ### The round trips -/

section

variable {Word : Type} {conversions : Conversions Word}

/-- Conversions that read the digits of one base in the other one undo each other. -/
theorem roundTrips_of (injective : Function.Injective conversions.toNat)
    (bounded : ∀ word, conversions.toNat word < 16 ^ (2 * conversions.size))
    (toDEC : ∀ bcd, conversions.toNat (conversions.getBCDToDEC bcd) =
      Numerals.rebase 16 10 (conversions.toNat bcd))
    (toBCD : ∀ dec, conversions.toNat (conversions.getDECToBCD dec) =
      Numerals.rebase 10 16 (conversions.toNat dec % 10 ^ (2 * conversions.size)))
    (bcdInPlace : ∀ bcd, conversions.bcdToDEC bcd = conversions.getBCDToDEC bcd)
    (decInPlace : ∀ mem pointer dec,
      LittleEndian.value conversions.size (fun place => mem (pointer + place)) =
        conversions.toNat dec →
      conversions.toNat dec < 10 ^ (2 * conversions.size) →
      LittleEndian.value conversions.size
          (fun place => conversions.decToBCD mem pointer (pointer + place)) =
        Numerals.rebase 10 16 (conversions.toNat dec) ∧
      ∀ place, place < pointer ∨ pointer + conversions.size ≤ place →
        conversions.decToBCD mem pointer place = mem place) :
    BcdRoundTrips conversions := by
  refine ⟨fun dec fits => ?_, fun bcd digits => ?_, bcdInPlace, ?_⟩
  · apply injective
    rw [toDEC, toBCD, Nat.mod_eq_of_lt fits]
    exact Numerals.rebase_rebase (by decide) fun digit member =>
      Nat.lt_trans (Nat.digits_lt_base (by decide) member) (by decide)
  · have decimal : ∀ digit ∈ Nat.digits 16 (conversions.toNat bcd), digit < 10 :=
      (Numerals.forall_digits_iff (by decide) (by decide) (bounded bcd)).mpr
        fun position inside => Nat.lt_succ_of_le (digits position inside)
    apply injective
    rw [toBCD, toDEC, Nat.mod_eq_of_lt
      (Numerals.rebase_lt (by decide) (by decide) decimal (bounded bcd))]
    exact Numerals.rebase_rebase (by decide) decimal
  · intro mem pointer dec stored fits
    obtain ⟨value, kept⟩ := decInPlace mem pointer dec stored fits
    rw [toBCD, Nat.mod_eq_of_lt fits]
    exact ⟨value, kept⟩

/-- `DECToBCD` over the word at a pointer. -/
theorem decToBCDAt_eq {size : UInt8} (nonempty : size ≠ 0) (wide : size.toNat ≤ 8)
    {mem : Nat → UInt8} {pointer number : Nat}
    (stored : LittleEndian.value size.toNat (fun place => mem (pointer + place)) = number)
    (fits : number < 10 ^ (2 * size.toNat)) :
    LittleEndian.value size.toNat
        (fun place => decToBCDAt size mem pointer (pointer + place)) =
      Numerals.rebase 10 16 number ∧
    ∀ place, place < pointer ∨ pointer + size.toNat ≤ place →
      decToBCDAt size mem pointer place = mem place := by
  have room : size = 0 → UInt64.ofNat number = 0 := fun empty => absurd empty nonempty
  have below : number < 2 ^ 64 := by
    have bytes := LittleEndian.value_lt size.toNat fun place => mem (pointer + place)
    rw [stored] at bytes
    exact bytes.trans_le (Nat.pow_le_pow_right (by decide) wide)
  have value := @value_decToBCD mem pointer size _ room
  rw [UInt64.toNat_ofNat_of_lt' below, Nat.mod_eq_of_lt (by rwa [pow_mul] at fits)] at value
  rw [decToBCDAt, stored]
  exact ⟨value, (decToBCD_bytes room).2⟩

end

/-- The packed digits of a number of two digits. -/
theorem rebase_two {number : Nat} (fits : number < 100) :
    Numerals.rebase 10 16 number = number % 10 + 16 * (number / 10) := by
  have none : Numerals.rebase 10 16 0 = 0 := by simp [Numerals.rebase]
  have highest : number / 10 / 10 = 0 := by omega
  rw [Numerals.rebase_step (by decide) 16 number,
    Numerals.rebase_step (by decide) 16 (number / 10), highest, none]
  omega

theorem decToBCDU8_toNat (dec : UInt8) (fits : dec.toNat < 100) :
    (decToBCDU8 dec).toNat = Numerals.rebase 10 16 dec.toNat := by
  have halves : ∀ dec, dec.toNat < 100 →
      (decToBCDU8 dec).toNat = dec.toNat % 10 + 16 * (dec.toNat / 10) := by
    apply LittleEndian.forall_byte
    decide +kernel
  rw [halves dec fits, rebase_two fits]

/-- The function of the repair of times is the loop for one byte. -/
theorem getDECToBCDU8_eq_loop (dec : UInt8) : getDECToBCDU8 dec = getDECToBCDU8Loop dec := by
  have halves : ∀ dec, (getDECToBCDU8 dec).toNat =
      dec.toNat % 100 % 10 + 16 * (dec.toNat % 100 / 10) := by
    apply LittleEndian.forall_byte
    decide +kernel
  apply UInt8.toNat_inj.mp
  rw [halves, getDECToBCDU8Loop_toNat]
  exact (rebase_two (Nat.mod_lt _ (by decide))).symm

theorem roundTrips_U8 : BcdRoundTrips conversionsU8 := by
  refine roundTrips_of (fun _ _ => UInt8.toNat_inj.mp) UInt8.toNat_lt getBCDToDECU8_toNat
    getDECToBCDU8Loop_toNat (fun _ => rfl) fun mem pointer dec stored fits => ?_
  have here : mem pointer = dec := UInt8.toNat_inj.mp stored
  refine ⟨?_, fun place outside => Function.update_of_ne ?_ _ _⟩
  · change (Function.update mem pointer (decToBCDU8 (mem pointer)) pointer).toNat = _
    rw [Function.update_self, here]
    exact decToBCDU8_toNat dec fits
  · rcases outside with below | above
    · exact Nat.ne_of_lt below
    · exact Nat.ne_of_gt above

theorem roundTrips_U16 : BcdRoundTrips conversionsU16 :=
  roundTrips_of (fun _ _ => UInt16.toNat_inj.mp) UInt16.toNat_lt getBCDToDECU16_toNat
    getDECToBCDU16_toNat (fun _ => rfl) fun mem pointer dec =>
      @decToBCDAt_eq 2 (by decide) (by decide) mem pointer dec.toNat

theorem roundTrips_U32 : BcdRoundTrips conversionsU32 :=
  roundTrips_of (fun _ _ => UInt32.toNat_inj.mp) UInt32.toNat_lt getBCDToDECU32_toNat
    getDECToBCDU32_toNat (fun _ => rfl) fun mem pointer dec =>
      @decToBCDAt_eq 4 (by decide) (by decide) mem pointer dec.toNat

theorem roundTrips_U64 : BcdRoundTrips conversionsU64 :=
  roundTrips_of (fun _ _ => UInt64.toNat_inj.mp) UInt64.toNat_lt bcdToDECU64_toNat
    getDECToBCDU64_toNat (fun _ => rfl) fun mem pointer dec =>
      @decToBCDAt_eq 8 (by decide) (by decide) mem pointer dec.toNat

/-- Decimal numbers and packed digits are converted into each other without loss. -/
theorem bcd_roundTrip (mem : Nat → UInt8) (dst : Nat) (len : UInt8) (dec : UInt64)
    (fits : dec.toNat < 10 ^ (2 * len.toNat)) :
    FillsDigits mem dst len dec ∧ BcdRoundTrips conversionsU8 ∧ BcdRoundTrips conversionsU16 ∧
      BcdRoundTrips conversionsU32 ∧ BcdRoundTrips conversionsU64 :=
  ⟨fillsDigits mem dst fits, roundTrips_U8, roundTrips_U16, roundTrips_U32, roundTrips_U64⟩

/-- The witness 1959 in two bytes. -/
theorem bcd_roundTrip_two :
    (1959 : UInt64).toNat < 10 ^ (2 * (2 : UInt8).toNat) ∧
      FillsDigits (fun _ => 0xAA) 3 2 1959 ∧ BcdRoundTrips conversionsU8 ∧
      BcdRoundTrips conversionsU16 ∧ BcdRoundTrips conversionsU32 ∧ BcdRoundTrips conversionsU64 :=
  ⟨by decide, bcd_roundTrip (fun _ => 0xAA) 3 2 1959 (by decide)⟩

end LedFirmware
