import LedFirmware.BitPatterns
import LedFirmware.CellBlocks
import LedFirmware.LittleEndian

/-!
# Single bits

`BitGet` reads a bit of a value, and the other functions set, clear or invert one: in a value,
in a word at a pointer and in an array of bytes.  `BitValueClr` complements a mask of 32 bits
before it widens it.
-/

namespace LedFirmware

/-! ### Masks of one bit -/

/-- What a target gives for a shift by the width of the operand or more, which the language
leaves open. -/
structure WideShifts where
  /-- Of `1UL` to the left. -/
  long : UInt8 → UInt32
  /-- Of `1ULL` to the left. -/
  longLong : UInt8 → UInt64
  /-- Of a value of 64 bits to the right. -/
  right : UInt64 → UInt8 → UInt64

/-- `1UL << pos` -/
def longMask (wide : WideShifts) (pos : UInt8) : UInt32 :=
  if pos < 32 then 1 <<< pos.toUInt32 else wide.long pos

/-- `1ULL << pos` -/
def bitMask (wide : WideShifts) (pos : UInt8) : UInt64 :=
  if pos < 64 then 1 <<< pos.toUInt64 else wide.longLong pos

/-! ### Bits of a value -/

def bitGet (wide : WideShifts) (value : UInt64) (pos : UInt8) : UInt8 :=
  ((if pos < 64 then value >>> pos.toUInt64 else wide.right value pos) &&& 1).toUInt8

def bitValueSet (wide : WideShifts) (value : UInt64) (pos : UInt8) : UInt64 :=
  value ||| bitMask wide pos

/-- The complement is taken in 32 bits, and widened with zeros. -/
def bitValueClr (wide : WideShifts) (value : UInt64) (pos : UInt8) : UInt64 :=
  value &&& (~~~ longMask wide pos).toUInt64

def bitValueNot (wide : WideShifts) (value : UInt64) (pos : UInt8) : UInt64 :=
  value ^^^ bitMask wide pos

/-! ### Bits of a word in memory -/

/-- The word of some bytes at a pointer. -/
def wordAt (mem : Nat → UInt8) (src : Nat) (width : UInt8) : UInt64 :=
  UInt64.ofNat (LittleEndian.value width.toNat fun index => mem (src + index))

/-- Store a number at a pointer, converted to some bytes. -/
def storeAt (mem : Nat → UInt8) (src : Nat) (width : UInt8) (number : Nat) : Nat → UInt8 :=
  Cells.store src width.toNat (LittleEndian.byte number) mem

/-- Change a word by a mask.  The narrow words are widened to the 32 bits of the mask and
converted back. -/
def bitPointBy (long : UInt32 → UInt32 → UInt32) (longLong : UInt64 → UInt64 → UInt64)
    (wide : WideShifts) (mem : Nat → UInt8) (src : Nat) (pos width : UInt8) : Nat → UInt8 :=
  if width = 1 ∨ width = 2 ∨ width = 4 then
    storeAt mem src width (long (wordAt mem src width).toUInt32 (longMask wide pos)).toNat
  else if width = 8 then
    storeAt mem src width (longLong (wordAt mem src width) (bitMask wide pos)).toNat
  else mem

def bitPointSet : WideShifts → (Nat → UInt8) → Nat → UInt8 → UInt8 → Nat → UInt8 :=
  bitPointBy (fun word mask => word ||| mask) (fun word mask => word ||| mask)

def bitPointClr : WideShifts → (Nat → UInt8) → Nat → UInt8 → UInt8 → Nat → UInt8 :=
  bitPointBy (fun word mask => word &&& ~~~ mask) (fun word mask => word &&& ~~~ mask)

def bitPointNot : WideShifts → (Nat → UInt8) → Nat → UInt8 → UInt8 → Nat → UInt8 :=
  bitPointBy (fun word mask => word ^^^ mask) (fun word mask => word ^^^ mask)

/-! ### Bits of an array of bytes -/

/-- `1 << (index % 8)` -/
def arrayMask (index : UInt16) : UInt32 := 1 <<< (index % 8).toUInt32

/-- Change a byte by a mask, in 32 bits. -/
def byteArrayBitBy (operation : UInt32 → UInt32 → UInt32) (data : Nat → UInt8) (index : UInt16) :
    Nat → UInt8 :=
  Function.update data (index / 8).toNat
    (operation (data (index / 8).toNat).toUInt32 (arrayMask index)).toUInt8

def byteArrayBitSet : (Nat → UInt8) → UInt16 → Nat → UInt8 :=
  byteArrayBitBy fun byte mask => byte ||| mask

def byteArrayBitClr : (Nat → UInt8) → UInt16 → Nat → UInt8 :=
  byteArrayBitBy fun byte mask => byte &&& ~~~ mask

def byteArrayBitGet (data : Nat → UInt8) (index : UInt16) : Bool :=
  ((data (index / 8).toNat).toUInt32 &&& arrayMask index) ≠ 0

/-! ### What it means to change one bit -/

/-- One bit of the words of some width is changed, as `BitGet` observes it. -/
def ChangesBit (wide : WideShifts) (width : Nat) (change : UInt8 → UInt8) (pos : UInt8)
    (before after : UInt64) : Prop :=
  ∀ other : UInt8, other.toNat < width → bitGet wide after other =
    if other = pos then change (bitGet wide before other) else bitGet wide before other

/-- One bit of the word at a pointer is changed, and no byte outside the word. -/
def ChangesBitAt (wide : WideShifts) (change : UInt8 → UInt8) (pos width : UInt8) (src : Nat)
    (before after : Nat → UInt8) : Prop :=
  ChangesBit wide (8 * width.toNat) change pos (wordAt before src width)
      (wordAt after src width) ∧
    ∀ place, place < src ∨ src + width.toNat ≤ place → after place = before place

/-- One bit of an array is given a value, and no other byte is written. -/
def SetsArrayBit (value : Bool) (index : UInt16) (before after : Nat → UInt8) : Prop :=
  (∀ other, byteArrayBitGet after other =
      if other = index then value else byteArrayBitGet before other) ∧
    ∀ place, place ≠ (index / 8).toNat → after place = before place

/-- Each of the operations but `BitValueClr` touches its bit only. -/
structure TouchesOneBit (wide : WideShifts) (value : UInt64) (mem : Nat → UInt8) (src : Nat)
    (data : Nat → UInt8) (pos : UInt8) (index : UInt16) : Prop where
  valueSet : pos < 64 → ChangesBit wide 64 (fun _ => 1) pos value (bitValueSet wide value pos)
  valueNot : pos < 64 →
    ChangesBit wide 64 (fun bit => 1 - bit) pos value (bitValueNot wide value pos)
  pointSet : ∀ width ∈ [1, 2, 4, 8], pos.toNat < 8 * width.toNat →
    ChangesBitAt wide (fun _ => 1) pos width src mem (bitPointSet wide mem src pos width)
  pointClr : ∀ width ∈ [1, 2, 4, 8], pos.toNat < 8 * width.toNat →
    ChangesBitAt wide (fun _ => 0) pos width src mem (bitPointClr wide mem src pos width)
  pointNot : ∀ width ∈ [1, 2, 4, 8], pos.toNat < 8 * width.toNat →
    ChangesBitAt wide (fun bit => 1 - bit) pos width src mem (bitPointNot wide mem src pos width)
  arraySet : SetsArrayBit true index data (byteArrayBitSet data index)
  arrayClr : SetsArrayBit false index data (byteArrayBitClr data index)

/-- The mask of 32 bits keeps what the value has behind its lowest 32 bits. -/
def ClearsOnlyBit (wide : WideShifts) (value : UInt64) (pos : UInt8) : Prop :=
  (∀ bit, 32 ≤ bit → bit ≠ pos.toNat → value.toNat.testBit bit = false) ∧
    (32 ≤ pos → value.toUInt32 &&& wide.long pos = 0)

/-! ### The bits of the masks -/

variable {wide : WideShifts} {value before after : UInt64} {pos : UInt8}

theorem longMask_toNat (inside : pos.toNat < 32) : (longMask wide pos).toNat = 2 ^ pos.toNat := by
  have small : pos < 32 := UInt8.lt_iff_toNat_lt.mpr inside
  have fits : 2 ^ pos.toNat < 2 ^ 32 := Nat.pow_lt_pow_right (by decide) inside
  rw [longMask, if_pos small, UInt32.toNat_shiftLeft, UInt8.toNat_toUInt32,
    Nat.mod_eq_of_lt inside, Nat.shiftLeft_eq, UInt32.toNat_one, Nat.one_mul,
    Nat.mod_eq_of_lt fits]

theorem bitMask_toNat (inside : pos.toNat < 64) : (bitMask wide pos).toNat = 2 ^ pos.toNat := by
  have small : pos < 64 := UInt8.lt_iff_toNat_lt.mpr inside
  have fits : 2 ^ pos.toNat < 2 ^ 64 := Nat.pow_lt_pow_right (by decide) inside
  rw [bitMask, if_pos small, UInt64.toNat_shiftLeft, UInt8.toNat_toUInt64,
    Nat.mod_eq_of_lt inside, Nat.shiftLeft_eq, UInt64.toNat_one, Nat.one_mul,
    Nat.mod_eq_of_lt fits]

/-- A complement has the bits of its width that the mask lacks. -/
theorem testBit_not_32 (mask : UInt32) (bit : Nat) :
    (~~~ mask).toNat.testBit bit = (decide (bit < 32) && !mask.toNat.testBit bit) := by
  rw [← UInt32.toNat_toBitVec, UInt32.toBitVec_not, BitVec.testBit_toNat, BitVec.getLsbD_not,
    ← BitVec.testBit_toNat, UInt32.toNat_toBitVec]

theorem testBit_not_64 (mask : UInt64) (bit : Nat) :
    (~~~ mask).toNat.testBit bit = (decide (bit < 64) && !mask.toNat.testBit bit) := by
  rw [← UInt64.toNat_toBitVec, UInt64.toBitVec_not, BitVec.testBit_toNat, BitVec.getLsbD_not,
    ← BitVec.testBit_toNat, UInt64.toNat_toBitVec]

/-! ### The observation -/

/-- `BitGet` reads a bit. -/
theorem bitGet_eq (inside : pos.toNat < 64) :
    bitGet wide value pos = if value.toNat.testBit pos.toNat = true then 1 else 0 := by
  have small : pos < 64 := UInt8.lt_iff_toNat_lt.mpr inside
  have bit : ((value >>> pos.toUInt64) &&& 1).toNat = (value.toNat.testBit pos.toNat).toNat := by
    rw [UInt64.toNat_and, UInt64.toNat_shiftRight, UInt8.toNat_toUInt64, Nat.mod_eq_of_lt inside,
      Nat.toNat_testBit, Nat.shiftRight_eq_div_pow]
    exact Nat.and_two_pow_sub_one_eq_mod _ 1
  apply UInt8.toNat_inj.mp
  rw [bitGet, if_pos small, UInt64.toNat_toUInt8, bit]
  cases value.toNat.testBit pos.toNat <;> rfl

/-- How a change of the observed bit changes the bits of the value. -/
theorem changesBit_of_update {width : Nat} {new : Bool} {change : UInt8 → UInt8}
    (narrow : width ≤ 64)
    (bits : ∀ bit < width, after.toNat.testBit bit =
      Function.update before.toNat.testBit pos.toNat new bit)
    (changed : change (if before.toNat.testBit pos.toNat = true then 1 else 0) =
      if new = true then 1 else 0) :
    ChangesBit wide width change pos before after := by
  intro other inside
  rw [bitGet_eq (by omega), bitGet_eq (by omega), bits _ inside]
  by_cases here : other = pos
  · rw [here, Function.update_self, if_pos rfl, changed]
  · have apart : other.toNat ≠ pos.toNat := fun same => here (UInt8.toNat_inj.mp same)
    rw [Function.update_of_ne apart, if_neg here]

/-- And the other way around. -/
theorem ChangesBit.testBit {width : Nat} {change : UInt8 → UInt8} (narrow : width ≤ 64)
    (changes : ChangesBit wide width change pos before after) {bit : Nat} (inside : bit < width)
    (apart : bit ≠ pos.toNat) : after.toNat.testBit bit = before.toNat.testBit bit := by
  have small : (UInt8.ofNat bit).toNat = bit := UInt8.toNat_ofNat_of_lt' (by
    change bit < 256
    omega)
  have observed := changes (UInt8.ofNat bit) (by omega)
  have other : UInt8.ofNat bit ≠ pos := fun same => apart (by rw [← small, same])
  rw [if_neg other, bitGet_eq (by omega), bitGet_eq (by omega), small] at observed
  cases one : after.toNat.testBit bit <;> cases one' : before.toNat.testBit bit <;>
    simp [one, one'] at observed ⊢

/-! ### Values -/

/-- How the value of an observed bit is changed. -/
def Changes (change : UInt8 → UInt8) (new : Bool → Bool) : Prop :=
  ∀ bit : Bool, change (if bit = true then 1 else 0) = if new bit = true then 1 else 0

theorem changes_set : Changes (fun _ => 1) fun _ => true := fun _ => rfl

theorem changes_clr : Changes (fun _ => 0) fun _ => false := fun _ => rfl

theorem changes_not : Changes (fun bit => 1 - bit) fun bit => !bit := by
  intro bit
  cases bit <;> rfl

/-- An operation on words of 32 or 64 bits that changes the bit of its mask. -/
def MasksBit {Word : Type} (toNat : Word → Nat) (operation : Word → Word → Word)
    (new : Bool → Bool) : Prop :=
  ∀ word mask pos, toNat mask = 2 ^ pos → (toNat (operation word mask)).testBit =
    Function.update (toNat word).testBit pos (new ((toNat word).testBit pos))

theorem masksBit_or_32 : MasksBit UInt32.toNat (fun word mask => word ||| mask) fun _ => true := by
  intro word mask pos single
  rw [UInt32.toNat_or, single, BitPatterns.testBit_or_two_pow]

theorem masksBit_or_64 : MasksBit UInt64.toNat (fun word mask => word ||| mask) fun _ => true := by
  intro word mask pos single
  rw [UInt64.toNat_or, single, BitPatterns.testBit_or_two_pow]

theorem masksBit_xor_32 : MasksBit UInt32.toNat (fun word mask => word ^^^ mask) (!·) := by
  intro word mask pos single
  rw [UInt32.toNat_xor, single, BitPatterns.testBit_xor_two_pow]

theorem masksBit_xor_64 : MasksBit UInt64.toNat (fun word mask => word ^^^ mask) (!·) := by
  intro word mask pos single
  rw [UInt64.toNat_xor, single, BitPatterns.testBit_xor_two_pow]

theorem masksBit_andNot_32 :
    MasksBit UInt32.toNat (fun word mask => word &&& ~~~ mask) fun _ => false := by
  intro word mask pos single
  rw [UInt32.toNat_and]
  apply BitPatterns.testBit_and_mask
  · intro bit apart one
    have inside : bit < 32 := Nat.lt_of_not_le fun beyond => by
      rw [Nat.testBit_lt_two_pow (word.toNat_lt.trans_le (Nat.pow_le_pow_right (by decide) beyond))]
        at one
      cases one
    rw [testBit_not_32, single, Nat.testBit_two_pow_of_ne (Ne.symm apart), decide_eq_true inside]
    rfl
  · rw [testBit_not_32, single, Nat.testBit_two_pow_self, Bool.not_true, Bool.and_false]

theorem masksBit_andNot_64 :
    MasksBit UInt64.toNat (fun word mask => word &&& ~~~ mask) fun _ => false := by
  intro word mask pos single
  rw [UInt64.toNat_and]
  apply BitPatterns.testBit_and_mask
  · intro bit apart one
    have inside : bit < 64 := Nat.lt_of_not_le fun beyond => by
      rw [Nat.testBit_lt_two_pow (word.toNat_lt.trans_le (Nat.pow_le_pow_right (by decide) beyond))]
        at one
      cases one
    rw [testBit_not_64, single, Nat.testBit_two_pow_of_ne (Ne.symm apart), decide_eq_true inside]
    rfl
  · rw [testBit_not_64, single, Nat.testBit_two_pow_self, Bool.not_true, Bool.and_false]

/-- A value is changed by a mask of 64 bits. -/
theorem changesBit_value {operation : UInt64 → UInt64 → UInt64} {change : UInt8 → UInt8}
    {new : Bool → Bool} (changes : Changes change new)
    (masks : MasksBit UInt64.toNat operation new) (inside : pos < 64) :
    ChangesBit wide 64 change pos value (operation value (bitMask wide pos)) := by
  have small : pos.toNat < 64 := UInt8.lt_iff_toNat_lt.mp inside
  exact changesBit_of_update (Nat.le_refl 64)
    (fun bit _ => congrFun (masks value _ _ (bitMask_toNat small)) bit) (changes _)

/-- What is left by a mask of 32 bits. -/
theorem testBit_bitValueClr (bit : Nat) :
    (bitValueClr wide value pos).toNat.testBit bit = (value.toNat.testBit bit &&
      (decide (bit < 32) && !(longMask wide pos).toNat.testBit bit)) := by
  rw [bitValueClr, UInt64.toNat_and, Nat.testBit_and, UInt32.toNat_toUInt64, testBit_not_32]

/-- The low bits of a value and a mask have none in common. -/
theorem and_eq_zero_iff (value : UInt64) (mask : UInt32) : value.toUInt32 &&& mask = 0 ↔
    ∀ bit < 32, value.toNat.testBit bit = true → mask.toNat.testBit bit = false := by
  have common (bit : Nat) : (value.toUInt32 &&& mask).toNat.testBit bit =
      ((decide (bit < 32) && value.toNat.testBit bit) && mask.toNat.testBit bit) := by
    rw [UInt32.toNat_and, Nat.testBit_and, UInt64.toNat_toUInt32, Nat.testBit_mod_two_pow]
  constructor
  · intro none bit low one
    have shared := common bit
    rw [none, one, decide_eq_true low] at shared
    simpa using shared.symm
  · intro apart
    apply UInt32.toNat_inj.mp
    apply Nat.eq_of_testBit_eq
    intro bit
    rw [common, UInt32.toNat_zero, Nat.zero_testBit]
    by_cases low : bit < 32
    · cases one : value.toNat.testBit bit with
      | false => simp
      | true => simp [apart bit low one]
    · simp [low]

theorem ChangesBit.clearsOnlyBit
    (changes : ChangesBit wide 64 (fun _ => 0) pos value (bitValueClr wide value pos)) :
    ClearsOnlyBit wide value pos := by
  refine ⟨fun bit behind apart => ?_, fun wider => (and_eq_zero_iff _ _).mpr fun bit low one => ?_⟩
  · rcases Nat.lt_or_ge bit 64 with within | beyond
    · rw [← changes.testBit (Nat.le_refl 64) within apart, testBit_bitValueClr,
        decide_eq_false (by omega)]
      simp
    · exact Nat.testBit_lt_two_pow
        (value.toNat_lt.trans_le (Nat.pow_le_pow_right (by decide) beyond))
  · have place : 32 ≤ pos.toNat := UInt8.le_iff_toNat_le.mp wider
    have same := changes.testBit (Nat.le_refl 64) (by omega : bit < 64) (by omega)
    rw [testBit_bitValueClr, longMask, if_neg (UInt8.not_lt.mpr wider), one] at same
    simpa [low] using same

theorem ClearsOnlyBit.changesBit (clears : ClearsOnlyBit wide value pos) :
    ChangesBit wide 64 (fun _ => 0) pos value (bitValueClr wide value pos) := by
  obtain ⟨zero, apart⟩ := clears
  refine changesBit_of_update (Nat.le_refl 64) (fun bit _ => ?_)
    (changes_clr (value.toNat.testBit pos.toNat))
  have small : pos < 32 ↔ pos.toNat < 32 := UInt8.lt_iff_toNat_lt
  rw [testBit_bitValueClr]
  by_cases here : bit = pos.toNat
  · subst here
    rw [Function.update_self]
    by_cases low : pos.toNat < 32
    · rw [longMask_toNat low, Nat.testBit_two_pow_self]
      simp
    · simp [low]
  · rw [Function.update_of_ne here]
    by_cases behind : 32 ≤ bit
    · simp [zero bit behind here]
    · have low : bit < 32 := Nat.lt_of_not_le behind
      by_cases narrow : pos.toNat < 32
      · simp [longMask_toNat narrow, Nat.testBit_two_pow_of_ne (Ne.symm here), low]
      · have unshifted : ¬ pos < 32 := narrow ∘ small.mp
        have none := (and_eq_zero_iff _ _).mp (apart (UInt8.not_lt.mp unshifted)) bit low
        cases one : value.toNat.testBit bit with
        | false => rfl
        | true => simp [longMask, unshifted, low, none one]

/-! ### Words in memory -/

section

variable {mem : Nat → UInt8} {src : Nat} {width : UInt8}

theorem wordAt_toNat (narrow : width.toNat ≤ 8) : (wordAt mem src width).toNat =
    LittleEndian.value width.toNat fun index => mem (src + index) :=
  UInt64.toNat_ofNat_of_lt' ((LittleEndian.value_lt _ _).trans_le
    (Nat.pow_le_pow_right (by decide : 0 < 256) narrow))

/-- A stored number is read back with the bits of its width. -/
theorem testBit_wordAt_storeAt (narrow : width.toNat ≤ 8) (number : Nat) {bit : Nat}
    (inside : bit < 8 * width.toNat) :
    (wordAt (storeAt mem src width number) src width).toNat.testBit bit = number.testBit bit := by
  have stored : LittleEndian.value width.toNat
      (fun index => storeAt mem src width number (src + index)) =
        LittleEndian.value width.toNat (LittleEndian.byte number) := by
    apply LittleEndian.value_congr
    intro index within
    rw [storeAt, Cells.store, if_pos (by omega), Nat.add_sub_cancel_left]
  have bits : 256 ^ width.toNat = 2 ^ (8 * width.toNat) := by
    rw [pow_mul, show 2 ^ 8 = 256 from rfl]
  rw [wordAt_toNat narrow, stored, LittleEndian.value_byte_mod, bits, Nat.testBit_mod_two_pow,
    decide_eq_true inside, Bool.true_and]

theorem storeAt_outside {number place : Nat}
    (outside : place < src ∨ src + width.toNat ≤ place) :
    storeAt mem src width number place = mem place :=
  if_neg (by omega)

/-- A word of any of the four widths is changed at the bit of the mask. -/
theorem changesBitAt_bitPointBy {long : UInt32 → UInt32 → UInt32}
    {longLong : UInt64 → UInt64 → UInt64} {change : UInt8 → UInt8} {new : Bool → Bool}
    (changes : Changes change new) (masks : MasksBit UInt32.toNat long new)
    (masksLong : MasksBit UInt64.toNat longLong new) (member : width ∈ [1, 2, 4, 8])
    (inside : pos.toNat < 8 * width.toNat) :
    ChangesBitAt wide change pos width src mem
      (bitPointBy long longLong wide mem src pos width) := by
  rw [bitPointBy]
  by_cases few : width = 1 ∨ width = 2 ∨ width = 4
  · have bytes : width.toNat ≤ 4 := by rcases few with rfl | rfl | rfl <;> decide
    rw [if_pos few]
    refine ⟨changesBit_of_update (by omega) (fun bit within => ?_) (changes _),
      fun place => storeAt_outside⟩
    have low (bit : Nat) (within : bit < 8 * width.toNat) :
        (wordAt mem src width).toUInt32.toNat.testBit bit =
          (wordAt mem src width).toNat.testBit bit := by
      rw [UInt64.toNat_toUInt32, Nat.testBit_mod_two_pow, decide_eq_true (by omega), Bool.true_and]
    rw [testBit_wordAt_storeAt (by omega) _ within,
      masks _ _ _ (longMask_toNat (by omega : pos.toNat < 32)), low _ inside]
    by_cases here : bit = pos.toNat
    · rw [here, Function.update_self, Function.update_self]
    · rw [Function.update_of_ne here, Function.update_of_ne here, low bit within]
  · have eight : width = 8 := by
      simp only [List.mem_cons, List.not_mem_nil, or_false] at member
      tauto
    subst eight
    rw [if_neg few, if_pos rfl]
    refine ⟨changesBit_of_update (Nat.le_refl 64) (fun bit within => ?_) (changes _),
      fun place => storeAt_outside⟩
    rw [testBit_wordAt_storeAt (by decide) _ within, masksLong _ _ _ (bitMask_toNat inside)]

end

/-! ### Arrays of bytes -/

section

variable {data : Nat → UInt8} {index : UInt16}

theorem arrayMask_toNat (index : UInt16) : (arrayMask index).toNat = 2 ^ (index.toNat % 8) := by
  have inside : index.toNat % 8 < 8 := Nat.mod_lt _ (by decide)
  have fits : 2 ^ (index.toNat % 8) < 2 ^ 32 := Nat.pow_lt_pow_right (by decide) (by omega)
  have place : (index % 8).toUInt32.toNat = index.toNat % 8 := by
    rw [UInt16.toNat_toUInt32, UInt16.toNat_mod]
    rfl
  rw [arrayMask, UInt32.toNat_shiftLeft, place,
    Nat.mod_eq_of_lt (by omega : index.toNat % 8 < 32), Nat.shiftLeft_eq, UInt32.toNat_one,
    Nat.one_mul, Nat.mod_eq_of_lt fits]

theorem byteArrayBitGet_eq (data : Nat → UInt8) (index : UInt16) :
    byteArrayBitGet data index = (data (index.toNat / 8)).toNat.testBit (index.toNat % 8) := by
  have byte : (index / 8).toNat = index.toNat / 8 := UInt16.toNat_div index 8
  have masked : ((data (index / 8).toNat).toUInt32 &&& arrayMask index).toNat =
      ((data (index.toNat / 8)).toNat.testBit (index.toNat % 8)).toNat * 2 ^ (index.toNat % 8) := by
    rw [UInt32.toNat_and, arrayMask_toNat, UInt8.toNat_toUInt32, Nat.and_two_pow, byte]
  rw [byteArrayBitGet, Bool.eq_iff_iff, decide_eq_true_iff, Ne, ← UInt32.toNat_inj, masked,
    UInt32.toNat_zero]
  cases (data (index.toNat / 8)).toNat.testBit (index.toNat % 8) <;> simp

/-- A byte of an array is changed at the bit of the mask. -/
theorem setsArrayBit_of {operation : UInt32 → UInt32 → UInt32} {value : Bool}
    (masks : MasksBit UInt32.toNat operation fun _ => value) :
    SetsArrayBit value index data (byteArrayBitBy operation data index) := by
  have byte : (index / 8).toNat = index.toNat / 8 := UInt16.toNat_div index 8
  refine ⟨fun other => ?_, fun place apart => Function.update_of_ne apart _ _⟩
  rw [byteArrayBitGet_eq, byteArrayBitGet_eq, byteArrayBitBy, byte]
  by_cases same : other.toNat / 8 = index.toNat / 8
  · have bit : other.toNat % 8 < 8 := Nat.mod_lt _ (by decide)
    rw [same, Function.update_self, UInt32.toNat_toUInt8, Nat.testBit_mod_two_pow,
      decide_eq_true bit, Bool.true_and, masks _ _ _ (arrayMask_toNat index)]
    by_cases here : other = index
    · rw [here, Function.update_self, if_pos rfl]
    · have apart : other.toNat % 8 ≠ index.toNat % 8 := fun equal =>
        here (UInt16.toNat_inj.mp (by omega))
      rw [Function.update_of_ne apart, if_neg here, UInt8.toNat_toUInt32]
  · have here : other ≠ index := fun equal => same (by rw [equal])
    rw [Function.update_of_ne same, if_neg here]

end

theorem touchesOneBit (wide : WideShifts) (value : UInt64) (mem : Nat → UInt8) (src : Nat)
    (data : Nat → UInt8) (pos : UInt8) (index : UInt16) :
    TouchesOneBit wide value mem src data pos index where
  valueSet := changesBit_value changes_set masksBit_or_64
  valueNot := changesBit_value changes_not masksBit_xor_64
  pointSet _ := changesBitAt_bitPointBy changes_set masksBit_or_32 masksBit_or_64
  pointClr _ := changesBitAt_bitPointBy changes_clr masksBit_andNot_32 masksBit_andNot_64
  pointNot _ := changesBitAt_bitPointBy changes_not masksBit_xor_32 masksBit_xor_64
  arraySet := setsArrayBit_of masksBit_or_32
  arrayClr := setsArrayBit_of masksBit_andNot_32

/-- The operations touch one bit only, and so does `BitValueClr` just on the values that have no
other bits behind the lowest 32. -/
theorem touchesOneBit_iff (wide : WideShifts) (value : UInt64) (mem : Nat → UInt8) (src : Nat)
    (data : Nat → UInt8) (pos : UInt8) (index : UInt16) :
    TouchesOneBit wide value mem src data pos index ∧
      (ChangesBit wide 64 (fun _ => 0) pos value (bitValueClr wide value pos) ↔
        ClearsOnlyBit wide value pos) :=
  ⟨touchesOneBit wide value mem src data pos index, ChangesBit.clearsOnlyBit,
    ClearsOnlyBit.changesBit⟩

/-- Clearing bit 0 of 2^32 clears the bit at 32. -/
theorem bitValueClr_high : ¬ ∀ (wide : WideShifts) (value : UInt64) (pos : UInt8), pos < 64 →
    ChangesBit wide 64 (fun _ => 0) pos value (bitValueClr wide value pos) := by
  intro changes
  have observed := changes ⟨fun _ => 0, fun _ => 0, fun _ _ => 0⟩ 0x100000000 0 (by decide) 32
    (by decide)
  revert observed
  decide

end LedFirmware
