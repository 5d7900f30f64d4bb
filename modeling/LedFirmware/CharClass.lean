import LedFirmware.LittleEndian

/-!
# Character classes

The table `CType` of the tools module and the macros that look a character up in it.
The upper half of the table classes the characters of Latin-1.
-/

namespace LedFirmware

/-! The flags of a character: upper, lower, digit, control, punctuation, white space,
hexadecimal digit and hard space. -/

def ctypeU : UInt8 := 0x01
def ctypeL : UInt8 := 0x02
def ctypeD : UInt8 := 0x04
def ctypeC : UInt8 := 0x08
def ctypeP : UInt8 := 0x10
def ctypeS : UInt8 := 0x20
def ctypeX : UInt8 := 0x40
def ctypeSP : UInt8 := 0x80

/-- The table, a row of the source to a line. -/
def cType : List UInt8 :=
  let u := ctypeU
  let l := ctypeL
  let d := ctypeD
  let c := ctypeC
  let p := ctypeP
  let s := ctypeS
  let x := ctypeX
  let sp := ctypeSP
  [c, c, c, c, c, c, c, c,
   c, c ||| s, c ||| s, c ||| s, c ||| s, c ||| s, c, c,
   c, c, c, c, c, c, c, c,
   c, c, c, c, c, c, c, c,
   s ||| sp, p, p, p, p, p, p, p,
   p, p, p, p, p, p, p, p,
   d, d, d, d, d, d, d, d,
   d, d, p, p, p, p, p, p,
   p, u ||| x, u ||| x, u ||| x, u ||| x, u ||| x, u ||| x, u,
   u, u, u, u, u, u, u, u,
   u, u, u, u, u, u, u, u,
   u, u, u, p, p, p, p, p,
   p, l ||| x, l ||| x, l ||| x, l ||| x, l ||| x, l ||| x, l,
   l, l, l, l, l, l, l, l,
   l, l, l, l, l, l, l, l,
   l, l, l, p, p, p, p, c,
   0, 0, 0, 0, 0, 0, 0, 0, 0, 0, 0, 0, 0, 0, 0, 0,
   0, 0, 0, 0, 0, 0, 0, 0, 0, 0, 0, 0, 0, 0, 0, 0,
   s ||| sp, p, p, p, p, p, p, p, p, p, p, p, p, p, p, p,
   p, p, p, p, p, p, p, p, p, p, p, p, p, p, p, p,
   u, u, u, u, u, u, u, u, u, u, u, u, u, u, u, u,
   u, u, u, u, u, u, u, p, u, u, u, u, u, u, u, l,
   l, l, l, l, l, l, l, l, l, l, l, l, l, l, l, l,
   l, l, l, l, l, l, l, p, l, l, l, l, l, l, l, l]

/-! The macros of the same names. -/

def isMask (c : UInt8) : UInt8 := cType.getD c.toNat 0

def isAlpha (c : UInt8) : Bool := isMask c &&& (ctypeU ||| ctypeL) ≠ 0

def isDigit (c : UInt8) : Bool := isMask c &&& ctypeD ≠ 0

def isLower (c : UInt8) : Bool := isMask c &&& ctypeL ≠ 0

def isSpace (c : UInt8) : Bool := isMask c &&& ctypeS ≠ 0

def toUpper (c : UInt8) : UInt8 := if isLower c then c - 0x61 + 0x41 else c

/-- The classes of the characters, range by range. -/
def charMask (c : UInt8) : UInt8 :=
  if c < 0x09 then ctypeC
  else if c < 0x0E then ctypeC ||| ctypeS
  else if c < 0x20 then ctypeC
  else if c = 0x20 then ctypeS ||| ctypeSP
  else if c < 0x30 then ctypeP
  else if c < 0x3A then ctypeD
  else if c < 0x41 then ctypeP
  else if c < 0x47 then ctypeU ||| ctypeX
  else if c < 0x5B then ctypeU
  else if c < 0x61 then ctypeP
  else if c < 0x67 then ctypeL ||| ctypeX
  else if c < 0x7B then ctypeL
  else if c < 0x7F then ctypeP
  else if c = 0x7F then ctypeC
  else if c < 0xA0 then 0
  else if c = 0xA0 then ctypeS ||| ctypeSP
  else if c < 0xC0 then ctypeP
  else if c = 0xD7 ∨ c = 0xF7 then ctypeP
  else if c < 0xDF then ctypeU
  else ctypeL

theorem cType_eq_map :
    cType = (List.range 256).map fun index => charMask (UInt8.ofNat index) := by
  decide +kernel

/-- One walk along the table stands for all its uses. -/
theorem isMask_eq (c : UInt8) : isMask c = charMask c := by
  have inside : c.toNat < 256 := c.toNat_lt
  simp only [isMask, cType_eq_map, List.getD_eq_getElem?_getD, List.getElem?_map,
    List.getElem?_range inside, Option.map_some, Option.getD_some, UInt8.ofNat_toNat]

/-- The number that a character stands for as a digit, in whatever base. -/
def digitOf (c : UInt8) : Option Nat :=
  if 0x30 ≤ c ∧ c ≤ 0x39 then some (c.toNat - 0x30)
  else if 0x41 ≤ c ∧ c ≤ 0x5A then some (c.toNat - 0x41 + 10)
  else if 0x61 ≤ c ∧ c ≤ 0x7A then some (c.toNat - 0x61 + 10)
  else none

/-- White space is the horizontal tab to the carriage return, the space and the hard space. -/
theorem isSpace_iff (c : UInt8) :
    isSpace c = true ↔ 0x09 ≤ c ∧ c ≤ 0x0D ∨ c = 0x20 ∨ c = 0xA0 := by
  rw [isSpace, isMask_eq]
  revert c
  apply LittleEndian.forall_byte
  decide +kernel

theorem isDigit_iff (c : UInt8) : isDigit c = true ↔ 0x30 ≤ c ∧ c ≤ 0x39 := by
  rw [isDigit, isMask_eq]
  revert c
  apply LittleEndian.forall_byte
  decide +kernel

/-- No digit is white space, a sign or the end of a string. -/
theorem digitOf_none {c : UInt8} (other : isSpace c = true ∨ c = 0x2B ∨ c = 0x2D ∨ c = 0) :
    digitOf c = none := by
  rw [isSpace_iff] at other
  revert c
  apply LittleEndian.forall_byte
  decide +kernel

end LedFirmware
