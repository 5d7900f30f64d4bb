import LedFirmware.FlashWrite
import Mathlib.Data.List.GetD

/-!
# Strings that end with a zero byte

A string is the list of its characters.  A function that reads a string takes one; a
function that writes a string changes a memory, in which the string then lies.
-/

namespace LedFirmware

open NorFlash

structure CString where
  chars : List UInt8
  noNul : 0 ∉ chars

/-- What a reader of the string may read: its characters and the zero byte. -/
def CString.bytes (text : CString) : List UInt8 := text.chars ++ [0]

/-- The string lies at the start of a memory, with the zero byte behind it. -/
def CString.At (text : CString) (mem : Nat → UInt8) : Prop :=
  ∀ index ≤ text.chars.length, mem index = bufferOf text.chars index

/-- `StrLen`, which counts the characters before the zero byte. -/
def strLen (str : CString) : Nat := str.chars.length

variable {mem : Nat → UInt8} {first second : CString}

theorem CString.At.inside {text : CString} (lies : text.At mem) {index : Nat}
    (inside : index < text.chars.length) : mem index = text.chars[index] := by
  rw [lies index (Nat.le_of_lt inside), bufferOf, List.getD_eq_getElem _ _ inside]

theorem CString.At.ne_zero {text : CString} (lies : text.At mem) {index : Nat}
    (inside : index < text.chars.length) : mem index ≠ 0 := by
  rw [lies.inside inside]
  exact fun zero => text.noNul (zero ▸ List.getElem_mem inside)

theorem CString.At.ends {text : CString} (lies : text.At mem) : mem text.chars.length = 0 := by
  rw [lies _ le_rfl, bufferOf, List.getD_eq_default _ _ le_rfl]

/-- A zero byte behind its characters makes a string. -/
theorem CString.at_terminated {text : CString}
    (inside : ∀ index < text.chars.length, mem index = bufferOf text.chars index) :
    text.At (Function.update mem text.chars.length 0) := by
  intro index within
  rcases Nat.lt_or_eq_of_le within with before | rfl
  · rw [Function.update_of_ne (Nat.ne_of_lt before), inside index before]
  · rw [Function.update_self, bufferOf, List.getD_eq_default _ _ (Nat.le_refl _)]

/-- A string is not longer than another one at the same place. -/
theorem CString.At.length_le (lies : first.At mem) (lies' : second.At mem) :
    first.chars.length ≤ second.chars.length := by
  by_contra longer
  have inside : second.chars.length < first.chars.length := Nat.lt_of_not_le longer
  exact lies.ne_zero inside lies'.ends

/-- A string begins with characters that lie at its place. -/
theorem CString.At.begins {text : CString} (lies : text.At mem) {chars : List UInt8}
    (noNul : 0 ∉ chars) (same : ∀ index < chars.length, mem index = bufferOf chars index) :
    chars <+: text.chars := by
  have cell {index : Nat} (inside : index < chars.length) : mem index = chars[index] := by
    rw [same index inside, bufferOf, List.getD_eq_getElem _ _ inside]
  have shorter : chars.length ≤ text.chars.length := by
    by_contra longer
    have inside := Nat.lt_of_not_le longer
    have zero : chars[text.chars.length] = 0 := by rw [← cell inside, lies.ends]
    exact noNul (zero ▸ List.getElem_mem inside)
  rw [List.prefix_iff_eq_take]
  apply List.ext_getElem
  · rw [List.length_take, Nat.min_eq_left shorter]
  · intro index inside inside'
    rw [List.getElem_take, ← cell inside, lies.inside]

/-- A memory holds one string at its start. -/
theorem CString.At.unique (lies : first.At mem) (lies' : second.At mem) : first = second := by
  have length : first.chars.length = second.chars.length :=
    Nat.le_antisymm (lies.length_le lies') (lies'.length_le lies)
  have chars : first.chars = second.chars :=
    List.ext_getElem length fun index inside inside' => by
      rw [← lies.inside inside, ← lies'.inside inside']
  cases first
  cases second
  cases chars
  rfl

end LedFirmware
