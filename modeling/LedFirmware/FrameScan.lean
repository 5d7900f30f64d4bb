import Mathlib.Algebra.Group.Nat.Defs
import Mathlib.Order.Nat
import Mathlib.Tactic.ByContra

/-!
# The frame scan

All four protocol handlers start with the same loop, which looks for a frame in
the received bytes.  The scan here reads a memory that may refuse an index, so
that a buffer of `len` bytes refuses what lies behind it, while the memory of
the machine refuses nothing.
-/

namespace LedFirmware

/-- The four handlers that scan for a frame. -/
inductive Protocol
  | appCan500
  | appUart
  | iapUart
  | iapCan500
  deriving DecidableEq

def canCommProtocolMaxLen : Nat := 1460

def commProtocolMaxLen : Nat := 1280

def Protocol.maxLen : Protocol → Nat
  | .appCan500 | .iapCan500 => canCommProtocolMaxLen
  | .appUart | .iapUart => commProtocolMaxLen

def commProtocolMinLen : Nat := 8

def commProtocolHead : UInt8 := 0xFE

def commProtocolTail : UInt8 := 0xBE

/-- A memory that may refuse to read an index. -/
abbrev CheckedMem := Nat → Option UInt8

/-- A buffer that refuses every index from its length on. -/
def checked (buf : Nat → UInt8) (len : Nat) : CheckedMem :=
  fun index => if index < len then some (buf index) else none

/-- The memory from the start of a buffer on, whatever lies behind the buffer. -/
def unchecked (buf : Nat → UInt8) : CheckedMem := fun index => some (buf index)

/-- How a scan ends: wait for more bytes, reject the bytes before an index, or
accept the frame at an index. -/
inductive ScanEnd
  | waiting
  | reject (delLen : Nat)
  | accept (i dataLen : Nat)
  deriving DecidableEq

/-- One iteration of the loop: go on at an index, or return. -/
inductive ScanStep
  | advance (i : Nat)
  | stop (result : ScanEnd)

/-- A scan with an iteration budget has ended, has read behind the buffer, or is
still running. -/
inductive ScanRun
  | ended (result : ScanEnd)
  | outOfBounds
  | running
  deriving DecidableEq

/-- Differences and sums of `u32` values. -/
def sub32 (a b : Nat) : Nat := (a + 2 ^ 32 - b) % 2 ^ 32

def add32 (a b : Nat) : Nat := (a + b) % 2 ^ 32

/-- `Get_Sum8` of `len` bytes from `start` on, added to `sum`. -/
def getSum8 (memory : CheckedMem) : (len start : Nat) → (sum : UInt8) → Option UInt8
  | 0, _, sum => some sum
  | len + 1, start, sum => memory start >>= fun byte => getSum8 memory len (start + 1) (sum + byte)

/-- The inner loop: the first head among `count` bytes from `i` on, or the index
behind them. -/
def nextHead (memory : CheckedMem) : (count i : Nat) → Option Nat
  | 0, i => some i
  | count + 1, i =>
      memory i >>= fun byte =>
      if byte = commProtocolHead then some i else nextHead memory count (i + 1)

/-- An iteration at a byte that is not a head. -/
def skipStep (memory : CheckedMem) (len i : Nat) : Option ScanStep :=
  nextHead memory (len - add32 i 1) (add32 i 1) >>= fun next =>
  if commProtocolMinLen ≤ sub32 len next then some (.advance next)
  else some (.stop (.reject next))

/-- An iteration at a head. -/
def frameStep (protocol : Protocol) (memory : CheckedMem) (len i : Nat) : Option ScanStep :=
  memory (i + 2) >>= fun high => memory (i + 1) >>= fun low =>
  let dataLen := high.toNat * 256 + low.toNat
  if dataLen > protocol.maxLen ∨ dataLen < commProtocolMinLen then some (.advance (add32 i 1))
  else if sub32 len i < dataLen then
    some (.stop (if i = 0 then .waiting else .reject i))
  else
    memory (i + dataLen - 1) >>= fun tail =>
    if tail = commProtocolTail then
      memory (i + dataLen - 2) >>= fun sum =>
      getSum8 memory (dataLen - 3) (i + 1) 0 >>= fun computed =>
      if sum = computed then some (.stop (.accept i dataLen)) else some (.advance (add32 i 1))
    else some (.advance (add32 i 1))

def scanStep (protocol : Protocol) (memory : CheckedMem) (len i : Nat) : Option ScanStep :=
  memory i >>= fun byte =>
  if byte ≠ commProtocolHead then skipStep memory len i else frameStep protocol memory len i

/-- The loop from index `i` on. -/
def scan (protocol : Protocol) (memory : CheckedMem) (len : Nat) : (fuel i : Nat) → ScanRun
  | 0, _ => .running
  | fuel + 1, i =>
      match scanStep protocol memory len i with
      | none => .outOfBounds
      | some (.advance next) => scan protocol memory len fuel next
      | some (.stop result) => .ended result

/-! ## Frames -/

section Frames

variable (protocol : Protocol) (buf : Nat → UInt8) (len i : Nat)

/-- The length field of a frame at an index. -/
def frameLen : Nat := (buf (i + 2)).toNat * 256 + (buf (i + 1)).toNat

/-- The tail and checksum test of the scan. -/
def Closed : Prop :=
  buf (i + frameLen buf i - 1) = commProtocolTail ∧
    getSum8 (unchecked buf) (frameLen buf i - 3) (i + 1) 0 = some (buf (i + frameLen buf i - 2))

/-- The scan returns at this index: a head with a legal length, and the frame is
incomplete or closed. -/
def EndsScan : Prop :=
  buf i = commProtocolHead ∧ commProtocolMinLen ≤ frameLen buf i ∧
    frameLen buf i ≤ protocol.maxLen ∧ (len < i + frameLen buf i ∨ Closed buf i)

/-- A complete frame lies at the index. -/
structure FrameAt : Prop where
  head : buf i = commProtocolHead
  lower : commProtocolMinLen ≤ frameLen buf i
  upper : frameLen buf i ≤ protocol.maxLen
  inside : i + frameLen buf i ≤ len
  closed : Closed buf i

/-- What an iteration inside the buffer can do. -/
inductive Steps : ScanStep → Prop
  | skip {next : Nat} (noHead : ∀ index, i ≤ index → index < next → buf index ≠ commProtocolHead)
      (later : i < next) (room : next + commProtocolMinLen ≤ len)
      (found : buf next = commProtocolHead) : Steps (.advance next)
  | exhausted {next : Nat}
      (noHead : ∀ index, i ≤ index → index < next → buf index ≠ commProtocolHead)
      (later : i < next) (inside : next ≤ len) (short : len < next + commProtocolMinLen) :
      Steps (.stop (.reject next))
  | noFrame (head : buf i = commProtocolHead) (continues : ¬ EndsScan protocol buf len i) :
      Steps (.advance (i + 1))
  | incomplete (head : buf i = commProtocolHead) (lower : commProtocolMinLen ≤ frameLen buf i)
      (upper : frameLen buf i ≤ protocol.maxLen) (short : len < i + frameLen buf i) :
      Steps (.stop (if i = 0 then .waiting else .reject i))
  | complete (frame : FrameAt protocol buf len i) : Steps (.stop (.accept i (frameLen buf i)))

end Frames

variable {protocol : Protocol} {buf : Nat → UInt8} {len i : Nat}

theorem add32_one (inside : i < len) (bound : len < 2 ^ 32) : add32 i 1 = i + 1 :=
  Nat.mod_eq_of_lt (by omega)

theorem sub32_le {a b : Nat} (ordered : b ≤ a) (bound : a < 2 ^ 32) : sub32 a b = a - b := by
  rw [sub32]
  omega

theorem checked_inside {index : Nat} (inside : index < len) :
    checked buf len index = some (buf index) := if_pos inside

theorem checked_outside {index : Nat} (outside : len ≤ index) : checked buf len index = none :=
  if_neg (by omega)

theorem unchecked_apply (index : Nat) : unchecked buf index = some (buf index) := rfl

/-- Inside the buffer the sum does not depend on what lies behind. -/
theorem getSum8_checked {count start : Nat} (sum : UInt8) (inside : start + count ≤ len) :
    getSum8 (checked buf len) count start sum = getSum8 (unchecked buf) count start sum := by
  induction count generalizing start sum with
  | zero => rfl
  | succ count ih =>
      rw [getSum8, getSum8, checked_inside (by omega)]
      exact ih _ (by omega)

theorem getSum8_unchecked (count start : Nat) (sum : UInt8) :
    ∃ total, getSum8 (unchecked buf) count start sum = some total := by
  induction count generalizing start sum with
  | zero => exact ⟨sum, rfl⟩
  | succ count ih => exact ih (start + 1) (sum + buf start)

/-- The checksum depends on the summed bytes only. -/
theorem getSum8_congr {other : Nat → UInt8} {count start : Nat} (sum : UInt8)
    (same : ∀ index, start ≤ index → index < start + count → buf index = other index) :
    getSum8 (unchecked buf) count start sum = getSum8 (unchecked other) count start sum := by
  induction count generalizing start sum with
  | zero => rfl
  | succ count ih =>
      simp only [getSum8, unchecked_apply, Option.bind_eq_bind, Option.bind_some,
        same start le_rfl (by omega)]
      exact ih _ fun index lower upper => same index (by omega) (by omega)

theorem nextHead_checked {count start : Nat} (whole : start + count = len) :
    ∃ next, nextHead (checked buf len) count start = some next ∧ start ≤ next ∧ next ≤ len ∧
      (∀ index, start ≤ index → index < next → buf index ≠ commProtocolHead) ∧
      (next < len → buf next = commProtocolHead) := by
  induction count generalizing start with
  | zero => exact ⟨start, rfl, le_rfl, by omega, by omega, by omega⟩
  | succ count ih =>
      rw [nextHead, checked_inside (by omega)]
      by_cases head : buf start = commProtocolHead
      · exact ⟨start, if_pos head, le_rfl, by omega, by omega, fun _ => head⟩
      · obtain ⟨next, found, later, inside, between, stopped⟩ :=
          ih (show start + 1 + count = len by omega)
        refine ⟨next, (if_neg head).trans found, by omega, inside, ?_, stopped⟩
        intro index lower upper
        rcases Nat.eq_or_lt_of_le lower with rfl | beyond
        · exact head
        · exact between index beyond upper

theorem skipStep_checked (bound : len < 2 ^ 32) (inside : i < len)
    (noHead : buf i ≠ commProtocolHead) :
    ∃ step, skipStep (checked buf len) len i = some step ∧ Steps protocol buf len i step := by
  obtain ⟨next, found, later, within, between, stopped⟩ :=
    @nextHead_checked buf len (len - (i + 1)) (i + 1) (by omega)
  have skipped (index : Nat) (lower : i ≤ index) (upper : index < next) :
      buf index ≠ commProtocolHead := by
    rcases Nat.eq_or_lt_of_le lower with rfl | beyond
    · exact noHead
    · exact between index beyond upper
  rw [skipStep, add32_one inside bound, found, Option.bind_eq_bind, Option.bind_some,
    sub32_le within bound]
  by_cases room : commProtocolMinLen ≤ len - next
  · have positive : 0 < commProtocolMinLen := by decide
    rw [if_pos room]
    exact ⟨_, rfl, .skip skipped (by omega) (by omega) (stopped (by omega))⟩
  · rw [if_neg room]
    exact ⟨_, rfl, .exhausted skipped (by omega) within (by omega)⟩

theorem frameStep_checked (bound : len < 2 ^ 32) (inside : i + 2 < len)
    (head : buf i = commProtocolHead) :
    ∃ step, frameStep protocol (checked buf len) len i = some step ∧
      Steps protocol buf len i step := by
  have lengthField : (buf (i + 2)).toNat * 256 + (buf (i + 1)).toNat = frameLen buf i := rfl
  rw [frameStep, checked_inside inside, checked_inside (by omega),
    add32_one (show i < len by omega) bound, sub32_le (show i ≤ len by omega) bound]
  simp only [Option.bind_eq_bind, Option.bind_some, lengthField]
  by_cases illegal : frameLen buf i > protocol.maxLen ∨ frameLen buf i < commProtocolMinLen
  · rw [if_pos illegal]
    refine ⟨_, rfl, .noFrame head ?_⟩
    rintro ⟨-, lower, upper, -⟩
    omega
  · rw [if_neg illegal]
    rw [not_or, not_lt, not_lt] at illegal
    obtain ⟨upper, lower⟩ := illegal
    by_cases short : len - i < frameLen buf i
    · rw [if_pos short]
      exact ⟨_, rfl, .incomplete head lower upper (by omega)⟩
    · have minimum : 3 < commProtocolMinLen := by decide
      rw [if_neg short, checked_inside (by omega), checked_inside (by omega),
        getSum8_checked 0 (by omega)]
      obtain ⟨total, computed⟩ := @getSum8_unchecked buf (frameLen buf i - 3) (i + 1) 0
      simp only [Option.bind_some, computed]
      by_cases tail : buf (i + frameLen buf i - 1) = commProtocolTail
      · rw [if_pos tail]
        by_cases sum : buf (i + frameLen buf i - 2) = total
        · rw [if_pos sum]
          exact ⟨_, rfl, .complete ⟨head, lower, upper, by omega, tail,
            computed.trans (congrArg some sum.symm)⟩⟩
        · rw [if_neg sum]
          refine ⟨_, rfl, .noFrame head ?_⟩
          rintro ⟨-, -, -, incomplete | ⟨-, closed⟩⟩
          · omega
          · exact sum (Option.some.inj (closed.symm.trans computed))
      · rw [if_neg tail]
        refine ⟨_, rfl, .noFrame head ?_⟩
        rintro ⟨-, -, -, incomplete | ⟨closed, -⟩⟩
        · omega
        · exact tail closed

/-- An iteration that does not read a length field behind the buffer stays
inside the buffer. -/
theorem scanStep_checked (bound : len < 2 ^ 32) (inside : i < len)
    (readable : buf i = commProtocolHead → i + 2 < len) :
    ∃ step, scanStep protocol (checked buf len) len i = some step ∧
      Steps protocol buf len i step := by
  rw [scanStep, checked_inside inside, Option.bind_eq_bind, Option.bind_some]
  by_cases head : buf i = commProtocolHead
  · rw [if_neg (not_not.mpr head)]
    exact frameStep_checked bound (readable head) head
  · rw [if_pos head]
    exact skipStep_checked bound inside head

end LedFirmware
