import LedFirmware.FrameScan

/-!
# When the scan stays in its buffer

Every iteration advances, and a jump to the next head leaves room for a frame,
so only a run of heads at the end of the buffer can carry the scan past it.
`Reaches` is the invariant of the scan index; `RunsOff` describes the buffers on
which the scan reads the length field of a head behind the last byte.
-/

namespace LedFirmware

/-! ## More memory, same result -/

/-- The second memory answers at least what the first one does. -/
def Extends (small big : CheckedMem) : Prop :=
  ∀ index byte, small index = some byte → big index = some byte

theorem checked_extends {buf other : Nat → UInt8} {len : Nat}
    (same : ∀ index < len, other index = buf index) :
    Extends (checked buf len) (unchecked other) := by
  intro index byte answered
  by_cases inside : index < len
  · rw [checked_inside inside] at answered
    rw [unchecked, same index inside]
    exact answered
  · rw [checked_outside (by omega)] at answered
    cases answered

namespace Extends

variable {small big : CheckedMem}

theorem bind {α : Type} (extends' : Extends small big) {index : Nat} {result : α}
    {rest restBig : UInt8 → Option α} (answered : (small index >>= rest) = some result)
    (same : ∀ byte, rest byte = some result → restBig byte = some result) :
    (big index >>= restBig) = some result := by
  obtain ⟨byte, found, continues⟩ := Option.bind_eq_some_iff.mp answered
  exact Option.bind_eq_some_iff.mpr ⟨byte, extends' index byte found, same byte continues⟩

theorem getSum8 (extends' : Extends small big) {count start : Nat} {sum total : UInt8}
    (computed : LedFirmware.getSum8 small count start sum = some total) :
    LedFirmware.getSum8 big count start sum = some total := by
  induction count generalizing start sum with
  | zero => exact computed
  | succ count ih => exact extends'.bind computed fun _ rest => ih rest

theorem nextHead (extends' : Extends small big) {count i next : Nat}
    (found : LedFirmware.nextHead small count i = some next) :
    LedFirmware.nextHead big count i = some next := by
  induction count generalizing i with
  | zero => exact found
  | succ count ih =>
      refine extends'.bind found fun byte rest => ?_
      split at rest
      · rwa [if_pos ‹_›]
      · rw [if_neg ‹_›]
        exact ih rest

theorem skipStep (extends' : Extends small big) {len i : Nat} {step : ScanStep}
    (done : LedFirmware.skipStep small len i = some step) :
    LedFirmware.skipStep big len i = some step := by
  obtain ⟨next, found, rest⟩ := Option.bind_eq_some_iff.mp done
  exact Option.bind_eq_some_iff.mpr ⟨next, extends'.nextHead found, rest⟩

theorem frameStep (extends' : Extends small big) {protocol : Protocol} {len i : Nat}
    {step : ScanStep} (done : LedFirmware.frameStep protocol small len i = some step) :
    LedFirmware.frameStep protocol big len i = some step := by
  refine extends'.bind done fun high afterHigh => extends'.bind afterHigh fun low afterLow => ?_
  simp only at afterLow ⊢
  by_cases illegal : high.toNat * 256 + low.toNat > protocol.maxLen ∨
      high.toNat * 256 + low.toNat < commProtocolMinLen
  · rwa [if_pos illegal] at afterLow ⊢
  · rw [if_neg illegal] at afterLow ⊢
    by_cases short : sub32 len i < high.toNat * 256 + low.toNat
    · rwa [if_pos short] at afterLow ⊢
    · rw [if_neg short] at afterLow ⊢
      refine extends'.bind afterLow fun tail afterTail => ?_
      by_cases closed : tail = commProtocolTail
      · rw [if_pos closed] at afterTail ⊢
        refine extends'.bind afterTail fun sum afterSum => ?_
        obtain ⟨computed, summed, rest⟩ := Option.bind_eq_some_iff.mp afterSum
        exact Option.bind_eq_some_iff.mpr ⟨computed, extends'.getSum8 summed, rest⟩
      · rwa [if_neg closed] at afterTail ⊢

theorem scanStep (extends' : Extends small big) {protocol : Protocol} {len i : Nat}
    {step : ScanStep} (done : LedFirmware.scanStep protocol small len i = some step) :
    LedFirmware.scanStep protocol big len i = some step := by
  refine extends'.bind done fun byte rest => ?_
  split_ifs at rest ⊢ with noHead
  · exact extends'.skipStep rest
  · exact extends'.frameStep rest

theorem scan (extends' : Extends small big) {protocol : Protocol} {len fuel i : Nat}
    {result : ScanEnd} (ended : LedFirmware.scan protocol small len fuel i = .ended result) :
    LedFirmware.scan protocol big len fuel i = .ended result := by
  induction fuel generalizing i with
  | zero => cases ended
  | succ fuel ih =>
      rw [LedFirmware.scan] at ended ⊢
      cases stepped : LedFirmware.scanStep protocol small len i with
      | none => rw [stepped] at ended; cases ended
      | some step =>
          rw [stepped] at ended
          rw [extends'.scanStep stepped]
          cases step with
          | advance next => exact ih ended
          | stop found => exact ended

end Extends

/-! ## The scan index -/

section Invariant

variable (protocol : Protocol) (buf : Nat → UInt8) (len i : Nat)

/-- The scan got to an index without returning; from the last eight bytes on it
passed heads only. -/
structure Reaches : Prop where
  continues : ∀ index < i, ¬ EndsScan protocol buf len index
  inside : i + 1 < len
  heads : ∀ index < i, len ≤ index + commProtocolMinLen → buf index = commProtocolHead

/-- The scan does not return before the last eight bytes, which are seven heads
and a byte that makes the last length field too large. -/
structure RunsOff : Prop where
  continues : ∀ index, index + commProtocolMinLen < len → ¬ EndsScan protocol buf len index
  heads : ∀ index, len ≤ index + commProtocolMinLen → index + 1 < len →
    buf index = commProtocolHead
  long : protocol.maxLen < (buf (len - 1)).toNat * 256 + commProtocolHead.toNat

/-- The scan ends without reading behind the buffer, with a result that the
bytes behind it do not change. -/
def ScansInBounds : Prop :=
  ∃ result, (∃ fuel, scan protocol (checked buf len) len fuel 0 = .ended result) ∧
    ∀ other : Nat → UInt8, (∀ index < len, other index = buf index) →
      ∃ fuel, scan protocol (unchecked other) len fuel 0 = .ended result

end Invariant

variable {protocol : Protocol} {buf : Nat → UInt8} {len i : Nat}

theorem reaches_zero (long : commProtocolMinLen ≤ len) : Reaches protocol buf len 0 := by
  rw [commProtocolMinLen] at long
  exact ⟨by omega, by omega, by omega⟩

theorem not_endsScan_of_noHead {index : Nat} (noHead : buf index ≠ commProtocolHead) :
    ¬ EndsScan protocol buf len index := fun ends => noHead ends.1

/-- An iteration that can read its length field returns or keeps the invariant. -/
theorem step_reaches (bound : len < 2 ^ 32) (reaches : Reaches protocol buf len i)
    (readable : buf i = commProtocolHead → i + 2 < len) :
    (∃ result, scanStep protocol (checked buf len) len i = some (.stop result) ∧
        Steps protocol buf len i (.stop result)) ∨
      ∃ next, scanStep protocol (checked buf len) len i = some (.advance next) ∧ i < next ∧
        Reaches protocol buf len next := by
  obtain ⟨step, stepped, steps⟩ :=
    @scanStep_checked protocol buf len i bound (by have := reaches.inside; omega) readable
  cases steps with
  | @skip next noHead later room found =>
      have minimum : 1 < commProtocolMinLen := by decide
      refine Or.inr ⟨next, stepped, later, ?_, by omega, fun index before last => by omega⟩
      intro index before
      rcases Nat.lt_or_ge index i with early | late
      · exact reaches.continues index early
      · exact not_endsScan_of_noHead (noHead index late before)
  | exhausted noHead later inside short =>
      exact Or.inl ⟨_, stepped, .exhausted noHead later inside short⟩
  | noFrame head continues =>
      refine Or.inr ⟨i + 1, stepped, Nat.lt_succ_self i, ?_, readable head, ?_⟩
      · intro index before
        rcases Nat.eq_or_lt_of_le (Nat.lt_succ_iff.mp before) with rfl | early
        · exact continues
        · exact reaches.continues index early
      · intro index before last
        rcases Nat.eq_or_lt_of_le (Nat.lt_succ_iff.mp before) with rfl | early
        · exact head
        · exact reaches.heads index early last
  | incomplete head lower upper short =>
      exact Or.inl ⟨_, stepped, .incomplete head lower upper short⟩
  | complete frame => exact Or.inl ⟨_, stepped, .complete frame⟩

/-- A scan that reaches a head in the last byte but one has passed heads with
illegal lengths only. -/
theorem runsOff_of_blocked (long : commProtocolMinLen ≤ len)
    (reaches : Reaches protocol buf len i) (head : buf i = commProtocolHead)
    (blocked : len ≤ i + 2) : RunsOff protocol buf len := by
  have inside := reaches.inside
  have minimum : commProtocolMinLen = 8 := rfl
  have heads (index : Nat) (last : len ≤ index + commProtocolMinLen) (before : index + 1 < len) :
      buf index = commProtocolHead := by
    rcases Nat.eq_or_lt_of_le (show index ≤ i by omega) with rfl | early
    · exact head
    · exact reaches.heads index early last
  refine ⟨fun index before => reaches.continues index (by omega), heads, ?_⟩
  by_contra legal
  have field : frameLen buf (len - 3) =
      (buf (len - 1)).toNat * 256 + commProtocolHead.toNat := by
    rw [frameLen, show len - 3 + 2 = len - 1 by omega, show len - 3 + 1 = len - 2 by omega,
      heads (len - 2) (by omega) (by omega)]
  have value : commProtocolHead.toNat = 254 := rfl
  refine reaches.continues (len - 3) (by omega) ⟨heads _ (by omega) (by omega), ?_, ?_, Or.inl ?_⟩
  · omega
  · omega
  · omega

theorem scan_ends (long : commProtocolMinLen ≤ len) (bound : len < 2 ^ 32)
    (stays : ¬ RunsOff protocol buf len) {fuel : Nat} (reaches : Reaches protocol buf len i)
    (enough : len - i ≤ fuel) :
    ∃ result, scan protocol (checked buf len) len fuel i = .ended result := by
  induction fuel generalizing i with
  | zero =>
      have inside := reaches.inside
      omega
  | succ fuel ih =>
      have readable (head : buf i = commProtocolHead) : i + 2 < len := by
        by_contra blocked
        exact stays (runsOff_of_blocked long reaches head (by omega))
      rcases step_reaches bound reaches readable with
        ⟨result, stepped, -⟩ | ⟨next, stepped, later, reachesNext⟩
      · exact ⟨result, by rw [scan, stepped]⟩
      · rw [scan, stepped]
        exact ih reachesNext (by omega)

/-! ## Buffers on which the scan runs off -/

/-- The last length fields are illegal. -/
theorem RunsOff.illegal (runs : RunsOff protocol buf len) {index : Nat}
    (last : len ≤ index + commProtocolMinLen) (before : index + 2 < len) :
    protocol.maxLen < frameLen buf index := by
  have value : commProtocolHead.toNat = 254 := rfl
  have bound : protocol.maxLen ≤ 1460 := by cases protocol <;> decide
  have low := runs.heads (index + 1) (by omega) before
  rw [frameLen, low]
  rcases Nat.eq_or_lt_of_le (Nat.succ_le_of_lt before) with final | inner
  · have long := runs.long
    rw [show len - 1 = index + 2 by omega] at long
    exact long
  · rw [runs.heads (index + 2) (by omega) inner]
    omega

/-- On such a buffer no iteration returns. -/
theorem RunsOff.not_stop (runs : RunsOff protocol buf len)
    (long : commProtocolMinLen ≤ len) (reaches : Reaches protocol buf len i)
    (readable : buf i = commProtocolHead → i + 2 < len) {result : ScanEnd} :
    ¬ Steps protocol buf len i (.stop result) := by
  have inside := reaches.inside
  have minimum : commProtocolMinLen = 8 := rfl
  have goesOn : ¬ EndsScan protocol buf len i := by
    rcases Nat.lt_or_ge (i + commProtocolMinLen) len with early | late
    · exact runs.continues i early
    · rintro ⟨head, -, upper, -⟩
      exact absurd upper (not_le.mpr (runs.illegal late (readable head)))
  intro stops
  cases stops with
  | exhausted noHead later inside short =>
      rcases Nat.lt_or_ge (i + commProtocolMinLen) len with early | late
      · exact noHead (len - 8) (by omega) (by omega) (runs.heads _ (by omega) (by omega))
      · exact noHead i le_rfl later (runs.heads i late reaches.inside)
  | incomplete head lower upper short => exact goesOn ⟨head, lower, upper, Or.inl short⟩
  | complete frame => exact goesOn ⟨frame.head, frame.lower, frame.upper, Or.inr frame.closed⟩

/-- The scan of such a buffer reads behind it. -/
theorem RunsOff.not_ended (runs : RunsOff protocol buf len) (long : commProtocolMinLen ≤ len)
    (bound : len < 2 ^ 32) {fuel : Nat} (reaches : Reaches protocol buf len i)
    (result : ScanEnd) : scan protocol (checked buf len) len fuel i ≠ .ended result := by
  induction fuel generalizing i with
  | zero =>
      intro ended
      cases ended
  | succ fuel ih =>
      by_cases readable : buf i = commProtocolHead → i + 2 < len
      · rcases step_reaches bound reaches readable with
          ⟨found, -, stops⟩ | ⟨next, stepped, -, reachesNext⟩
        · exact absurd stops (runs.not_stop long reaches readable)
        · rw [scan, stepped]
          exact ih reachesNext
      · obtain ⟨head, blocked⟩ := Classical.not_imp.mp readable
        have refused : scanStep protocol (checked buf len) len i = none := by
          rw [scanStep, checked_inside (by have := reaches.inside; omega), Option.bind_eq_bind,
            Option.bind_some, if_neg (not_not.mpr head), frameStep,
            checked_outside (by omega)]
          rfl
        intro ended
        rw [scan, refused] at ended
        cases ended

theorem RunsOff.not_scansInBounds (runs : RunsOff protocol buf len)
    (long : commProtocolMinLen ≤ len) (bound : len < 2 ^ 32) :
    ¬ ScansInBounds protocol buf len := by
  rintro ⟨result, ⟨fuel, ended⟩, -⟩
  exact runs.not_ended long bound (reaches_zero long) result ended

/-- The scan of any of the four handlers stays in its buffer and ends exactly
when the buffer does not end in a run of heads that it cannot return from. -/
theorem scansInBounds_iff (protocol : Protocol) (buf : Nat → UInt8) (len : Nat)
    (long : commProtocolMinLen ≤ len) (bound : len < 2 ^ 32) :
    ScansInBounds protocol buf len ↔ ¬ RunsOff protocol buf len := by
  constructor
  · rintro scans runs
    exact runs.not_scansInBounds long bound scans
  · intro stays
    obtain ⟨result, ended⟩ := scan_ends long bound stays (reaches_zero long) le_rfl
    exact ⟨result, ⟨_, ended⟩, fun other same => ⟨_, (checked_extends same).scan ended⟩⟩

theorem runsOff_heads (protocol : Protocol) : RunsOff protocol (fun _ => commProtocolHead) 8 := by
  refine ⟨fun index early => ?_, fun _ _ _ => rfl, ?_⟩
  · rw [commProtocolMinLen] at early
    omega
  · cases protocol <;> decide

theorem scansInBounds_iff_heads :
    ScansInBounds .appCan500 (fun _ => commProtocolHead) 8 ↔
      ¬ RunsOff .appCan500 (fun _ => commProtocolHead) 8 :=
  scansInBounds_iff .appCan500 (fun _ => commProtocolHead) 8 (by decide) (by decide)

/-- Eight heads in a row lead each of the scans behind them. -/
theorem heads_not_scansInBounds :
    ¬ ScansInBounds .appCan500 (fun _ => commProtocolHead) 8 ∧
      ¬ ScansInBounds .appUart (fun _ => commProtocolHead) 8 ∧
      ¬ ScansInBounds .iapUart (fun _ => commProtocolHead) 8 ∧
      ¬ ScansInBounds .iapCan500 (fun _ => commProtocolHead) 8 :=
  ⟨(runsOff_heads _).not_scansInBounds le_rfl (by decide),
    (runsOff_heads _).not_scansInBounds le_rfl (by decide),
    (runsOff_heads _).not_scansInBounds le_rfl (by decide),
    (runsOff_heads _).not_scansInBounds le_rfl (by decide)⟩

end LedFirmware
