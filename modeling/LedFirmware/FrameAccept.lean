import LedFirmware.FrameBounds
import LedFirmware.FlashWrite

/-!
# What an accepted frame looks like

A scan that stays in its buffer accepts a complete frame only.  A scan that has
run off the buffer continues with a huge remaining length and accepts whatever
frame lies in the memory behind, provided the last byte is a head as well; any
other last byte makes it return at the end of the buffer.
-/

namespace LedFirmware

inductive AnyliseState
  | waiting
  | reject
  | accept
  deriving DecidableEq

/-- `del_info_type`. -/
structure DelInfo where
  state : AnyliseState
  delLen : Nat
  deriving DecidableEq

/-- The `info` with which a handler returns after the scan. -/
def ScanEnd.info : ScanEnd → DelInfo
  | .waiting => ⟨.waiting, 0⟩
  | .reject delLen => ⟨.reject, delLen⟩
  | .accept i dataLen => ⟨.accept, add32 dataLen i⟩

section Soundness

variable (protocol : Protocol) (buf : Nat → UInt8) (len : Nat)

/-- The handler returns `info` on some run of its scan. -/
def Returned (memory : Nat → UInt8) (info : DelInfo) : Prop :=
  ∃ fuel result, scan protocol (unchecked memory) len fuel 0 = .ended result ∧ result.info = info

/-- Whatever lies behind the buffer, an acceptance means a complete frame that
ends at `del_len`, and does not depend on the bytes behind the buffer. -/
def AcceptSound : Prop :=
  ∀ (memory : Nat → UInt8) (delLen : Nat), (∀ index < len, memory index = buf index) →
    Returned protocol len memory ⟨.accept, delLen⟩ →
    (∃ i, FrameAt protocol buf len i ∧ i + frameLen buf i = delLen) ∧
      ∀ other : Nat → UInt8, (∀ index < len, other index = buf index) →
        Returned protocol len other ⟨.accept, delLen⟩

end Soundness

variable {protocol : Protocol} {buf memory : Nat → UInt8} {len i : Nat}

/-- More iterations do not change how a scan ended. -/
theorem scan_more {mem : CheckedMem} {fuel : Nat} {result : ScanEnd}
    (ended : scan protocol mem len fuel i = .ended result) (more : Nat) :
    scan protocol mem len (fuel + more) i = .ended result := by
  induction fuel generalizing i with
  | zero => cases ended
  | succ fuel ih =>
      rw [show fuel + 1 + more = fuel + more + 1 by omega]
      rw [scan] at ended ⊢
      cases stepped : scanStep protocol mem len i with
      | none => rw [stepped] at ended; cases ended
      | some step =>
          rw [stepped] at ended
          cases step with
          | advance next => exact ih ended
          | stop found => exact ended

theorem scan_unique {mem : CheckedMem} {fuel other : Nat} {first second : ScanEnd}
    (one : scan protocol mem len fuel i = .ended first)
    (two : scan protocol mem len other i = .ended second) : first = second := by
  have firstMore := scan_more one other
  rw [Nat.add_comm, scan_more two fuel] at firstMore
  cases firstMore
  rfl

/-- Whatever the memory holds, an accepted length is a legal one that fits behind the
index, and a tail lies at its end. -/
theorem scanStep_accept {mem : CheckedMem} {j dataLen : Nat}
    (stepped : scanStep protocol mem len i = some (.stop (.accept j dataLen))) :
    commProtocolMinLen ≤ dataLen ∧ dataLen ≤ protocol.maxLen ∧ dataLen ≤ sub32 len j ∧
      mem (j + dataLen - 1) = some commProtocolTail := by
  rw [scanStep, Option.bind_eq_bind, Option.bind_eq_some_iff] at stepped
  obtain ⟨byte, -, stepped⟩ := stepped
  split at stepped
  · rw [skipStep, Option.bind_eq_bind, Option.bind_eq_some_iff] at stepped
    obtain ⟨next, -, stepped⟩ := stepped
    split at stepped <;> cases stepped
  · simp only [frameStep, Option.bind_eq_bind, Option.bind_eq_some_iff] at stepped
    obtain ⟨high, -, low, -, stepped⟩ := stepped
    split at stepped
    · cases stepped
    · rename_i legal
      rw [not_or, not_lt, not_lt] at legal
      split at stepped
      · split at stepped <;> cases stepped
      · rename_i room
        rw [not_lt] at room
        simp only [Option.bind_eq_some_iff] at stepped
        obtain ⟨tail, found, stepped⟩ := stepped
        split at stepped
        · rename_i closed
          simp only [Option.bind_eq_some_iff] at stepped
          obtain ⟨sum, -, computed, -, stepped⟩ := stepped
          split at stepped
          · cases stepped
            exact ⟨legal.2, legal.1, room, closed ▸ found⟩
          · cases stepped
        · cases stepped

theorem scan_accept {mem : CheckedMem} {fuel j dataLen : Nat}
    (ended : scan protocol mem len fuel i = .ended (.accept j dataLen)) :
    commProtocolMinLen ≤ dataLen ∧ dataLen ≤ protocol.maxLen ∧ dataLen ≤ sub32 len j ∧
      mem (j + dataLen - 1) = some commProtocolTail := by
  induction fuel generalizing i with
  | zero => cases ended
  | succ fuel ih =>
      rw [scan] at ended
      cases stepped : scanStep protocol mem len i with
      | none =>
          rw [stepped] at ended
          cases ended
      | some step =>
          rw [stepped] at ended
          cases step with
          | advance next => exact ih ended
          | stop found =>
              cases ended
              exact scanStep_accept stepped

/-- A scan inside its buffer ends with an iteration at an index it reached. -/
theorem ended_steps (bound : len < 2 ^ 32) {fuel : Nat} {result : ScanEnd}
    (reaches : Reaches protocol buf len i)
    (ended : scan protocol (checked buf len) len fuel i = .ended result) :
    ∃ last, Reaches protocol buf len last ∧ Steps protocol buf len last (.stop result) := by
  induction fuel generalizing i with
  | zero => cases ended
  | succ fuel ih =>
      rw [scan] at ended
      have readable (head : buf i = commProtocolHead) : i + 2 < len := by
        by_contra blocked
        rw [scanStep, checked_inside (by have := reaches.inside; omega), Option.bind_eq_bind,
          Option.bind_some, if_neg (not_not.mpr head), frameStep,
          checked_outside (by omega)] at ended
        cases ended
      rcases step_reaches bound reaches readable with
        ⟨found, stepped, steps⟩ | ⟨next, stepped, -, reachesNext⟩
      · rw [stepped] at ended
        cases ended
        exact ⟨i, reaches, steps⟩
      · rw [stepped] at ended
        exact ih reachesNext ended

theorem accept_of_stays (long : commProtocolMinLen ≤ len) (bound : len < 2 ^ 32)
    (stays : ¬ RunsOff protocol buf len) : AcceptSound protocol buf len := by
  obtain ⟨result, ended⟩ := scan_ends long bound stays (reaches_zero long) le_rfl
  have always (other : Nat → UInt8) (same : ∀ index < len, other index = buf index) :=
    (checked_extends same).scan ended
  rintro memory delLen same ⟨fuel, found, foundEnded, info⟩
  obtain rfl := scan_unique foundEnded (always memory same)
  refine ⟨?_, fun other agrees => ⟨_, _, always other agrees, info⟩⟩
  obtain ⟨last, -, steps⟩ := ended_steps bound (reaches_zero long) ended
  cases steps with
  | exhausted => cases info
  | incomplete head lower upper short =>
      split at info <;> cases info
  | complete frame =>
      refine ⟨last, frame, ?_⟩
      have delLenIs : add32 (frameLen buf last) last = delLen := congrArg DelInfo.delLen info
      rw [← delLenIs, add32, Nat.mod_eq_of_lt (by have := frame.inside; omega), Nat.add_comm]

/-! ## Running off with another last byte -/

/-- A length field that exceeds the maximum is skipped. -/
theorem scanStep_illegal (head : memory i = commProtocolHead)
    (illegal : protocol.maxLen < frameLen memory i) :
    scanStep protocol (unchecked memory) len i = some (.advance (add32 i 1)) := by
  rw [scanStep, unchecked, Option.bind_eq_bind, Option.bind_some, if_neg (not_not.mpr head)]
  exact if_pos (Or.inl illegal)

/-- A head two bytes before the end is skipped or rejected. -/
theorem scanStep_last (bound : len < 2 ^ 32) (last : i + 2 = len) (positive : 0 < i)
    (head : memory i = commProtocolHead) :
    scanStep protocol (unchecked memory) len i = some (.advance (i + 1)) ∨
      scanStep protocol (unchecked memory) len i = some (.stop (.reject i)) := by
  rw [scanStep, unchecked, Option.bind_eq_bind, Option.bind_some, if_neg (not_not.mpr head)]
  by_cases illegal : frameLen memory i > protocol.maxLen ∨ frameLen memory i < commProtocolMinLen
  · left
    rw [← add32_one (show i < len by omega) bound]
    exact if_pos illegal
  · right
    have short : sub32 len i < frameLen memory i := by
      have minimum : commProtocolMinLen = 8 := rfl
      rw [sub32_le (by omega) bound]
      omega
    exact (if_neg illegal).trans ((if_pos short).trans (by rw [if_neg (by omega)]))

/-- A last byte that is not a head is rejected with everything before it. -/
theorem scanStep_exhausted (bound : len < 2 ^ 32) (last : i + 1 = len)
    (noHead : memory i ≠ commProtocolHead) :
    scanStep protocol (unchecked memory) len i = some (.stop (.reject len)) := by
  rw [scanStep, unchecked, Option.bind_eq_bind, Option.bind_some, if_pos noHead, skipStep,
    add32_one (by omega) bound, last, Nat.sub_self, nextHead, Option.bind_eq_bind,
    Option.bind_some, sub32_le le_rfl bound, Nat.sub_self]
  rfl

/-- Without a head in the last byte, a scan that has read behind the buffer
returns at once. -/
theorem scan_rejects (bound : len < 2 ^ 32) (runs : RunsOff protocol buf len)
    (long : commProtocolMinLen ≤ len) (same : ∀ index < len, memory index = buf index)
    (last : buf (len - 1) ≠ commProtocolHead) {fuel : Nat} {result : ScanEnd}
    (reaches : Reaches protocol buf len i)
    (ended : scan protocol (unchecked memory) len fuel i = .ended result) :
    ∃ delLen, result = .reject delLen := by
  have minimum : commProtocolMinLen = 8 := rfl
  induction fuel generalizing i with
  | zero => cases ended
  | succ fuel ih =>
      rw [scan] at ended
      by_cases readable : buf i = commProtocolHead → i + 2 < len
      · rcases step_reaches bound reaches readable with
          ⟨found, -, stops⟩ | ⟨next, stepped, -, reachesNext⟩
        · exact absurd stops (runs.not_stop long reaches readable)
        · rw [(checked_extends same).scanStep stepped] at ended
          exact ih reachesNext ended
      · obtain ⟨head, blocked⟩ := Classical.not_imp.mp readable
        have inside := reaches.inside
        have memoryHead : memory i = commProtocolHead := by rw [same i (by omega), head]
        rcases @scanStep_last protocol memory len i bound (by omega) (by omega) memoryHead with
          skipped | rejected
        · rw [skipped] at ended
          cases fuel with
          | zero => cases ended
          | succ fuel =>
              have noHead : memory (i + 1) ≠ commProtocolHead := by
                rw [same _ inside, show i + 1 = len - 1 by omega]
                exact last
              simp only [scan, scanStep_exhausted bound (show i + 1 + 1 = len by omega) noHead]
                at ended
              cases ended
              exact ⟨len, rfl⟩
        · rw [rejected] at ended
          cases ended
          exact ⟨i, rfl⟩

/-! ## Running off behind a head -/

/-- The memory in which a frame follows a head behind the buffer. -/
def staleFrame (buf : Nat → UInt8) (len : Nat) : Nat → UInt8 := fun index =>
  if index < len then buf index
  else bufferOf [0xFE, 0xFE, 0x08, 0x00, 0x00, 0x00, 0x00, 0x08, 0xBE] (index - len)

theorem staleFrame_inside {index : Nat} (inside : index < len) :
    staleFrame buf len index = buf index := if_pos inside

theorem staleFrame_behind (offset : Nat) : staleFrame buf len (len + offset) =
    bufferOf [0xFE, 0xFE, 0x08, 0x00, 0x00, 0x00, 0x00, 0x08, 0xBE] offset := by
  rw [staleFrame, if_neg (by omega), Nat.add_sub_cancel_left]

theorem maxLen_le (protocol : Protocol) : 8 ≤ protocol.maxLen ∧ protocol.maxLen ≤ 1460 := by
  cases protocol <;> decide

/-- Behind the buffer the remaining length wraps around, and the frame there is
accepted. -/
theorem scanStep_stale :
    scanStep protocol (unchecked (staleFrame buf len)) len (len + 1) =
      some (.stop (.accept (len + 1) 8)) := by
  have sum : getSum8 (unchecked (staleFrame buf len)) 5 (len + 1 + 1) 0 = some 8 := by
    simp only [getSum8, unchecked, Option.bind_eq_bind, Option.bind_some, Nat.add_assoc,
      Nat.reduceAdd, staleFrame_behind]
    rfl
  have field : (staleFrame buf len (len + 1 + 2)).toNat * 256 +
      (staleFrame buf len (len + 1 + 1)).toNat = 8 := by
    rw [Nat.add_assoc, Nat.add_assoc, staleFrame_behind, staleFrame_behind]
    rfl
  have maximum := (maxLen_le protocol).1
  have legal : ¬ (8 > protocol.maxLen ∨ 8 < commProtocolMinLen) := by
    rw [commProtocolMinLen]
    omega
  have whole : ¬ sub32 len (len + 1) < 8 := by
    rw [sub32]
    omega
  have head : staleFrame buf len (len + 1) = commProtocolHead := staleFrame_behind 1
  have tail : staleFrame buf len (len + 1 + 8 - 1) = commProtocolTail := staleFrame_behind 8
  have check : staleFrame buf len (len + 1 + 8 - 2) = 8 := staleFrame_behind 7
  rw [scanStep, unchecked, Option.bind_eq_bind, Option.bind_some, if_neg (not_not.mpr head),
    frameStep]
  simp only [Option.bind_eq_bind, Option.bind_some, unchecked_apply, field, if_neg legal,
    if_neg whole, if_pos tail, sum, if_pos check]

/-- Whatever lies behind it, the scan of such a buffer gets to the last head. -/
theorem RunsOff.scan_last (runs : RunsOff protocol buf len) (long : commProtocolMinLen ≤ len)
    (bound : len < 2 ^ 32) (same : ∀ index < len, memory index = buf index)
    (reaches : Reaches protocol buf len i) :
    ∃ used, ∀ fuel, scan protocol (unchecked memory) len (fuel + used) i =
      scan protocol (unchecked memory) len fuel (len - 2) := by
  induction remaining : len - i using Nat.strong_induction_on generalizing i with
  | _ remaining ih =>
      have inside := reaches.inside
      by_cases readable : buf i = commProtocolHead → i + 2 < len
      · rcases step_reaches bound reaches readable with
          ⟨found, -, stops⟩ | ⟨next, stepped, later, reachesNext⟩
        · exact absurd stops (runs.not_stop long reaches readable)
        · obtain ⟨used, same'⟩ := ih (len - next) (by omega) reachesNext rfl
          refine ⟨used + 1, fun fuel => ?_⟩
          rw [← Nat.add_assoc, scan, (checked_extends same).scanStep stepped]
          exact same' fuel
      · obtain ⟨-, blocked⟩ := Classical.not_imp.mp readable
        refine ⟨0, fun fuel => ?_⟩
        rw [Nat.add_zero, show i = len - 2 by omega]

/-- The scan of such a buffer finds the frame behind it. -/
theorem scan_stale (bound : len + 1 < 2 ^ 32) (runs : RunsOff protocol buf len)
    (long : commProtocolMinLen ≤ len) (last : buf (len - 1) = commProtocolHead) :
    ∃ fuel, scan protocol (unchecked (staleFrame buf len)) len fuel 0 =
      .ended (.accept (len + 1) 8) := by
  have minimum : commProtocolMinLen = 8 := rfl
  obtain ⟨used, toLast⟩ := @RunsOff.scan_last protocol buf (staleFrame buf len) len 0 runs long
    (by omega) (fun index inside => staleFrame_inside inside) (reaches_zero long)
  have maximum := (maxLen_le protocol).2
  have behind (offset : Nat) := @staleFrame_behind buf len offset
  have lastTwo : staleFrame buf len (len - 2) = commProtocolHead := by
    rw [staleFrame_inside (by omega), runs.heads _ (by omega) (by omega)]
  have lastOne : staleFrame buf len (len - 1) = commProtocolHead := by
    rw [staleFrame_inside (by omega), last]
  have atEnd : staleFrame buf len len = commProtocolHead := by
    have zero := behind 0
    rw [Nat.add_zero] at zero
    exact zero
  have first : frameLen (staleFrame buf len) (len - 2) = 254 * 256 + 254 := by
    rw [frameLen, show len - 2 + 1 = len - 1 by omega, show len - 2 + 2 = len by omega, lastOne,
      atEnd]
    rfl
  have second : frameLen (staleFrame buf len) (len - 1) = 254 * 256 + 254 := by
    rw [frameLen, show len - 1 + 1 = len by omega, show len - 1 + 2 = len + 1 by omega, atEnd,
      behind]
    rfl
  have third : frameLen (staleFrame buf len) len = 8 * 256 + 254 := by
    rw [frameLen, behind, behind]
    rfl
  refine ⟨4 + used, ?_⟩
  rw [toLast, scan, scanStep_illegal lastTwo (by omega),
    add32_one (show len - 2 < len by omega) (by omega), show len - 2 + 1 = len - 1 by omega]
  simp only
  rw [scan, scanStep_illegal lastOne (by omega), add32_one (show len - 1 < len by omega) (by omega),
    show len - 1 + 1 = len by omega]
  simp only
  rw [scan, scanStep_illegal atEnd (by omega), add32, Nat.mod_eq_of_lt bound]
  simp only
  rw [scan, scanStep_stale]

/-- A buffer that the scan runs off holds no frame. -/
theorem RunsOff.no_frame (runs : RunsOff protocol buf len) (frame : FrameAt protocol buf len i) :
    False := by
  have minimum : commProtocolMinLen = 8 := rfl
  have lower := frame.lower
  have inside := frame.inside
  rcases Nat.lt_or_ge (i + commProtocolMinLen) len with early | late
  · exact runs.continues i early ⟨frame.head, lower, frame.upper, Or.inr frame.closed⟩
  · exact absurd frame.upper (not_le.mpr (runs.illegal late (by omega)))

/-- Behind a head the scan accepts what lies in the memory behind the buffer. -/
theorem RunsOff.not_acceptSound (runs : RunsOff protocol buf len)
    (long : commProtocolMinLen ≤ len) (bound : len + 1 < 2 ^ 32)
    (last : buf (len - 1) = commProtocolHead) : ¬ AcceptSound protocol buf len := by
  intro sound
  obtain ⟨fuel, ended⟩ := scan_stale bound runs long last
  obtain ⟨⟨i, frame, -⟩, -⟩ := sound (staleFrame buf len) _
    (fun index inside => staleFrame_inside inside) ⟨fuel, _, ended, rfl⟩
  exact runs.no_frame frame

/-- An accepting handler has found a complete frame inside its buffer, whatever
lies behind, exactly when its scan does not run off behind a last byte that is a
head. -/
theorem acceptSound_iff (protocol : Protocol) (buf : Nat → UInt8) (len : Nat)
    (long : commProtocolMinLen ≤ len) (bound : len + 1 < 2 ^ 32) :
    AcceptSound protocol buf len ↔
      ¬ (RunsOff protocol buf len ∧ buf (len - 1) = commProtocolHead) := by
  constructor
  · rintro sound ⟨runs, last⟩
    exact runs.not_acceptSound long bound last sound
  · intro condition
    by_cases runs : RunsOff protocol buf len
    · have last : buf (len - 1) ≠ commProtocolHead := fun head => condition ⟨runs, head⟩
      rintro memory delLen same ⟨fuel, result, ended, info⟩
      obtain ⟨rejected, rfl⟩ := scan_rejects (by omega) runs long same last
        (reaches_zero long) ended
      cases info
    · exact accept_of_stays long (by omega) runs

theorem acceptSound_iff_heads :
    AcceptSound .appCan500 (fun _ => commProtocolHead) 8 ↔
      ¬ (RunsOff .appCan500 (fun _ => commProtocolHead) 8 ∧
        commProtocolHead = commProtocolHead) :=
  acceptSound_iff .appCan500 (fun _ => commProtocolHead) 8 (by decide) (by decide)

/-- After eight heads the handler accepts a frame that lies behind them. -/
theorem heads_not_acceptSound : ¬ AcceptSound .appCan500 (fun _ => commProtocolHead) 8 :=
  (runsOff_heads .appCan500).not_acceptSound le_rfl (by decide) rfl

end LedFirmware
