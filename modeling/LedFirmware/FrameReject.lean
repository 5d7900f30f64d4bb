import LedFirmware.FrameAccept

/-!
# What a rejection discards

A rejecting handler lets the receiver delete the bytes before an index.  None of
them can start a frame, whatever arrives next, unless the scan runs off its
buffer: it then judges a head whose length field is not complete by what lies
behind the buffer.
-/

namespace LedFirmware

section Soundness

variable (protocol : Protocol) (buf : Nat → UInt8) (len : Nat)

/-- A frame may start at an index: some bytes behind the buffer complete it. -/
def MayStart (i : Nat) : Prop :=
  ∃ (total : Nat) (continued : Nat → UInt8), len ≤ total ∧
    (∀ index < len, continued index = buf index) ∧ FrameAt protocol continued total i

/-- Whatever lies behind the buffer, a rejection deletes at least one byte, no
byte behind the buffer, and no byte at which a frame may start. -/
def RejectSound : Prop :=
  ∀ (memory : Nat → UInt8) (delLen : Nat), (∀ index < len, memory index = buf index) →
    Returned protocol len memory ⟨.reject, delLen⟩ →
    1 ≤ delLen ∧ delLen ≤ len ∧ ∀ i < delLen, ¬ MayStart protocol buf len i

end Soundness

variable {protocol : Protocol} {buf memory other : Nat → UInt8} {len i : Nat}

/-- A frame of which the length field has arrived ends the scan of the buffer. -/
theorem FrameAt.endsScan {total : Nat} (frame : FrameAt protocol other total i)
    (same : ∀ index < len, other index = buf index) (arrived : i + 2 < len) :
    EndsScan protocol buf len i := by
  have lengths : frameLen other i = frameLen buf i := by
    rw [frameLen, frameLen, same _ arrived, same _ (by omega)]
  have lower := frame.lower
  have minimum : commProtocolMinLen = 8 := rfl
  rw [lengths] at lower
  refine ⟨by rw [← same i (by omega)]; exact frame.head, lower,
    by rw [← lengths]; exact frame.upper, ?_⟩
  rcases Nat.lt_or_ge len (i + frameLen buf i) with incomplete | complete
  · exact Or.inl incomplete
  · obtain ⟨tail, sum⟩ := frame.closed
    rw [lengths] at tail sum
    refine Or.inr ⟨by rw [← same _ (by omega)]; exact tail, ?_⟩
    rw [← same (i + frameLen buf i - 2) (by omega), ← sum]
    exact getSum8_congr 0 fun index _ upper => (same index (by omega)).symm

/-- Where a scan inside its buffer rejects, no frame can start before the index. -/
theorem Reaches.reject_sound {delLen : Nat} (reaches : Reaches protocol buf len i)
    (steps : Steps protocol buf len i (.stop (.reject delLen))) :
    1 ≤ delLen ∧ delLen ≤ len ∧ ∀ index < delLen, ¬ MayStart protocol buf len index := by
  have inside := reaches.inside
  have before (index : Nat) (early : index < i) : ¬ MayStart protocol buf len index := by
    rintro ⟨total, continued, -, same, frame⟩
    exact reaches.continues index early (frame.endsScan same (by omega))
  generalize stopped : ScanStep.stop (.reject delLen) = step at steps
  cases steps with
  | skip => cases stopped
  | @exhausted next noHead later within short =>
      cases stopped
      refine ⟨by omega, within, fun index bound => ?_⟩
      rcases Nat.lt_or_ge index i with early | late
      · exact before index early
      · rintro ⟨total, continued, -, same, frame⟩
        refine noHead index late bound ?_
        rw [← same index (by omega)]
        exact frame.head
  | noFrame => cases stopped
  | incomplete head lower upper short =>
      by_cases start : i = 0
      · rw [if_pos start] at stopped
        cases stopped
      · rw [if_neg start] at stopped
        cases stopped
        exact ⟨by omega, by omega, before⟩
  | complete => cases stopped

theorem reject_of_stays (long : commProtocolMinLen ≤ len) (bound : len < 2 ^ 32)
    (stays : ¬ RunsOff protocol buf len) : RejectSound protocol buf len := by
  obtain ⟨result, ended⟩ := scan_ends long bound stays (reaches_zero long) le_rfl
  rintro memory delLen same ⟨fuel, found, foundEnded, info⟩
  obtain rfl := scan_unique foundEnded ((checked_extends same).scan ended)
  obtain ⟨last, reaches, steps⟩ := ended_steps bound (reaches_zero long) ended
  cases found with
  | waiting => cases info
  | reject rejected =>
      cases info
      exact reaches.reject_sound steps
  | accept => cases info

/-! ## Running off discards a frame -/

theorem getSum8_zeros {count start : Nat} (sum : UInt8)
    (zeros : ∀ index, start ≤ index → index < start + count → buf index = 0) :
    getSum8 (unchecked buf) count start sum = some sum := by
  induction count generalizing start with
  | zero => rfl
  | succ count ih =>
      have first : sum + buf start = sum := by rw [zeros start le_rfl (by omega), UInt8.add_zero]
      simp only [getSum8, unchecked_apply, Option.bind_eq_bind, Option.bind_some, first]
      exact ih fun index lower upper => zeros index (by omega) (by omega)

/-- A head with one byte behind it, followed by the rest of a frame of zeros whose
length field has that byte as its low half. -/
def zeroFrame (buf : Nat → UInt8) (len : Nat) : Nat → UInt8 := fun index =>
  let low := buf (len - 1)
  if index < len then buf index
  else if index = len then 1
  else if index = len + low.toNat + 252 then low + 1
  else if index = len + low.toNat + 253 then commProtocolTail
  else 0

theorem zeroFrame_inside {index : Nat} (inside : index < len) :
    zeroFrame buf len index = buf index := if_pos inside

/-- A head in the last byte but one may start a frame. -/
theorem mayStart_last (long : 2 ≤ len) (head : buf (len - 2) = commProtocolHead) :
    MayStart protocol buf len (len - 2) := by
  have low := (buf (len - 1)).toNat_lt
  have lowest : zeroFrame buf len (len - 1) = buf (len - 1) := zeroFrame_inside (by omega)
  have high : zeroFrame buf len len = 1 := by simp [zeroFrame]
  have length : frameLen (zeroFrame buf len) (len - 2) = 256 + (buf (len - 1)).toNat := by
    rw [frameLen, show len - 2 + 1 = len - 1 by omega, show len - 2 + 2 = len by omega, lowest,
      high]
    rfl
  have maximum : 511 ≤ protocol.maxLen := by cases protocol <;> decide
  have zeros (index : Nat) (lower : len + 1 ≤ index)
      (upper : index < len + (buf (len - 1)).toNat + 252) : zeroFrame buf len index = 0 := by
    simp only [zeroFrame]
    rw [if_neg (by omega), if_neg (by omega), if_neg (by omega), if_neg (by omega)]
  refine ⟨len + 254 + (buf (len - 1)).toNat, zeroFrame buf len, by omega,
    fun index inside => zeroFrame_inside inside, ?_, ?_, ?_, ?_, ?_, ?_⟩
  · rw [zeroFrame_inside (by omega), head]
  · rw [length, commProtocolMinLen]
    omega
  · omega
  · omega
  · rw [length, show len - 2 + (256 + (buf (len - 1)).toNat) - 1 =
      len + (buf (len - 1)).toNat + 253 by omega]
    simp only [zeroFrame]
    rw [if_neg (by omega), if_neg (by omega), if_neg (by omega), if_pos trivial]
  · have check : zeroFrame buf len (len - 2 + (256 + (buf (len - 1)).toNat) - 2) =
        buf (len - 1) + 1 := by
      rw [show len - 2 + (256 + (buf (len - 1)).toNat) - 2 =
        len + (buf (len - 1)).toNat + 252 by omega]
      simp only [zeroFrame]
      rw [if_neg (by omega), if_neg (by omega), if_pos trivial]
    rw [length, check, show 256 + (buf (len - 1)).toNat - 3 =
      251 + (buf (len - 1)).toNat + 1 + 1 by omega, show len - 2 + 1 = len - 1 by omega]
    simp only [getSum8, unchecked_apply, Option.bind_eq_bind, Option.bind_some]
    rw [show len - 1 + 1 = len by omega, lowest, high, UInt8.zero_add]
    exact getSum8_zeros _ fun index lower upper => zeros index lower (by omega)

/-- Behind the buffer, bytes that make the length field of a head at its end
illegal and that of a head in its last byte legal. -/
def staleLength (buf : Nat → UInt8) (len : Nat) : Nat → UInt8 := fun index =>
  if index < len then buf index else if index = len then 0xFF else 1

theorem staleLength_inside {index : Nat} (inside : index < len) :
    staleLength buf len index = buf index := if_pos inside

/-- With these bytes behind it, the scan rejects a head that may start a frame. -/
theorem RunsOff.scan_discards (runs : RunsOff protocol buf len)
    (long : commProtocolMinLen ≤ len) (bound : len < 2 ^ 32) :
    ∃ fuel delLen, scan protocol (unchecked (staleLength buf len)) len fuel 0 =
      .ended (.reject delLen) ∧ len - 2 < delLen := by
  have minimum : commProtocolMinLen = 8 := rfl
  have maximum := (maxLen_le protocol).2
  obtain ⟨used, toLast⟩ := @RunsOff.scan_last protocol buf (staleLength buf len) len 0 runs long
    bound (fun index inside => staleLength_inside inside) (reaches_zero long)
  have atEnd : staleLength buf len len = 0xFF := by simp [staleLength]
  have lastTwo : staleLength buf len (len - 2) = commProtocolHead := by
    rw [staleLength_inside (by omega), runs.heads _ (by omega) (by omega)]
  have illegal : frameLen (staleLength buf len) (len - 2) =
      255 * 256 + (staleLength buf len (len - 1)).toNat := by
    rw [frameLen, show len - 2 + 1 = len - 1 by omega, show len - 2 + 2 = len by omega, atEnd]
    rfl
  have skipped : scan protocol (unchecked (staleLength buf len)) len (2 + used) 0 =
      scan protocol (unchecked (staleLength buf len)) len 1 (len - 1) := by
    rw [toLast, scan, scanStep_illegal lastTwo (by omega),
      add32_one (show len - 2 < len by omega) bound, show len - 2 + 1 = len - 1 by omega]
  by_cases last : staleLength buf len (len - 1) = commProtocolHead
  · refine ⟨2 + used, len - 1, ?_, by omega⟩
    have behind : staleLength buf len (len + 1) = 1 := by simp [staleLength]
    have legal : (staleLength buf len (len - 1 + 2)).toNat * 256 +
        (staleLength buf len (len - 1 + 1)).toNat = 511 := by
      rw [show len - 1 + 1 = len by omega, show len - 1 + 2 = len + 1 by omega, atEnd, behind]
      rfl
    have least : 511 ≤ protocol.maxLen := by cases protocol <;> decide
    have rejected : scanStep protocol (unchecked (staleLength buf len)) len (len - 1) =
        some (.stop (.reject (len - 1))) := by
      rw [scanStep, unchecked_apply, Option.bind_eq_bind, Option.bind_some,
        if_neg (not_not.mpr last), frameStep]
      simp only [unchecked_apply, Option.bind_eq_bind, Option.bind_some, legal]
      rw [if_neg (by omega), sub32_le (by omega) bound, if_pos (by omega), if_neg (by omega)]
    rw [skipped, scan, rejected]
  · refine ⟨2 + used, len, ?_, by omega⟩
    rw [skipped, scan, scanStep_exhausted bound (by omega) last]

theorem RunsOff.not_rejectSound (runs : RunsOff protocol buf len)
    (long : commProtocolMinLen ≤ len) (bound : len < 2 ^ 32) : ¬ RejectSound protocol buf len := by
  intro sound
  have minimum : commProtocolMinLen = 8 := rfl
  obtain ⟨fuel, delLen, ended, discarded⟩ := runs.scan_discards long bound
  obtain ⟨-, -, kept⟩ := sound (staleLength buf len) delLen
    (fun index inside => staleLength_inside inside) ⟨fuel, _, ended, rfl⟩
  exact kept (len - 2) discarded (mayStart_last (by omega) (runs.heads _ (by omega) (by omega)))

/-- A rejecting handler keeps every byte that may start a frame, whatever lies
behind its buffer, exactly when its scan does not run off. -/
theorem rejectSound_iff (protocol : Protocol) (buf : Nat → UInt8) (len : Nat)
    (long : commProtocolMinLen ≤ len) (bound : len < 2 ^ 32) :
    RejectSound protocol buf len ↔ ¬ RunsOff protocol buf len :=
  ⟨fun sound runs => runs.not_rejectSound long bound sound, reject_of_stays long bound⟩

theorem rejectSound_iff_heads :
    RejectSound .appCan500 (fun _ => commProtocolHead) 8 ↔
      ¬ RunsOff .appCan500 (fun _ => commProtocolHead) 8 :=
  rejectSound_iff .appCan500 (fun _ => commProtocolHead) 8 (by decide) (by decide)

/-- Of eight heads, both CAN handlers may discard the last but one, which may
start a frame. -/
theorem heads_not_rejectSound :
    ¬ RejectSound .appCan500 (fun _ => commProtocolHead) 8 ∧
      ¬ RejectSound .iapCan500 (fun _ => commProtocolHead) 8 :=
  ⟨(runsOff_heads _).not_rejectSound le_rfl (by decide),
    (runsOff_heads _).not_rejectSound le_rfl (by decide)⟩

end LedFirmware
