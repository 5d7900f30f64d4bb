import LedFirmware.MatchCaptures
import Mathlib.Data.List.TakeWhile

/-!
# The search of `MemMatch`

Every ending of the scanned part of the pattern in front of the scan has failed with the
literals behind it.  So a wildcard is found at the first position at which the pattern in
front of it can end, and nothing is missed.
-/

namespace LedFirmware

open Wildcards

/-- The literals of the pattern from `p` on. -/
def literalsAt (pat : List UInt8) (wildcard : UInt8) (p : Nat) : List UInt8 :=
  (pat.drop p).takeWhile (· ≠ wildcard)

/-- The invariant of `memMatchLoop`, on a result that was `prior`. -/
structure MatchHolds (pat dst : List UInt8) (wildcard : UInt8) (prior : Nat → DataNode)
    (vars : MatchVars) : Prop extends MatchCaptured pat dst wildcard vars where
  more : vars.star = true → vars.pat < pat.length
  missed : ∀ stop < vars.dst, Ends wildcard (pat.take vars.pat) dst stop →
    ¬ literalsAt pat wildcard vars.pat <+: dst.drop stop
  kept : ∀ index, vars.resultIndex ≤ index → vars.result index = prior index

variable {pat dst : List UInt8} {wildcard : UInt8} {prior : Nat → DataNode} {vars : MatchVars}

theorem literalsAt_eq {p : Nat} {literals rest : List UInt8}
    (pattern : pat.drop p = literals ++ rest) (other : ∀ c ∈ literals, c ≠ wildcard) :
    literalsAt pat wildcard p = literals ++ rest.takeWhile (· ≠ wildcard) := by
  rw [literalsAt, pattern]
  exact List.takeWhile_append_of_pos fun c member => decide_eq_true (other c member)

theorem append_literalsAt {p : Nat} {literals rest : List UInt8}
    (pattern : pat.drop p = literals ++ rest) (other : ∀ c ∈ literals, c ≠ wildcard) :
    pat.take p ++ literalsAt pat wildcard p ++ rest.dropWhile (· ≠ wildcard) = pat := by
  rw [literalsAt_eq pattern other, List.append_assoc, List.append_assoc,
    List.takeWhile_append_dropWhile, ← pattern, List.take_append_drop]

theorem literalsAt_of_wildcard {p : Nat} {literals rest : List UInt8}
    (pattern : pat.drop p = literals ++ wildcard :: rest)
    (other : ∀ c ∈ literals, c ≠ wildcard) : literalsAt pat wildcard p = literals := by
  rw [literalsAt_eq pattern other, List.takeWhile_cons_of_neg (by simp), List.append_nil]

theorem ne_of_mem_literalsAt {p : Nat} : ∀ c ∈ literalsAt pat wildcard p, c ≠ wildcard := by
  intro c member
  have kept : decide (c ≠ wildcard) = true := @List.mem_takeWhile_imp _ (· ≠ wildcard) _ c member
  exact of_decide_eq_true kept

/-- The pattern up to a wildcard has the literals in front of it. -/
theorem literalsAt_prefix {p : Nat} {literals rest : List UInt8}
    (pattern : pat.drop p = literals ++ wildcard :: rest) :
    literalsAt pat wildcard p <+: literals := by
  rw [literalsAt, pattern, List.takeWhile_append]
  split
  · rw [List.takeWhile_cons_of_neg (by simp), List.append_nil]
  · exact List.takeWhile_prefix _

/-! ## The steps -/

theorem MatchCaptured.ends (captured : MatchCaptured pat dst wildcard vars)
    (fits : dst.length < 2 ^ 32) : Ends wildcard (pat.take vars.pat) dst vars.dst := by
  obtain ⟨captures, -, fills, -⟩ := captured.closes fits (fun _ _ _ => rfl)
    (UInt32.sub_zero (UInt32.ofNat vars.dst))
  refine ⟨?_, captures, fills⟩
  cases star : vars.star with
  | false =>
      rw [(captured.fresh star).2.1]
      exact Nat.zero_le _
  | true =>
      obtain ⟨before, captures, start, opened⟩ := captured.opened star
      exact opened.within

/-- The literals of the scan do not end earlier. -/
theorem MatchHolds.least (holds : MatchHolds pat dst wildcard prior vars) {stop : Nat}
    (ends : Ends wildcard (pat.take vars.pat ++ literalsAt pat wildcard vars.pat) dst stop) :
    vars.dst + (literalsAt pat wildcard vars.pat).length ≤ stop := by
  obtain ⟨middle, ends', begins, rfl⟩ := (ends_append_literals ne_of_mem_literalsAt).mp ends
  have behind : vars.dst ≤ middle :=
    Nat.le_of_not_lt fun early => holds.missed middle early ends' begins
  omega

theorem MatchHolds.advance (holds : MatchHolds pat dst wildcard prior vars)
    (star : vars.star = true) (inside : vars.dst < dst.length)
    (differs : ¬ literalsAt pat wildcard vars.pat <+: dst.drop vars.dst) :
    MatchHolds pat dst wildcard prior { vars with dst := vars.dst + 1 } where
  toMatchCaptured := holds.toMatchCaptured.advance star (Nat.le_succ _) inside
  more := holds.more
  missed := by
    intro stop before ends
    rcases Nat.lt_or_eq_of_le (Nat.le_of_lt_succ before) with earlier | rfl
    · exact holds.missed stop earlier ends
    · exact differs
  kept := holds.kept

theorem MatchHolds.visit (holds : MatchHolds pat dst wildcard prior vars)
    (fits : dst.length < 2 ^ 32) {literals rest : List UInt8}
    (pattern : pat.drop vars.pat = literals ++ wildcard :: rest)
    (other : ∀ c ∈ literals, c ≠ wildcard) (begins : literals <+: dst.drop vars.dst)
    (inside : vars.dst + literals.length < dst.length)
    (more : vars.pat + literals.length + 1 < pat.length) :
    MatchHolds pat dst wildcard prior
      (visitWildcard vars (vars.dst + literals.length) (vars.pat + literals.length)) where
  toMatchCaptured := holds.toMatchCaptured.visit fits pattern other begins inside
  more := fun _ => more
  missed := by
    intro stop early ends
    have earlier : stop < vars.dst + literals.length := early
    obtain ⟨-, middle, before, ends⟩ :=
      ends_append_wild.mp (take_wildcard pattern ▸ ends :)
    rw [take_literals pattern, ← literalsAt_of_wildcard pattern other] at ends
    have least := holds.least ends
    rw [literalsAt_of_wildcard pattern other] at least
    omega
  kept := by
    intro index behind
    have later : vars.resultIndex < index := behind
    have last : (visitWildcard vars (vars.dst + literals.length)
        (vars.pat + literals.length)).result index = vars.result index :=
      (closeLast_of_ne (by omega)).trans (setData_of_ne (Nat.ne_of_gt later))
    rw [last]
    exact holds.kept index (Nat.le_of_lt later)

end LedFirmware
