import LedFirmware.MemMatch
import Mathlib.Algebra.Group.Nat.Defs

/-!
# What `MemMatch` reports

The positions at which the literals of the current scan have failed are those in front of
`dst`, so that the first match from there on is the first match of all.  The capture of the
last wildcard has a beginning but no length until the literals behind it are found.
-/

namespace LedFirmware

open Wildcards

/-- The entry describes a part of the target. -/
def DataNode.Shows (node : DataNode) (dst text : List UInt8) : Prop :=
  ∃ start, node.data = some start ∧ start + node.len.toNat ≤ dst.length ∧
    (dst.drop start).take node.len.toNat = text

/-- `TRUE` is returned exactly if a beginning of the target fills the pattern, and then the
result shows one with its captures. -/
def MatchSound (pat dst : List UInt8) (wildcard : UInt8) (after : Bool × (Nat → DataNode)) :
    Prop :=
  (after.1 = true ↔ ∃ stop, Ends wildcard pat dst stop) ∧
    (after.1 = true → ∃ matched captures, matched <+: dst ∧ (after.2 0).Shows dst matched ∧
      Fills wildcard pat captures matched ∧
        ∀ index, (inside : index < captures.length) →
          (after.2 (index + 1)).Shows dst captures[index])

/-- A wildcard whose capture has begun at `start`, with the captures in front of it. -/
structure MatchOpened (pat dst : List UInt8) (wildcard : UInt8) (vars : MatchVars)
    (before : List UInt8) (captures : List (List UInt8)) (start : Nat) : Prop where
  pattern : pat.take vars.pat = before ++ [wildcard]
  fills : Fills wildcard before captures (dst.take start)
  inside : start < dst.length
  behind : start ≤ vars.dst
  within : vars.dst ≤ dst.length
  number : vars.resultIndex = captures.length + 2
  shown : ∀ index, (inside : index < captures.length) →
    (vars.result (index + 1)).Shows dst captures[index]
  last : (vars.result (captures.length + 1)).data = some start

/-- The result is that of the wildcards in front of the scan. -/
structure MatchCaptured (pat dst : List UInt8) (wildcard : UInt8) (vars : MatchVars) : Prop where
  zero : (vars.result 0).data = some 0
  fresh : vars.star = false → vars.pat = 0 ∧ vars.dst = 0 ∧ vars.resultIndex = 1
  opened : vars.star = true → ∃ before captures start,
    MatchOpened pat dst wildcard vars before captures start

variable {pat dst : List UInt8} {wildcard : UInt8} {vars : MatchVars}

section

variable {result : Nat → DataNode} {resultIndex index : Nat} {d literals : UInt32}

theorem closeLast_of_ne (other : index ≠ resultIndex - 1) :
    closeLast result resultIndex d literals index = result index := by
  rw [closeLast]
  split
  · exact Function.update_of_ne other ..
  · rfl

theorem closeLast_zero : closeLast result resultIndex d literals 0 = result 0 := by
  rw [closeLast]
  split
  · exact Function.update_of_ne (by omega) ..
  · rfl

theorem setLen_of_ne {len : UInt32} {other : Nat} (different : other ≠ index) :
    setLen result index len other = result other := Function.update_of_ne different ..

theorem setData_of_ne {start other : Nat} (different : other ≠ index) :
    setData result index start other = result other := Function.update_of_ne different ..

end

theorem take_literals {text literals rest : List UInt8} {p : Nat}
    (behind : text.drop p = literals ++ rest) :
    text.take (p + literals.length) = text.take p ++ literals := by
  rw [List.take_add, behind, List.take_left]

theorem take_wildcard {literals rest : List UInt8} {p : Nat}
    (pattern : pat.drop p = literals ++ wildcard :: rest) :
    pat.take (p + literals.length + 1) = pat.take (p + literals.length) ++ [wildcard] := by
  have behind : pat.drop (p + literals.length) = [wildcard] ++ rest := by
    rw [← List.drop_drop, pattern, List.drop_left]
    rfl
  exact take_literals behind

/-- A part of the target that begins at `start` and ends in front of `stop`. -/
theorem shows_between {node : DataNode} {start stop : Nat} (data : node.data = some start)
    (before : start ≤ stop) (inside : stop ≤ dst.length) (fits : dst.length < 2 ^ 32)
    (len : node.len = UInt32.ofNat stop - UInt32.ofNat start) :
    node.Shows dst ((dst.drop start).take (stop - start)) := by
  have length : node.len.toNat = stop - start := by
    rw [len, ← UInt32.ofNat_sub before, UInt32.toNat_ofNat_of_lt' (by change _ < 2 ^ 32; omega)]
  exact ⟨start, data, by omega, by rw [length]⟩

/-- Once the last capture is closed in front of the scan, the captures fill the pattern up to
there. -/
theorem MatchCaptured.closes (captured : MatchCaptured pat dst wildcard vars)
    (fits : dst.length < 2 ^ 32) {result : Nat → DataNode}
    (same : ∀ index, 0 < index → index < vars.resultIndex → result index = vars.result index)
    {d literals : UInt32} (segment : d - literals = UInt32.ofNat vars.dst) :
    ∃ captures, vars.resultIndex = captures.length + 1 ∧
      Fills wildcard (pat.take vars.pat) captures (dst.take vars.dst) ∧
        ∀ index, (inside : index < captures.length) →
          (closeLast result vars.resultIndex d literals (index + 1)).Shows dst captures[index] := by
  cases star : vars.star with
  | false =>
      obtain ⟨atStart, noBytes, number⟩ := captured.fresh star
      refine ⟨[], number, ?_, fun index inside => absurd inside (Nat.not_lt_zero index)⟩
      rw [atStart, noBytes]
      exact .nil
  | true =>
      obtain ⟨before, captures, start, opened⟩ := captured.opened star
      have number := opened.number
      refine ⟨captures ++ [(dst.drop start).take (vars.dst - start)], ?_, ?_, ?_⟩
      · rw [number, List.length_append, List.length_singleton]
      · have whole : dst.take vars.dst =
            dst.take start ++ ((dst.drop start).take (vars.dst - start) ++ []) := by
          rw [List.append_nil, ← List.take_add, Nat.add_sub_cancel' opened.behind]
        rw [opened.pattern, whole]
        exact opened.fills.append (.capture _ .nil)
      · intro index inside
        rw [List.length_append, List.length_singleton] at inside
        rcases Nat.lt_or_eq_of_le (Nat.le_of_lt_succ inside) with earlier | rfl
        · rw [closeLast_of_ne (by omega), same _ (Nat.succ_pos _) (by omega),
            List.getElem_append_left earlier]
          exact opened.shown index earlier
        · have entry : result (captures.length + 1) = vars.result (captures.length + 1) :=
            same _ (Nat.succ_pos _) (by omega)
          have closed : closeLast result vars.resultIndex d literals (captures.length + 1) =
              { vars.result (captures.length + 1) with
                len := d - UInt32.ofNat start - literals } := by
            rw [closeLast, if_pos (by omega), number]
            simp only [Nat.add_succ_sub_one, setLen, entry, opened.last, Option.getD_some,
              Function.update_self]
          rw [closed, List.getElem_append_right (Nat.le_refl _)]
          simp only [Nat.sub_self, List.getElem_cons_zero]
          refine shows_between opened.last opened.behind opened.within fits ?_
          grind

theorem MatchCaptured.resultIndex_eq (captured : MatchCaptured pat dst wildcard vars) :
    vars.resultIndex = (pat.take vars.pat).count wildcard + 1 := by
  cases star : vars.star with
  | false =>
      obtain ⟨atStart, -, number⟩ := captured.fresh star
      rw [number, atStart]
      rfl
  | true =>
      obtain ⟨before, captures, start, opened⟩ := captured.opened star
      rw [opened.number, opened.pattern, List.count_append, List.count_singleton_self,
        opened.fills.length_captures]

/-- The last capture grows while its literals are not found. -/
theorem MatchCaptured.advance (captured : MatchCaptured pat dst wildcard vars)
    (star : vars.star = true) {stop : Nat} (behind : vars.dst ≤ stop)
    (within : stop ≤ dst.length) :
    MatchCaptured pat dst wildcard { vars with dst := stop } := by
  refine ⟨captured.zero, fun fresh => absurd (fresh.symm.trans star) Bool.false_ne_true,
    fun _ => ?_⟩
  obtain ⟨before, captures, start, opened⟩ := captured.opened star
  exact ⟨before, captures, start, opened.pattern, opened.fills, opened.inside,
    opened.behind.trans behind, within, opened.number, opened.shown, opened.last⟩

/-- A wildcard behind literals that are found opens the next capture. -/
theorem MatchCaptured.visit (captured : MatchCaptured pat dst wildcard vars)
    (fits : dst.length < 2 ^ 32) {literals rest : List UInt8}
    (pattern : pat.drop vars.pat = literals ++ wildcard :: rest)
    (other : ∀ c ∈ literals, c ≠ wildcard) (begins : literals <+: dst.drop vars.dst)
    (inside : vars.dst + literals.length < dst.length) :
    MatchCaptured pat dst wildcard
      (visitWildcard vars (vars.dst + literals.length) (vars.pat + literals.length)) := by
  have positive : 1 ≤ vars.resultIndex := by
    rw [captured.resultIndex_eq]
    exact Nat.le_add_left 1 _
  have segment : UInt32.ofNat (vars.dst + literals.length) -
      (UInt32.ofNat (vars.pat + literals.length) - UInt32.ofNat vars.pat) =
        UInt32.ofNat vars.dst := by
    rw [UInt32.ofNat_add, UInt32.ofNat_add]
    grind
  obtain ⟨captures, number, fills, shown⟩ := captured.closes fits
    (fun index _ earlier => setData_of_ne (Nat.ne_of_lt earlier)) segment
  obtain ⟨text, read⟩ := begins
  refine ⟨?_, fun fresh => absurd fresh (by simp [visitWildcard]), fun _ => ?_⟩
  · have zero : (visitWildcard vars (vars.dst + literals.length)
        (vars.pat + literals.length)).result 0 = vars.result 0 :=
      closeLast_zero.trans (setData_of_ne (by omega))
    rw [zero]
    exact captured.zero
  · refine ⟨pat.take (vars.pat + literals.length), captures, vars.dst + literals.length,
      take_wildcard pattern, ?_, inside, Nat.le_refl _, Nat.le_of_lt inside,
      congrArg (· + 1) number, shown, ?_⟩
    · have fills' := fills.append ((fills_literals other).mpr ⟨rfl, rfl⟩)
      rw [List.append_nil, ← take_literals pattern, ← take_literals read.symm] at fills'
      exact fills'
    · have last : (visitWildcard vars (vars.dst + literals.length)
          (vars.pat + literals.length)).result vars.resultIndex =
            setData vars.result vars.resultIndex (vars.dst + literals.length) vars.resultIndex :=
        closeLast_of_ne (by omega)
      rw [← number, last, setData, Function.update_self]

/-- With the last capture closed in front of the literals that end the pattern, the result is
right. -/
theorem MatchCaptured.sound (captured : MatchCaptured pat dst wildcard vars)
    (fits : dst.length < 2 ^ 32) {literals : List UInt8}
    (pattern : pat.drop vars.pat = literals) (other : ∀ c ∈ literals, c ≠ wildcard)
    (begins : literals <+: dst.drop vars.dst) (inside : vars.dst + literals.length ≤ dst.length)
    {len : UInt32}
    (segment : UInt32.ofNat (vars.dst + literals.length) - len = UInt32.ofNat vars.dst) :
    MatchSound pat dst wildcard (true,
      closeLast (setLen vars.result 0 (UInt32.ofNat (vars.dst + literals.length)))
        vars.resultIndex (UInt32.ofNat (vars.dst + literals.length)) len) := by
  obtain ⟨captures, -, fills, shown⟩ := captured.closes fits
    (fun index positive _ => setLen_of_ne (Nat.ne_of_gt positive)) segment
  have fills' := fills.append ((fills_literals other).mpr ⟨rfl, rfl⟩)
  obtain ⟨text, read⟩ := begins
  rw [List.append_nil, ← take_literals read.symm, ← pattern, List.take_append_drop,
    pattern] at fills'
  refine ⟨iff_of_true rfl ⟨_, inside, captures, fills'⟩, fun _ =>
    ⟨_, captures, List.take_prefix _ dst, ?_, fills', shown⟩⟩
  have zero : closeLast (setLen vars.result 0 (UInt32.ofNat (vars.dst + literals.length)))
      vars.resultIndex (UInt32.ofNat (vars.dst + literals.length)) len 0 =
        ⟨(vars.result 0).data, UInt32.ofNat (vars.dst + literals.length)⟩ :=
    closeLast_zero.trans (Function.update_self ..)
  have part : DataNode.Shows
      ⟨(vars.result 0).data, UInt32.ofNat (vars.dst + literals.length)⟩ dst
        (dst.take (vars.dst + literals.length)) := by
    exact @shows_between dst _ 0 _ captured.zero (Nat.zero_le _) inside fits
      (UInt32.sub_zero _).symm
  change (closeLast _ _ _ _ 0).Shows dst _
  rw [zero]
  exact part

end LedFirmware
