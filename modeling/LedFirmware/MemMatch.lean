import LedFirmware.Wildcards
import Mathlib.Logic.Function.Basic

/-!
# Matching memory against a pattern

`MemMatch` scans the literals behind the last wildcard that it has found, from one position
of the target after the other.  A pointer into the target is its offset there; what the
result array held before is arbitrary.
-/

namespace LedFirmware

open Wildcards

/-- A part of the target, or none for `NULL`. -/
structure DataNode where
  data : Option Nat
  len : UInt32

def DataNode.null : DataNode := ⟨none, 0⟩

/-- How a scan stops: at a wildcard, at bytes that differ, or at an end. -/
inductive MatchStop
  | wildcard (d p : Nat)
  | starCheck
  | ended (d p : Nat)

/-- The `for` loop. -/
def matchScan (pat dst : List UInt8) (wildcard : UInt8) (d p : Nat) : MatchStop :=
  if inside : d < dst.length ∧ p < pat.length then
    if pat[p] = wildcard then .wildcard d p
    else if dst[d] ≠ pat[p] then .starCheck
    else matchScan pat dst wildcard (d + 1) (p + 1)
  else .ended d p
  termination_by dst.length - d

/-- The loop behind it; the byte behind the pattern, which it also reads, has no effect. -/
def skipWildcards (pat : List UInt8) (wildcard : UInt8) (p : Nat) : Nat :=
  if inside : p < pat.length then
    if pat[p] = wildcard then skipWildcards pat wildcard (p + 1) else p
  else p
  termination_by pat.length - p

structure MatchVars where
  dst : Nat
  pat : Nat
  result : Nat → DataNode
  resultIndex : Nat
  star : Bool

def setData (result : Nat → DataNode) (index d : Nat) : Nat → DataNode :=
  Function.update result index { result index with data := some d }

def setLen (result : Nat → DataNode) (index : Nat) (len : UInt32) : Nat → DataNode :=
  Function.update result index { result index with len := len }

/-- Set the length of the last capture, if there is one: it ends `literals` bytes before
`d`. -/
def closeLast (result : Nat → DataNode) (resultIndex : Nat) (d literals : UInt32) :
    Nat → DataNode :=
  if resultIndex > 1 then
    let start := UInt32.ofNat ((result (resultIndex - 1)).data.getD 0)
    setLen result (resultIndex - 1) (d - start - literals)
  else result

/-- The loop that clears one entry again and again, with its counter of eight bits. -/
def clearLoop (result : Nat → DataNode) (resultIndex : Nat) :
    (fuel : Nat) → (i : UInt8) → Option (Nat → DataNode)
  | 0, _ => none
  | fuel + 1, i =>
      if i.toNat ≤ resultIndex then
        clearLoop (Function.update result resultIndex .null) resultIndex fuel (i + 1)
      else some result

/-- What a scan from `(d, p)` has found. -/
inductive MatchScanned (pat dst : List UInt8) (wildcard : UInt8) (d p : Nat) : MatchStop → Prop
  | wildcard {literals rest : List UInt8} (pattern : pat.drop p = literals ++ wildcard :: rest)
      (other : ∀ c ∈ literals, c ≠ wildcard) (begins : literals <+: dst.drop d)
      (inside : d + literals.length < dst.length) :
      MatchScanned pat dst wildcard d p (.wildcard (d + literals.length) (p + literals.length))
  | starCheck {literals rest : List UInt8} (pattern : pat.drop p = literals ++ rest)
      (other : ∀ c ∈ literals, c ≠ wildcard) (differs : ¬ literals <+: dst.drop d)
      (inside : d < dst.length) : MatchScanned pat dst wildcard d p .starCheck
  | ended {literals rest : List UInt8} (pattern : pat.drop p = literals ++ rest)
      (other : ∀ c ∈ literals, c ≠ wildcard) (begins : literals <+: dst.drop d)
      (last : rest = [] ∨ dst.length ≤ d + literals.length) :
      MatchScanned pat dst wildcard d p (.ended (d + literals.length) (p + literals.length))

/-- A scan of the rest finds the same behind one more literal. -/
theorem MatchScanned.cons {pat dst : List UInt8} {wildcard : UInt8} {d p : Nat}
    (inside : d < dst.length) (inside' : p < pat.length) (other : pat[p] ≠ wildcard)
    (same : dst[d] = pat[p]) {stop : MatchStop}
    (scanned : MatchScanned pat dst wildcard (d + 1) (p + 1) stop) :
    MatchScanned pat dst wildcard d p stop := by
  have pattern := List.drop_eq_getElem_cons inside'
  have text := List.drop_eq_getElem_cons inside
  have others {literals : List UInt8} (all : ∀ c ∈ literals, c ≠ wildcard) :
      ∀ c ∈ pat[p] :: literals, c ≠ wildcard := by
    intro c member
    rcases List.mem_cons.mp member with rfl | later
    · exact other
    · exact all c later
  have begins {literals : List UInt8} :
      pat[p] :: literals <+: dst.drop d ↔ literals <+: dst.drop (d + 1) := by
    rw [text, same, List.cons_prefix_cons]
    exact and_iff_right rfl
  cases scanned with
  | @wildcard literals rest pattern' all begins' inside'' =>
      rw [pattern'] at pattern
      have scanned := @MatchScanned.wildcard pat dst wildcard d p (pat[p] :: literals) rest pattern
        (others all) (begins.mpr begins') (by rw [List.length_cons]; omega)
      rw [List.length_cons, ← Nat.add_assoc, Nat.add_right_comm, ← Nat.add_assoc,
        Nat.add_right_comm p] at scanned
      exact scanned
  | @starCheck literals rest pattern' all differs =>
      rw [pattern'] at pattern
      exact .starCheck pattern (others all) (fun begins' => differs (begins.mp begins')) inside
  | @ended literals rest pattern' all begins' last =>
      rw [pattern'] at pattern
      have scanned := @MatchScanned.ended pat dst wildcard d p (pat[p] :: literals) rest pattern
        (others all) (begins.mpr begins') (last.imp_right fun at' => by
          rw [List.length_cons]; omega)
      rw [List.length_cons, ← Nat.add_assoc, Nat.add_right_comm, ← Nat.add_assoc,
        Nat.add_right_comm p] at scanned
      exact scanned

theorem matchScan_scanned (pat dst : List UInt8) (wildcard : UInt8) (d p : Nat) :
    MatchScanned pat dst wildcard d p (matchScan pat dst wildcard d p) := by
  fun_induction matchScan pat dst wildcard d p with
  | case1 d p both isWild =>
      exact @MatchScanned.wildcard pat dst wildcard d p [] _
        ((List.drop_eq_getElem_cons both.2).trans (by rw [isWild]; rfl))
        (fun _ member => absurd member List.not_mem_nil) List.nil_prefix both.1
  | case2 d p both other differs =>
      have pattern : pat.drop p = [pat[p]] ++ pat.drop (p + 1) :=
        List.drop_eq_getElem_cons both.2
      refine .starCheck pattern (by simpa using other) ?_ both.1
      rw [List.drop_eq_getElem_cons both.1, List.cons_prefix_cons]
      exact fun begins => differs begins.1.symm
  | case3 d p both other same ih =>
      exact ih.cons both.1 both.2 other (not_not.mp same)
  | case4 d p neither =>
      refine @MatchScanned.ended pat dst wildcard d p [] (pat.drop p) rfl
        (fun _ member => absurd member List.not_mem_nil) List.nil_prefix ?_
      rcases Nat.lt_or_ge p pat.length with more | ends
      · exact Or.inr (Nat.le_of_not_lt fun room => neither ⟨room, more⟩)
      · exact Or.inl (List.drop_eq_nil_of_le ends)

theorem matchScanned_of_eq {pat dst : List UInt8} {wildcard : UInt8} {d p : Nat} {stop : MatchStop}
    (scan : matchScan pat dst wildcard d p = stop) : MatchScanned pat dst wildcard d p stop :=
  scan ▸ matchScan_scanned pat dst wildcard d p

theorem MatchScanned.wildcard_lt {pat dst : List UInt8} {wildcard : UInt8} {d p d' p' : Nat}
    (scanned : MatchScanned pat dst wildcard d p (.wildcard d' p')) :
    p ≤ p' ∧ p' < pat.length := by
  cases scanned with
  | @wildcard literals rest pattern =>
      have length := congrArg List.length pattern
      rw [List.length_drop, List.length_append, List.length_cons] at length
      exact ⟨Nat.le_add_right _ _, by omega⟩

theorem MatchScanned.starCheck_lt {pat dst : List UInt8} {wildcard : UInt8} {d p : Nat}
    (scanned : MatchScanned pat dst wildcard d p .starCheck) : d < dst.length := by
  cases scanned
  assumption

/-- The variables with which a wildcard at `(d, p)` is left. -/
def visitWildcard (vars : MatchVars) (d p : Nat) : MatchVars where
  dst := d
  pat := p + 1
  result := closeLast (setData vars.result vars.resultIndex d) vars.resultIndex (UInt32.ofNat d)
    (UInt32.ofNat p - UInt32.ofNat vars.pat)
  resultIndex := vars.resultIndex + 1
  star := true

/-- How the search ends: with `TRUE`, or in front of the loop that clears the result. -/
inductive MatchEnd
  | found (result : Nat → DataNode)
  | refused (result : Nat → DataNode) (resultIndex : Nat)

theorem visitWildcard_decreases {pat dst : List UInt8} {wildcard : UInt8} {vars : MatchVars}
    {d p : Nat} (scan : matchScan pat dst wildcard vars.dst vars.pat = .wildcard d p) :
    pat.length - (visitWildcard vars d p).pat < pat.length - vars.pat := by
  obtain ⟨behind, inside⟩ := (matchScanned_of_eq scan).wildcard_lt
  change pat.length - (p + 1) < _
  omega

theorem starCheck_decreases {pat dst : List UInt8} {wildcard : UInt8} {vars : MatchVars}
    (scan : matchScan pat dst wildcard vars.dst vars.pat = .starCheck) :
    dst.length - (vars.dst + 1) < dst.length - vars.dst := by
  have inside := (matchScanned_of_eq scan).starCheck_lt
  omega

/-- From `memMatchLoop` on. -/
def memMatchLoop (pat dst : List UInt8) (wildcard : UInt8) (vars : MatchVars) : MatchEnd :=
  match _ : matchScan pat dst wildcard vars.dst vars.pat with
  | .wildcard d p =>
      let vars := visitWildcard vars d p
      if vars.pat = pat.length then
        let result := setLen vars.result 0 (UInt32.ofNat dst.length)
        .found (closeLast result vars.resultIndex (UInt32.ofNat dst.length) 0)
      else memMatchLoop pat dst wildcard vars
  | .ended d p =>
      let p := skipWildcards pat wildcard p
      if p = pat.length then
        let result := setLen vars.result 0 (UInt32.ofNat d)
        .found (closeLast result vars.resultIndex (UInt32.ofNat d)
          (UInt32.ofNat p - UInt32.ofNat vars.pat))
      else .refused vars.result vars.resultIndex
  | .starCheck =>
      if vars.star then memMatchLoop pat dst wildcard { vars with dst := vars.dst + 1 }
      else .refused vars.result vars.resultIndex
  termination_by (pat.length - vars.pat, dst.length - vars.dst)
  decreasing_by
    · exact Prod.Lex.left _ _ (visitWildcard_decreases ‹_›)
    · exact Prod.Lex.right _ (starCheck_decreases ‹_›)

/-- The returned value and the result array.  The fuel is for the loop that clears the
result, which need not end. -/
def memMatch (pat dst : List UInt8) (wildcard : UInt8) (result : Nat → DataNode) (fuel : Nat) :
    Option (Bool × (Nat → DataNode)) :=
  match memMatchLoop pat dst wildcard ⟨0, 0, setData result 0 0, 1, false⟩ with
  | .found result => some (true, result)
  | .refused result resultIndex =>
      clearLoop result resultIndex fuel 0 >>= fun result => some (false, result)

end LedFirmware
