import LedFirmware.CString

/-!
# Searching strings

`StrStr` finds a string in another one; `StrSpn` and `StrCSpn` measure how far a string is
made of the characters of a set, or of others.  A read behind the bytes of a string has no
result, so a search with a result reads nothing behind the zero bytes.
-/

namespace LedFirmware

/-- The inner loop of `StrStr`: the last character it takes from the searched string. -/
def strStrInner : List UInt8 → List UInt8 → Option UInt8
  | [], _ => none
  | c2 :: t2, t1 =>
      if c2 = 0 then some 0
      else
        match t1 with
        | [] => none
        | ch :: t1 => if ch = c2 then strStrInner t2 t1 else some c2

/-- The loop of `StrStr` from a position on.  The search for the first character goes on
where the outer loop starts again, so the two loops are one. -/
def strStrLoop (c : UInt8) (subStr : List UInt8) : Nat → List UInt8 → Option (Option Nat)
  | _, [] => none
  | position, c2 :: str =>
      if c2 = 0 then some none
      else if c2 ≠ c then strStrLoop c subStr (position + 1) str
      else
        match strStrInner subStr str with
        | none => none
        | some last =>
            if last = 0 then some (some position)
            else strStrLoop c subStr (position + 1) str

/-- `StrStr`; the pointer it returns is a position, `none` the null pointer. -/
def strStr (str : List UInt8) : List UInt8 → Option (Option Nat)
  | [] => none
  | c :: subStr => if c = 0 then some (some 0) else strStrLoop c subStr 0 str

/-- The inner loop of `StrCSpn`: whether the set has the character. -/
def strCSpnInner (c1 : UInt8) : List UInt8 → Option Bool
  | [] => none
  | c2 :: p => if c2 = 0 then some false else if c1 = c2 then some true else strCSpnInner c1 p

def strCSpnLoop (chSet : List UInt8) : Nat → List UInt8 → Option Nat
  | _, [] => none
  | position, c1 :: str =>
      if c1 = 0 then some position
      else
        match strCSpnInner c1 chSet with
        | none => none
        | some true => some position
        | some false => strCSpnLoop chSet (position + 1) str

def strCSpn (str chSet : List UInt8) : Option Nat := strCSpnLoop chSet 0 str

/-- The inner loop of `StrSpn`: whether the set has the character. -/
def strSpnInner (c1 : UInt8) : List UInt8 → Option Bool
  | [] => none
  | c2 :: p => if c2 = c1 then some true else if c2 = 0 then some false else strSpnInner c1 p

def strSpnLoop (chSet : List UInt8) : Nat → List UInt8 → Option Nat
  | _, [] => none
  | position, c1 :: str =>
      if c1 = 0 then some position
      else
        match strSpnInner c1 chSet with
        | none => none
        | some false => some position
        | some true => strSpnLoop chSet (position + 1) str

def strSpn (str chSet : List UInt8) : Option Nat := strSpnLoop chSet 0 str

/-! ### The string search -/

/-- A string occurs in another one at a position. -/
def OccursAt (text pattern : List UInt8) (position : Nat) : Prop :=
  position ≤ text.length ∧ pattern <+: text.drop position

/-- The answer of a search: the first occurrence, if there is one. -/
def FirstOccurrence (text pattern : List UInt8) : Option Nat → Prop
  | some position => OccursAt text pattern position ∧
      ∀ earlier < position, ¬ OccursAt text pattern earlier
  | none => ∀ position, ¬ OccursAt text pattern position

variable {text pattern : List UInt8}

/-- The inner loop compares no further than to the first difference. -/
theorem strStrInner_eq (noNul : 0 ∉ text) (noNul' : 0 ∉ pattern) :
    ∃ last, strStrInner (pattern ++ [0]) (text ++ [0]) = some last ∧
      (last = 0 ↔ pattern <+: text) := by
  induction pattern generalizing text with
  | nil => exact ⟨0, by simp [strStrInner], iff_of_true rfl (List.nil_prefix)⟩
  | cons ch rest ih =>
      have present : ch ≠ 0 := (List.ne_of_not_mem_cons noNul').symm
      cases text with
      | nil =>
          refine ⟨ch, by simp [strStrInner, present, present.symm], iff_of_false present ?_⟩
          exact fun isPrefix => List.cons_ne_nil _ _ (List.prefix_nil.mp isPrefix)
      | cons ch' text =>
          by_cases same : ch' = ch
          · subst same
            obtain ⟨last, found, isPrefix⟩ := ih (List.not_mem_of_not_mem_cons noNul)
              (List.not_mem_of_not_mem_cons noNul')
            refine ⟨last, ?_, isPrefix.trans (List.prefix_cons_inj ch').symm⟩
            simpa [strStrInner, present] using found
          · refine ⟨ch, by simp [strStrInner, present, same], iff_of_false present ?_⟩
            exact fun isPrefix => same (List.cons_prefix_cons.mp isPrefix).1.symm

theorem occursAt_zero : OccursAt text pattern 0 ↔ pattern <+: text := by
  rw [OccursAt, List.drop_zero]
  exact and_iff_right (Nat.zero_le _)

theorem occursAt_succ {ch : UInt8} {position : Nat} :
    OccursAt (ch :: text) pattern (position + 1) ↔ OccursAt text pattern position := by
  rw [OccursAt, OccursAt, List.drop_succ_cons, List.length_cons, Nat.succ_le_succ_iff]

/-- The answer for a text whose first character starts no occurrence. -/
theorem FirstOccurrence.cons {ch : UInt8} {found : Option Nat}
    (rest : FirstOccurrence text pattern found) (no : ¬ pattern <+: ch :: text) :
    FirstOccurrence (ch :: text) pattern (found.map (· + 1)) := by
  have notHere : ¬ OccursAt (ch :: text) pattern 0 := fun here => no (occursAt_zero.mp here)
  cases found with
  | none =>
      intro position occurs
      cases position with
      | zero => exact notHere occurs
      | succ position => exact rest position (occursAt_succ.mp occurs)
  | some position =>
      refine ⟨occursAt_succ.mpr rest.1, fun earlier before occurs => ?_⟩
      cases earlier with
      | zero => exact notHere occurs
      | succ earlier =>
          exact rest.2 earlier (Nat.lt_of_succ_lt_succ before) (occursAt_succ.mp occurs)

theorem strStrLoop_first {c : UInt8} (noNul : 0 ∉ text) (noNul' : 0 ∉ c :: pattern)
    (position : Nat) :
    ∃ found, strStrLoop c (pattern ++ [0]) position (text ++ [0]) =
        some (found.map (position + ·)) ∧
      FirstOccurrence text (c :: pattern) found := by
  induction text generalizing position with
  | nil =>
      refine ⟨none, by simp [strStrLoop], fun position occurs => ?_⟩
      rw [OccursAt, List.drop_nil, List.prefix_nil] at occurs
      exact List.cons_ne_nil _ _ occurs.2
  | cons ch text ih =>
      have present : ch ≠ 0 := (List.ne_of_not_mem_cons noNul).symm
      obtain ⟨found, rest, first⟩ := ih (List.not_mem_of_not_mem_cons noNul) (position + 1)
      have onward (no : ¬ c :: pattern <+: ch :: text)
          (step : strStrLoop c (pattern ++ [0]) position (ch :: text ++ [0]) =
            strStrLoop c (pattern ++ [0]) (position + 1) (text ++ [0])) :
          ∃ found, strStrLoop c (pattern ++ [0]) position (ch :: text ++ [0]) =
              some (found.map (position + ·)) ∧
            FirstOccurrence (ch :: text) (c :: pattern) found := by
        refine ⟨found.map (· + 1), ?_, first.cons no⟩
        rw [step, rest, Option.map_map]
        congr 2
        funext distance
        exact (Nat.add_assoc position 1 distance).trans (by rw [Nat.add_comm 1]; rfl)
      by_cases start : ch = c
      · subst start
        obtain ⟨last, compared, isPrefix⟩ := strStrInner_eq (List.not_mem_of_not_mem_cons noNul)
          (List.not_mem_of_not_mem_cons noNul')
        by_cases ended : last = 0
        · refine ⟨some 0, by simp [strStrLoop, present, compared, ended], ?_, nofun⟩
          exact occursAt_zero.mpr ((List.prefix_cons_inj ch).mpr (isPrefix.mp ended))
        · refine onward (fun all => ended (isPrefix.mpr ((List.prefix_cons_inj ch).mp all))) ?_
          simp [strStrLoop, present, compared, ended]
      · refine onward (fun all => start (List.cons_prefix_cons.mp all).1.symm) ?_
        simp [strStrLoop, present, start]

/-! ### The spans -/

/-- The length of the longest beginning of a text whose characters are all kept. -/
def LongestPrefix (keeps : UInt8 → Prop) (text : List UInt8) (count : Nat) : Prop :=
  count ≤ text.length ∧ (∀ ch ∈ text.take count, keeps ch) ∧
    ∀ longer ≤ text.length, (∀ ch ∈ text.take longer, keeps ch) → longer ≤ count

variable {keeps : UInt8 → Prop} {ch : UInt8}

theorem longestPrefix_nil : LongestPrefix keeps [] 0 :=
  ⟨Nat.le_refl 0, nofun, fun _ inside _ => inside⟩

theorem LongestPrefix.cons {count : Nat} (rest : LongestPrefix keeps text count)
    (kept : keeps ch) : LongestPrefix keeps (ch :: text) (count + 1) := by
  obtain ⟨inside, all, longest⟩ := rest
  refine ⟨Nat.succ_le_succ inside, ?_, fun longer inside' all' => ?_⟩
  · rw [List.take_succ_cons, List.forall_mem_cons]
    exact ⟨kept, all⟩
  · cases longer with
    | zero => exact Nat.zero_le _
    | succ longer =>
        rw [List.take_succ_cons, List.forall_mem_cons] at all'
        exact Nat.succ_le_succ (longest longer (Nat.le_of_succ_le_succ inside') all'.2)

theorem longestPrefix_stop (stops : ¬ keeps ch) : LongestPrefix keeps (ch :: text) 0 := by
  refine ⟨Nat.zero_le _, nofun, fun longer _ all => ?_⟩
  cases longer with
  | zero => exact Nat.le_refl 0
  | succ longer =>
      rw [List.take_succ_cons, List.forall_mem_cons] at all
      exact absurd all.1 stops

variable {chars : List UInt8}

theorem strCSpnInner_eq (noNul : 0 ∉ chars) (c1 : UInt8) :
    strCSpnInner c1 (chars ++ [0]) = some (decide (c1 ∈ chars)) := by
  induction chars with
  | nil => simp [strCSpnInner]
  | cons c2 rest ih =>
      have present : c2 ≠ 0 := (List.ne_of_not_mem_cons noNul).symm
      by_cases same : c1 = c2
      · simp [strCSpnInner, present, same]
      · simp [strCSpnInner, present, same, ih (List.not_mem_of_not_mem_cons noNul)]

theorem strSpnInner_eq (noNul : 0 ∉ chars) {c1 : UInt8} (present' : c1 ≠ 0) :
    strSpnInner c1 (chars ++ [0]) = some (decide (c1 ∈ chars)) := by
  induction chars with
  | nil => simp [strSpnInner, present'.symm]
  | cons c2 rest ih =>
      have present : c2 ≠ 0 := (List.ne_of_not_mem_cons noNul).symm
      by_cases same : c1 = c2
      · simp [strSpnInner, same]
      · have same' : ¬ c2 = c1 := fun equal => same equal.symm
        simp [strSpnInner, present, same, same', ih (List.not_mem_of_not_mem_cons noNul)]

theorem strCSpnLoop_longest (noNul : 0 ∉ text) (noNul' : 0 ∉ chars) (position : Nat) :
    ∃ count, strCSpnLoop (chars ++ [0]) position (text ++ [0]) = some (position + count) ∧
      LongestPrefix (· ∉ chars) text count := by
  induction text generalizing position with
  | nil => exact ⟨0, by simp [strCSpnLoop], longestPrefix_nil⟩
  | cons ch text ih =>
      have present : ch ≠ 0 := (List.ne_of_not_mem_cons noNul).symm
      by_cases member : ch ∈ chars
      · refine ⟨0, ?_, longestPrefix_stop (not_not.mpr member)⟩
        simp [strCSpnLoop, present, strCSpnInner_eq noNul', member]
      · obtain ⟨count, rest, longest⟩ := ih (List.not_mem_of_not_mem_cons noNul) (position + 1)
        refine ⟨count + 1, ?_, longest.cons member⟩
        rw [List.cons_append, strCSpnLoop, if_neg present, strCSpnInner_eq noNul',
          decide_eq_false member]
        exact rest.trans (congrArg some (by omega))

theorem strSpnLoop_longest (noNul : 0 ∉ text) (noNul' : 0 ∉ chars) (position : Nat) :
    ∃ count, strSpnLoop (chars ++ [0]) position (text ++ [0]) = some (position + count) ∧
      LongestPrefix (· ∈ chars) text count := by
  induction text generalizing position with
  | nil => exact ⟨0, by simp [strSpnLoop], longestPrefix_nil⟩
  | cons ch text ih =>
      have present : ch ≠ 0 := (List.ne_of_not_mem_cons noNul).symm
      by_cases member : ch ∈ chars
      · obtain ⟨count, rest, longest⟩ := ih (List.not_mem_of_not_mem_cons noNul) (position + 1)
        refine ⟨count + 1, ?_, longest.cons member⟩
        rw [List.cons_append, strSpnLoop, if_neg present, strSpnInner_eq noNul' present,
          decide_eq_true member]
        exact rest.trans (congrArg some (by omega))
      · refine ⟨0, ?_, longestPrefix_stop member⟩
        simp [strSpnLoop, present, strSpnInner_eq noNul' present, member]

/-- The searches return what their names say and read nothing behind the zero bytes. -/
theorem searches_find (str subStr chSet : CString) :
    (∃ found, strStr str.bytes subStr.bytes = some found ∧
        FirstOccurrence str.chars subStr.chars found) ∧
      (∃ count, strSpn str.bytes chSet.bytes = some count ∧
        LongestPrefix (· ∈ chSet.chars) str.chars count) ∧
      ∃ count, strCSpn str.bytes chSet.bytes = some count ∧
        LongestPrefix (· ∉ chSet.chars) str.chars count := by
  refine ⟨?_, ?_, ?_⟩
  · obtain ⟨pattern, noNul⟩ := subStr
    cases pattern with
    | nil => exact ⟨some 0, rfl, occursAt_zero.mpr List.nil_prefix, nofun⟩
    | cons c pattern =>
        have present : c ≠ 0 := (List.ne_of_not_mem_cons noNul).symm
        obtain ⟨found, searched, first⟩ := strStrLoop_first str.noNul noNul 0
        refine ⟨found, ?_, first⟩
        rw [CString.bytes, CString.bytes, List.cons_append, strStr, if_neg present, searched]
        simp
  · obtain ⟨count, searched, longest⟩ := strSpnLoop_longest str.noNul chSet.noNul 0
    exact ⟨count, by rw [strSpn, CString.bytes, CString.bytes, searched, Nat.zero_add], longest⟩
  · obtain ⟨count, searched, longest⟩ := strCSpnLoop_longest str.noNul chSet.noNul 0
    exact ⟨count, by rw [strCSpn, CString.bytes, CString.bytes, searched, Nat.zero_add], longest⟩

end LedFirmware
