import LedFirmware.CString

/-!
# Strip

`Strip` removes a character from a string in place.  It looks at the character behind its
pointer, so the first character of the string is never tested.
-/

namespace LedFirmware

/-- The inner loop of `Strip`: past a run of the character. -/
def stripInner (mem : List UInt8) (ch : UInt8) (p2 : Nat) : Option Nat :=
  if inside : p2 < mem.length then
    if mem[p2] ≠ 0 ∧ mem[p2] = ch then stripInner mem ch (p2 + 1) else some p2
  else none
termination_by mem.length - p2

/-- The outer loop of `Strip`.  A read behind the memory has no result. -/
def stripLoop (ch : UInt8) (mem : List UInt8) (p1 : Nat) : Option (List UInt8) :=
  if inside : p1 < mem.length then
    if mem[p1] = 0 then some mem
    else
      match mem[p1 + 1]? with
      | none => none
      | some next =>
          if next = ch then
            match stripInner mem ch (p1 + 1) with
            | none => none
            | some p2 =>
                match mem[p2]? with
                | none => none
                | some last =>
                    if last ≠ 0 then stripLoop ch ((mem.set (p1 + 1) last).set p2 ch) (p1 + 1)
                    else some (mem.set (p1 + 1) 0)
          else stripLoop ch mem (p1 + 1)
  else none
termination_by mem.length - p1
decreasing_by
  · rw [List.length_set, List.length_set]
    omega
  · omega

/-- `Strip`, which returns the pointer it is given. -/
def strip (str : List UInt8) (ch : UInt8) : Option (List UInt8) := stripLoop ch str 0

/-! ### One pass of each loop -/

variable {mem : List UInt8} {ch c : UInt8} {position : Nat}

theorem stripInner_eq (reads : mem[position]? = some c) :
    stripInner mem ch position =
      if c ≠ 0 ∧ c = ch then stripInner mem ch (position + 1) else some position := by
  obtain ⟨inside, rfl⟩ := List.getElem?_eq_some_iff.mp reads
  rw [stripInner, dif_pos inside]

theorem stripLoop_end (reads : mem[position]? = some 0) :
    stripLoop ch mem position = some mem := by
  obtain ⟨inside, isZero⟩ := List.getElem?_eq_some_iff.mp reads
  rw [stripLoop, dif_pos inside, if_pos isZero]

theorem stripLoop_keep {next : UInt8} (reads : mem[position]? = some c) (present : c ≠ 0)
    (readsNext : mem[position + 1]? = some next) (differ : next ≠ ch) :
    stripLoop ch mem position = stripLoop ch mem (position + 1) := by
  obtain ⟨inside, rfl⟩ := List.getElem?_eq_some_iff.mp reads
  rw [stripLoop, dif_pos inside, if_neg present, readsNext]
  exact if_neg differ

theorem stripLoop_run {last : UInt8} {p2 : Nat} (reads : mem[position]? = some c)
    (present : c ≠ 0) (readsNext : mem[position + 1]? = some ch)
    (runs : stripInner mem ch (position + 1) = some p2) (readsLast : mem[p2]? = some last) :
    stripLoop ch mem position =
      if last ≠ 0 then stripLoop ch ((mem.set (position + 1) last).set p2 ch) (position + 1)
      else some (mem.set (position + 1) 0) := by
  obtain ⟨inside, rfl⟩ := List.getElem?_eq_some_iff.mp reads
  rw [stripLoop, dif_pos inside, if_neg present, readsNext]
  simp only [if_true, runs, readsLast]

/-! ### A whole string -/

/-- The inner loop stops at the first other character or at the end. -/
theorem stripInner_run (present : ch ≠ 0) (done behind : List UInt8) {other : UInt8}
    (differ : other ≠ ch) (count : Nat) :
    stripInner (done ++ (List.replicate count ch ++ other :: behind)) ch done.length =
      some (done.length + count) := by
  induction count generalizing done with
  | zero =>
      have reads : (done ++ (List.replicate 0 ch ++ other :: behind))[done.length]? =
          some other := by simp
      rw [stripInner_eq reads, if_neg fun both => differ both.2, Nat.add_zero]
  | succ count ih =>
      have reads : (done ++ (List.replicate (count + 1) ch ++ other :: behind))[done.length]? =
          some ch := by simp [List.replicate_succ]
      have shifted : done ++ (List.replicate (count + 1) ch ++ other :: behind) =
          done ++ [ch] ++ (List.replicate count ch ++ other :: behind) := by
        simp [List.replicate_succ]
      have next := ih (done ++ [ch])
      rw [List.length_append, List.length_singleton] at next
      rw [stripInner_eq reads, if_pos ⟨present, rfl⟩, shifted, next, Nat.add_right_comm,
        Nat.add_assoc]

/-- A text begins with a run of the character. -/
theorem exists_run (ch : UInt8) (text : List UInt8) :
    ∃ count rest, text = List.replicate count ch ++ rest ∧ rest.head? ≠ some ch := by
  induction text with
  | nil => exact ⟨0, [], rfl, nofun⟩
  | cons c text ih =>
      by_cases same : c = ch
      · obtain ⟨count, rest, rfl, stops⟩ := ih
        exact ⟨count + 1, rest, by rw [same, List.replicate_succ, List.cons_append], stops⟩
      · exact ⟨0, c :: text, rfl, fun first => same (Option.some.inj first)⟩

/-- The exchange of the loop moves the character behind a run in front of it. -/
theorem set_run (done behind : List UInt8) (ch last : UInt8) (count : Nat) :
    ((done ++ (List.replicate (count + 1) ch ++ last :: behind)).set done.length last).set
        (done.length + (count + 1)) ch =
      done ++ last :: (List.replicate (count + 1) ch ++ behind) := by
  have first : (done ++ (List.replicate (count + 1) ch ++ last :: behind)).set done.length last =
      done ++ last :: (List.replicate count ch ++ last :: behind) := by
    simp [List.replicate_succ]
  have second : (List.replicate count ch ++ last :: behind).set count ch =
      List.replicate count ch ++ ch :: behind := by
    simp
  rw [first, List.set_append_right _ _ (by omega), Nat.add_sub_cancel_left, List.set_cons_succ,
    second, List.replicate_succ', List.append_assoc, List.singleton_append]

section

variable (present : ch ≠ 0) (present' : c ≠ 0) (done behind : List UInt8) (count : Nat)

include present present'

/-- What the loop does at a run, by the character behind the run. -/
theorem stripLoop_at_run {last : UInt8} (differ : last ≠ ch) :
    stripLoop ch (done ++ c :: (List.replicate (count + 1) ch ++ last :: behind)) done.length =
      if last ≠ 0 then
        stripLoop ch (done ++ c :: last :: (List.replicate (count + 1) ch ++ behind))
          (done.length + 1)
      else some (done ++ c :: 0 :: (List.replicate count ch ++ last :: behind)) := by
  have join (others : List UInt8) : done ++ c :: others = (done ++ [c]) ++ others := by simp
  have length : done.length + 1 = (done ++ [c]).length := by simp
  have reads (others : List UInt8) : (done ++ c :: others)[done.length]? = some c := by simp
  have readsNext : (done ++ c :: (List.replicate (count + 1) ch ++ last :: behind))[
      done.length + 1]? = some ch := by
    simp [List.replicate_succ]
  have runs := stripInner_run present (done ++ [c]) behind differ (count + 1)
  rw [← join, ← length] at runs
  have readsLast : (done ++ c :: (List.replicate (count + 1) ch ++ last :: behind))[
      done.length + 1 + (count + 1)]? = some last := by
    rw [join, length, List.getElem?_append_right (by omega), Nat.add_sub_cancel_left]
    simp
  rw [stripLoop_run (reads _) present' readsNext runs readsLast]
  congr 1
  · rw [join, length, set_run]
    simp
  · rw [join, length]
    simp [List.replicate_succ]

end

/-- Behind a settled character the loop removes every occurrence of `ch`. -/
theorem stripLoop_filter (present : ch ≠ 0) (done text behind : List UInt8) (present' : c ≠ 0)
    (noNul : 0 ∉ text) :
    ∃ behind', stripLoop ch (done ++ c :: (text ++ 0 :: behind)) done.length =
      some (done ++ c :: (text.filter (· ≠ ch) ++ 0 :: behind')) := by
  induction size : text.length using Nat.strong_induction_on generalizing done c text with
  | _ total ih =>
  have onward (next : UInt8) (rest behind : List UInt8) :
      done ++ c :: next :: (rest ++ 0 :: behind) =
        done ++ [c] ++ next :: (rest ++ 0 :: behind) := by
    simp
  have length : done.length + 1 = (done ++ [c]).length := by simp
  have reads (others : List UInt8) : (done ++ c :: others)[done.length]? = some c := by simp
  have readsNext (next : UInt8) (others : List UInt8) :
      (done ++ c :: next :: others)[done.length + 1]? = some next := by simp
  obtain ⟨count, rest, rfl, stops⟩ := exists_run ch text
  have dropped (others : List UInt8) :
      (List.replicate count ch ++ others).filter (· ≠ ch) = others.filter (· ≠ ch) := by
    simp
  rw [dropped, List.append_assoc]
  cases rest with
  | nil =>
      cases count with
      | zero =>
          refine ⟨behind, ?_⟩
          exact (stripLoop_keep (reads _) present' (readsNext 0 behind) present.symm).trans
            (stripLoop_end (readsNext 0 behind))
      | succ count =>
          refine ⟨List.replicate count ch ++ 0 :: behind, ?_⟩
          exact (stripLoop_at_run present present' done behind count present.symm).trans
            (if_neg (not_not.mpr rfl))
  | cons next rest =>
      have differ : next ≠ ch := fun same => stops (congrArg some same)
      have nextPresent : next ≠ 0 := fun zero => noNul (by simp [zero])
      have shorter : 0 ∉ List.replicate count ch ++ rest := fun member =>
        noNul (by
          rw [List.mem_append] at member ⊢
          exact member.imp_right (List.mem_cons_of_mem _))
      have size' : (List.replicate count ch ++ rest).length < total := by
        rw [← size]
        simp
      obtain ⟨behind', goesOn⟩ := ih _ size' (done ++ [c]) (List.replicate count ch ++ rest)
        nextPresent shorter rfl
      refine ⟨behind', ?_⟩
      have step : stripLoop ch
          (done ++ c :: (List.replicate count ch ++ (next :: rest ++ 0 :: behind))) done.length =
            stripLoop ch
              (done ++ c :: next :: (List.replicate count ch ++ (rest ++ 0 :: behind)))
              (done.length + 1) := by
        cases count with
        | zero => exact stripLoop_keep (reads _) present' (readsNext next _) differ
        | succ count =>
            exact (stripLoop_at_run present present' done (rest ++ 0 :: behind) count differ).trans
              (if_pos nextPresent)
      rw [step, ← List.append_assoc, onward, length, goesOn, dropped,
        List.filter_cons_of_pos (by simpa using differ)]
      simp

/-- A memory that begins with a string and its zero byte. -/
def HoldsString (mem chars : List UInt8) : Prop := ∃ behind, mem = chars ++ 0 :: behind

/-- `Strip` removes a character from every place but the first. -/
theorem strip_filter_iff (str : CString) (present : ch ≠ 0) :
    ∃ mem, strip str.bytes ch = some mem ∧
      (HoldsString mem (str.chars.filter (· ≠ ch)) ↔ str.chars.head? ≠ some ch) := by
  obtain ⟨chars, noNul⟩ := str
  cases chars with
  | nil => exact ⟨[0], stripLoop_end rfl, iff_of_true ⟨[], rfl⟩ nofun⟩
  | cons c text =>
      have present' : c ≠ 0 := (List.ne_of_not_mem_cons noNul).symm
      obtain ⟨behind, stripped⟩ := stripLoop_filter present [] text [] present'
        (List.not_mem_of_not_mem_cons noNul)
      refine ⟨_, stripped, ?_⟩
      rw [List.head?_cons, ne_eq, Option.some.injEq]
      constructor
      · rintro ⟨behind', begins⟩ rfl
        rw [List.filter_cons_of_neg (by simp)] at begins
        cases left : text.filter (· ≠ c) with
        | nil =>
            rw [left] at begins
            exact present' (List.cons.inj begins).1
        | cons first rest =>
            have kept : first ∈ text.filter (· ≠ c) := left ▸ List.mem_cons_self
            rw [left] at begins
            have same : c = first := (List.cons.inj begins).1
            simp [same] at kept
      · intro differ
        rw [List.filter_cons_of_pos (by simpa using differ)]
        exact ⟨behind, rfl⟩

theorem strip_filter_iff_text :
    ∃ mem, strip [0x61, 0x2D, 0x62, 0] 0x2D = some mem ∧
      (HoldsString mem [0x61, 0x62] ↔ some 0x61 ≠ some (0x2D : UInt8)) :=
  strip_filter_iff ⟨[0x61, 0x2D, 0x62], by decide⟩ (by decide)

/-- The string `-` keeps its only character. -/
theorem strip_first :
    ∃ mem, strip (CString.mk [0x2D] (by decide)).bytes 0x2D = some mem ∧
      ¬ HoldsString mem ([0x2D].filter (· ≠ 0x2D)) := by
  refine ⟨[0x2D, 0], ?_, ?_⟩
  · exact (stripLoop_keep rfl (by decide) rfl (by decide)).trans (stripLoop_end rfl)
  · rintro ⟨behind, begins⟩
    exact absurd (List.cons.inj begins).1 (by decide)

end LedFirmware
