import LedFirmware.MatchSearch

/-!
# When `MemMatch` is right

The search finds a match exactly if there is one.  Wildcards at the end of the pattern that
the target is too short to reach are skipped without a capture, and the loop behind a failed
search ends only while its counter can pass the number of captures.
-/

namespace LedFirmware

open Wildcards

/-- The pattern ends with wildcards, and the shortest beginning of the target that fills what is
in front of them is the target. -/
def TrailingSkipped (pat dst : List UInt8) (wildcard : UInt8) : Prop :=
  ∃ front count, pat = front ++ List.replicate (count + 1) wildcard ∧
    front.getLast? ≠ some wildcard ∧ IsLeast {stop | Ends wildcard front dst stop} dst.length

/-- A beginning of the target that is not all of it fills the pattern in front of its wildcard
number 254. -/
def ManyVisited (pat dst : List UInt8) (wildcard : UInt8) : Prop :=
  ∃ before, before ++ [wildcard] <+: pat ∧ before.count wildcard = 253 ∧
    ∃ stop < dst.length, Ends wildcard before dst stop

/-- How the search for a pattern ends on a result that was `prior`. -/
inductive MatchOutcome (pat dst : List UInt8) (wildcard : UInt8) (prior : Nat → DataNode) :
    MatchEnd → Prop
  | found {result : Nat → DataNode} (sound : MatchSound pat dst wildcard (true, result))
      (reached : ¬ TrailingSkipped pat dst wildcard) :
      MatchOutcome pat dst wildcard prior (.found result)
  | skipped {result : Nat → DataNode} (skipped : TrailingSkipped pat dst wildcard) {index : Nat}
      (inside : index < pat.count wildcard) (kept : result (index + 1) = prior (index + 1)) :
      MatchOutcome pat dst wildcard prior (.found result)
  | refused {result : Nat → DataNode} {resultIndex : Nat}
      (unmatched : ¬ ∃ stop, Ends wildcard pat dst stop)
      (many : 255 ≤ resultIndex ↔ ManyVisited pat dst wildcard) :
      MatchOutcome pat dst wildcard prior (.refused result resultIndex)

variable {pat dst : List UInt8} {wildcard : UInt8} {prior : Nat → DataNode} {vars : MatchVars}

/-! ## The skipped wildcards -/

theorem TrailingSkipped.ends (skipped : TrailingSkipped pat dst wildcard) :
    Ends wildcard pat dst dst.length := by
  obtain ⟨front, count, rfl, -, least, -⟩ := skipped
  exact least.append_replicate (count + 1)

theorem TrailingSkipped.getLast?_eq (skipped : TrailingSkipped pat dst wildcard) :
    pat.getLast? = some wildcard := by
  obtain ⟨front, count, rfl, -⟩ := skipped
  rw [List.replicate_succ', ← List.append_assoc, List.getLast?_concat]

/-- In front of a skipped wildcard the pattern ends only where the target does. -/
theorem TrailingSkipped.last_le (skipped : TrailingSkipped pat dst wildcard) {before : List UInt8}
    (pattern : pat = before ++ [wildcard]) {stop : Nat} (ends : Ends wildcard before dst stop) :
    dst.length ≤ stop := by
  obtain ⟨front, count, rfl, -, -, least⟩ := skipped
  rw [List.replicate_succ', ← List.append_assoc] at pattern
  obtain ⟨rfl, -⟩ := List.append_inj' pattern rfl
  obtain ⟨middle, before, ends⟩ := ends.of_append
  exact (least ends).trans before

/-- A literal at the end of the pattern. -/
theorem getLast?_ne_of_literals {before literals : List UInt8}
    (other : ∀ c ∈ literals, c ≠ wildcard) (nonempty : literals ≠ []) :
    (before ++ literals).getLast? ≠ some wildcard := by
  rw [List.getLast?_append_of_ne_nil _ nonempty]
  exact fun last => other wildcard (List.mem_of_getLast? last) rfl

theorem skipWildcards_eq {p : Nat} (inside : p ≤ pat.length) :
    skipWildcards pat wildcard p = pat.length ↔ ∀ c ∈ pat.drop p, c = wildcard := by
  fun_induction skipWildcards pat wildcard p with
  | case1 p more isWild ih =>
      rw [ih more, List.drop_eq_getElem_cons more, List.forall_mem_cons]
      exact (and_iff_right isWild).symm
  | case2 p more other =>
      rw [List.drop_eq_getElem_cons more, List.forall_mem_cons]
      exact iff_of_false (Nat.ne_of_lt more) fun all => other all.1
  | case3 p ends =>
      have last : p = pat.length := by omega
      rw [last, List.drop_length]
      exact iff_of_true rfl fun _ member => absurd member List.not_mem_nil

theorem MatchHolds.pat_le (holds : MatchHolds pat dst wildcard prior vars) :
    vars.pat ≤ pat.length := by
  cases star : vars.star with
  | false =>
      rw [(holds.fresh star).1]
      exact Nat.zero_le _
  | true => exact Nat.le_of_lt (holds.more star)

theorem MatchHolds.within (holds : MatchHolds pat dst wildcard prior vars)
    (fits : dst.length < 2 ^ 32) {literals : List UInt8}
    (begins : literals <+: dst.drop vars.dst) : vars.dst + literals.length ≤ dst.length := by
  have length := begins.length_le
  have inside := (holds.toMatchCaptured.ends fits).1
  rw [List.length_drop] at length
  omega

theorem MatchHolds.skipWildcards_iff (holds : MatchHolds pat dst wildcard prior vars)
    {literals rest : List UInt8} (pattern : pat.drop vars.pat = literals ++ rest) :
    skipWildcards pat wildcard (vars.pat + literals.length) = pat.length ↔
      ∀ c ∈ rest, c = wildcard := by
  have behind : pat.drop (vars.pat + literals.length) = rest := by
    rw [← List.drop_drop, pattern, List.drop_left]
  have inside : vars.pat + literals.length ≤ pat.length := by
    have length := congrArg List.length pattern
    have start := holds.pat_le
    rw [List.length_drop, List.length_append] at length
    omega
  rw [skipWildcards_eq inside, behind]

/-! ## The endings of the search -/

/-- The last wildcard of the pattern takes the rest of the target. -/
theorem MatchHolds.takesRest (holds : MatchHolds pat dst wildcard prior vars)
    (fits : dst.length < 2 ^ 32) {literals rest : List UInt8}
    (pattern : pat.drop vars.pat = literals ++ wildcard :: rest)
    (other : ∀ c ∈ literals, c ≠ wildcard) (begins : literals <+: dst.drop vars.dst)
    (inside : vars.dst + literals.length < dst.length)
    (last : vars.pat + literals.length + 1 = pat.length) :
    let visited := visitWildcard vars (vars.dst + literals.length) (vars.pat + literals.length)
    MatchOutcome pat dst wildcard prior (.found (closeLast
      (setLen visited.result 0 (UInt32.ofNat dst.length)) visited.resultIndex
        (UInt32.ofNat dst.length) 0)) := by
  intro visited
  have captured : MatchCaptured pat dst wildcard { visited with dst := dst.length } :=
    (holds.toMatchCaptured.visit fits pattern other begins inside).advance rfl
      (Nat.le_of_lt inside) (Nat.le_refl _)
  have sound := @MatchCaptured.sound pat dst wildcard _ captured fits []
    (List.drop_eq_nil_of_le last.ge) (fun _ member => absurd member List.not_mem_nil)
    List.nil_prefix (Nat.le_refl _) 0 (UInt32.sub_zero _)
  refine .found sound fun skipped => ?_
  have whole : pat = pat.take vars.pat ++ literals ++ [wildcard] := by
    rw [← take_literals pattern, ← take_wildcard pattern, last, List.take_length]
  have ends : Ends wildcard (pat.take vars.pat ++ literals) dst (vars.dst + literals.length) :=
    (ends_append_literals other).mpr ⟨vars.dst, holds.toMatchCaptured.ends fits, begins, rfl⟩
  exact absurd (skipped.last_le whole ends) (Nat.not_le_of_lt inside)

/-- The literals at the end of the pattern are found. -/
theorem MatchHolds.reachesEnd (holds : MatchHolds pat dst wildcard prior vars)
    (fits : dst.length < 2 ^ 32) {literals : List UInt8}
    (pattern : pat.drop vars.pat = literals) (other : ∀ c ∈ literals, c ≠ wildcard)
    (begins : literals <+: dst.drop vars.dst) (inside : vars.dst + literals.length ≤ dst.length) :
    MatchOutcome pat dst wildcard prior (.found (closeLast
      (setLen vars.result 0 (UInt32.ofNat (vars.dst + literals.length))) vars.resultIndex
        (UInt32.ofNat (vars.dst + literals.length))
          (UInt32.ofNat (vars.pat + literals.length) - UInt32.ofNat vars.pat))) := by
  refine .found (holds.toMatchCaptured.sound fits pattern other begins inside ?_) fun skipped => ?_
  · rw [UInt32.ofNat_add, UInt32.ofNat_add]
    grind
  · have last := skipped.getLast?_eq
    have whole : pat = pat.take vars.pat ++ literals := by rw [← pattern, List.take_append_drop]
    by_cases nothing : literals = []
    · have scanned : pat.length ≤ vars.pat := List.drop_eq_nil_iff.mp (pattern.trans nothing)
      cases star : vars.star with
      | false =>
          rw [(holds.fresh star).1, Nat.le_zero, List.length_eq_zero_iff] at scanned
          rw [scanned] at last
          cases last
      | true => exact absurd (holds.more star) (Nat.not_lt_of_le scanned)
    · rw [whole] at last
      exact getLast?_ne_of_literals other nothing last

/-- A wildcard without literals behind it takes nothing more than it has to. -/
theorem MatchHolds.dst_lt (holds : MatchHolds pat dst wildcard prior vars)
    (star : vars.star = true) (nothing : literalsAt pat wildcard vars.pat = []) :
    vars.dst < dst.length := by
  obtain ⟨before, captures, start, opened⟩ := holds.opened star
  have ends : Ends wildcard (pat.take vars.pat) dst start := by
    rw [opened.pattern]
    exact ends_append_wild.mpr ⟨Nat.le_of_lt opened.inside, start, Nat.le_refl start,
      Nat.le_of_lt opened.inside, captures, opened.fills⟩
  have first : vars.dst ≤ start :=
    Nat.le_of_not_lt fun early => holds.missed start early ends (nothing ▸ List.nil_prefix)
  exact Nat.lt_of_le_of_lt first opened.inside

/-- Wildcards that the target is too short to reach. -/
theorem MatchHolds.skips (holds : MatchHolds pat dst wildcard prior vars)
    (fits : dst.length < 2 ^ 32) {literals rest : List UInt8}
    (pattern : pat.drop vars.pat = literals ++ rest) (other : ∀ c ∈ literals, c ≠ wildcard)
    (begins : literals <+: dst.drop vars.dst) (nonempty : rest ≠ [])
    (wild : ∀ c ∈ rest, c = wildcard) (ended : vars.dst + literals.length = dst.length)
    {d len d' : UInt32} :
    MatchOutcome pat dst wildcard prior (.found (closeLast (setLen vars.result 0 d')
      vars.resultIndex d len)) := by
  obtain ⟨c, rest, rfl⟩ := List.exists_cons_of_ne_nil nonempty
  obtain rfl : c = wildcard := wild c List.mem_cons_self
  have same := literalsAt_of_wildcard pattern other
  have whole : pat = pat.take vars.pat ++ literals ++ c :: rest := by
    rw [List.append_assoc, ← pattern, List.take_append_drop]
  have ends : Ends c (pat.take vars.pat ++ literals) dst dst.length :=
    (ends_append_literals other).mpr ⟨vars.dst, holds.toMatchCaptured.ends fits, begins, ended.symm⟩
  have skipped : TrailingSkipped pat dst c := by
    refine ⟨pat.take vars.pat ++ literals, rest.length, ?_, ?_, ends, ?_⟩
    · rw [← List.length_cons, ← List.eq_replicate_of_mem wild]
      exact whole
    · by_cases nothing : literals = []
      · rw [nothing, List.length_nil, Nat.add_zero] at ended
        rw [nothing, List.append_nil]
        cases star : vars.star with
        | false =>
            rw [(holds.fresh star).1]
            simp
        | true => exact absurd ended (Nat.ne_of_lt (holds.dst_lt star (same.trans nothing)))
      · exact getLast?_ne_of_literals other nothing
    · intro stop earlier
      rw [← ended, ← same]
      rw [← same] at earlier
      exact holds.least earlier
  have number := holds.toMatchCaptured.resultIndex_eq
  refine @MatchOutcome.skipped pat dst c prior _ skipped (vars.resultIndex - 1) ?_ ?_
  · rw [whole, List.count_append, List.count_append, List.count_cons_self]
    omega
  · rw [closeLast_of_ne (by omega), setLen_of_ne (by omega)]
    exact holds.kept _ (by omega)

/-- The number of captures of a search that finds nothing more in front of the end of the
target. -/
theorem MatchHolds.many_iff (holds : MatchHolds pat dst wildcard prior vars)
    (unreached : ∀ stop < dst.length,
      ¬ Ends wildcard (pat.take vars.pat ++ literalsAt pat wildcard vars.pat) dst stop) :
    255 ≤ vars.resultIndex ↔ ManyVisited pat dst wildcard := by
  rw [holds.toMatchCaptured.resultIndex_eq]
  constructor
  · intro many
    obtain ⟨before, begins, count⟩ := @exists_prefix_of_lt_count _ wildcard (pat.take vars.pat) _
      253 (by omega)
    refine ⟨before, begins.trans (List.take_prefix _ _), count, ?_⟩
    cases star : vars.star with
    | false =>
        rw [(holds.fresh star).1, List.take_zero, List.count_nil] at many
        omega
    | true =>
        obtain ⟨before', captures, start, opened⟩ := holds.opened star
        rw [opened.pattern] at begins
        have length := begins.length_le
        rw [List.length_append, List.length_append, Nat.add_le_add_iff_right] at length
        obtain ⟨between, rfl⟩ := List.prefix_of_prefix_length_le
          ((List.prefix_append before [wildcard]).trans begins) (List.prefix_append before' _)
          length
        have ends : Ends wildcard (before ++ between) dst start :=
          ⟨Nat.le_of_lt opened.inside, captures, opened.fills⟩
        obtain ⟨middle, earlier, ends⟩ := ends.of_append
        exact ⟨middle, Nat.lt_of_le_of_lt earlier opened.inside, ends⟩
  · rintro ⟨before, begins, count, stop, inside, ends⟩
    by_contra few
    -- The scan has not come to the last of these wildcards, nor then the literals behind it.
    have shorter : pat.take vars.pat <+: before := by
      have longer : ¬ before ++ [wildcard] <+: pat.take vars.pat := by
        intro longer
        have counts := longer.sublist.count_le wildcard
        rw [List.count_append, List.count_singleton_self, count] at counts
        omega
      have scanned := (List.prefix_or_prefix_of_prefix (List.take_prefix vars.pat pat)
        begins).resolve_right longer
      exact (List.prefix_concat_iff.mp scanned).resolve_left fun same =>
        longer (same ▸ List.prefix_rfl)
    obtain ⟨between, rfl⟩ := shorter
    obtain ⟨rest, whole⟩ := begins
    have pattern : pat.drop vars.pat = between ++ wildcard :: rest := by
      have same : pat.take vars.pat ++ pat.drop vars.pat =
          pat.take vars.pat ++ (between ++ wildcard :: rest) :=
        calc
          pat.take vars.pat ++ pat.drop vars.pat = pat := List.take_append_drop vars.pat pat
          _ = pat.take vars.pat ++ between ++ [wildcard] ++ rest := whole.symm
          _ = pat.take vars.pat ++ (between ++ wildcard :: rest) := by
            simp only [List.append_assoc, List.singleton_append]
      exact List.append_cancel_left same
    obtain ⟨behind, rfl⟩ := literalsAt_prefix pattern
    rw [← List.append_assoc] at ends
    obtain ⟨middle, earlier, ends⟩ := ends.of_append
    exact unreached middle (Nat.lt_of_le_of_lt earlier inside) ends

/-- The first literals of the pattern differ from the target. -/
theorem MatchHolds.differs (holds : MatchHolds pat dst wildcard prior vars)
    (star : vars.star = false) {literals rest : List UInt8}
    (pattern : pat.drop vars.pat = literals ++ rest) (other : ∀ c ∈ literals, c ≠ wildcard)
    (differs : ¬ literals <+: dst.drop vars.dst) :
    MatchOutcome pat dst wildcard prior (.refused vars.result vars.resultIndex) := by
  obtain ⟨atStart, noBytes, -⟩ := holds.fresh star
  rw [noBytes, List.drop_zero] at differs
  have unreached : ∀ stop,
      ¬ Ends wildcard (pat.take vars.pat ++ literalsAt pat wildcard vars.pat) dst stop := by
    intro stop ends
    rw [literalsAt_eq pattern other, atStart, List.take_zero, List.nil_append,
      ← literalsAt_eq pattern other] at ends
    have begins := ((ends_literals ne_of_mem_literalsAt).mp ends).2
    rw [literalsAt_eq pattern other] at begins
    exact differs ((List.prefix_append _ _).trans begins)
  refine .refused ?_ (holds.many_iff fun stop _ => unreached stop)
  rintro ⟨stop, ends⟩
  rw [← append_literalsAt pattern other] at ends
  obtain ⟨middle, -, ends⟩ := ends.of_append
  exact unreached middle ends

/-- The target ends in front of a literal. -/
theorem MatchHolds.exhausts (holds : MatchHolds pat dst wildcard prior vars)
    {literals rest : List UInt8}
    (pattern : pat.drop vars.pat = literals ++ rest) (other : ∀ c ∈ literals, c ≠ wildcard)
    (ended : vars.dst + literals.length = dst.length) (more : ¬ ∀ c ∈ rest, c = wildcard) :
    MatchOutcome pat dst wildcard prior (.refused vars.result vars.resultIndex) := by
  have same := literalsAt_eq pattern other
  refine .refused ?_ (holds.many_iff fun stop inside ends => ?_)
  · rintro ⟨stop, ends⟩
    have inside := ends.1
    rw [← append_literalsAt pattern other] at ends
    obtain ⟨middle, before, ends, -, captures, fills⟩ := ends_append.mp ends
    have least := holds.least ends
    rw [same, List.length_append] at least
    -- The literals end where the target does, so that nothing is left for the rest.
    have nothing : rest.takeWhile (· ≠ wildcard) = [] := List.length_eq_zero_iff.mp (by omega)
    have left : rest.dropWhile (· ≠ wildcard) = rest := by
      have parts := @List.takeWhile_append_dropWhile _ (· ≠ wildcard) rest
      rw [nothing, List.nil_append] at parts
      exact parts
    rw [left, List.drop_eq_nil_of_le (by omega), List.take_nil] at fills
    exact more fills.eq_of_nil
  · have least := holds.least ends
    rw [same, List.length_append] at least
    omega

/-- The search ends in one of these ways. -/
theorem MatchHolds.outcome (holds : MatchHolds pat dst wildcard prior vars)
    (fits : dst.length < 2 ^ 32) :
    MatchOutcome pat dst wildcard prior (memMatchLoop pat dst wildcard vars) := by
  fun_induction memMatchLoop pat dst wildcard vars with
  | case1 vars d p scan visited last result =>
      cases matchScanned_of_eq scan with
      | wildcard pattern other begins inside =>
          exact holds.takesRest fits pattern other begins inside last
  | case2 vars d p scan visited more ih =>
      have within := (matchScanned_of_eq scan).wildcard_lt.2
      cases matchScanned_of_eq scan with
      | wildcard pattern other begins inside =>
          exact ih (holds.visit fits pattern other begins inside (Nat.lt_of_le_of_ne within more))
  | case3 vars d p scan p' reached result =>
      cases matchScanned_of_eq scan with
      | @ended literals rest pattern other begins last =>
          have inside := holds.within fits begins
          have wild := (holds.skipWildcards_iff pattern).mp reached
          cases rest with
          | nil =>
              rw [List.append_nil] at pattern
              have scanned : vars.pat + literals.length = pat.length := by
                have length := congrArg List.length pattern
                have start := holds.pat_le
                rw [List.length_drop] at length
                omega
              have outcome := holds.reachesEnd fits pattern other begins inside
              rw [scanned, ← reached] at outcome
              exact outcome
          | cons c rest =>
              have ended : vars.dst + literals.length = dst.length :=
                Nat.le_antisymm inside (last.resolve_left (List.cons_ne_nil c rest))
              exact holds.skips fits pattern other begins (List.cons_ne_nil c rest) wild ended
  | case4 vars d p scan p' short =>
      cases matchScanned_of_eq scan with
      | @ended literals rest pattern other begins last =>
          have more := (holds.skipWildcards_iff pattern).not.mp short
          have ended : vars.dst + literals.length = dst.length := by
            refine Nat.le_antisymm (holds.within fits begins) (last.resolve_left ?_)
            rintro rfl
            exact more fun _ member => absurd member List.not_mem_nil
          exact holds.exhausts pattern other ended more
  | case5 vars scan star ih =>
      cases matchScanned_of_eq scan with
      | starCheck pattern other differs inside =>
          refine ih (holds.advance star inside fun begins => differs ?_)
          rw [literalsAt_eq pattern other] at begins
          exact (List.prefix_append _ _).trans begins
  | case6 vars scan star =>
      cases matchScanned_of_eq scan with
      | starCheck pattern other differs =>
          exact holds.differs (Bool.eq_false_iff.mpr star) pattern other differs

/-! ## The loop that clears the result -/

theorem clearLoop_never {resultIndex : Nat} (many : 255 ≤ resultIndex) (fuel : Nat) :
    ∀ result i, clearLoop result resultIndex fuel i = none := by
  induction fuel with
  | zero => exact fun _ _ => rfl
  | succ fuel ih =>
      intro result i
      have again : i.toNat ≤ resultIndex := by
        have bound := i.toNat_lt
        omega
      rw [clearLoop, if_pos again]
      exact ih _ _

theorem clearLoop_ends {resultIndex : Nat} (few : resultIndex < 255) (fuel : Nat) :
    ∀ result (i : UInt8), i.toNat + fuel = resultIndex + 2 → 0 < fuel →
      ∃ after, clearLoop result resultIndex fuel i = some after := by
  induction fuel with
  | zero => exact fun _ _ _ positive => absurd positive (Nat.lt_irrefl 0)
  | succ fuel ih =>
      intro result i number _
      rw [clearLoop]
      split
      case isTrue again =>
        have next : (i + 1).toNat = i.toNat + 1 := by
          rw [UInt8.toNat_add]
          exact Nat.mod_eq_of_lt (by change i.toNat + 1 < 256; omega)
        exact ih _ _ (by omega) (by omega)
      case isFalse => exact ⟨result, rfl⟩

/-! ## The result -/

theorem matchHolds_starts (result : Nat → DataNode) :
    MatchHolds pat dst wildcard result ⟨0, 0, setData result 0 0, 1, false⟩ where
  zero := by
    change (setData result 0 0 0).data = some 0
    rw [setData, Function.update_self]
  fresh := fun _ => ⟨rfl, rfl, rfl⟩
  opened := fun star => absurd star Bool.false_ne_true
  more := fun star => absurd star Bool.false_ne_true
  missed := fun stop early => absurd early (Nat.not_lt_zero stop)
  kept := fun index behind => setData_of_ne (Nat.ne_of_gt behind)

/-- A skipped wildcard is not in the result: its entry is that of before. -/
theorem TrailingSkipped.unsound (skipped : TrailingSkipped pat dst wildcard)
    (fits : dst.length < 2 ^ 32) (fuel : Nat) {after : Bool × (Nat → DataNode)}
    (returns : memMatch pat dst wildcard (fun _ => .null) fuel = some after) :
    ¬ MatchSound pat dst wildcard after := by
  intro sound
  rw [memMatch] at returns
  have outcome := (@matchHolds_starts pat dst wildcard fun _ => .null).outcome fits
  generalize memMatchLoop .. = ending at outcome returns
  cases outcome with
  | found _ reached => exact reached skipped
  | @skipped result _ index inside kept =>
      obtain rfl : (true, result) = after := Option.some.inj returns
      obtain ⟨matched, captures, -, -, fills, shown⟩ := sound.2 rfl
      rw [← fills.length_captures] at inside
      obtain ⟨start, data, -⟩ := shown index inside
      have absent : some start = none := data.symm.trans (congrArg DataNode.data kept)
      cases absent
  | refused unmatched => exact unmatched ⟨_, skipped.ends⟩

/-- `MemMatch` is right on every result array, except for skipped wildcards and for the loop that
does not end. -/
theorem memMatch_sound_iff (pat dst : List UInt8) (wildcard : UInt8)
    (fits : dst.length < 2 ^ 32) :
    (∀ result, ∃ fuel after, memMatch pat dst wildcard result fuel = some after ∧
        MatchSound pat dst wildcard after) ↔
      ¬ TrailingSkipped pat dst wildcard ∧
        ((∃ stop, Ends wildcard pat dst stop) ∨ ¬ ManyVisited pat dst wildcard) := by
  constructor
  · intro right
    obtain ⟨fuel, after, returns, sound⟩ := right fun _ => .null
    refine ⟨fun skipped => skipped.unsound fits fuel returns sound, ?_⟩
    by_contra neither
    obtain ⟨unmatched, many⟩ := not_or.mp neither
    rw [memMatch] at returns
    have outcome := (@matchHolds_starts pat dst wildcard fun _ => .null).outcome fits
    generalize memMatchLoop .. = ending at outcome returns
    cases outcome with
    | found sound => exact unmatched (sound.1.mp rfl)
    | skipped skipped => exact unmatched ⟨_, skipped.ends⟩
    | @refused result resultIndex _ visited =>
        have cleared : (clearLoop result resultIndex fuel 0 >>=
            fun result => some (false, result)) = some after := returns
        rw [clearLoop_never (visited.mpr (not_not.mp many))] at cleared
        cases cleared
  · rintro ⟨reached, returns⟩ result
    have outcome := (@matchHolds_starts pat dst wildcard result).outcome fits
    generalize ending : memMatchLoop pat dst wildcard _ = ends at outcome
    cases outcome with
    | @found result' sound => exact ⟨0, (true, result'), by rw [memMatch, ending], sound⟩
    | skipped skipped => exact absurd skipped reached
    | @refused result' resultIndex unmatched visited =>
        have few : resultIndex < 255 :=
          Nat.lt_of_not_le (visited.not.mpr (returns.resolve_left unmatched))
        obtain ⟨after, cleared⟩ := clearLoop_ends few (resultIndex + 2) result' 0
          (Nat.zero_add _) (Nat.succ_pos _)
        refine ⟨resultIndex + 2, (false, after), ?_,
          iff_of_false Bool.false_ne_true unmatched, fun found => absurd found Bool.false_ne_true⟩
        rw [memMatch, ending]
        exact congrArg (· >>= fun result => some (false, result)) cleared

/-- `a*b` on `axxb`. -/
theorem memMatch_sound_middle :
    ¬ TrailingSkipped [97, 42, 98] [97, 120, 120, 98] 42 ∧ ∀ result, ∃ fuel after,
      memMatch [97, 42, 98] [97, 120, 120, 98] 42 result fuel = some after ∧
        MatchSound [97, 42, 98] [97, 120, 120, 98] 42 after := by
  have reached : ¬ TrailingSkipped [97, 42, 98] [97, 120, 120, 98] 42 := fun skipped =>
    absurd skipped.getLast?_eq (by decide)
  refine ⟨reached, (memMatch_sound_iff _ _ _ (by decide)).mpr ⟨reached, .inr ?_⟩⟩
  rintro ⟨before, begins, count, -⟩
  have few := begins.sublist.count_le 42
  rw [List.count_append, count] at few
  exact absurd few (by decide)

/-- `a*` on `a`: the wildcard is skipped. -/
theorem memMatch_unsound : ¬ ∀ pat dst wildcard result, dst.length < 2 ^ 32 →
    ∃ fuel after, memMatch pat dst wildcard result fuel = some after ∧
      MatchSound pat dst wildcard after := by
  intro right
  have skipped : TrailingSkipped [97, 42] [97] 42 := by
    have ends (stop : Nat) : Ends (42 : UInt8) [97] [97] stop ↔ stop = 1 :=
      (ends_literals (List.forall_mem_singleton.mpr (by decide))).trans
        (and_iff_left List.prefix_rfl)
    exact ⟨[97], 0, rfl, by decide, (ends 1).mpr rfl, fun stop found => ((ends stop).mp found).ge⟩
  obtain ⟨fuel, after, returns, sound⟩ := right [97, 42] [97] 42 (fun _ => .null) (by decide)
  exact skipped.unsound (by decide) fuel returns sound

end LedFirmware
