import Mathlib.Data.List.Infix
import Mathlib.Order.Bounds.Basic

/-!
# Patterns with wildcards

A wildcard of a pattern stands for any text.  A pattern is matched against the beginning of
a text, where it can end at several positions; a matcher that goes from the left finds the
first one.
-/

namespace Wildcards

variable {Letter : Type*}

/-- The text is the pattern with its wildcards replaced by the captures. -/
inductive Fills (wild : Letter) :
    (pattern : List Letter) → (captures : List (List Letter)) → (text : List Letter) → Prop
  | nil : Fills wild [] [] []
  | literal {c : Letter} {pattern : List Letter} {captures : List (List Letter)}
      {text : List Letter} (other : c ≠ wild) (rest : Fills wild pattern captures text) :
      Fills wild (c :: pattern) captures (c :: text)
  | capture (text : List Letter) {pattern : List Letter} {captures : List (List Letter)}
      {more : List Letter} (rest : Fills wild pattern captures more) :
      Fills wild (wild :: pattern) (text :: captures) (text ++ more)

/-- A beginning of the text that ends at `stop` fills the pattern. -/
def Ends (wild : Letter) (pattern text : List Letter) (stop : Nat) : Prop :=
  stop ≤ text.length ∧ ∃ captures, Fills wild pattern captures (text.take stop)

variable {wild : Letter} {pattern text : List Letter} {stop : Nat}

theorem Fills.append {first second : List Letter} {captures captures' : List (List Letter)}
    {begins rest : List Letter} (fills : Fills wild first captures begins)
    (fills' : Fills wild second captures' rest) :
    Fills wild (first ++ second) (captures ++ captures') (begins ++ rest) := by
  induction fills with
  | nil => exact fills'
  | literal other _ ih => exact .literal other ih
  | capture text _ ih =>
      rw [List.append_assoc]
      exact .capture text ih

theorem Fills.split {first second : List Letter} {captures : List (List Letter)}
    {text : List Letter} (fills : Fills wild (first ++ second) captures text) :
    ∃ captures' captures'' begins rest, captures = captures' ++ captures'' ∧
      text = begins ++ rest ∧ Fills wild first captures' begins ∧
        Fills wild second captures'' rest := by
  induction first generalizing captures text with
  | nil => exact ⟨[], captures, [], text, rfl, rfl, .nil, fills⟩
  | cons c first ih =>
      cases fills with
      | literal other fills =>
          obtain ⟨captures', captures'', begins, rest, rfl, rfl, fills, fills'⟩ := ih fills
          exact ⟨captures', captures'', c :: begins, rest, rfl, rfl, .literal other fills, fills'⟩
      | capture text fills =>
          obtain ⟨captures', captures'', begins, rest, rfl, rfl, fills, fills'⟩ := ih fills
          exact ⟨text :: captures', captures'', text ++ begins, rest, rfl,
            (List.append_assoc text begins rest).symm, .capture text fills, fills'⟩

/-- Literals fill themselves only. -/
theorem fills_literals {literals : List Letter} (other : ∀ c ∈ literals, c ≠ wild)
    {captures : List (List Letter)} :
    Fills wild literals captures text ↔ captures = [] ∧ text = literals := by
  induction literals generalizing captures text with
  | nil =>
      constructor
      · rintro ⟨⟩
        exact ⟨rfl, rfl⟩
      · rintro ⟨rfl, rfl⟩
        exact .nil
  | cons c literals ih =>
      have others := fun c' member => other c' (List.mem_cons_of_mem c member)
      constructor
      · intro fills
        cases fills with
        | literal _ fills =>
            obtain ⟨rfl, rfl⟩ := (ih others).mp fills
            exact ⟨rfl, rfl⟩
        | capture => exact absurd rfl (other _ List.mem_cons_self)
      · rintro ⟨rfl, rfl⟩
        exact .literal (other c List.mem_cons_self) ((ih others).mpr ⟨rfl, rfl⟩)

/-- Every wildcard has one capture. -/
theorem Fills.length_captures [DecidableEq Letter] {captures : List (List Letter)}
    (fills : Fills wild pattern captures text) : captures.length = pattern.count wild := by
  induction fills with
  | nil => rfl
  | literal other _ ih => rw [List.count_cons_of_ne other, ih]
  | capture text _ ih => rw [List.count_cons_self, List.length_cons, ih]

/-- Only wildcards fit nothing. -/
theorem Fills.eq_of_nil {captures : List (List Letter)} (fills : Fills wild pattern captures []) :
    ∀ c ∈ pattern, c = wild := by
  induction pattern generalizing captures with
  | nil => exact fun c member => absurd member List.not_mem_nil
  | cons c pattern ih =>
      obtain ⟨begins, more, captures', rfl, rest, nothing⟩ :
          ∃ begins more captures', c = wild ∧ Fills wild pattern captures' more ∧
            begins ++ more = [] := by
        generalize same : ([] : List Letter) = text at fills
        cases fills with
        | literal => contradiction
        | capture begins rest => exact ⟨begins, _, _, rfl, rest, rfl⟩
      obtain ⟨-, rfl⟩ := List.append_eq_nil_iff.mp nothing
      intro c' member
      rcases List.mem_cons.mp member with rfl | later
      · rfl
      · exact ih rest c' later

/-! ## Where a pattern can end -/

theorem ends_literals {literals : List Letter} (other : ∀ c ∈ literals, c ≠ wild) :
    Ends wild literals text stop ↔ stop = literals.length ∧ literals <+: text := by
  constructor
  · rintro ⟨inside, captures, fills⟩
    obtain ⟨-, same⟩ := (fills_literals other).mp fills
    have length : stop = literals.length := by
      rw [← same, List.length_take, Nat.min_eq_left inside]
    refine ⟨length, List.prefix_iff_eq_take.mpr ?_⟩
    rw [← length, same]
  · rintro ⟨rfl, begins⟩
    refine ⟨begins.length_le, [], (fills_literals other).mpr ⟨rfl, ?_⟩⟩
    exact (List.prefix_iff_eq_take.mp begins).symm

@[simp]
theorem ends_nil : Ends wild [] text stop ↔ stop = 0 :=
  (ends_literals fun _ member => absurd member List.not_mem_nil).trans
    (and_iff_left (List.nil_prefix))

theorem ends_wild : Ends wild [wild] text stop ↔ stop ≤ text.length := by
  refine ⟨And.left, fun inside => ⟨inside, [text.take stop], ?_⟩⟩
  have fills : Fills wild [wild] [text.take stop] (text.take stop ++ []) := .capture _ .nil
  rw [List.append_nil] at fills
  exact fills

theorem ends_append {first second : List Letter} :
    Ends wild (first ++ second) text stop ↔
      ∃ middle ≤ stop, Ends wild first text middle ∧
        Ends wild second (text.drop middle) (stop - middle) := by
  constructor
  · rintro ⟨inside, captures, fills⟩
    obtain ⟨captures', captures'', begins, rest, -, whole, fills, fills'⟩ := fills.split
    have length := congrArg List.length whole
    rw [List.length_take, Nat.min_eq_left inside, List.length_append] at length
    have begins' : text.take begins.length = begins := by
      have taken := congrArg (List.take begins.length) whole
      rw [List.take_take, Nat.min_eq_left (by omega), List.take_left] at taken
      exact taken
    have rest' : (text.drop begins.length).take (stop - begins.length) = rest := by
      have dropped := congrArg (List.drop begins.length) whole
      rw [List.drop_take, List.drop_left] at dropped
      exact dropped
    refine ⟨begins.length, by omega, ⟨by omega, captures', begins'.symm ▸ fills⟩,
      ⟨?_, captures'', rest'.symm ▸ fills'⟩⟩
    rw [List.length_drop]
    omega
  · rintro ⟨middle, before, ⟨inside, captures, fills⟩, inside', captures', fills'⟩
    rw [List.length_drop] at inside'
    refine ⟨by omega, captures ++ captures', ?_⟩
    have whole : text.take stop = text.take middle ++ (text.drop middle).take (stop - middle) := by
      rw [← List.take_add, Nat.add_sub_cancel' before]
    rw [whole]
    exact fills.append fills'

theorem ends_append_wild :
    Ends wild (pattern ++ [wild]) text stop ↔
      stop ≤ text.length ∧ ∃ middle ≤ stop, Ends wild pattern text middle := by
  rw [ends_append]
  constructor
  · rintro ⟨middle, before, ends, ends'⟩
    have inside := ends.1
    have inside' := ends_wild.mp ends'
    rw [List.length_drop] at inside'
    exact ⟨by omega, middle, before, ends⟩
  · rintro ⟨inside, middle, before, ends⟩
    refine ⟨middle, before, ends, ends_wild.mpr ?_⟩
    rw [List.length_drop]
    omega

theorem ends_append_literals {literals : List Letter} (other : ∀ c ∈ literals, c ≠ wild) :
    Ends wild (pattern ++ literals) text stop ↔
      ∃ middle, Ends wild pattern text middle ∧ literals <+: text.drop middle ∧
        stop = middle + literals.length := by
  rw [ends_append]
  constructor
  · rintro ⟨middle, before, ends, ends'⟩
    obtain ⟨length, begins⟩ := (ends_literals other).mp ends'
    exact ⟨middle, ends, begins, by omega⟩
  · rintro ⟨middle, ends, begins, rfl⟩
    exact ⟨middle, Nat.le_add_right _ _, ends,
      (ends_literals other).mpr ⟨Nat.add_sub_cancel_left _ _, begins⟩⟩

/-- Where a pattern ends, its beginning has ended. -/
theorem Ends.of_append {first second : List Letter}
    (ends : Ends wild (first ++ second) text stop) :
    ∃ middle ≤ stop, Ends wild first text middle := by
  obtain ⟨middle, before, ends, -⟩ := ends_append.mp ends
  exact ⟨middle, before, ends⟩

/-- Wildcards behind a pattern can stand for nothing. -/
theorem Ends.append_replicate (ends : Ends wild pattern text stop) (count : Nat) :
    Ends wild (pattern ++ List.replicate count wild) text stop := by
  induction count with
  | zero => simpa using ends
  | succ count ih =>
      rw [List.replicate_succ', ← List.append_assoc]
      exact ends_append_wild.mpr ⟨ends.1, stop, Nat.le_refl stop, ih⟩

/-- A letter that occurs more than `number` times has an occurrence behind `number` others. -/
theorem exists_prefix_of_lt_count [DecidableEq Letter] {number : Nat}
    (more : number < text.count wild) :
    ∃ before, before ++ [wild] <+: text ∧ before.count wild = number := by
  induction text generalizing number with
  | nil => exact absurd more (Nat.not_lt_zero number)
  | cons c text ih =>
      by_cases same : c = wild
      · subst same
        cases number with
        | zero => exact ⟨[], ⟨text, rfl⟩, rfl⟩
        | succ number =>
            rw [List.count_cons_self] at more
            obtain ⟨before, begins, count⟩ := ih (Nat.lt_of_succ_lt_succ more)
            exact ⟨c :: before, List.cons_prefix_cons.mpr ⟨rfl, begins⟩, by
              rw [List.count_cons_self, count]⟩
      · rw [List.count_cons_of_ne same] at more
        obtain ⟨before, begins, count⟩ := ih more
        exact ⟨c :: before, List.cons_prefix_cons.mpr ⟨rfl, begins⟩, by
          rw [List.count_cons_of_ne same, count]⟩

end Wildcards
