import Mathlib.Data.List.Basic

/-!
# The first difference of two lists

Lists that end with one stop symbol, smaller than every other one, differ at some place or
not at all.  The symbols there decide which list comes first in the lexicographic order.
-/

/-- Two lists agree up to a place and differ there. -/
inductive FirstDiffer {α : Type} : List α → List α → α → α → Prop
  | here {left right : α} {first second : List α} (differ : left ≠ right) :
      FirstDiffer (left :: first) (right :: second) left right
  | later {left right symbol : α} {first second : List α}
      (rest : FirstDiffer first second left right) :
      FirstDiffer (symbol :: first) (symbol :: second) left right

namespace FirstDiffer

variable {α : Type} {left right stop : α} {first second : List α}

theorem ne (differs : FirstDiffer first second left right) : left ≠ right := by
  induction differs with
  | here differ => exact differ
  | later _ ih => exact ih

theorem lists_ne (differs : FirstDiffer first second left right) : first ≠ second := by
  induction differs with
  | here differ => exact fun same => differ (List.cons.inj same).1
  | later _ ih => exact fun same => ih (List.cons.inj same).2

theorem unique {left' right' : α} (differs : FirstDiffer first second left right)
    (differs' : FirstDiffer first second left' right') : left = left' ∧ right = right' := by
  induction differs with
  | here differ =>
      cases differs' with
      | here => exact ⟨rfl, rfl⟩
      | later => exact absurd rfl differ
  | later _ ih =>
      cases differs' with
      | here differ => exact absurd rfl differ
      | later rest => exact ih rest

/-- Lists with one stop symbol behind them differ somewhere, unless they are equal. -/
theorem exists_of_ne (noStop : stop ∉ first) (noStop' : stop ∉ second) (differ : first ≠ second) :
    ∃ left right, FirstDiffer (first ++ [stop]) (second ++ [stop]) left right := by
  induction first generalizing second with
  | nil =>
      cases second with
      | nil => exact absurd rfl differ
      | cons symbol rest => exact ⟨stop, symbol, here fun same => noStop' (by simp [same])⟩
  | cons symbol rest ih =>
      cases second with
      | nil => exact ⟨symbol, stop, here fun same => noStop (by simp [same])⟩
      | cons symbol' rest' =>
          by_cases same : symbol = symbol'
          · subst same
            have apart : rest ≠ rest' := fun equal => differ (by rw [equal])
            obtain ⟨left, right, differs⟩ := ih (List.not_mem_of_not_mem_cons noStop)
              (List.not_mem_of_not_mem_cons noStop') apart
            exact ⟨left, right, later differs⟩
          · exact ⟨symbol, symbol', here same⟩

theorem symm (differs : FirstDiffer first second left right) :
    FirstDiffer second first right left := by
  induction differs with
  | here differ => exact here differ.symm
  | later _ ih => exact later ih

section

variable {before : α → α → Prop} (asymm : ∀ {one other : α}, before one other → ¬ before other one)

include asymm

theorem not_lex_self (list : List α) : ¬ List.Lex before list list := by
  induction list with
  | nil => exact fun smaller => nomatch smaller
  | cons symbol rest ih =>
      intro smaller
      cases smaller with
      | rel smaller => exact asymm smaller smaller
      | cons smaller => exact ih smaller

/-- The symbols of the first difference order the lists. -/
theorem lex_iff (least : ∀ symbol ∈ first, before stop symbol)
    (least' : ∀ symbol ∈ second, before stop symbol)
    (differs : FirstDiffer (first ++ [stop]) (second ++ [stop]) left right) :
    List.Lex before first second ↔ before left right := by
  induction first generalizing second with
  | nil =>
      cases second with
      | nil => exact absurd rfl differs.lists_ne
      | cons symbol rest =>
          have below := least' symbol List.mem_cons_self
          cases differs with
          | here => exact iff_of_true List.Lex.nil below
          | later => exact absurd below (asymm below)
  | cons symbol rest ih =>
      cases second with
      | nil =>
          have below := least symbol List.mem_cons_self
          cases differs with
          | here => exact iff_of_false (fun smaller => nomatch smaller) (asymm below)
          | later => exact absurd below (asymm below)
      | cons symbol' rest' =>
          cases differs with
          | here differ =>
              constructor
              · intro smaller
                cases smaller with
                | rel smaller => exact smaller
                | cons => exact absurd rfl differ
              · exact List.Lex.rel
          | later differs =>
              rw [← ih (fun other member => least other (List.mem_cons_of_mem _ member))
                (fun other member => least' other (List.mem_cons_of_mem _ member)) differs]
              constructor
              · intro smaller
                cases smaller with
                | rel smaller => exact absurd smaller (asymm smaller)
                | cons smaller => exact smaller
              · exact List.Lex.cons

end

end FirstDiffer
