import LedFirmware.Dispatch

/-!
# The table of protocol handlers

`protocol_anylise_add` and `protocol_anylise_del` keep a number of handlers beside
three places.  A missing handler is not checked for: adding it is counted though it
fills no place, and deleting it finds an empty place.
-/

namespace LedFirmware.App

/-- The part of `comm_dev_type` that holds the handlers; a missing one is `RT_NULL`.
`suspended` is the state of the thread `tid`, if there is one. -/
structure HandlerTable (Handle : Type) where
  protocolAnyliseFun : List (Option Handle)
  protocolNum : UInt32
  suspended : Option Bool
  places : protocolAnyliseFun.length = protocolFunMax
  deriving DecidableEq

variable {Handle : Type} {table : HandlerTable Handle}

/-- `comm_dev_create` leaves all places empty. -/
def commDevCreate (Handle : Type) : HandlerTable Handle :=
  ⟨List.replicate protocolFunMax none, 0, none, List.length_replicate⟩

namespace HandlerTable

/-- `rt_thread_suspend`, if there is a thread. -/
def suspend (table : HandlerTable Handle) : HandlerTable Handle :=
  { table with suspended := table.suspended.map fun _ => true }

/-- `rt_thread_resume`, if there is a thread. -/
def resume (table : HandlerTable Handle) : HandlerTable Handle :=
  { table with suspended := table.suspended.map fun _ => false }

/-- Store to a place. -/
def store (table : HandlerTable Handle) (place : Nat) (handle : Option Handle) :
    HandlerTable Handle :=
  { table with
    protocolAnyliseFun := table.protocolAnyliseFun.set place handle
    places := by rw [List.length_set, table.places] }

/-- The handlers that the places hold. -/
def handlers (table : HandlerTable Handle) : Nat :=
  table.protocolAnyliseFun.countP Option.isSome

/-- The number is that of the handlers. -/
def Counted (table : HandlerTable Handle) : Prop :=
  table.protocolNum.toNat = table.handlers

end HandlerTable

theorem handlers_le : table.handlers ≤ protocolFunMax :=
  table.places ▸ List.countP_le_length

/-- The table is full when it holds as many handlers as it has places. -/
theorem handlers_full : protocolFunMax ≤ table.handlers ↔ none ∉ table.protocolAnyliseFun := by
  have bound := @handlers_le Handle table
  have full : table.handlers = protocolFunMax ↔ ∀ held ∈ table.protocolAnyliseFun,
      held.isSome = true := by
    rw [← table.places]
    exact List.countP_eq_length
  have ge : protocolFunMax ≤ table.handlers ↔ table.handlers = protocolFunMax := by omega
  rw [ge, full]
  constructor
  · intro all inside
    cases all none inside
  · rintro noneEmpty (_ | held) inside
    · exact absurd inside noneEmpty
    · rfl

theorem handlers_zero : table.handlers = 0 ↔
    ∀ held ∈ table.protocolAnyliseFun, held = none := by
  unfold HandlerTable.handlers
  rw [List.countP_eq_zero]
  constructor
  · rintro empty (_ | held) inside
    · rfl
    · exact absurd rfl (empty _ inside)
  · intro empty held inside
    rw [empty held inside]
    exact Bool.false_ne_true

theorem counted_of_same {after : HandlerTable Handle} (counted : table.Counted)
    (places : after.protocolAnyliseFun = table.protocolAnyliseFun)
    (number : after.protocolNum = table.protocolNum) : after.Counted := by
  unfold HandlerTable.Counted HandlerTable.handlers
  rw [number, places]
  exact counted

variable [DecidableEq Handle]

/-- The first place that holds a handler, or that is empty if the handler is missing. -/
def HandlerTable.find (table : HandlerTable Handle) (handle : Option Handle) : Option Nat :=
  table.protocolAnyliseFun.idxOf? handle

def protocolAnyliseAdd (commDev : Option (HandlerTable Handle)) (protocolAnylise : Option Handle) :
    Bool × Option (HandlerTable Handle) :=
  match commDev with
  | none => (false, none)
  | some commDev =>
      if protocolFunMax ≤ commDev.protocolNum.toNat then (false, some commDev)
      else
        let commDev := commDev.suspend
        match commDev.find none with
        | some i =>
            let commDev := commDev.store i protocolAnylise
            (true, some { commDev with protocolNum := commDev.protocolNum + 1 }.resume)
        | none => (false, some commDev.resume)

def protocolAnyliseDel (commDev : Option (HandlerTable Handle)) (protocolAnylise : Option Handle) :
    Bool × Option (HandlerTable Handle) :=
  match commDev with
  | none => (false, none)
  | some commDev =>
      if commDev.protocolNum = 0 then (true, some commDev)
      else
        let commDev := commDev.suspend
        match commDev.find protocolAnylise with
        | some i =>
            let commDev := commDev.store i none
            (true, some { commDev with protocolNum := commDev.protocolNum - 1 }.resume)
        | none => (false, some commDev.resume)

/-! ## Calls -/

inductive TableCall (Handle : Type)
  | add (handle : Option Handle)
  | del (handle : Option Handle)

def TableCall.run : TableCall Handle → Option (HandlerTable Handle) →
    Bool × Option (HandlerTable Handle)
  | .add handle, commDev => protocolAnyliseAdd commDev handle
  | .del handle, commDev => protocolAnyliseDel commDev handle

/-- What the table owes to a call: the number is that of the handlers, an addition fails
for want of a place or of a handler only, and a deletion empties one place of the handler. -/
def TableCall.Right (before after : HandlerTable Handle) (ok : Bool) : TableCall Handle → Prop
  | .add handle =>
      after.Counted ∧
      (ok = false ↔ none ∉ before.protocolAnyliseFun ∨ handle = none) ∧
      (ok = false → after.protocolAnyliseFun = before.protocolAnyliseFun ∧
        after.protocolNum = before.protocolNum)
  | .del handle =>
      after.Counted ∧
      (handle ≠ none → handle ∈ before.protocolAnyliseFun → ∃ place,
        before.protocolAnyliseFun[place]? = some handle ∧
          after.protocolAnyliseFun = before.protocolAnyliseFun.set place none) ∧
      (handle = none ∨ handle ∉ before.protocolAnyliseFun →
        after.protocolAnyliseFun = before.protocolAnyliseFun)

/-- A missing handler is passed only where the call does not come to the places: to an
addition while none is empty, to a deletion while none or all are. -/
def TableCall.Proper (table : HandlerTable Handle) : TableCall Handle → Prop
  | .add handle => handle = none → none ∉ table.protocolAnyliseFun
  | .del handle => handle = none →
      none ∉ table.protocolAnyliseFun ∨ ∀ held ∈ table.protocolAnyliseFun, held = none

/-- The tables that proper calls reach from a new one, with or without a thread. -/
inductive Reached : HandlerTable Handle → Prop
  | created (suspended : Option Bool) : Reached { commDevCreate Handle with suspended }
  | call {table after : HandlerTable Handle} {ok : Bool} (call : TableCall Handle) :
      Reached table → call.Proper table → call.run (some table) = (ok, some after) →
      Reached after

variable {handle : Option Handle} {place : Nat}

/-! ## The number and the places -/

theorem find_eq_none : table.find handle = none ↔ handle ∉ table.protocolAnyliseFun :=
  List.idxOf?_eq_none_iff

theorem find_eq_some (found : table.find handle = some place) :
    place < table.protocolAnyliseFun.length ∧
      table.protocolAnyliseFun[place]? = some handle := by
  obtain ⟨inside, holds, -⟩ := List.idxOf?_eq_some_iff.mp found
  refine ⟨inside, ?_⟩
  rw [List.getElem?_eq_getElem inside]
  exact congrArg some holds

/-- What one store to a found place makes of the number of handlers. -/
theorem handlers_store {after : HandlerTable Handle} {held : Option Handle}
    (found : table.find handle = some place)
    (stored : after.protocolAnyliseFun = table.protocolAnyliseFun.set place held) :
    after.handlers =
      table.handlers - (if handle.isSome then 1 else 0) + if held.isSome then 1 else 0 := by
  obtain ⟨inside, holds⟩ := find_eq_some found
  rw [List.getElem?_eq_getElem inside, Option.some.injEq] at holds
  unfold HandlerTable.handlers
  rw [stored, List.countP_set inside, holds]

/-! ## One call -/

theorem add_full (counted : table.Counted) (full : none ∉ table.protocolAnyliseFun) :
    protocolAnyliseAdd (some table) handle = (false, some table) :=
  if_pos (counted ▸ handlers_full.mpr full)

theorem add_free (counted : table.Counted) (free : none ∈ table.protocolAnyliseFun) :
    ∃ place after, table.find none = some place ∧
      protocolAnyliseAdd (some table) handle = (true, some after) ∧
      after.protocolAnyliseFun = table.protocolAnyliseFun.set place handle ∧
      after.protocolNum = table.protocolNum + 1 := by
  have room : ¬ protocolFunMax ≤ table.protocolNum.toNat := fun full =>
    handlers_full.mp (counted ▸ full) free
  cases found : table.find none with
  | none => exact absurd free (find_eq_none.mp found)
  | some place =>
      have suspended : table.suspend.find none = some place := found
      refine ⟨place, { table.suspend.store place handle with
        protocolNum := table.protocolNum + 1 }.resume, rfl, ?_, rfl, rfl⟩
      unfold protocolAnyliseAdd
      simp only [if_neg room, suspended]
      rfl

theorem del_zero (zero : table.protocolNum = 0) :
    protocolAnyliseDel (some table) handle = (true, some table) :=
  if_pos zero

theorem del_found (held : table.protocolNum ≠ 0) (found : table.find handle = some place) :
    ∃ after, protocolAnyliseDel (some table) handle = (true, some after) ∧
      after.protocolAnyliseFun = table.protocolAnyliseFun.set place none ∧
      after.protocolNum = table.protocolNum - 1 := by
  have suspended : table.suspend.find handle = some place := found
  refine ⟨{ table.suspend.store place none with
    protocolNum := table.protocolNum - 1 }.resume, ?_, rfl, rfl⟩
  unfold protocolAnyliseDel
  simp only [if_neg held, suspended]
  rfl

theorem del_absent (held : table.protocolNum ≠ 0) (absent : table.find handle = none) :
    ∃ after, protocolAnyliseDel (some table) handle = (false, some after) ∧
      after.protocolAnyliseFun = table.protocolAnyliseFun ∧
      after.protocolNum = table.protocolNum := by
  have suspended : table.suspend.find handle = none := absent
  refine ⟨table.suspend.resume, ?_, rfl, rfl⟩
  unfold protocolAnyliseDel
  simp only [if_neg held, suspended]

theorem add_right {after : HandlerTable Handle} {ok : Bool} (counted : table.Counted)
    (added : protocolAnyliseAdd (some table) handle = (ok, some after)) :
    (TableCall.add handle).Right table after ok ↔ (TableCall.add handle).Proper table := by
  by_cases free : none ∈ table.protocolAnyliseFun
  · obtain ⟨place, stored, found, returned, places, number⟩ :=
      @add_free Handle table _ handle counted free
    obtain ⟨rfl, rfl⟩ : ok = true ∧ after = stored := by
      simpa [returned, eq_comm] using added
    have holds := handlers_store found places
    have room : table.handlers < protocolFunMax := by
      by_contra full
      exact handlers_full.mp (Nat.le_of_not_lt full) free
    have numbers : after.protocolNum.toNat = table.handlers + 1 := by
      rw [number, UInt32.toNat_add, counted, Nat.mod_eq_of_lt]
      · rfl
      · rw [protocolFunMax] at room
        change table.handlers + 1 < 2 ^ 32
        omega
    cases handle with
    | none =>
        refine iff_of_false (fun right => ?_) fun proper => proper rfl free
        exact absurd (right.2.1.mpr (.inr rfl)) (Bool.false_ne_true ·.symm)
    | some handler =>
        refine iff_of_true ⟨?_, ?_, nofun⟩ nofun
        · exact numbers.trans holds.symm
        · exact iff_of_false nofun (by simpa using free)
  · obtain ⟨rfl, rfl⟩ : ok = false ∧ after = table := by
      simpa [@add_full Handle table _ handle counted free, eq_comm] using added
    refine iff_of_true ⟨counted, ?_, fun _ => ⟨rfl, rfl⟩⟩ fun _ => free
    exact iff_of_true rfl (.inl free)

theorem del_right {after : HandlerTable Handle} {ok : Bool} (counted : table.Counted)
    (deleted : protocolAnyliseDel (some table) handle = (ok, some after)) :
    (TableCall.del handle).Right table after ok ↔ (TableCall.del handle).Proper table := by
  by_cases zero : table.protocolNum = 0
  · obtain ⟨rfl, rfl⟩ : ok = true ∧ after = table := by
      simpa [@del_zero Handle table _ handle zero, eq_comm] using deleted
    have empty := handlers_zero.mp (counted.symm.trans (congrArg UInt32.toNat zero))
    refine iff_of_true ⟨counted, fun given inside => ?_, fun _ => rfl⟩ fun _ => .inr empty
    exact absurd (empty handle inside) given
  cases found : table.find handle with
  | none =>
      obtain ⟨kept, returned, places, number⟩ := del_absent zero found
      obtain ⟨rfl, rfl⟩ : ok = false ∧ after = kept := by
        simpa [returned, eq_comm] using deleted
      have absent := find_eq_none.mp found
      refine iff_of_true ⟨counted_of_same counted places number, ?_, fun _ => places⟩ ?_
      · exact fun _ inside => absurd inside absent
      · rintro rfl
        exact .inl absent
  | some place =>
      obtain ⟨left, returned, places, number⟩ := del_found zero found
      obtain ⟨rfl, rfl⟩ : ok = true ∧ after = left := by
        simpa [returned, eq_comm] using deleted
      have holds := handlers_store found places
      have member := List.mem_of_getElem? (find_eq_some found).2
      have positive : table.protocolNum.toNat ≠ 0 := fun none => zero (UInt32.toNat_inj.mp none)
      have numbers : after.protocolNum.toNat = table.handlers - 1 := by
        have one : (1 : UInt32) ≤ table.protocolNum := UInt32.le_iff_toNat_le.mpr (by
          change 1 ≤ table.protocolNum.toNat
          omega)
        rw [number, UInt32.toNat_sub_of_le _ _ one, counted]
        rfl
      rw [counted] at positive
      cases handle with
      | none =>
          refine iff_of_false (fun right => ?_) fun proper => ?_
          · have counts := numbers.symm.trans (right.1.trans holds)
            simp only [Option.isSome_none, Bool.false_eq_true, if_false] at counts
            omega
          · rcases proper rfl with noneEmpty | empty
            · exact noneEmpty member
            · exact positive (handlers_zero.mpr empty)
      | some handler =>
          refine iff_of_true ⟨?_, ?_, ?_⟩ nofun
          · exact numbers.trans holds.symm
          · exact fun _ _ => ⟨place, (find_eq_some found).2, places⟩
          · rintro (missing | absent)
            · cases missing
            · exact absurd member absent

theorem call_right {after : HandlerTable Handle} {ok : Bool} {call : TableCall Handle}
    (counted : table.Counted) (ran : call.run (some table) = (ok, some after)) :
    call.Right table after ok ↔ call.Proper table := by
  cases call with
  | add handle => exact add_right counted ran
  | del handle => exact del_right counted ran

omit [DecidableEq Handle] in
theorem TableCall.Right.counted {after : HandlerTable Handle} {ok : Bool}
    {call : TableCall Handle} (right : call.Right table after ok) : after.Counted := by
  cases call with
  | add handle => exact right.1
  | del handle => exact right.1

/-! ## All calls -/

theorem Reached.counted (reached : Reached table) : table.Counted := by
  induction reached with
  | created suspended => rfl
  | call call _ proper ran ih => exact ((call_right ih ran).mpr proper).counted

/-- In every table that proper calls reach the number is that of the handlers, and the
next call does what the table owes to it just when it is proper too. -/
theorem handler_table (table : HandlerTable Handle) (reached : Reached table) :
    table.protocolNum.toNat = table.handlers ∧
      ∀ (call : TableCall Handle) (after : HandlerTable Handle) (ok : Bool),
        call.run (some table) = (ok, some after) →
          (call.Right table after ok ↔ call.Proper table) :=
  ⟨reached.counted, fun _ _ _ ran => call_right reached.counted ran⟩

/-- One handler in a new table. -/
def oneHandler : HandlerTable Nat :=
  ⟨[some 5, none, none], 1, none, rfl⟩

theorem handler_table_one : oneHandler.protocolNum.toNat = oneHandler.handlers ∧
    (TableCall.del (some 5)).Right oneHandler (commDevCreate Nat) true := by
  have reached : Reached oneHandler :=
    @Reached.call Nat _ (commDevCreate Nat) oneHandler true (.add (some 5)) (.created none) nofun
      (by decide)
  obtain ⟨counted, calls⟩ := handler_table oneHandler reached
  exact ⟨counted, (calls (.del (some 5)) (commDevCreate Nat) true (by decide)).mpr nofun⟩

/-- A missing handler is added and counted, and fills no place. -/
theorem handler_table_missing : ∃ after : HandlerTable Nat,
    protocolAnyliseAdd (some (commDevCreate Nat)) none = (true, some after) ∧
      after.protocolNum.toNat ≠ after.handlers ∧
      ¬ (TableCall.add none).Right (commDevCreate Nat) after true := by
  refine ⟨⟨[none, none, none], 1, none, rfl⟩, by decide, by decide, fun right => ?_⟩
  cases right.2.1.mpr (.inr rfl)

end LedFirmware.App
