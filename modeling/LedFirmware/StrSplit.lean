import LedFirmware.CString
import LedFirmware.MemMatch

/-!
# StrSplit

`StrSplit` reports the fields of a string in an array of nodes and replaces the delimiters
it passes.  The delimiter that fills the array ends the scan and stays.
-/

namespace LedFirmware

/-- The node of a field with its start and its length, the null pointer for an empty one. -/
def spanNode (span : Nat × Nat) : DataNode :=
  if span.2 ≠ 0 then ⟨some span.1, UInt32.ofNat span.2⟩ else DataNode.null

/-- The loop of `StrSplit` on the bytes from a position on, with the fields found so far.  It
returns these bytes as it leaves them, the node array and the number of fields.  The lengths
are those of a string in memory, below 2^32. -/
def strSplitLoop (split replace : UInt8) (nodeNum : Nat) :
    List UInt8 → (position strStart strLen index : Nat) → (Nat → DataNode) →
      Option (List UInt8 × (Nat → DataNode) × Nat)
  | [], _, _, _, _, _ => none
  | ch :: str, position, strStart, strLen, index, result =>
      if ch = 0 then
        if strLen ≠ 0 then
          some (ch :: str,
            Function.update result index ⟨some strStart, UInt32.ofNat strLen⟩, index + 1)
        else some (ch :: str, result, index)
      else if ch = split then
        let result := Function.update result index (spanNode (strStart, strLen))
        if index + 1 ≥ nodeNum then some (ch :: str, result, index + 1)
        else
          (strSplitLoop split replace nodeNum str (position + 1) (position + 1) 0 (index + 1)
            result).map fun (rest, result, count) => (replace :: rest, result, count)
      else
        (strSplitLoop split replace nodeNum str (position + 1) strStart (strLen + 1) index
          result).map fun (rest, result, count) => (ch :: rest, result, count)

/-- `StrSplit` on the bytes of a string, or on the null pointer. -/
def strSplit (str : Option (List UInt8)) (split replace : UInt8) (result : Nat → DataNode)
    (nodeNum : Nat) : Option (List UInt8 × (Nat → DataNode) × Nat) :=
  match str with
  | none => some ([], result, 0)
  | some str => strSplitLoop split replace nodeNum str 0 0 0 0 result

/-! ### The fields of a string -/

/-- The start and the length of each field.  An empty field behind the last delimiter does
not count. -/
def fieldSpans : Nat → List (List UInt8) → List (Nat × Nat)
  | _, [] => []
  | start, [last] => if last = [] then [] else [(start, last.length)]
  | start, field :: next :: fields =>
      (start, field.length) :: fieldSpans (start + field.length + 1) (next :: fields)

/-- A text whose first delimiters are replaced, as many as the budget allows. -/
def replaceDelimiters (split replace : UInt8) (budget : Nat) (text : List UInt8) : List UInt8 :=
  text.mapIdx fun position ch =>
    if ch = split ∧ (text.take position).count split < budget then replace else ch

/-- An array with nodes stored from an index on. -/
def storeNodes (index : Nat) (nodes : List DataNode) (result : Nat → DataNode) (place : Nat) :
    DataNode :=
  if place < index then result place else (nodes[place - index]?).getD (result place)

theorem storeNodes_nil (index : Nat) (result : Nat → DataNode) :
    storeNodes index [] result = result := by
  funext place
  rw [storeNodes, List.getElem?_nil, Option.getD_none, ite_self]

theorem storeNodes_cons (index : Nat) (node : DataNode) (nodes : List DataNode)
    (result : Nat → DataNode) :
    storeNodes index (node :: nodes) result =
      storeNodes (index + 1) nodes (Function.update result index node) := by
  funext place
  rcases Nat.lt_trichotomy place index with before | rfl | after
  · rw [storeNodes, storeNodes, if_pos before, if_pos (by omega),
      Function.update_of_ne (Nat.ne_of_lt before)]
  · rw [storeNodes, storeNodes, if_neg (Nat.lt_irrefl _), if_pos (Nat.lt_succ_self _),
      Function.update_self, Nat.sub_self]
    rfl
  · rw [storeNodes, storeNodes, if_neg (by omega), if_neg (by omega),
      Function.update_of_ne (by omega), show place - index = place - (index + 1) + 1 by omega,
      List.getElem?_cons_succ]

variable {split replace : UInt8}

theorem replaceDelimiters_cons_split (budget : Nat) (text : List UInt8) :
    replaceDelimiters split replace budget (split :: text) =
      (if 0 < budget then replace else split) ::
        replaceDelimiters split replace (budget - 1) text := by
  rw [replaceDelimiters, List.mapIdx_cons, replaceDelimiters]
  congr 1
  · simp
  · congr 1
    funext position ch
    rw [List.take_succ_cons, List.count_cons_self]
    have same : (text.take position).count split + 1 < budget ↔
        (text.take position).count split < budget - 1 := by omega
    simp only [same]

theorem replaceDelimiters_cons {ch : UInt8} (differ : ch ≠ split) (budget : Nat)
    (text : List UInt8) :
    replaceDelimiters split replace budget (ch :: text) =
      ch :: replaceDelimiters split replace budget text := by
  rw [replaceDelimiters, List.mapIdx_cons, replaceDelimiters]
  congr 1
  · simp [differ]
  · congr 1
    funext position ch'
    rw [List.take_succ_cons, List.count_cons_of_ne differ]

theorem replaceDelimiters_zero (text : List UInt8) :
    replaceDelimiters split replace 0 text = text := by
  apply List.ext_getElem
  · simp [replaceDelimiters]
  · intro position inside inside'
    simp [replaceDelimiters]

/-- The spans of the fields when some characters of the first one are already behind. -/
def pendingSpans (split : UInt8) (start pending : Nat) (text : List UInt8) : List (Nat × Nat) :=
  match text.splitOn split with
  | [] => []
  | [last] => if pending + last.length = 0 then [] else [(start, pending + last.length)]
  | field :: next :: fields =>
      (start, pending + field.length) ::
        fieldSpans (start + (pending + field.length) + 1) (next :: fields)

theorem exists_splitOn (split : UInt8) (text : List UInt8) :
    ∃ first fields, text.splitOn split = first :: fields :=
  List.exists_cons_of_ne_nil (List.splitOn_ne_nil split text)

theorem pendingSpans_zero (start : Nat) (text : List UInt8) :
    pendingSpans split start 0 text = fieldSpans start (text.splitOn split) := by
  obtain ⟨first, fields, parts⟩ := exists_splitOn split text
  cases fields with
  | nil => simp [pendingSpans, parts, fieldSpans]
  | cons next fields => simp [pendingSpans, parts, fieldSpans]

theorem pendingSpans_nil (start pending : Nat) :
    pendingSpans split start pending [] = if pending = 0 then [] else [(start, pending)] := by
  simp [pendingSpans]

theorem pendingSpans_cons_split (start pending : Nat) (text : List UInt8) :
    pendingSpans split start pending (split :: text) =
      (start, pending) :: fieldSpans (start + pending + 1) (text.splitOn split) := by
  obtain ⟨first, fields, parts⟩ := exists_splitOn split text
  simp [pendingSpans, List.splitOn_cons_eq_if_modifyHead, parts]

theorem pendingSpans_cons {ch : UInt8} (differ : ch ≠ split) (start pending : Nat)
    (text : List UInt8) :
    pendingSpans split start pending (ch :: text) =
      pendingSpans split start (pending + 1) text := by
  obtain ⟨first, fields, parts⟩ := exists_splitOn split text
  cases fields with
  | nil => simp [pendingSpans, List.splitOn_cons_eq_if_modifyHead, parts, differ, Nat.add_assoc,
      Nat.add_comm 1]
  | cons next fields => simp [pendingSpans, List.splitOn_cons_eq_if_modifyHead, parts, differ,
      Nat.add_assoc, Nat.add_comm 1]

/-! ### The scan -/

/-- The nodes that the scan of a text stores, as many as the array has room for. -/
def scanNodes (split : UInt8) (start pending room : Nat) (text : List UInt8) : List DataNode :=
  ((pendingSpans split start pending text).map spanNode).take room

theorem scanNodes_cons_split (start pending room : Nat) (text : List UInt8) :
    scanNodes split start pending (room + 1) (split :: text) =
      spanNode (start, pending) :: scanNodes split (start + pending + 1) 0 room text := by
  rw [scanNodes, pendingSpans_cons_split, List.map_cons, List.take_succ_cons, scanNodes,
    pendingSpans_zero]

theorem scanNodes_cons {ch : UInt8} (differ : ch ≠ split) (start pending room : Nat)
    (text : List UInt8) :
    scanNodes split start pending room (ch :: text) =
      scanNodes split start (pending + 1) room text := by
  rw [scanNodes, pendingSpans_cons differ, scanNodes]

theorem strSplitLoop_eq {text : List UInt8} (noNul : 0 ∉ text) {nodeNum index room : Nat}
    (fits : index + room + 1 = nodeNum) (start pending : Nat) (result : Nat → DataNode) :
    strSplitLoop split replace nodeNum (text ++ [0]) (start + pending) start pending index result =
      some (replaceDelimiters split replace room text ++ [0],
        storeNodes index (scanNodes split start pending (room + 1) text) result,
        index + (scanNodes split start pending (room + 1) text).length) := by
  induction text generalizing index room start pending result with
  | nil =>
      rw [scanNodes, pendingSpans_nil, List.nil_append, strSplitLoop, if_pos rfl]
      by_cases none : pending = 0
      · rw [if_neg (not_not.mpr none), if_pos none]
        simp [storeNodes_nil, replaceDelimiters]
      · rw [if_pos none, if_neg none]
        simp [storeNodes_cons, storeNodes_nil, replaceDelimiters, spanNode, none]
  | cons ch text ih =>
      have present : ch ≠ 0 := (List.ne_of_not_mem_cons noNul).symm
      have noNul' : 0 ∉ text := List.not_mem_of_not_mem_cons noNul
      rw [List.cons_append, strSplitLoop, if_neg present]
      by_cases delimiter : ch = split
      · subst delimiter
        rw [if_pos rfl, scanNodes_cons_split, storeNodes_cons, List.length_cons]
        cases room with
        | zero =>
            rw [if_pos (by omega), replaceDelimiters_zero]
            simp [scanNodes, storeNodes_nil, spanNode]
        | succ room =>
            have rest := ih noNul' (show index + 1 + room + 1 = nodeNum by omega)
              (start + pending + 1) 0 (Function.update result index (spanNode (start, pending)))
            rw [Nat.add_zero] at rest
            rw [if_neg (by omega), rest, Option.map_some, replaceDelimiters_cons_split,
              if_pos (Nat.succ_pos room), Nat.add_sub_cancel, List.cons_append,
              Nat.add_assoc index 1, Nat.add_comm 1]
      · have rest := ih noNul' fits start (pending + 1) result
        rw [if_neg delimiter, Nat.add_assoc, rest, Option.map_some,
          replaceDelimiters_cons delimiter, scanNodes_cons delimiter, List.cons_append]

/-! ### The fields are parts of the string -/

theorem fieldSpans_length (start : Nat) (fields : List (List UInt8)) :
    (fieldSpans start fields).length =
      if fields.getLast? = some [] then fields.length - 1 else fields.length := by
  induction fields generalizing start with
  | nil => rfl
  | cons field fields ih =>
      cases fields with
      | nil =>
          by_cases empty : field = []
          · simp [fieldSpans, empty]
          · simp [fieldSpans, empty]
      | cons next fields =>
          rw [fieldSpans, List.length_cons, ih, List.getLast?_cons_cons]
          split
          · simp
          · rfl

/-- A span reaches over its field in the joined text. -/
theorem fieldSpans_slice (before : List UInt8) (fields : List (List UInt8)) {index : Nat}
    {span : Nat × Nat} (found : (fieldSpans before.length fields)[index]? = some span) :
    ∃ field, fields[index]? = some field ∧ span.2 = field.length ∧
      ((before ++ [split].intercalate fields).drop span.1).take span.2 = field := by
  induction fields generalizing before index with
  | nil => simp [fieldSpans] at found
  | cons field fields ih =>
      cases fields with
      | nil =>
          by_cases empty : field = []
          · simp [fieldSpans, empty] at found
          · cases index with
            | zero =>
                simp only [fieldSpans, if_neg empty, List.getElem?_cons_zero,
                  Option.some.injEq] at found
                subst found
                exact ⟨field, rfl, rfl, by simp⟩
            | succ index => simp [fieldSpans, empty] at found
      | cons next fields =>
          have joined : [split].intercalate (field :: next :: fields) =
              field ++ split :: [split].intercalate (next :: fields) := by
            simp [List.intercalate_cons_cons]
          cases index with
          | zero =>
              rw [fieldSpans, List.getElem?_cons_zero, Option.some.injEq] at found
              subst found
              exact ⟨field, rfl, rfl, by simp [joined]⟩
          | succ index =>
              rw [fieldSpans, List.getElem?_cons_succ] at found
              have length : before.length + field.length + 1 =
                  (before ++ field ++ [split]).length := by
                simp [Nat.add_assoc]
              rw [length] at found
              obtain ⟨other, isField, size, slice⟩ := ih _ found
              refine ⟨other, isField, size, ?_⟩
              rw [joined]
              simpa using slice

/-- `StrSplit` reports the fields up to the capacity of the node array and replaces the
delimiters in front of the one that fills it. -/
theorem strSplit_fields (str : CString) (split replace : UInt8) (result : Nat → DataNode)
    {nodeNum : Nat} (positive : 1 ≤ nodeNum) :
    let fields := str.chars.splitOn split
    let counted := if fields.getLast? = some [] then fields.length - 1 else fields.length
    ∃ after result' count,
      strSplit (some str.bytes) split replace result nodeNum = some (after, result', count) ∧
        count = min counted nodeNum ∧
        (∀ index < count, ∃ span field,
          (fieldSpans 0 fields)[index]? = some span ∧ fields[index]? = some field ∧
            span.2 = field.length ∧ (str.chars.drop span.1).take span.2 = field ∧
            result' index = spanNode span) ∧
        (∀ index, nodeNum ≤ index → result' index = result index) ∧
        after = replaceDelimiters split replace (nodeNum - 1) str.chars ++ [0] := by
  intro fields counted
  obtain ⟨room, rfl⟩ := Nat.exists_eq_add_of_le' positive
  have scanned := @strSplitLoop_eq split replace _ str.noNul (room + 1) 0 room
    (by omega) 0 0 result
  have nodes_eq : scanNodes split 0 0 (room + 1) str.chars =
      ((fieldSpans 0 fields).map spanNode).take (room + 1) := by
    rw [scanNodes, pendingSpans_zero]
  have length : (scanNodes split 0 0 (room + 1) str.chars).length = min counted (room + 1) := by
    rw [nodes_eq, List.length_take, List.length_map, fieldSpans_length, Nat.min_comm]
  refine ⟨_, _, _, scanned, by rw [length, Nat.zero_add], fun index inside => ?_,
    fun index beyond => ?_, rfl⟩
  · rw [Nat.zero_add] at inside
    have bounded : index < (fieldSpans 0 fields).length := by
      rw [fieldSpans_length]
      rw [length] at inside
      exact Nat.lt_of_lt_of_le inside (Nat.min_le_left _ _)
    obtain ⟨field, isField, size, slice⟩ := @fieldSpans_slice split [] fields index _
      (List.getElem?_eq_getElem bounded)
    rw [List.nil_append, List.intercalate_splitOn] at slice
    refine ⟨_, field, List.getElem?_eq_getElem bounded, isField, size, slice, ?_⟩
    rw [storeNodes, if_neg (Nat.not_lt_zero _), Nat.sub_zero, List.getElem?_eq_getElem inside,
      Option.getD_some]
    simp [nodes_eq]
  · have outside : (scanNodes split 0 0 (room + 1) str.chars).length ≤ index := by
      rw [length]
      omega
    rw [storeNodes, if_neg (Nat.not_lt_zero _), Nat.sub_zero, List.getElem?_eq_none outside,
      Option.getD_none]

/-- The fields of `a,,b,` and the one comma that stays when they fill three nodes. -/
theorem strSplit_fields_text :
    let result : Nat → DataNode := fun _ => DataNode.null
    let chars : List UInt8 := [0x61, 0x2C, 0x2C, 0x62, 0x2C]
    ∃ after result' count,
      strSplit (some (chars ++ [0])) 0x2C 0 result 3 = some (after, result', count) ∧
        count = min (if (chars.splitOn 0x2C).getLast? = some [] then
          (chars.splitOn 0x2C).length - 1 else (chars.splitOn 0x2C).length) 3 ∧
        after = replaceDelimiters 0x2C 0 2 chars ++ [0] := by
  obtain ⟨after, result', count, run, counted, -, -, left⟩ :=
    @strSplit_fields ⟨[0x61, 0x2C, 0x2C, 0x62, 0x2C], by decide⟩ 0x2C 0 (fun _ => DataNode.null) 3
      (by decide)
  exact ⟨after, result', count, run, counted, left⟩

/-- With one node the first comma of `a,b` fills the array and does not become a zero byte. -/
theorem strSplit_keeps_delimiter :
    ∃ after result' count,
      strSplit (some (CString.mk [0x61, 0x2C, 0x62] (by decide)).bytes) 0x2C 0
          (fun _ => DataNode.null) 1 = some (after, result', count) ∧
        after[1]? = some 0x2C := by
  refine ⟨_, _, _, rfl, rfl⟩

end LedFirmware
