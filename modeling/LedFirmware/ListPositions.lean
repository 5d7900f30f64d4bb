import LedFirmware.LinkRing

/-!
# Lists by position

The two-way lists of `usdl_list.c`: the node at a position counted from either end, a node
inserted behind it and the node there deleted.
-/

namespace LedFirmware

variable {Node : Type} [DecidableEq Node]

/-- `__list_add`: a node stored between two others; no result where a null link would be
followed. -/
def internalListAdd (newNode : Node) (prev next : Option Node) (links : Links Node) :
    Option (Links Node) := do
  let nextNode ← next
  let links := links.setPrev nextNode (some newNode)
  let links := links.setNext newNode next
  let links := links.setPrev newNode prev
  let prevNode ← prev
  some (links.setNext prevNode (some newNode))

/-- `__list_del`: two nodes linked to each other. -/
def internalListDel (prev next : Option Node) (links : Links Node) : Option (Links Node) := do
  let nextNode ← next
  let links := links.setPrev nextNode prev
  let prevNode ← prev
  some (links.setNext prevNode next)

/-- `ListDel`. -/
def listDel (entry : Node) (links : Links Node) : Option (Links Node) := do
  let links ← internalListDel (links.prev entry) (links.next entry) links
  let links := links.setNext entry none
  some (links.setPrev entry none)

/-- The loop of `ListGet` over `ListForEach` (the links `next`, the change −1) or over
`ListForEachReverse` (the links `prev`, the change 1); at the head it returns `NULL`. -/
def listGetLoop (link : Node → Option Node) (change : Int) (head : Node) :
    Nat → Option Node → Int → Option (Option Node)
  | 0, _, _ => none
  | fuel + 1, retHead, position =>
      if retHead = some head then some none
      else if position + change = 0 then some retHead
      else retHead.bind fun node =>
        listGetLoop link change head fuel (link node) (position + change)

/-- `ListGet`; the outer option is empty where the loop does not end or follows a null
link. -/
def listGet (fuel : Nat) (head : Node) (position : Int) (links : Links Node) :
    Option (Option Node) :=
  if position = 0 then some (some head)
  else if 0 < position then listGetLoop links.next (-1) head fuel (links.next head) position
  else listGetLoop links.prev 1 head fuel (links.prev head) position

/-- `ListInsert`. -/
def listInsert (fuel : Nat) (head : Node) (position : Int) (newNode : Node)
    (links : Links Node) : Option (Bool × Links Node) := do
  let posNode ← listGet fuel head position links
  match posNode with
  | none => some (false, links)
  | some node =>
      let links ← internalListAdd newNode (some node) (links.next node) links
      some (true, links)

/-- `ListDelByPosition`. -/
def listDelByPosition (fuel : Nat) (head : Node) (position : Int) (links : Links Node) :
    Option (Bool × Links Node) := do
  let posNode ← listGet fuel head position links
  match posNode with
  | none => some (false, links)
  | some node =>
      let links ← listDel node links
      some (true, links)

/-- The node at a position: counted from the front when positive, from the back when
negative. -/
def nodeAt (nodes : List Node) (position : Int) : Option Node :=
  if position = 0 then none
  else if 0 < position then nodes[position.toNat - 1]?
  else nodes.reverse[(-position).toNat - 1]?

variable {links : Links Node} {head node newNode : Node} {nodes : List Node}
variable {fuel : Nat} {position : Int}

omit [DecidableEq Node] in
theorem nodeAt_mem (found : nodeAt nodes position = some node) : node ∈ nodes := by
  unfold nodeAt at found
  split at found
  · cases found
  · split at found
    · exact List.mem_of_getElem? found
    · exact List.mem_reverse.mp (List.mem_of_getElem? found)

/-- Along a chain of links that comes back to the head, the loop ends at the node as many
links away as the position counts. -/
theorem listGetLoop_eq {link : Node → Option Node} (change : Int) (moves : change ≠ 0)
    (rest : List Node) (start : Node) (off_head : head ∉ rest)
    (chain : List.IsChain (fun left right => link left = some right)
      (start :: rest ++ [head]))
    (fuel_gt : rest.length < fuel) (count : Nat) :
    listGetLoop link change head fuel (link start) (-change * (count + 1)) =
      some rest[count]? := by
  induction rest generalizing start fuel count with
  | nil =>
      obtain ⟨fuel, rfl⟩ : ∃ less, fuel = less + 1 := ⟨fuel - 1, by grind⟩
      have back : link start = some head := by simpa using chain
      simp [listGetLoop, back]
  | cons first rest ih =>
      obtain ⟨fuel, rfl⟩ : ∃ less, fuel = less + 1 := ⟨fuel - 1, by grind⟩
      have next : link start = some first := (List.isChain_cons_cons.mp chain).1
      have first_ne : first ≠ head := fun same => off_head (by simp [same])
      have moved : -change * ((count : Int) + 1) + change = -change * count := by grind
      rw [listGetLoop, next, if_neg (by simpa using first_ne), moved]
      cases count with
      | zero => simp
      | succ count =>
          have counts : -change * ((count + 1 : Nat) : Int) ≠ 0 := by
            apply Int.mul_ne_zero <;> omega
          rw [if_neg counts]
          simpa using ih first (by grind) (List.isChain_cons_cons.mp chain).2 (by grind) count

theorem listGet_eq (ring : links.Ring head nodes) (fuel_gt : nodes.length < fuel) :
    listGet fuel head position links =
      some (if position = 0 then some head else nodeAt nodes position) := by
  unfold listGet nodeAt
  split
  · rfl
  · split
    · have counted : position = -(-1) * (((position.toNat - 1 : Nat) : Int) + 1) := by omega
      have chain := ring.joined.imp fun _ _ joined => joined.1
      have found := listGetLoop_eq (-1) (by decide) nodes head ring.head_not_mem chain fuel_gt
        (position.toNat - 1)
      rwa [← counted] at found
    · have counted : position = -1 * ((((-position).toNat - 1 : Nat) : Int) + 1) := by omega
      have chain := ring.swap.joined.imp fun _ _ joined => joined.1
      have found := listGetLoop_eq 1 (by decide) nodes.reverse head ring.swap.head_not_mem chain
        (by simpa using fuel_gt) ((-position).toNat - 1)
      rwa [← counted] at found

theorem internalListAdd_ring (ring : links.Ring head nodes) (member : node ∈ head :: nodes)
    (fresh : newNode ∉ head :: nodes) :
    ∃ inserted, internalListAdd newNode (some node) (links.next node) links = some inserted ∧
      ∃ before after behind, head :: nodes = before ++ node :: after ∧
        head :: behind = before ++ node :: newNode :: after ∧ inserted.Ring head behind := by
  obtain ⟨before, after, split⟩ := List.append_of_mem member
  obtain ⟨right, right_mem, next⟩ := ring.exists_next member
  have node_ne : node ≠ newNode := ne_of_mem_of_not_mem member fresh
  have right_ne : right ≠ newNode := ne_of_mem_of_not_mem right_mem fresh
  refine ⟨_, by rw [next]; rfl, before, after, ?_⟩
  have kept : links.KeptOutside ((((links.setPrev right (some newNode)).setNext newNode
      (some right)).setPrev newNode (some node)).setNext node (some newNode))
      [node, newNode] [right, newNode] := by
    constructor <;> intro other off <;> simp_all
  obtain ⟨behind, behind_eq, inserted⟩ := ring.linkIn split fresh next kept
    (by simp [Links.Joined]) (by simp [Links.Joined, node_ne.symm, right_ne])
  exact ⟨behind, split, behind_eq, inserted⟩

theorem listDel_ring (ring : links.Ring head nodes) (member : node ∈ nodes) :
    ∃ deleted, listDel node links = some deleted ∧ deleted.Ring head (nodes.erase node) := by
  obtain ⟨left, -, prev⟩ := ring.exists_prev (List.mem_cons_of_mem head member)
  obtain ⟨right, -, next⟩ := ring.exists_next (List.mem_cons_of_mem head member)
  refine ⟨_, by rw [listDel, prev, next]; rfl, ?_⟩
  apply ring.linkOut member next prev
  · constructor <;> intro other off <;> simp_all
  · simp [Links.Joined, ring.prev_ne member prev, ring.next_ne member next]

/-- Looking up a position is right: the loop ends, with the head for position 0 and else with
the node there or `NULL`. -/
def GetsNode (links : Links Node) (head : Node) (nodes : List Node) (position : Int) : Prop :=
  ∀ fuel, nodes.length < fuel →
    listGet fuel head position links =
      some (if position = 0 then some head else nodeAt nodes position)

/-- Inserting a fresh node is right: directly behind the node at the position, behind the head
for position 0, with `TRUE`; and where there is no such node `FALSE` with nothing changed. -/
def InsertsBehind (links : Links Node) (head : Node) (nodes : List Node) (position : Int) :
    Prop :=
  ∀ fuel newNode, nodes.length < fuel → newNode ∉ head :: nodes →
    match if position = 0 then some head else nodeAt nodes position with
    | none => listInsert fuel head position newNode links = some (false, links)
    | some node => ∃ inserted before after behind,
        listInsert fuel head position newNode links = some (true, inserted) ∧
          head :: nodes = before ++ node :: after ∧
          head :: behind = before ++ node :: newNode :: after ∧ inserted.Ring head behind

/-- Deleting by position is right: the node at the position is removed, with `TRUE`; and where
there is none, as for position 0, `FALSE` with nothing changed. -/
def DeletesNode (links : Links Node) (head : Node) (nodes : List Node) (position : Int) :
    Prop :=
  ∀ fuel, nodes.length < fuel →
    match nodeAt nodes position with
    | none => listDelByPosition fuel head position links = some (false, links)
    | some node => ∃ deleted,
        listDelByPosition fuel head position links = some (true, deleted) ∧
          deleted.Ring head (nodes.erase node)

theorem getsNode (ring : links.Ring head nodes) (position : Int) :
    GetsNode links head nodes position :=
  fun _ fuel_gt => listGet_eq ring fuel_gt

theorem insertsBehind (ring : links.Ring head nodes) (position : Int) :
    InsertsBehind links head nodes position := by
  intro fuel newNode fuel_gt fresh
  have found_eq := getsNode ring position fuel fuel_gt
  generalize found_mem : (if position = 0 then some head else nodeAt nodes position) = found
    at found_eq ⊢
  cases found with
  | none => simp [listInsert, found_eq]
  | some node =>
      have member : node ∈ head :: nodes := by
        split at found_mem
        · simp_all
        · exact List.mem_cons_of_mem head (nodeAt_mem found_mem)
      obtain ⟨inserted, inserted_eq, before, after, behind, split, behind_eq, inserted_ring⟩ :=
        internalListAdd_ring ring member fresh
      exact ⟨inserted, before, after, behind, by simp [listInsert, found_eq, inserted_eq],
        split, behind_eq, inserted_ring⟩

theorem deletesNode (ring : links.Ring head nodes) (position_ne : position ≠ 0) :
    DeletesNode links head nodes position := by
  intro fuel fuel_gt
  have found_eq := getsNode ring position fuel fuel_gt
  rw [if_neg position_ne] at found_eq
  cases found : nodeAt nodes position with
  | none => simp [listDelByPosition, found_eq, found]
  | some node =>
      obtain ⟨deleted, deleted_eq, deleted_ring⟩ := listDel_ring ring (nodeAt_mem found)
      exact ⟨deleted, by simp [listDelByPosition, found_eq, found, deleted_eq], deleted_ring⟩

/-- Position 0 unlinks the head itself and reports `TRUE`. -/
theorem not_deletesNode_zero (ring : links.Ring head nodes) :
    ¬ DeletesNode links head nodes 0 := by
  intro deletes
  have failed : listDelByPosition (nodes.length + 1) head 0 links = some (false, links) :=
    deletes (nodes.length + 1) (Nat.lt_succ_self _)
  obtain ⟨left, -, prev⟩ := ring.exists_prev List.mem_cons_self
  obtain ⟨right, -, next⟩ := ring.exists_next List.mem_cons_self
  simp [listDelByPosition, listGet, listDel, internalListDel, prev, next] at failed

/-- On every ring and for every position the lookup and the insertion are right, and the
deletion is right just where the position is not 0. -/
theorem listPositions_iff (ring : links.Ring head nodes) (position : Int) :
    GetsNode links head nodes position ∧ InsertsBehind links head nodes position ∧
      (DeletesNode links head nodes position ↔ position ≠ 0) :=
  ⟨getsNode ring position, insertsBehind ring position,
    fun deletes zero => not_deletesNode_zero ring (zero ▸ deletes), deletesNode ring⟩

/-- The head 1 with the nodes 2 and 3. -/
def twoNodeList : Links Nat where
  next node := some (if node = 3 then 1 else node + 1)
  prev node := some (if node = 1 then 3 else node - 1)

theorem twoNodeList_ring : twoNodeList.Ring 1 [2, 3] := by
  constructor <;> simp [twoNodeList, Links.Joined]

theorem listPositions_iff_twoNodeList :
    GetsNode twoNodeList 1 [2, 3] (-1) ∧ InsertsBehind twoNodeList 1 [2, 3] (-1) ∧
      (DeletesNode twoNodeList 1 [2, 3] (-1) ↔ (-1 : Int) ≠ 0) :=
  listPositions_iff twoNodeList_ring (-1)

/-- Position 0 is to fail, and the head is deleted. -/
theorem listDelByPosition_head :
    twoNodeList.Ring 1 [2, 3] ∧ ¬ DeletesNode twoNodeList 1 [2, 3] 0 ∧
      (listDelByPosition 3 1 0 twoNodeList).map (fun result =>
        (result.1, result.2.next 1, result.2.prev 2)) = some (true, none, some 3) :=
  ⟨twoNodeList_ring, not_deletesNode_zero twoNodeList_ring, by decide⟩

end LedFirmware
