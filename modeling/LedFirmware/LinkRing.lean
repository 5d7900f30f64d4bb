import Mathlib.Data.List.Chain
import Mathlib.Data.List.Nodup
import Mathlib.Logic.Function.Basic

/-!
# Rings of two-way links

Every node has a link forwards and one backwards.  A ring is a head with the list of the other
nodes: from the head through the nodes and back to the head, neighbours are linked both
ways.  Linking a node in and out changes the links next to it alone.
-/

/-- The links of all nodes; `none` is the null link. -/
@[ext]
structure Links (Node : Type) where
  next : Node → Option Node
  prev : Node → Option Node

namespace Links

variable {Node : Type} {links linked : Links Node} {head left node right : Node}
variable {before after nodes : List Node}

/-- Two nodes are linked both ways. -/
def Joined (links : Links Node) (left right : Node) : Prop :=
  links.next left = some right ∧ links.prev right = some left

/-- Outside some nodes that are left and some that are reached the links are the same. -/
def KeptOutside (links linked : Links Node) (lefts rights : List Node) : Prop :=
  (∀ node, node ∉ lefts → linked.next node = links.next node) ∧
    ∀ node, node ∉ rights → linked.prev node = links.prev node

section Stores

variable [DecidableEq Node]

/-- The forward link of a node set. -/
def setNext (links : Links Node) (node : Node) (link : Option Node) : Links Node :=
  { links with next := Function.update links.next node link }

/-- The backward link of a node set. -/
def setPrev (links : Links Node) (node : Node) (link : Option Node) : Links Node :=
  { links with prev := Function.update links.prev node link }

@[simp]
theorem setNext_next (links : Links Node) (node other : Node) (link : Option Node) :
    (links.setNext node link).next other = if other = node then link else links.next other :=
  Function.update_apply ..

@[simp]
theorem setNext_prev (links : Links Node) (node other : Node) (link : Option Node) :
    (links.setNext node link).prev other = links.prev other :=
  rfl

@[simp]
theorem setPrev_prev (links : Links Node) (node other : Node) (link : Option Node) :
    (links.setPrev node link).prev other = if other = node then link else links.prev other :=
  Function.update_apply ..

@[simp]
theorem setPrev_next (links : Links Node) (node other : Node) (link : Option Node) :
    (links.setPrev node link).next other = links.next other :=
  rfl

end Stores

/-- A chain that leaves none of the changed nodes and reaches none of them is kept. -/
theorem isChain_of_keptOutside {lefts rights list : List Node}
    (kept : KeptOutside links linked lefts rights)
    (chain : List.IsChain links.Joined list)
    (notLeft : ∀ node ∈ list.dropLast, node ∉ lefts)
    (notReached : ∀ node ∈ list.tail, node ∉ rights) :
    List.IsChain linked.Joined list := by
  induction chain with
  | nil => exact List.IsChain.nil
  | singleton node => exact List.IsChain.singleton node
  | @cons_cons left right rest here rest_chain ih =>
      refine List.IsChain.cons_cons ⟨?_, ?_⟩ (ih ?_ ?_)
      · rw [kept.1 left (notLeft left (by simp))]
        exact here.1
      · rw [kept.2 right (notReached right (by simp))]
        exact here.2
      · intro node member
        exact notLeft node (by simp [member])
      · intro node member
        exact notReached node (by simp_all)

/-- A way along joined nodes that leaves every node once and reaches every node once. -/
structure Way (links : Links Node) (way : List Node) : Prop where
  joined : List.IsChain links.Joined way
  left_once : way.dropLast.Nodup
  reached_once : way.tail.Nodup

variable {middle changed : List Node}

theorem Way.left_split (way : Way links (before ++ left :: (middle ++ right :: after))) :
    (before ++ left :: (middle ++ (right :: after).dropLast)).Nodup := by
  simpa [List.dropLast_append_of_ne_nil, List.dropLast_cons_of_ne_nil] using way.left_once

theorem Way.reached_split (way : Way links (before ++ left :: (middle ++ right :: after))) :
    ((before ++ [left]).tail ++ (middle ++ right :: after)).Nodup := by
  cases before <;> simpa using way.reached_once

/-- Up to a node and from a later one a way is kept when only the first of them and changed
nodes off both parts are left, and only the second and changed nodes are reached. -/
theorem Way.isChain_sides (way : Way links (before ++ left :: (middle ++ right :: after)))
    (kept : KeptOutside links linked (left :: changed) (right :: changed))
    (off_before : ∀ other ∈ changed, other ∉ before ++ [left])
    (off_after : ∀ other ∈ changed, other ∉ right :: after) :
    List.IsChain linked.Joined (before ++ [left]) ∧
      List.IsChain linked.Joined (right :: after) := by
  have left_once := way.left_split
  have reached_once := way.reached_split
  have tail_mem : ∀ other ∈ (before ++ [left]).tail, other ∈ before ++ [left] :=
    fun _ => List.mem_of_mem_tail
  have dropLast_mem : ∀ other ∈ (right :: after).dropLast, other ∈ right :: after :=
    fun _ member => List.dropLast_subset _ member
  constructor
  · apply isChain_of_keptOutside kept
    · exact way.joined.infix ⟨[], middle ++ right :: after, by simp⟩
    · grind
    · grind
  · apply isChain_of_keptOutside kept
    · exact way.joined.infix ⟨before ++ left :: middle, [], by simp⟩
    · grind
    · grind

/-- A fresh node linked between two neighbours. -/
theorem Way.isChain_linkIn (way : Way links (before ++ left :: right :: after))
    (fresh : node ∉ before ++ left :: right :: after)
    (kept : KeptOutside links linked [left, node] [right, node])
    (entering : linked.Joined left node) (leaving : linked.Joined node right) :
    List.IsChain linked.Joined (before ++ left :: node :: right :: after) := by
  have sides := @way.isChain_sides _ _ _ _ _ _ _ [] [node] kept
    (by simp_all) (by simp_all)
  rw [List.isChain_append_cons_cons, List.isChain_cons_cons]
  exact ⟨sides.1, entering, leaving, sides.2⟩

/-- A node between two others linked out. -/
theorem Way.isChain_linkOut (way : Way links (before ++ left :: node :: right :: after))
    (kept : KeptOutside links linked [left, node] [right, node])
    (closing : linked.Joined left right) :
    List.IsChain linked.Joined (before ++ left :: right :: after) := by
  have left_once := @way.left_split _ _ _ _ _ _ [node]
  have reached_once := @way.reached_split _ _ _ _ _ _ [node]
  have sides := @way.isChain_sides _ _ _ _ _ _ _ [node] [node] kept (by grind) (by grind)
  rw [List.isChain_append_cons_cons]
  exact ⟨sides.1, closing, sides.2⟩

/-- A head and nodes without repetition whose links close to a ring. -/
structure Ring (links : Links Node) (head : Node) (nodes : List Node) : Prop where
  nodup : (head :: nodes).Nodup
  joined : List.IsChain links.Joined (head :: nodes ++ [head])

theorem Ring.head_not_mem (ring : links.Ring head nodes) : head ∉ nodes :=
  (List.nodup_cons.mp ring.nodup).1

theorem Ring.way (ring : links.Ring head nodes) : links.Way (head :: nodes ++ [head]) where
  joined := ring.joined
  left_once := by
    rw [List.dropLast_concat]
    exact ring.nodup
  reached_once := by
    have nodes_nodup := (List.nodup_cons.mp ring.nodup).2
    simpa [List.nodup_append, nodes_nodup] using
      fun node member => ne_of_mem_of_not_mem member ring.head_not_mem

/-- The ring seen from behind. -/
def swap (links : Links Node) : Links Node where
  next := links.prev
  prev := links.next

theorem Ring.swap (ring : links.Ring head nodes) : links.swap.Ring head nodes.reverse where
  nodup := by simpa using ring.nodup
  joined := by
    have backwards : List.IsChain (fun left right => links.swap.Joined right left)
        (head :: nodes ++ [head]) :=
      ring.joined.imp fun _ _ joined => joined.symm
    simpa using List.isChain_reverse.mpr backwards

/-- The next node, and the head behind the last one. -/
theorem Ring.next_eq (ring : links.Ring head nodes)
    (split : head :: nodes = before ++ node :: after) :
    links.next node = (after ++ [head]).head? := by
  have joined := ring.joined
  rw [split, List.append_assoc, List.cons_append] at joined
  cases after with
  | nil => exact (List.isChain_append_cons_cons.mp joined).2.1.1
  | cons right rest => exact (List.isChain_append_cons_cons.mp joined).2.1.1

theorem Ring.exists_next (ring : links.Ring head nodes) (member : node ∈ head :: nodes) :
    ∃ right ∈ head :: nodes, links.next node = some right := by
  obtain ⟨before, after, split⟩ := List.append_of_mem member
  rw [ring.next_eq split, split]
  cases after with
  | nil => exact ⟨head, by simp [← split], rfl⟩
  | cons right rest => exact ⟨right, by simp, rfl⟩

theorem Ring.exists_prev (ring : links.Ring head nodes) (member : node ∈ head :: nodes) :
    ∃ left ∈ head :: nodes, links.prev node = some left := by
  obtain ⟨left, left_mem, prev⟩ := ring.swap.exists_next
    (by simpa using member : node ∈ head :: nodes.reverse)
  exact ⟨left, by simpa using left_mem, prev⟩

/-- Only a head that stands alone is its own neighbour. -/
theorem Ring.next_ne (ring : links.Ring head nodes) (member : node ∈ nodes)
    (next : links.next node = some right) : right ≠ node := by
  have nodup := ring.nodup
  obtain ⟨before, after, split⟩ := List.append_of_mem member
  rw [ring.next_eq (by rw [split, List.cons_append])] at next
  cases after with
  | nil => grind
  | cons first rest => grind

theorem Ring.prev_ne (ring : links.Ring head nodes) (member : node ∈ nodes)
    (prev : links.prev node = some left) : left ≠ node :=
  ring.swap.next_ne (by simpa using member) prev

/-- A fresh node linked in behind a node of the ring. -/
theorem Ring.linkIn (ring : links.Ring head nodes)
    (split : head :: nodes = before ++ left :: after) (fresh : node ∉ head :: nodes)
    (next : links.next left = some right)
    (kept : KeptOutside links linked [left, node] [right, node])
    (entering : linked.Joined left node) (leaving : linked.Joined node right) :
    ∃ inserted, head :: inserted = before ++ left :: node :: after ∧
      linked.Ring head inserted := by
  obtain ⟨rest, round⟩ : ∃ rest, after ++ [head] = right :: rest := by
    have first := ring.next_eq split
    rw [next] at first
    exact ⟨_, (List.cons_head?_tail first.symm).symm⟩
  obtain ⟨inserted, inserted_eq⟩ :
      ∃ inserted, before ++ left :: node :: after = head :: inserted := by
    cases before <;> simp_all
  have way_eq : head :: nodes ++ [head] = before ++ left :: right :: rest := by
    rw [split, List.append_assoc, List.cons_append, round]
  have fresh_way : node ∉ before ++ left :: right :: rest := by
    rw [← way_eq]
    intro member
    rcases List.mem_append.mp member with member | member
    · exact fresh member
    · exact fresh (by simp [List.mem_singleton.mp member])
  refine ⟨inserted, inserted_eq.symm, ?_, ?_⟩
  · have nodup := ring.nodup
    rw [split] at nodup fresh
    rw [← inserted_eq]
    grind
  · rw [← inserted_eq, List.append_assoc, List.cons_append, List.cons_append, round]
    exact (way_eq ▸ ring.way).isChain_linkIn fresh_way kept entering leaving

/-- A node of the ring linked out. -/
theorem Ring.linkOut [DecidableEq Node] (ring : links.Ring head nodes) (member : node ∈ nodes)
    (next : links.next node = some right) (prev : links.prev node = some left)
    (kept : KeptOutside links linked [left, node] [right, node])
    (closing : linked.Joined left right) :
    linked.Ring head (nodes.erase node) := by
  obtain ⟨behind, after, -, split, erase_eq⟩ := List.exists_erase_eq member
  obtain ⟨before, last, last_eq⟩ : ∃ before last, head :: behind = before ++ [last] :=
    ⟨_, _, (List.dropLast_concat_getLast (List.cons_ne_nil head behind)).symm⟩
  obtain ⟨first, rest, first_eq⟩ : ∃ first rest, after ++ [head] = first :: rest :=
    List.exists_cons_of_ne_nil (by simp)
  have way_eq : head :: nodes ++ [head] = before ++ last :: node :: first :: rest := by
    rw [split, ← first_eq, ← List.cons_append, last_eq]
    simp
  have way := way_eq ▸ ring.way
  have joined := (List.isChain_append_cons_cons.mp way.joined).2
  have last_left : last = left := by
    have before_node := joined.1.2
    rw [prev] at before_node
    exact (Option.some.inj before_node).symm
  have first_right : first = right := by
    have behind_node := (List.isChain_cons_cons.mp joined.2).1.1
    rw [next] at behind_node
    exact (Option.some.inj behind_node).symm
  subst last_left first_right
  refine ⟨ring.nodup.sublist ((List.erase_sublist).cons_cons head), ?_⟩
  have erased_eq : head :: nodes.erase node ++ [head] = before ++ last :: first :: rest := by
    rw [erase_eq, ← List.cons_append, last_eq, List.append_assoc, first_eq]
    simp
  rw [erased_eq]
  exact way.isChain_linkOut kept closing

end Links
