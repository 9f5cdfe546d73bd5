/-
Module: OsSim.LinkedList
Purpose: The doubly linked list of `DS/linked_list.c`, and what adding and
  removing a node does to the list that its pointers represent.
Trusted boundary: human-reviewed translation
Main exports:
  Node, LinkedList, createNode, createLinkedList, addNodeToBack,
  addNodeToFront, removeNodeFromFront, removeNodeFromBack, removeNode, ListAt,
  Unlinked, addNodeToBack_of_unlinked, addNodeToFront_of_unlinked,
  addNodeToBack_spec, removeNode_frame, removeNode_spec
-/
import OsSim.Library.DoublyLinked

namespace OsSim

open PointerMemory
open DoublyLinked

variable {α : Type}

/-- `Node` -/
structure Node (α : Type) where
  next : Option Addr
  prev : Option Addr
  data : α
deriving Repr, DecidableEq

/-- `LinkedList` -/
structure LinkedList where
  head : Option Addr
  tail : Option Addr
  size : Int
deriving Repr, DecidableEq

/-- The links of a node. -/
def nodeLinks (α : Type) : Links (Node α) α :=
  { next := Node.next, prev := Node.prev, data := Node.data }

/-- `create_node` -/
def createNode (heap : Mem (Node α)) (obj : α) : Mem (Node α) × Addr :=
  heap.malloc { next := none, prev := none, data := obj }

/-- `create_linked_list` -/
def createLinkedList : LinkedList := { head := none, tail := none, size := 0 }

/-- `add_node_to_back`.  The line it prints first reads the node. -/
def addNodeToBack (heap : Mem (Node α)) (list : LinkedList) (node : Addr) :
    Except Fault (Mem (Node α) × LinkedList) := do
  let _ ← deref heap node
  let list := { list with size := list.size + 1 }
  if list.head = none then
    pure (heap, { list with head := some node, tail := some node })
  else do
    let heap ← updatePtr heap list.tail fun t => { t with next := some node }
    let heap ← update heap node fun n => { n with prev := list.tail }
    pure (heap, { list with tail := some node })

/-- `add_node_to_front` -/
def addNodeToFront (heap : Mem (Node α)) (list : LinkedList) (node : Addr) :
    Except Fault (Mem (Node α) × LinkedList) :=
  let list := { list with size := list.size + 1 }
  if list.head = none then
    .ok (heap, { list with head := some node, tail := some node })
  else do
    let heap ← updatePtr heap list.head fun h => { h with prev := some node }
    let heap ← update heap node fun n => { n with next := list.head }
    pure (heap, { list with head := some node })

/-- `remove_node_from_front` -/
def removeNodeFromFront (heap : Mem (Node α)) (list : LinkedList) :
    Except Fault (Mem (Node α) × LinkedList) :=
  let list := { list with size := list.size - 1 }
  match list.head with
  | none => .ok (heap, list)
  | some head =>
      if some head = list.tail then
        .ok (heap, { list with head := none, tail := none })
      else do
        let node ← deref heap head
        let heap ← updatePtr heap node.next fun n => { n with prev := none }
        pure (heap, { list with head := node.next })

/-- `remove_node_from_back` -/
def removeNodeFromBack (heap : Mem (Node α)) (list : LinkedList) :
    Except Fault (Mem (Node α) × LinkedList) :=
  let list := { list with size := list.size - 1 }
  match list.head with
  | none => .ok (heap, list)
  | some head =>
      if some head = list.tail then
        .ok (heap, { list with head := none, tail := none })
      else do
        let node ← derefPtr heap list.tail
        let heap ← updatePtr heap node.prev fun n => { n with next := none }
        pure (heap, { list with tail := node.prev })

/-- `remove_node` -/
def removeNode (heap : Mem (Node α)) (list : LinkedList) (nodePtr : Addr) :
    Except Fault (Mem (Node α) × LinkedList) := do
  let (heap, list) ←
    if some nodePtr = list.head then
      removeNodeFromFront heap list
    else if some nodePtr = list.tail then
      removeNodeFromBack heap list
    else do
      let node ← deref heap nodePtr
      let heap ← updatePtr heap node.prev fun p => { p with next := node.next }
      let node ← deref heap nodePtr
      let heap ← updatePtr heap node.next fun n => { n with prev := node.prev }
      pure (heap, { list with size := list.size - 1 })
  let heap ← release heap nodePtr
  pure (heap, list)

/-! ### The list behind the pointers -/

/-- The heap and the head, tail and size of `list` represent these nodes. -/
structure ListAt (heap : Mem (Node α)) (list : LinkedList)
    (nodes : List (Addr × α)) : Prop where
  linked : Linked (nodeLinks α) heap nodes
  head : list.head = firstAddr none nodes
  tail : list.tail = lastAddr none nodes
  size : list.size = nodes.length

theorem createLinkedList_listAt (heap : Mem (Node α)) :
    ListAt heap createLinkedList [] :=
  ⟨⟨trivial, List.nodup_nil⟩, rfl, rfl, rfl⟩

/-- A node as `create_node` leaves it, holding `obj`. -/
def Unlinked (heap : Mem (Node α)) (node : Addr) (obj : α) : Prop :=
  heap.load node = some { next := none, prev := none, data := obj }

/-- Adding an unlinked node at the back appends its object to the list and
changes no cell outside the list. -/
theorem addNodeToBack_of_unlinked {heap : Mem (Node α)} {list : LinkedList}
    {nodes : List (Addr × α)} (listAt : ListAt heap list nodes) {node : Addr}
    {obj : α} (unlinked : Unlinked heap node obj) (outside : node ∉ addrs nodes) :
    ∃ heap' list', addNodeToBack heap list node = .ok (heap', list') ∧
      ListAt heap' list' (nodes ++ [(node, obj)]) ∧
      ∀ address ∉ addrs (nodes ++ [(node, obj)]),
        heap'.load address = heap.load address := by
  have nodup : (addrs (nodes ++ [(node, obj)])).Nodup := by
    rw [addrs, List.map_append]
    apply (List.perm_append_singleton node _).nodup_iff.mpr
    exact List.nodup_cons.mpr ⟨outside, listAt.linked.nodup⟩
  rw [addNodeToBack, deref_of_load unlinked, ok_bind]
  dsimp only
  rcases List.eq_nil_or_concat nodes with empty | ⟨front, last, split⟩
  · subst empty
    have head : list.head = none := listAt.head
    rw [if_pos head]
    refine ⟨_, _, rfl, ⟨⟨⟨⟨_, unlinked, rfl, rfl, rfl⟩, trivial⟩, nodup⟩, rfl,
      rfl, ?_⟩, fun _ _ => rfl⟩
    have none : list.size = 0 := listAt.size
    simp [none]
  · rw [List.concat_eq_append] at split
    have tail : list.tail = some last.1 := by
      rw [listAt.tail, split, lastAddr_append_singleton]
    have nonempty : list.head ≠ none := by
      rw [listAt.head, split]
      cases front <;> simp
    rw [if_neg nonempty]
    obtain ⟨heap', first, seg', kept, _⟩ :=
      listAt.linked.seg.relinkNext listAt.linked.nodup
        (f := fun t => { t with next := some node })
        (fun _ => rfl) (fun _ => rfl) (fun _ => rfl)
    rw [← listAt.tail, tail] at first
    have live : heap'.load node = some _ := (kept _ outside).trans unlinked
    simp only [tail, updatePtr_some, first, ok_bind, update_of_load live,
      pure_eq_ok]
    refine ⟨_, _, rfl, ⟨⟨seg_append.mpr ⟨seg'.put_of_not_mem outside _,
      ⟨_, Mem.load_put_self live _, rfl, ?_, rfl⟩, trivial⟩, nodup⟩, ?_, ?_,
      ?_⟩, ?_⟩
    · rw [split, lastAddr_append_singleton]
      rfl
    · rw [listAt.head, split]
      cases front <;> rfl
    · rw [lastAddr_append_singleton]
    · rw [listAt.size]
      simp
    · intro address others
      rw [addrs, List.map_append, List.mem_append, not_or] at others
      rw [Mem.load_put_of_ne _ (by simpa using others.2), kept _ others.1]

/-- Adding an unlinked node at the front puts its object before the list and
changes no cell outside the list. -/
theorem addNodeToFront_of_unlinked {heap : Mem (Node α)} {list : LinkedList}
    {nodes : List (Addr × α)} (listAt : ListAt heap list nodes) {node : Addr}
    {obj : α} (unlinked : Unlinked heap node obj) (outside : node ∉ addrs nodes) :
    ∃ heap' list', addNodeToFront heap list node = .ok (heap', list') ∧
      ListAt heap' list' ((node, obj) :: nodes) ∧
      ∀ address ∉ addrs ((node, obj) :: nodes),
        heap'.load address = heap.load address := by
  have nodup : (addrs ((node, obj) :: nodes)).Nodup :=
    List.nodup_cons.mpr ⟨outside, listAt.linked.nodup⟩
  rw [addNodeToFront]
  dsimp only
  cases nodes with
  | nil =>
      have head : list.head = none := listAt.head
      rw [if_pos head]
      refine ⟨_, _, rfl, ⟨⟨⟨⟨_, unlinked, rfl, rfl, rfl⟩, trivial⟩, nodup⟩, rfl,
        rfl, ?_⟩, fun _ _ => rfl⟩
      have none : list.size = 0 := listAt.size
      simp [none]
  | cons first rest =>
      have head : list.head = some first.1 := listAt.head
      have nonempty : list.head ≠ none := by
        rw [head]
        exact Option.some_ne_none first.1
      rw [if_neg nonempty]
      obtain ⟨heap', relinked, seg', kept, _⟩ :=
        listAt.linked.seg.relink listAt.linked.nodup
          (f := fun h => { h with prev := some node })
          (fun _ => rfl) (fun _ => rfl) (fun _ => rfl)
      rw [firstAddr_cons] at relinked
      have live : heap'.load node = some _ := (kept _ outside).trans unlinked
      simp only [head, updatePtr_some, relinked, ok_bind, update_of_load live,
        pure_eq_ok]
      refine ⟨_, _, rfl, ⟨⟨⟨⟨_, Mem.load_put_self live _, rfl, rfl, rfl⟩,
        seg'.put_of_not_mem outside _⟩, nodup⟩, rfl, listAt.tail, ?_⟩, ?_⟩
      · show list.size + 1 = _
        rw [listAt.size]
        rfl
      · intro address others
        rw [addrs, List.map_cons, List.mem_cons, not_or] at others
        rw [Mem.load_put_of_ne _ others.1, kept _ others.2]

/-- A new node is unlinked and outside every list of the heap. -/
theorem createNode_unlinked {heap : Mem (Node α)} {list : LinkedList}
    {nodes : List (Addr × α)} (listAt : ListAt heap list nodes) (obj : α) :
    Unlinked (createNode heap obj).1 (createNode heap obj).2 obj ∧
      (createNode heap obj).2 ∉ addrs nodes ∧
      ListAt (createNode heap obj).1 list nodes := by
  refine ⟨Mem.load_malloc_self heap _, ?_,
    ⟨listAt.linked.seg.malloc _, listAt.linked.nodup⟩, listAt.head, listAt.tail,
    listAt.size⟩
  intro member
  obtain ⟨node, inside, same⟩ := List.mem_map.mp member
  obtain ⟨old, loaded, _⟩ := listAt.linked.seg.load inside
  exact Mem.ne_malloc_of_live loaded _ same

/-- Adding a new node appends its object to the list. -/
theorem addNodeToBack_spec {heap : Mem (Node α)} {list : LinkedList}
    {nodes : List (Addr × α)} (listAt : ListAt heap list nodes) (obj : α) :
    ∃ heap' list',
      addNodeToBack (createNode heap obj).1 list (createNode heap obj).2 =
        .ok (heap', list') ∧
      ListAt heap' list' (nodes ++ [((createNode heap obj).2, obj)]) := by
  obtain ⟨unlinked, outside, kept⟩ := createNode_unlinked listAt obj
  obtain ⟨heap', list', added, listAt', _⟩ :=
    addNodeToBack_of_unlinked kept unlinked outside
  exact ⟨heap', list', added, listAt'⟩

namespace ListAt

variable {heap : Mem (Node α)} {list : LinkedList}

/-- Releasing a node that is not in the list leaves the list alone. -/
theorem drop {nodes : List (Addr × α)} (listAt : ListAt heap list nodes)
    {address : Addr} (outside : address ∉ addrs nodes) :
    ListAt (heap.drop address) list nodes :=
  ⟨⟨listAt.linked.seg.drop_of_not_mem outside, listAt.linked.nodup⟩,
    listAt.head, listAt.tail, listAt.size⟩

/-- Releasing a node that was taken out of a list leaves the list, and changes
no cell but the released one. -/
theorem released {last : Mem (Node α)} {nodes : List (Addr × α)}
    (listAt : ListAt last list nodes)
    (kept : ∀ address ∉ addrs nodes, last.load address = heap.load address)
    {node : Addr} {cell : Node α} (live : heap.load node = some cell)
    (outside : node ∉ addrs nodes) :
    release last node = .ok (last.drop node) ∧
      ListAt (last.drop node) list nodes ∧
      ∀ address ∉ addrs nodes, address ≠ node →
        (last.drop node).load address = heap.load address := by
  refine ⟨release_of_load ((kept _ outside).trans live), listAt.drop outside, ?_⟩
  intro address others apart
  rw [Mem.load_drop_of_ne _ apart, kept _ others]

/-- The head of a list of several nodes is not its tail. -/
theorem head_ne_tail {first : Addr × α} {rest : List (Addr × α)}
    (listAt : ListAt heap list (first :: rest)) (more : rest ≠ []) :
    some first.1 ≠ list.tail := by
  obtain ⟨address, inside, last⟩ := lastAddr_mem (some first.1) more
  rw [listAt.tail, lastAddr_cons, last]
  intro same
  rw [Option.some.injEq] at same
  exact (List.nodup_cons.mp listAt.linked.nodup).1 (same ▸ inside)

end ListAt

/-- A removal from an end of an empty list counts it down and does nothing
else. -/
theorem removeNodeFromFront_of_empty (heap : Mem (Node α)) {list : LinkedList}
    (empty : list.head = none) :
    removeNodeFromFront heap list =
      .ok (heap, { list with size := list.size - 1 }) := by
  rw [removeNodeFromFront]
  simp only [empty]

theorem removeNodeFromBack_of_empty (heap : Mem (Node α)) {list : LinkedList}
    (empty : list.head = none) :
    removeNodeFromBack heap list =
      .ok (heap, { list with size := list.size - 1 }) := by
  rw [removeNodeFromBack]
  simp only [empty]

/-- Removing from the front takes the first node out and changes no cell outside
the rest of the list. -/
theorem removeNodeFromFront_spec {heap : Mem (Node α)} {list : LinkedList}
    {node : Addr × α} {right : List (Addr × α)}
    (listAt : ListAt heap list (node :: right)) :
    ∃ heap' list', removeNodeFromFront heap list = .ok (heap', list') ∧
      ListAt heap' list' right ∧
      ∀ address ∉ addrs right, heap'.load address = heap.load address := by
  have head : list.head = some node.1 := listAt.head
  have size : list.size - 1 = right.length := by
    rw [listAt.size, List.length_cons]
    omega
  rw [removeNodeFromFront]
  simp only [head]
  cases right with
  | nil =>
      have tail : list.tail = some node.1 := listAt.tail
      rw [if_pos tail.symm]
      exact ⟨_, _, rfl, ⟨⟨trivial, List.nodup_nil⟩, rfl, rfl, size⟩,
        fun _ _ => rfl⟩
  | cons after rest =>
      obtain ⟨⟨cell, live, _, _, next⟩, _⟩ := listAt.linked.seg
      have following : cell.next = some after.1 := next
      have linked : Linked (nodeLinks α) heap ([] ++ node :: after :: rest) :=
        listAt.linked
      obtain ⟨middle, last, first, second, linked, _, kept⟩ :=
        linked.unlink
          (f := fun p => { p with next := some after.1 })
          (g := fun n => { n with prev := none })
          (fun _ => rfl) (fun _ => rfl) (fun _ => rfl)
          (fun _ => rfl) (fun _ => rfl) (fun _ => rfl)
      rw [lastAddr_nil, updateIfPtr, Except.ok.injEq] at first
      subst first
      rw [firstAddr_cons] at second
      rw [if_neg (listAt.head_ne_tail (List.cons_ne_nil after rest)),
        deref_of_load live, ok_bind, following, updatePtr_some, second, ok_bind]
      exact ⟨_, _, rfl, ⟨linked, rfl, listAt.tail, size⟩, kept⟩

/-- Removing from the back takes the last node out and changes no cell outside
the rest of the list. -/
theorem removeNodeFromBack_spec {heap : Mem (Node α)} {list : LinkedList}
    {node : Addr × α} {left : List (Addr × α)}
    (listAt : ListAt heap list (left ++ [node])) :
    ∃ heap' list', removeNodeFromBack heap list = .ok (heap', list') ∧
      ListAt heap' list' left ∧
      ∀ address ∉ addrs left, heap'.load address = heap.load address := by
  have tail : list.tail = some node.1 := by
    rw [listAt.tail, lastAddr_append_singleton]
  have size : list.size - 1 = left.length := by
    rw [listAt.size, List.length_append]
    simp
  rw [removeNodeFromBack]
  cases left with
  | nil =>
      have head : list.head = some node.1 := listAt.head
      simp only [head]
      rw [if_pos tail.symm]
      exact ⟨_, _, rfl, ⟨⟨trivial, List.nodup_nil⟩, rfl, rfl, size⟩,
        fun _ _ => rfl⟩
  | cons before others =>
      have head : list.head = some before.1 := listAt.head
      have apart : some before.1 ≠ list.tail :=
        ListAt.head_ne_tail listAt (by simp)
      obtain ⟨_, ⟨cell, live, _, prev, _⟩, _⟩ :=
        seg_append.mp listAt.linked.seg
      obtain ⟨middle, last, first, second, linked, _, kept⟩ :=
        Linked.unlink listAt.linked
          (f := fun p => { p with next := none })
          (g := fun n => { n with prev := lastAddr none (before :: others) })
          (fun _ => rfl) (fun _ => rfl) (fun _ => rfl)
          (fun _ => rfl) (fun _ => rfl) (fun _ => rfl)
      rw [firstAddr_nil, updateIfPtr, Except.ok.injEq] at second
      subst second
      have preceding : cell.prev = lastAddr none (before :: others) := prev
      obtain ⟨address, _, found⟩ :=
        lastAddr_mem none (List.cons_ne_nil before others)
      rw [found] at first preceding
      simp only [head]
      rw [if_neg apart, tail, derefPtr, deref_of_load live, ok_bind, preceding,
        updatePtr_some, first, ok_bind]
      rw [List.append_nil] at linked kept
      exact ⟨_, _, rfl, ⟨linked, rfl, found.symm, size⟩, kept⟩

/-- Removing a node takes exactly that node out of the list, and changes no cell
outside the rest of the list but the released one. -/
theorem removeNode_frame {heap : Mem (Node α)} {list : LinkedList}
    {left right : List (Addr × α)} {node : Addr × α}
    (listAt : ListAt heap list (left ++ node :: right)) :
    ∃ heap' list', removeNode heap list node.1 = .ok (heap', list') ∧
      ListAt heap' list' (left ++ right) ∧
      ∀ address ∉ addrs (left ++ right), address ≠ node.1 →
        heap'.load address = heap.load address := by
  obtain ⟨notLeft, notRight, _⟩ := listAt.linked.nodup_middle
  obtain ⟨_, ⟨cell, live, _, previous, following⟩, _⟩ :=
    seg_append.mp listAt.linked.seg
  have outside : node.1 ∉ addrs (left ++ right) := by
    rw [addrs, List.map_append, List.mem_append, not_or]
    exact ⟨notLeft, notRight⟩
  cases left with
  | nil =>
      obtain ⟨heap', list', removed, listAt', kept⟩ :=
        removeNodeFromFront_spec listAt
      have head : list.head = some node.1 := listAt.head
      obtain ⟨release, remaining⟩ := listAt'.released kept live outside
      rw [removeNode, if_pos head.symm, removed, ok_bind]
      dsimp only
      rw [release, ok_bind]
      exact ⟨_, _, rfl, remaining⟩
  | cons before others =>
      have notHead : some node.1 ≠ list.head := by
        rw [listAt.head]
        intro same
        rw [List.cons_append, firstAddr_cons, Option.some.injEq] at same
        exact notLeft (by simp [same])
      cases right with
      | nil =>
          have tail : list.tail = some node.1 := by
            rw [listAt.tail, lastAddr_append_singleton]
          obtain ⟨heap', list', removed, listAt', kept⟩ :=
            removeNodeFromBack_spec listAt
          rw [← List.append_nil (before :: others)] at listAt' kept
          obtain ⟨release, remaining⟩ := listAt'.released kept live outside
          rw [removeNode, if_neg notHead, if_pos tail.symm, removed, ok_bind]
          dsimp only
          rw [release, ok_bind]
          exact ⟨_, _, rfl, remaining⟩
      | cons after rest =>
          have tail : list.tail = lastAddr none (after :: rest) := by
            rw [listAt.tail, lastAddr_append]
            rfl
          have notTail : some node.1 ≠ list.tail := by
            obtain ⟨address, inside, found⟩ :=
              lastAddr_mem none (List.cons_ne_nil after rest)
            rw [tail, found]
            intro same
            rw [Option.some.injEq] at same
            exact notRight (same ▸ inside)
          have prev : cell.prev = lastAddr none (before :: others) := previous
          have next : cell.next = some after.1 := following
          obtain ⟨middle, last, first, second, linked, keptMiddle, keptLast⟩ :=
            listAt.linked.unlink
              (f := fun p => { p with next := some after.1 })
              (g := fun n => { n with prev := lastAddr none (before :: others) })
              (fun _ => rfl) (fun _ => rfl) (fun _ => rfl)
              (fun _ => rfl) (fun _ => rfl) (fun _ => rfl)
          obtain ⟨address, _, found⟩ :=
            lastAddr_mem none (List.cons_ne_nil before others)
          rw [found] at first second prev
          rw [firstAddr_cons] at second
          rw [removeNode, if_neg notHead, if_neg notTail, deref_of_load live,
            ok_bind, prev, next, updatePtr_some, first, ok_bind,
            deref_of_load ((keptMiddle _ notLeft).trans live), ok_bind, prev,
            next, updatePtr_some, second, ok_bind, pure_eq_ok, ok_bind]
          have remaining : ListAt last { list with size := list.size - 1 }
              (before :: others ++ after :: rest) := by
            refine ⟨linked, listAt.head, ?_, ?_⟩
            · rw [lastAddr_append]
              exact tail
            · rw [listAt.size]
              simp
              omega
          obtain ⟨release, remaining⟩ := remaining.released keptLast live outside
          dsimp only
          rw [release, ok_bind]
          exact ⟨_, _, rfl, remaining⟩

/-- Removing a node takes exactly that node out of the list. -/
theorem removeNode_spec {heap : Mem (Node α)} {list : LinkedList}
    {left right : List (Addr × α)} {node : Addr × α}
    (listAt : ListAt heap list (left ++ node :: right)) :
    ∃ heap' list', removeNode heap list node.1 = .ok (heap', list') ∧
      ListAt heap' list' (left ++ right) := by
  obtain ⟨heap', list', removed, listAt', _⟩ := removeNode_frame listAt
  exact ⟨heap', list', removed, listAt'⟩

end OsSim
