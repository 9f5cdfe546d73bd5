/-
Module: OsSim.PriorityQueue
Purpose: The priority queue of `DS/priority_queue.c`, a binary heap of nodes
  whose stored priority is the negated one, and what its operations come to as
  long as no index and no capacity leaves the range of `int`: the contents, the
  front and the order of the heap.
Trusted boundary: human-reviewed translation
Main exports:
  PQueueNode, PriorityQueue, priorityQueue, comparePriority, pqFront,
  PriorityQueue.insert, PriorityQueue.removeFirst, PriorityQueue.rekey,
  PriorityQueue.insert_perm, PriorityQueue.insert_front,
  PriorityQueue.removeFirst_spec, PriorityQueue.rekey_perm,
  PriorityQueue.rekey_front, Comparable, HeapOrdered,
  PriorityQueue.insert_ordered_by, PriorityQueue.removeFirst_ordered_by,
  PriorityQueue.rekey_ordered, HeapOrdered.le_front
-/
import OsSim.Library.BinaryHeap
import OsSim.MachineInt

namespace OsSim

open BinaryHeap

variable {α : Type}

/-- `PQueueNode` -/
structure PQueueNode (α : Type) where
  item : α
  priority : Int
deriving Repr, DecidableEq

/-- `PriorityQueue`.  `nodes` holds the slots in use, so its length is the
`size`; the slots up to `capacity` that follow hold nothing. -/
structure PriorityQueue (α : Type) where
  capacity : Int
  nodes : List (PQueueNode α)
deriving Repr, DecidableEq

/-- `priority_queue` -/
def priorityQueue (α : Type) : PriorityQueue α :=
  { capacity := 100, nodes := [] }

/-- `compare_priority` -/
def comparePriority (a b : PQueueNode α) : Int := wrap (a.priority - b.priority)

/-- The test by which both loops of the heap exchange two nodes. -/
def outranks (a b : PQueueNode α) : Bool := comparePriority a b > 0

/-- `pq_is_empty` -/
def pqIsEmpty (pq : PriorityQueue α) : Bool := pq.nodes.length = 0

/-- `pq_size` -/
def pqSize (pq : PriorityQueue α) : Int := pq.nodes.length

/-- `pq_front` -/
def pqFront (pq : PriorityQueue α) : Option α :=
  match pq.nodes with
  | [] => none
  | first :: _ => some first.item

/-! ### The queue as a heap

`pq_enqueue`, `pq_dequeue` and `pq_change_priority` move one node up or down the
heap.  Here the heap has exact indices and a capacity without bounds, so that the
operations never fail; they are what the rest of the program is modelled with.
`PriorityQueueInt` has the functions with the `int` variables that they compute in,
and shows that they agree with these operations below 2^30 nodes. -/

/-- A new node at the end moves up. -/
def PriorityQueue.insert (pq : PriorityQueue α) (item : α) (priority : Int) :
    PriorityQueue α :=
  let newNode := { item := item, priority := wrap (-priority) }
  let capacity :=
    if pqSize pq = pq.capacity then pq.capacity * 2 else pq.capacity
  { capacity := capacity
    nodes := siftUp outranks (pq.nodes ++ [newNode]) pq.nodes.length }

/-- The last node takes the place of the first one and moves down. -/
def PriorityQueue.removeFirst (pq : PriorityQueue α) : PriorityQueue α × Option α :=
  match pq.nodes with
  | [] => (pq, none)
  | first :: _ =>
      let nodes := replaceRoot pq.nodes
      let nodes :=
        if nodes.isEmpty then nodes else siftDown outranks nodes nodes.length 0
      ({ pq with nodes := nodes }, some first.item)

/-- A node with a new priority moves up or down. -/
def PriorityQueue.rekey (pq : PriorityQueue α) (index newPriority : Int) :
    PriorityQueue α :=
  if index < 0 ∨ index ≥ pqSize pq then pq
  else
    match pq.nodes[index.toNat]? with
    | none => pq
    | some node =>
        let nodes := pq.nodes.set index.toNat
          { node with priority := wrap (-newPriority) }
        if wrap (-newPriority) > node.priority then
          { pq with nodes := siftUp outranks nodes index.toNat }
        else if wrap (-newPriority) < node.priority then
          { pq with nodes := siftDown outranks nodes nodes.length index.toNat }
        else
          { pq with nodes := nodes }

/-! ### Contents and front -/

theorem pqFront_eq (pq : PriorityQueue α) :
    pqFront pq = (pq.nodes.map PQueueNode.item).head? := by
  rw [pqFront]
  cases pq.nodes <;> rfl

theorem PriorityQueue.insert_perm (pq : PriorityQueue α) (item : α) (priority : Int) :
    (pq.insert item priority).nodes.Perm
      ({ item := item, priority := wrap (-priority) } :: pq.nodes) :=
  (siftUp_perm ..).trans (List.perm_append_singleton _ _)

/-- After an insertion the front is the old one, or it is the new item and
outranks the old front. -/
theorem PriorityQueue.insert_front {pq : PriorityQueue α} {first : PQueueNode α}
    {rest : List (PQueueNode α)} (nodes : pq.nodes = first :: rest) (item : α)
    (priority : Int) :
    ∃ rest', (pq.insert item priority).nodes = first :: rest' ∨
      ((pq.insert item priority).nodes =
          { item := item, priority := wrap (-priority) } :: rest' ∧
        outranks { item := item, priority := wrap (-priority) } first = true) := by
  have moved : (pq.nodes ++ [{ item := item, priority := wrap (-priority) }])[
      pq.nodes.length]? = some { item := item, priority := wrap (-priority) } := by
    simp
  have top : (pq.nodes ++ [{ item := item, priority := wrap (-priority) }])[
      0]? = some first := by
    simp [nodes]
  have root := siftUp_root outranks moved top
  rw [PriorityQueue.insert]
  dsimp only
  cases split : siftUp outranks
      (pq.nodes ++ [{ item := item, priority := wrap (-priority) }])
      pq.nodes.length with
  | nil => simp [split] at root
  | cons newFirst rest' =>
      rw [split] at root
      simp only [List.getElem?_cons_zero, Option.some.injEq] at root
      refine ⟨rest', ?_⟩
      rcases root with same | ⟨same, higher⟩
      · exact Or.inl (by rw [same])
      · exact Or.inr ⟨by rw [same], higher⟩

/-- Removal returns the item of the first node and leaves the other nodes. -/
theorem PriorityQueue.removeFirst_spec {pq : PriorityQueue α} {first : PQueueNode α}
    {rest : List (PQueueNode α)} (nodes : pq.nodes = first :: rest) :
    pq.removeFirst.2 = some first.item ∧ pq.removeFirst.1.nodes.Perm rest := by
  have others := replaceRoot_perm first rest
  rw [PriorityQueue.removeFirst, nodes]
  dsimp only
  refine ⟨rfl, ?_⟩
  split
  next => exact others
  next => exact (siftDown_perm ..).trans others

/-- Re-keying the first node leaves the other nodes as they are. -/
theorem PriorityQueue.rekey_perm {pq : PriorityQueue α} {first : PQueueNode α}
    {rest : List (PQueueNode α)} (nodes : pq.nodes = first :: rest)
    (newPriority : Int) :
    (pq.rekey 0 newPriority).nodes.Perm
      ({ first with priority := wrap (-newPriority) } :: rest) := by
  have inside : ¬ ((0 : Int) < 0 ∨ (0 : Int) ≥ pqSize pq) := by
    rw [pqSize, nodes, List.length_cons]
    omega
  rw [PriorityQueue.rekey, if_neg inside, nodes]
  simp only [Int.toNat_zero, List.getElem?_cons_zero, List.set_cons_zero]
  split
  next => exact siftUp_perm ..
  next =>
    split
    next => exact siftDown_perm ..
    next => exact List.Perm.refl _

/-- Giving the first node a stored priority that is no lower leaves it first. -/
theorem PriorityQueue.rekey_front {pq : PriorityQueue α} {first : PQueueNode α}
    {rest : List (PQueueNode α)} (nodes : pq.nodes = first :: rest)
    {newPriority : Int} (higher : first.priority ≤ wrap (-newPriority)) :
    (pq.rekey 0 newPriority).nodes =
      { first with priority := wrap (-newPriority) } :: rest := by
  have inside : ¬ ((0 : Int) < 0 ∨ (0 : Int) ≥ pqSize pq) := by
    rw [pqSize, nodes, List.length_cons]
    omega
  rw [PriorityQueue.rekey, if_neg inside, nodes]
  simp only [Int.toNat_zero, List.getElem?_cons_zero, List.set_cons_zero]
  split
  next => rw [siftUp_zero]
  next =>
    rw [if_neg (by omega)]

/-! ### The order of the heap

The loops compare stored priorities by subtraction.  Where no difference leaves the
range of `int`, the comparison ranks the nodes by their stored priorities, and the
heap is in order by them.  The lemmas about single operations are stated for any key
that the comparison ranks the nodes by, so that they also serve where the stored
priorities have wrapped around but their differences are still right. -/

/-- No two stored priorities differ by more than an `int` holds. -/
def Comparable (nodes : List (PQueueNode α)) : Prop :=
  ∀ a ∈ nodes, ∀ b ∈ nodes, InRange (a.priority - b.priority)

/-- No node has a greater stored priority than its parent. -/
def HeapOrdered (pq : PriorityQueue α) : Prop :=
  Ordered PQueueNode.priority pq.nodes

/-- On comparable nodes the subtraction of `compare_priority` compares. -/
theorem Comparable.ranks {nodes : List (PQueueNode α)}
    (comparable : Comparable nodes) :
    Ranks outranks PQueueNode.priority nodes := by
  intro a left b right
  rw [outranks, decide_eq_true_iff, comparePriority,
    wrap_of_inRange (comparable a left b right)]
  constructor <;> intro <;> omega

/-- Stored priorities in this range can be compared by subtraction. -/
theorem comparable_of_small {nodes : List (PQueueNode α)}
    (small : ∀ node ∈ nodes, -2 ^ 30 < node.priority ∧ node.priority < 2 ^ 30) :
    Comparable nodes := by
  intro a left b right
  have low := small a left
  have high := small b right
  exact ⟨by omega, by omega⟩

theorem Comparable.perm {nodes nodes' : List (PQueueNode α)}
    (comparable : Comparable nodes) (perm : nodes'.Perm nodes) :
    Comparable nodes' := fun a left b right =>
  comparable a (perm.mem_iff.mp left) b (perm.mem_iff.mp right)

section

variable {κ : Type} [LinearOrder κ] [Inhabited κ] {key : PQueueNode α → κ}

/-- The first node of a heap has the greatest key. -/
theorem le_front_of_ordered {pq : PriorityQueue α} {first node : PQueueNode α}
    {rest : List (PQueueNode α)} (ordered : Ordered key pq.nodes)
    (nodes : pq.nodes = first :: rest) (member : node ∈ pq.nodes) :
    key node ≤ key first := by
  rw [nodes] at ordered member
  exact ordered.le_front member

/-- An insertion keeps the heap in order, for every key that the comparison
ranks the nodes by. -/
theorem PriorityQueue.insert_ordered_by {pq : PriorityQueue α} {item : α}
    {priority : Int} (ordered : Ordered key pq.nodes)
    (ranks : Ranks outranks key
      ({ item := item, priority := wrap (-priority) } :: pq.nodes)) :
    Ordered key (pq.insert item priority).nodes := by
  apply Rising.siftUp (ranks.perm (List.perm_append_singleton _ _))
  constructor
  · simp
  · intro c lower bound other
    have inside : c < pq.nodes.length := by
      rw [List.length_append, List.length_singleton] at bound
      omega
    rw [keyAt_append_left key _ inside,
      keyAt_append_left key _ (show (c - 1) / 2 < pq.nodes.length by omega)]
    exact ordered c lower inside
  · intro _ c _ bound child
    rw [List.length_append, List.length_singleton] at bound
    omega

/-- A removal keeps the heap in order, for every such key. -/
theorem PriorityQueue.removeFirst_ordered_by {pq : PriorityQueue α}
    (ordered : Ordered key pq.nodes) (ranks : Ranks outranks key pq.nodes) :
    Ordered key pq.removeFirst.1.nodes := by
  rw [PriorityQueue.removeFirst]
  cases split : pq.nodes with
  | nil =>
      intro c _ bound
      rw [split] at bound
      cases bound
  | cons first rest =>
      have perm := replaceRoot_perm first rest
      have length := perm.length_eq
      dsimp only
      split
      next empty =>
        intro c lower bound
        rw [List.isEmpty_iff] at empty
        rw [empty] at bound
        cases bound
      next nonempty =>
        rw [split] at ranks
        have others : Ranks outranks key (replaceRoot (first :: rest)) :=
          fun a left b right => ranks a (mem_of_mem_replaceRoot left) b
            (mem_of_mem_replaceRoot right)
        apply Sinking.siftDown others
        have positive : 0 < rest.length := by
          rw [← length]
          exact List.length_pos_iff.mpr (by simpa using nonempty)
        have old : ∀ i, 0 < i → i < rest.length →
            keyAt key (replaceRoot (first :: rest)) i = keyAt key pq.nodes i := by
          intro i lower inside
          rw [keyAt_replaceRoot key (by rw [List.length_cons]; omega),
            if_neg (by omega), split]
        constructor
        · rw [length]
          exact positive
        · intro c lower bound other
          rw [length] at bound
          rw [old c lower bound, old ((c - 1) / 2) (by omega) (by omega)]
          exact ordered c lower (by rw [split, List.length_cons]; omega)
        · intro impossible
          exact absurd impossible (Nat.lt_irrefl 0)

end

/-- The first node of a heap has the greatest stored priority. -/
theorem HeapOrdered.le_front {pq : PriorityQueue α} {first node : PQueueNode α}
    {rest : List (PQueueNode α)} (ordered : HeapOrdered pq)
    (nodes : pq.nodes = first :: rest) (member : node ∈ pq.nodes) :
    node.priority ≤ first.priority :=
  le_front_of_ordered ordered nodes member

theorem PriorityQueue.insert_ordered {pq : PriorityQueue α}
    (ordered : HeapOrdered pq) {item : α} {priority : Int}
    (comparable : Comparable
      ({ item := item, priority := wrap (-priority) } :: pq.nodes)) :
    HeapOrdered (pq.insert item priority) :=
  PriorityQueue.insert_ordered_by ordered comparable.ranks

theorem PriorityQueue.removeFirst_ordered {pq : PriorityQueue α}
    (ordered : HeapOrdered pq) (comparable : Comparable pq.nodes) :
    HeapOrdered pq.removeFirst.1 :=
  PriorityQueue.removeFirst_ordered_by ordered comparable.ranks

/-- A new key at one position keeps the keys at the others. -/
theorem keyAt_set {nodes : List (PQueueNode α)} {i : Nat}
    (inside : i < nodes.length) (node : PQueueNode α) (k : Nat) :
    keyAt PQueueNode.priority (nodes.set i node) k =
      if k = i then node.priority else keyAt PQueueNode.priority nodes k := by
  rw [keyAt, List.getElem?_set]
  by_cases here : k = i
  · subst here
    simp [inside]
  · rw [if_neg (Ne.symm here), if_neg here, keyAt]

/-- A re-keyed node is moved up, down, or not at all. -/
theorem PriorityQueue.rekey_nodes {pq : PriorityQueue α} {index : Int}
    {node : PQueueNode α} (lower : 0 ≤ index)
    (found : pq.nodes[index.toNat]? = some node) (newPriority : Int) :
    let changed := pq.nodes.set index.toNat
      { node with priority := wrap (-newPriority) }
    pq.rekey index newPriority = { pq with
      nodes :=
        if wrap (-newPriority) > node.priority then
          siftUp outranks changed index.toNat
        else if wrap (-newPriority) < node.priority then
          siftDown outranks changed changed.length index.toNat
        else changed } := by
  obtain ⟨bound, _⟩ := List.getElem?_eq_some_iff.mp found
  have inside : ¬ (index < 0 ∨ index ≥ pqSize pq) := by
    rw [pqSize]
    omega
  rw [PriorityQueue.rekey, if_neg inside, found]
  dsimp only
  split
  next => rfl
  next => split <;> rfl

/-- Re-keying leaves the other nodes as they are. -/
theorem PriorityQueue.rekey_set_perm {pq : PriorityQueue α} {index : Int}
    {node : PQueueNode α} (lower : 0 ≤ index)
    (found : pq.nodes[index.toNat]? = some node) (newPriority : Int) :
    (pq.rekey index newPriority).nodes.Perm
      (pq.nodes.set index.toNat { node with priority := wrap (-newPriority) }) := by
  rw [PriorityQueue.rekey_nodes lower found]
  dsimp only
  split
  next => exact siftUp_perm ..
  next =>
    split
    next => exact siftDown_perm ..
    next => exact List.Perm.refl _

theorem PriorityQueue.length_removeFirst_le (pq : PriorityQueue α) :
    pq.removeFirst.1.nodes.length ≤ pq.nodes.length := by
  cases nodes : pq.nodes with
  | nil => rw [PriorityQueue.removeFirst, nodes, nodes]
  | cons first rest =>
      rw [(PriorityQueue.removeFirst_spec nodes).2.length_eq, List.length_cons]
      omega

theorem PriorityQueue.length_rekey (pq : PriorityQueue α)
    (index newPriority : Int) :
    (pq.rekey index newPriority).nodes.length = pq.nodes.length := by
  by_cases outside : index < 0 ∨ index ≥ pqSize pq
  · rw [PriorityQueue.rekey, if_pos outside]
  · rw [not_or, pqSize] at outside
    have found := List.getElem?_eq_getElem
      (show index.toNat < pq.nodes.length by omega)
    rw [(PriorityQueue.rekey_set_perm (Int.not_lt.mp outside.1) found
      newPriority).length_eq, List.length_set]

/-- Only an insertion changes the capacity. -/
theorem PriorityQueue.capacity_removeFirst (pq : PriorityQueue α) :
    pq.removeFirst.1.capacity = pq.capacity := by
  rw [PriorityQueue.removeFirst]
  split <;> rfl

theorem PriorityQueue.capacity_rekey (pq : PriorityQueue α)
    (index newPriority : Int) :
    (pq.rekey index newPriority).capacity = pq.capacity := by
  rw [PriorityQueue.rekey]
  split
  next => rfl
  next =>
    split
    next => rfl
    next =>
      dsimp only
      split
      next => rfl
      next => split <;> rfl

theorem PriorityQueue.rekey_ordered {pq : PriorityQueue α}
    (ordered : HeapOrdered pq) {index : Int} {node : PQueueNode α}
    (lower : 0 ≤ index) (found : pq.nodes[index.toNat]? = some node)
    {newPriority : Int}
    (comparable : Comparable (pq.nodes.set index.toNat
      { node with priority := wrap (-newPriority) })) :
    HeapOrdered (pq.rekey index newPriority) := by
  obtain ⟨inside, _⟩ := List.getElem?_eq_some_iff.mp found
  have own : keyAt PQueueNode.priority pq.nodes index.toNat = node.priority :=
    keyAt_of_getElem? found
  have keys := keyAt_set inside
    { node with priority := wrap (-newPriority) }
  -- The parent of the node has at least the keys of its grandchildren.
  have skip : 0 < index.toNat → ∀ c, 0 < c → c < pq.nodes.length →
      (c - 1) / 2 = index.toNat →
      keyAt PQueueNode.priority pq.nodes c ≤
        keyAt PQueueNode.priority pq.nodes ((index.toNat - 1) / 2) := by
    intro positive c cLower bound child
    have first := ordered c cLower bound
    rw [child] at first
    exact first.trans (ordered index.toNat positive inside)
  rw [PriorityQueue.rekey_nodes lower found, HeapOrdered]
  dsimp only
  split
  next higher =>
    apply Rising.siftUp comparable.ranks
    constructor
    · rw [List.length_set]
      exact inside
    · intro c cLower bound other
      rw [List.length_set] at bound
      have old := ordered c cLower bound
      rw [keys c, if_neg other, keys ((c - 1) / 2)]
      split
      next child =>
        rw [child, own] at old
        exact old.trans (Int.le_of_lt higher)
      next => exact old
    · intro positive c cLower bound child
      rw [List.length_set] at bound
      rw [keys c, if_neg (by omega), keys, if_neg (by omega)]
      exact skip positive c cLower bound child
  next notHigher =>
    split
    next less =>
      apply Sinking.siftDown comparable.ranks
      constructor
      · rw [List.length_set]
        exact inside
      · intro c cLower bound other
        rw [List.length_set] at bound
        have old := ordered c cLower bound
        rw [keys ((c - 1) / 2), if_neg other, keys c]
        split
        next here =>
          rw [← here] at own
          rw [own] at old
          exact (Int.le_of_lt less).trans old
        next => exact old
      · intro positive c cLower bound child
        rw [List.length_set] at bound
        rw [keys c, if_neg (by omega), keys, if_neg (by omega)]
        exact skip positive c cLower bound child
    next notLess =>
      intro c cLower bound
      rw [List.length_set] at bound
      have old := ordered c cLower bound
      have same : wrap (-newPriority) = node.priority := by omega
      have kept : ∀ k, keyAt PQueueNode.priority (pq.nodes.set index.toNat
          { node with priority := wrap (-newPriority) }) k =
            keyAt PQueueNode.priority pq.nodes k := by
        intro k
        rw [keys k]
        split
        next here => rw [here, own, same]
        next => rfl
      rw [kept, kept]
      exact old

end OsSim
