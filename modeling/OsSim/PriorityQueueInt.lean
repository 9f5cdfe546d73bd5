/-
Module: OsSim.PriorityQueueInt
Purpose: The operations of `DS/priority_queue.c` with the `int` indices and the
  `int` capacity that they compute, and when they do what they do on the exact
  heap.
Trusted boundary: human-reviewed translation
Main exports:
  nodeAt, pqHeapify, grow, pqEnqueue, pqDequeue, pqChangePriority, PqCall,
  PqCall.perform, PqCall.meant, pqHeapify_eq, pqHeapify_faults, Shallow, Roomy,
  Manageable, PqCall.perform_sound, pqEnqueue_of_few, pqDequeue_of_few,
  pqChangePriority_of_few, manageable_of_few
-/
import OsSim.Library.PointerMemory
import OsSim.Library.SinkPath
import OsSim.PriorityQueue

namespace OsSim

open PointerMemory
open BinaryHeap

variable {α : Type}

/-! ### The functions

`size` is the number of nodes; it stays below 2^31, since it never exceeds the
capacity.  The loop that moves a node up only halves indices, so that it can be the
one of the exact heap.  On the way down the indices double. -/

/-- `pq->nodes[index]`.  Only the slots in use hold a node. -/
def nodeAt (nodes : List (PQueueNode α)) (index : Int) :
    Except Fault (PQueueNode α) :=
  if index < 0 then
    .error .danglingPointer
  else
    match nodes[index.toNat]? with
    | some node => .ok node
    | none => .error .danglingPointer

/-- The two tests of `pq_heapify`: `child` is taken if it is an index in use
and its node goes before the one at `smallest`. -/
def takeChild (nodes : List (PQueueNode α)) (child smallest : Int) :
    Except Fault Int :=
  if child < nodes.length then do
    let lower ← nodeAt nodes child
    let upper ← nodeAt nodes smallest
    pure (if comparePriority lower upper > 0 then child else smallest)
  else
    pure smallest

/-- `pq_heapify`.  A touch of a slot that is not in use faults, and so does a
recursion that is deeper than the first argument. -/
def pqHeapify :
    Nat → List (PQueueNode α) → Int → Except Fault (List (PQueueNode α))
  | 0, _, _ => .error .outOfFuel
  | fuel + 1, nodes, parent => do
      let left := wrap (2 * parent + 1)
      let right := wrap (2 * parent + 2)
      let smallest ← takeChild nodes left parent
      let smallest ← takeChild nodes right smallest
      if smallest ≠ parent then do
        let upper ← nodeAt nodes parent
        let lower ← nodeAt nodes smallest
        let nodes := (nodes.set parent.toNat lower).set smallest.toNat upper
        pqHeapify fuel nodes smallest
      else
        pure nodes

/-- The doubling in `pq_enqueue`.  Once it has wrapped `capacity` around, `realloc`
fails, and the write that follows goes through NULL. -/
def grow (pq : PriorityQueue α) : Except Fault (PriorityQueue α) :=
  let capacity := wrap (pq.capacity * 2)
  if capacity ≤ 0 then .error .nullPointer
  else .ok { pq with capacity := capacity }

/-- `pq_enqueue` -/
def pqEnqueue (pq : PriorityQueue α) (item : α) (priority : Int) :
    Except Fault (PriorityQueue α) := do
  let newNode := { item := item, priority := wrap (-priority) }
  let pq ← (if pqSize pq = pq.capacity then grow pq else pure pq)
  pure { pq with nodes := siftUp outranks (pq.nodes ++ [newNode]) pq.nodes.length }

/-- `pq_dequeue` -/
def pqDequeue (pq : PriorityQueue α) :
    Except Fault (PriorityQueue α × Option α) :=
  match pq.nodes with
  | [] => .ok (pq, none)
  | first :: _ => do
      let nodes := replaceRoot pq.nodes
      let nodes ←
        (if nodes.isEmpty then pure nodes else pqHeapify nodes.length nodes 0)
      pure ({ pq with nodes := nodes }, some first.item)

/-- `pq_change_priority` -/
def pqChangePriority (pq : PriorityQueue α) (index newPriority : Int) :
    Except Fault (PriorityQueue α) :=
  if index < 0 ∨ index ≥ pqSize pq then .ok pq
  else do
    let node ← nodeAt pq.nodes index
    let nodes := pq.nodes.set index.toNat
      { node with priority := wrap (-newPriority) }
    let nodes ←
      (if wrap (-newPriority) > node.priority then
        pure (siftUp outranks nodes index.toNat)
      else if wrap (-newPriority) < node.priority then
        pqHeapify nodes.length nodes index
      else
        pure nodes)
    pure { pq with nodes := nodes }

/-- The calls that change a priority queue. -/
inductive PqCall (α : Type) where
  | enqueue (item : α) (priority : Int)
  | dequeue
  | changePriority (index newPriority : Int)
deriving Repr, DecidableEq

namespace PqCall

/-- Perform a call, with the item that it returns. -/
def perform (pq : PriorityQueue α) :
    PqCall α → Except Fault (PriorityQueue α × Option α)
  | .enqueue item priority => do
      let pq ← pqEnqueue pq item priority
      pure (pq, none)
  | .dequeue => pqDequeue pq
  | .changePriority index newPriority => do
      let pq ← pqChangePriority pq index newPriority
      pure (pq, none)

/-- The same call on the exact heap. -/
def meant (pq : PriorityQueue α) : PqCall α → PriorityQueue α × Option α
  | .enqueue item priority => (pq.insert item priority, none)
  | .dequeue => pq.removeFirst
  | .changePriority index newPriority => (pq.rekey index newPriority, none)

end PqCall

/-! ### One call -/

section

variable {nodes : List (PQueueNode α)}

theorem nodeAt_of_getElem? {i : Nat} {node : PQueueNode α}
    (found : nodes[i]? = some node) : nodeAt nodes i = .ok node := by
  rw [nodeAt, if_neg (by omega), Int.toNat_natCast, found]

theorem nodeAt_of_neg {index : Int} (negative : index < 0) :
    nodeAt nodes index = .error .danglingPointer := by
  rw [nodeAt, if_pos negative]

/-- On indices in use the test is that of the heap. -/
theorem takeChild_eq (child : Nat) {smallest : Nat}
    (inside : smallest < nodes.length) :
    takeChild nodes child smallest =
      .ok (better outranks nodes nodes.length child smallest : Nat) := by
  rw [takeChild, better]
  by_cases bound : child < nodes.length
  · have lower := List.getElem?_eq_getElem bound
    have upper := List.getElem?_eq_getElem inside
    rw [if_pos (by omega), nodeAt_of_getElem? lower, nodeAt_of_getElem? upper,
      ok_bind, ok_bind, beforeAt, lower, upper]
    simp only [bound, decide_true, Bool.true_and, outranks, decide_eq_true_eq,
      pure_eq_ok]
    split <;> rfl
  · rw [if_neg (by omega)]
    simp [bound]

/-- A test of a child whose index has wrapped around touches a slot in front of
the array. -/
theorem takeChild_of_neg {child : Int} (negative : child < 0) (smallest : Int) :
    takeChild nodes child smallest = .error .danglingPointer := by
  rw [takeChild, if_pos (by omega), nodeAt_of_neg negative, error_bind]

/-- Below 2^30 - 1 both children have an `int` index. -/
theorem child_index {i : Nat} (small : i < 2 ^ 30 - 1) :
    wrap (2 * (i : Int) + 1) = (2 * i + 1 : Nat) ∧
      wrap (2 * (i : Int) + 2) = (2 * i + 2 : Nat) := by
  rw [wrap_of_inRange ⟨by omega, by omega⟩, wrap_of_inRange ⟨by omega, by omega⟩]
  exact ⟨by omega, by omega⟩

/-- One round of the recursion is one round of `siftDown`. -/
theorem pqHeapify_round {i : Nat} (inside : i < nodes.length)
    (small : i < 2 ^ 30 - 1) (fuel : Nat) :
    pqHeapify (fuel + 1) nodes i =
      if bestOf outranks nodes nodes.length i ≠ i then
        pqHeapify fuel (swap nodes i (bestOf outranks nodes nodes.length i))
          (bestOf outranks nodes nodes.length i : Nat)
      else
        .ok nodes := by
  obtain ⟨left, right⟩ := child_index small
  have middle := better_lt outranks nodes (2 * i + 1) inside
  rw [pqHeapify, left, right, takeChild_eq _ inside, ok_bind,
    takeChild_eq _ middle, ok_bind]
  have chosen : better outranks nodes nodes.length (2 * i + 2)
      (better outranks nodes nodes.length (2 * i + 1) i) =
        bestOf outranks nodes nodes.length i := rfl
  rw [chosen]
  by_cases moves : bestOf outranks nodes nodes.length i ≠ i
  · have inside' : bestOf outranks nodes nodes.length i < nodes.length :=
      ((bestOf_cases outranks nodes nodes.length i).resolve_left moves).2
    have upper := List.getElem?_eq_getElem inside
    have lower := List.getElem?_eq_getElem inside'
    rw [if_pos moves, if_pos (by omega), nodeAt_of_getElem? upper,
      nodeAt_of_getElem? lower, ok_bind, ok_bind, swap, upper, lower]
    rfl
  · rw [if_neg moves, if_neg (by omega)]
    rfl

/-- From index 2^30 - 1 on, the index of a child wraps around, and the call
touches a slot in front of the array. -/
theorem pqHeapify_faults {i : Nat} (inside : i < nodes.length)
    (int : nodes.length < 2 ^ 31) (large : 2 ^ 30 - 1 ≤ i) (fuel : Nat) :
    pqHeapify (fuel + 1) nodes i = .error .danglingPointer := by
  have right : wrap (2 * (i : Int) + 2) < 0 := by
    rw [wrap_of_past (by omega) (by omega)]
    omega
  rw [pqHeapify]
  rcases Nat.lt_or_ge i (2 ^ 30) with last | beyond
  · -- The left child has the greatest `int` as its index.
    have left : wrap (2 * (i : Int) + 1) = 2 ^ 31 - 1 := by
      rw [wrap_of_inRange ⟨by omega, by omega⟩]
      omega
    rw [left, takeChild, if_neg (by omega), pure_eq_ok, ok_bind,
      takeChild_of_neg right, error_bind]
  · have left : wrap (2 * (i : Int) + 1) < 0 := by
      rw [wrap_of_past (by omega) (by omega)]
      omega
    rw [takeChild_of_neg left, error_bind]

end

/-! ### The whole recursion

A node that sinks to index 2^30 - 1 makes the next call compute an index that is
no `int`.  Up to there the recursion is that of the exact heap, so that the path on
which the node sinks decides whether the call returns. -/

section

variable {nodes : List (PQueueNode α)} {key : PQueueNode α → Int}

/-- What a call returns is what the exact heap has. -/
theorem eq_siftDown_of_pqHeapify (int : nodes.length < 2 ^ 31) {i : Nat}
    (inside : i < nodes.length) {fuel : Nat} {after : List (PQueueNode α)}
    (run : pqHeapify fuel nodes i = .ok after) :
    after = siftDown outranks nodes nodes.length i := by
  induction fuel generalizing nodes i with
  | zero => cases run
  | succ fuel ih =>
      rcases Nat.lt_or_ge i (2 ^ 30 - 1) with small | large
      · rw [pqHeapify_round inside small] at run
        rw [siftDown]
        by_cases moves : bestOf outranks nodes nodes.length i ≠ i
        · obtain ⟨_, inside'⟩ :=
            (bestOf_cases outranks nodes nodes.length i).resolve_left moves
          have length := swap_length nodes i (bestOf outranks nodes nodes.length i)
          rw [if_pos moves] at run ⊢
          have deeper := ih (length.symm ▸ int) (length.symm ▸ inside') run
          rw [length] at deeper
          exact deeper
        · rw [if_neg moves, Except.ok.injEq] at run
          rw [if_neg moves, run]
      · rw [pqHeapify_faults inside int large] at run
        cases run

/-- The node at index `i` does not sink to index 2^30 - 1 or beyond. -/
def Shallow (key : PQueueNode α → Int) (nodes : List (PQueueNode α)) (i : Nat) :
    Prop :=
  ∀ place, Sinks key nodes (keyAt key nodes i) i place → place < 2 ^ 30 - 1

theorem shallow_of_length_lt (few : nodes.length < 2 ^ 30) {i : Nat}
    (inside : i < nodes.length) : Shallow key nodes i := by
  intro place sinks
  have bound := sinks.lt_length inside
  omega

/-- A node that does not sink deep is put where the exact heap has it. -/
theorem pqHeapify_eq (ranks : Ranks outranks key nodes) {i : Nat}
    (inside : i < nodes.length) (shallow : Shallow key nodes i) {fuel : Nat}
    (enough : nodes.length ≤ fuel + i) :
    pqHeapify fuel nodes i = .ok (siftDown outranks nodes nodes.length i) := by
  induction fuel generalizing nodes i with
  | zero => omega
  | succ fuel ih =>
      rw [pqHeapify_round inside (shallow i (Sinks.here i)), siftDown]
      by_cases moves : bestOf outranks nodes nodes.length i ≠ i
      · obtain ⟨lower, inside'⟩ :=
          (bestOf_cases outranks nodes nodes.length i).resolve_left moves
        have length := swap_length nodes i (bestOf outranks nodes nodes.length i)
        rw [if_pos moves, if_pos moves,
          ih (ranks.perm (swap_perm ..)) (length.symm ▸ inside')
            (fun j deeper => shallow j
              ((ranks.sinks_moves_iff inside moves j).mpr (Or.inr deeper)))
            (by omega), length]
      · rw [if_neg moves, if_neg moves]

/-- A node that sinks deep makes the recursion fail. -/
theorem pqHeapify_ne_ok (ranks : Ranks outranks key nodes)
    (int : nodes.length < 2 ^ 31) {i : Nat} (inside : i < nodes.length) {j : Nat}
    (sinks : Sinks key nodes (keyAt key nodes i) i j)
    (deep : 2 ^ 30 - 1 ≤ j) (fuel : Nat) (after : List (PQueueNode α)) :
    pqHeapify fuel nodes i ≠ .ok after := by
  induction fuel generalizing nodes i with
  | zero =>
      intro returned
      cases returned
  | succ fuel ih =>
      rcases Nat.lt_or_ge i (2 ^ 30 - 1) with small | large
      · rw [pqHeapify_round inside small]
        by_cases moves : bestOf outranks nodes nodes.length i ≠ i
        · obtain ⟨lower, inside'⟩ :=
            (bestOf_cases outranks nodes nodes.length i).resolve_left moves
          have length :=
            swap_length nodes i (bestOf outranks nodes nodes.length i)
          rw [if_pos moves]
          rcases (ranks.sinks_moves_iff inside moves j).mp sinks with
            same | deeper
          · omega
          · exact ih (ranks.perm (swap_perm ..)) (length.symm ▸ int)
              (length.symm ▸ inside') deeper
        · have same := ranks.sinks_stays inside (not_not.mp moves) sinks
          omega
      · rw [pqHeapify_faults inside int large]
        intro returned
        cases returned

/-- A call returns exactly if the node does not sink deep. -/
theorem pqHeapify_decided (ranks : Ranks outranks key nodes)
    (int : nodes.length < 2 ^ 31) {i : Nat} (inside : i < nodes.length) :
    Shallow key nodes i ∧ pqHeapify nodes.length nodes i =
        .ok (siftDown outranks nodes nodes.length i) ∨
      ¬ Shallow key nodes i ∧
        ∃ fault, pqHeapify nodes.length nodes i = .error fault := by
  by_cases shallow : Shallow key nodes i
  · exact Or.inl ⟨shallow, pqHeapify_eq ranks inside shallow
      (Nat.le_add_right _ _)⟩
  · refine Or.inr ⟨shallow, ?_⟩
    rw [Shallow] at shallow
    push Not at shallow
    obtain ⟨place, sinks, deep⟩ := shallow
    cases run : pqHeapify nodes.length nodes i with
    | error fault => exact ⟨fault, rfl⟩
    | ok after => exact absurd run (pqHeapify_ne_ok ranks int inside sinks deep _ _)

/-- On fewer than 2^30 nodes a call always returns. -/
theorem pqHeapify_of_few (few : nodes.length < 2 ^ 30) {i : Nat}
    (inside : i < nodes.length) {fuel : Nat} (enough : nodes.length ≤ fuel + i) :
    pqHeapify fuel nodes i = .ok (siftDown outranks nodes nodes.length i) := by
  induction fuel generalizing nodes i with
  | zero => omega
  | succ fuel ih =>
      rw [pqHeapify_round inside (by omega), siftDown]
      by_cases moves : bestOf outranks nodes nodes.length i ≠ i
      · obtain ⟨lower, inside'⟩ :=
          (bestOf_cases outranks nodes nodes.length i).resolve_left moves
        have length := swap_length nodes i (bestOf outranks nodes nodes.length i)
        rw [if_pos moves, if_pos moves,
          ih (length.symm ▸ few) (length.symm ▸ inside') (by omega), length]
      · rw [if_neg moves, if_neg moves]

end

/-! ### The calls

A call departs from the exact heap in two ways.  `pq_enqueue` may double a capacity
of 1677721600, which no `int` holds, and `pq_heapify` may be led to index 2^30 - 1.
`Manageable` says of the queue before the call that neither happens. -/

/-- What the calls that return keep: the nodes have room in an array whose length
is an `int`. -/
structure Roomy (pq : PriorityQueue α) : Prop where
  room : pqSize pq ≤ pq.capacity
  positive : 0 < pq.capacity
  int : pq.capacity < 2 ^ 31

theorem priorityQueue_roomy : Roomy (priorityQueue α) :=
  ⟨show (0 : Int) ≤ 100 by decide, show (0 : Int) < 100 by decide,
    show (100 : Int) < 2 ^ 31 by decide⟩

/-- A full array may still be doubled, and a node that is to move down does not sink
to index 2^30 - 1 or beyond, on the path of the greatest keys. -/
def Manageable (key : PQueueNode α → Int) (pq : PriorityQueue α) :
    PqCall α → Prop
  | .enqueue _ _ => pqSize pq = pq.capacity → pq.capacity * 2 < 2 ^ 31
  | .dequeue => Shallow key (replaceRoot pq.nodes) 0
  | .changePriority index newPriority =>
      ∀ node, 0 ≤ index → pq.nodes[index.toNat]? = some node →
        wrap (-newPriority) < node.priority →
        Shallow key (pq.nodes.set index.toNat
          { node with priority := wrap (-newPriority) }) index.toNat

section

variable {pq : PriorityQueue α} {key : PQueueNode α → Int}

theorem Roomy.few (roomy : Roomy pq) : pq.nodes.length < 2 ^ 31 := by
  have room := roomy.room
  have int := roomy.int
  rw [pqSize] at room
  omega

/-- A capacity that fits an `int` is the exact one. -/
theorem Roomy.insert (roomy : Roomy pq)
    (fits : pqSize pq = pq.capacity → pq.capacity * 2 < 2 ^ 31) (item : α)
    (priority : Int) : Roomy (pq.insert item priority) := by
  have room := roomy.room
  have positive := roomy.positive
  have int := roomy.int
  have length := (PriorityQueue.insert_perm pq item priority).length_eq
  have capacity : (pq.insert item priority).capacity =
      if pqSize pq = pq.capacity then pq.capacity * 2 else pq.capacity := rfl
  refine ⟨?_, ?_, ?_⟩ <;> rw [capacity]
  · rw [pqSize, length, List.length_cons]
    rw [pqSize] at room ⊢
    split <;> omega
  · split <;> omega
  · split
    next full => exact fits full
    next => exact int

theorem Roomy.removeFirst (roomy : Roomy pq) : Roomy pq.removeFirst.1 := by
  have capacity := PriorityQueue.capacity_removeFirst pq
  have fewer := PriorityQueue.length_removeFirst_le pq
  have room := roomy.room
  rw [pqSize] at room
  refine ⟨?_, by rw [capacity]; exact roomy.positive,
    by rw [capacity]; exact roomy.int⟩
  rw [capacity, pqSize]
  omega

theorem Roomy.rekey (roomy : Roomy pq) (index newPriority : Int) :
    Roomy (pq.rekey index newPriority) := by
  have capacity := PriorityQueue.capacity_rekey pq index newPriority
  refine ⟨?_, by rw [capacity]; exact roomy.positive,
    by rw [capacity]; exact roomy.int⟩
  rw [capacity, pqSize, PriorityQueue.length_rekey]
  exact roomy.room

theorem enqueue_decided (roomy : Roomy pq) (item : α) (priority : Int) :
    (pqSize pq = pq.capacity → pq.capacity * 2 < 2 ^ 31) ∧
        pqEnqueue pq item priority = .ok (pq.insert item priority) ∨
      ¬ (pqSize pq = pq.capacity → pq.capacity * 2 < 2 ^ 31) ∧
        ∃ fault, pqEnqueue pq item priority = .error fault := by
  have positive := roomy.positive
  have int := roomy.int
  rw [pqEnqueue, PriorityQueue.insert]
  by_cases full : pqSize pq = pq.capacity
  · simp only [full, if_true, true_implies]
    by_cases fits : pq.capacity * 2 < 2 ^ 31
    · have doubled : wrap (pq.capacity * 2) = pq.capacity * 2 :=
        wrap_of_inRange ⟨by omega, fits⟩
      refine Or.inl ⟨fits, ?_⟩
      rw [grow, doubled, if_neg (by omega)]
      rfl
    · have past : wrap (pq.capacity * 2) ≤ 0 := by
        rw [wrap_of_past (by omega) (by omega)]
        omega
      refine Or.inr ⟨fits, .nullPointer, ?_⟩
      rw [grow, if_pos past]
      rfl
  · rw [if_neg full, if_neg full]
    exact Or.inl ⟨fun same => absurd same full, rfl⟩

/-- An empty heap has nothing to move down. -/
theorem shallow_of_nil : Shallow key [] 0 := by
  intro place sinks
  cases sinks with
  | here => decide
  | down inside _ _ => cases inside

theorem dequeue_decided (roomy : Roomy pq) (ranks : Ranks outranks key pq.nodes) :
    Shallow key (replaceRoot pq.nodes) 0 ∧ pqDequeue pq = .ok pq.removeFirst ∨
      ¬ Shallow key (replaceRoot pq.nodes) 0 ∧
        ∃ fault, pqDequeue pq = .error fault := by
  have others : Ranks outranks key (replaceRoot pq.nodes) := fun a left b right =>
    ranks a (mem_of_mem_replaceRoot left) b (mem_of_mem_replaceRoot right)
  have few := roomy.few
  have length := length_replaceRoot pq.nodes
  rw [pqDequeue, PriorityQueue.removeFirst]
  cases nodes : pq.nodes with
  | nil => exact Or.inl ⟨shallow_of_nil, rfl⟩
  | cons first rest =>
      rw [nodes] at others few length
      dsimp only
      by_cases empty : (replaceRoot (first :: rest)).isEmpty = true
      · rw [if_pos empty, if_pos empty]
        rw [List.isEmpty_iff] at empty
        rw [empty]
        exact Or.inl ⟨shallow_of_nil, rfl⟩
      · rw [if_neg empty, if_neg empty]
        have inside : 0 < (replaceRoot (first :: rest)).length :=
          List.length_pos_iff.mpr (by simpa using empty)
        rcases pqHeapify_decided others (by omega) inside with
          ⟨shallow, run⟩ | ⟨deep, fault, failed⟩
        · refine Or.inl ⟨shallow, ?_⟩
          rw [Int.natCast_zero] at run
          rw [run]
          rfl
        · refine Or.inr ⟨deep, fault, ?_⟩
          rw [Int.natCast_zero] at failed
          rw [failed]
          rfl

/-- An index in use, and its node. -/
theorem found_of_inside {index : Int} (inside : ¬ (index < 0 ∨ index ≥ pqSize pq)) :
    ∃ (i : Nat) (node : PQueueNode α), index = i ∧ i < pq.nodes.length ∧
      pq.nodes[i]? = some node := by
  rw [not_or, pqSize] at inside
  obtain ⟨i, rfl⟩ := Int.eq_ofNat_of_zero_le (Int.not_lt.mp inside.1)
  have bound : i < pq.nodes.length := by omega
  exact ⟨i, _, rfl, bound, List.getElem?_eq_getElem bound⟩

theorem changePriority_decided (roomy : Roomy pq) (index newPriority : Int)
    (ranks : ∀ node, pq.nodes[index.toNat]? = some node →
      Ranks outranks key (pq.nodes.set index.toNat
        { node with priority := wrap (-newPriority) })) :
    Manageable key pq (.changePriority index newPriority) ∧
        pqChangePriority pq index newPriority = .ok (pq.rekey index newPriority) ∨
      ¬ Manageable key pq (.changePriority index newPriority) ∧
        ∃ fault, pqChangePriority pq index newPriority = .error fault := by
  rw [pqChangePriority]
  by_cases outside : index < 0 ∨ index ≥ pqSize pq
  · rw [if_pos outside, PriorityQueue.rekey, if_pos outside]
    refine Or.inl ⟨?_, rfl⟩
    intro node lower found
    rw [pqSize] at outside
    have inside := (List.getElem?_eq_some_iff.mp found).1
    omega
  · obtain ⟨i, node, rfl, inside, found⟩ := found_of_inside outside
    rw [if_neg outside, nodeAt_of_getElem? found, ok_bind,
      PriorityQueue.rekey_nodes (Int.natCast_nonneg i) found]
    have ranked := ranks node found
    simp only [Int.toNat_natCast] at ranked ⊢
    have length : (pq.nodes.set i
        { node with priority := wrap (-newPriority) }).length =
          pq.nodes.length := List.length_set
    by_cases lower : wrap (-newPriority) < node.priority
    · have few := roomy.few
      rw [if_neg (by omega), if_pos lower, if_neg (by omega), if_pos lower]
      rcases pqHeapify_decided ranked (by omega) (length.symm ▸ inside) with
        ⟨shallow, run⟩ | ⟨deep, fault, failed⟩
      · refine Or.inl ⟨?_, by rw [run]; rfl⟩
        intro other _ found' _
        rw [Int.toNat_natCast, found, Option.some.injEq] at found'
        subst found'
        exact shallow
      · refine Or.inr ⟨fun manageable => deep ?_, fault, by rw [failed]; rfl⟩
        exact manageable node (Int.natCast_nonneg i) found lower
    · refine Or.inl ⟨?_, ?_⟩
      · intro other _ found' below
        rw [Int.toNat_natCast, found, Option.some.injEq] at found'
        subst found'
        exact absurd below lower
      · rw [if_neg lower, if_neg lower]
        split <;> rfl

/-- What a call that returns leaves and returns is what the exact heap has. -/
theorem PqCall.perform_sound (roomy : Roomy pq) {call : PqCall α}
    {result : PriorityQueue α × Option α} (run : call.perform pq = .ok result) :
    result = call.meant pq := by
  have few := roomy.few
  cases call with
  | enqueue item priority =>
      rw [PqCall.perform] at run
      rcases enqueue_decided roomy item priority with ⟨_, value⟩ | ⟨_, _, failed⟩
      · rw [value] at run
        exact (Except.ok.inj run).symm
      · rw [failed] at run
        cases run
  | dequeue =>
      rw [PqCall.perform, pqDequeue] at run
      rw [PqCall.meant, PriorityQueue.removeFirst]
      cases nodes : pq.nodes with
      | nil =>
          rw [nodes] at run
          exact (Except.ok.inj run).symm
      | cons first rest =>
          rw [nodes] at run few
          have length := length_replaceRoot (first :: rest)
          dsimp only at run ⊢
          by_cases empty : (replaceRoot (first :: rest)).isEmpty = true
          · rw [if_pos empty] at run ⊢
            exact (Except.ok.inj run).symm
          · rw [if_neg empty] at run ⊢
            have inside : 0 < (replaceRoot (first :: rest)).length :=
              List.length_pos_iff.mpr (by simpa using empty)
            obtain ⟨after, sifted, rest'⟩ := bind_eq_ok.mp run
            rw [← eq_siftDown_of_pqHeapify (by omega) inside sifted]
            exact (Except.ok.inj rest').symm
  | changePriority index newPriority =>
      rw [PqCall.perform, pqChangePriority] at run
      rw [PqCall.meant]
      by_cases outside : index < 0 ∨ index ≥ pqSize pq
      · rw [if_pos outside] at run
        rw [PriorityQueue.rekey, if_pos outside]
        exact (Except.ok.inj run).symm
      · obtain ⟨i, node, rfl, inside, found⟩ := found_of_inside outside
        rw [if_neg outside, nodeAt_of_getElem? found, ok_bind] at run
        rw [PriorityQueue.rekey_nodes (Int.natCast_nonneg i) found]
        simp only [Int.toNat_natCast] at run ⊢
        have length : (pq.nodes.set i
            { node with priority := wrap (-newPriority) }).length =
              pq.nodes.length := List.length_set
        split at run
        next higher =>
          rw [if_pos higher]
          exact (Except.ok.inj run).symm
        next notHigher =>
          rw [if_neg notHigher]
          split at run
          next lower =>
            rw [if_pos lower]
            obtain ⟨pq', run', last⟩ := bind_eq_ok.mp run
            obtain ⟨after, sifted, rest⟩ := bind_eq_ok.mp run'
            rw [← eq_siftDown_of_pqHeapify (by omega) (by omega) sifted]
            rw [← Except.ok.inj last, ← Except.ok.inj rest]
          next notLower =>
            rw [if_neg notLower]
            exact (Except.ok.inj run).symm

/-! ### Fewer than 2^30 nodes -/

theorem pqEnqueue_of_few (roomy : Roomy pq) (few : pq.nodes.length < 2 ^ 30)
    (item : α) (priority : Int) :
    pqEnqueue pq item priority = .ok (pq.insert item priority) := by
  rcases enqueue_decided roomy item priority with ⟨_, run⟩ | ⟨full, _⟩
  · exact run
  · rw [pqSize] at full
    omega

theorem pqDequeue_of_few (few : pq.nodes.length < 2 ^ 30) :
    pqDequeue pq = .ok pq.removeFirst := by
  rw [pqDequeue, PriorityQueue.removeFirst]
  cases split : pq.nodes with
  | nil => rfl
  | cons first rest =>
      rw [split] at few
      have length := length_replaceRoot (first :: rest)
      dsimp only
      by_cases empty : (replaceRoot (first :: rest)).isEmpty = true
      · rw [if_pos empty, if_pos empty]
        rfl
      · have inside : 0 < (replaceRoot (first :: rest)).length :=
          List.length_pos_iff.mpr (by simpa using empty)
        have sifted := pqHeapify_of_few
          (Nat.lt_of_le_of_lt (length ▸ Nat.sub_le _ _) few) inside
          (Nat.le_add_right (replaceRoot (first :: rest)).length 0)
        rw [Int.natCast_zero] at sifted
        rw [if_neg empty, if_neg empty, sifted]
        rfl

theorem pqChangePriority_of_few (few : pq.nodes.length < 2 ^ 30)
    (index newPriority : Int) :
    pqChangePriority pq index newPriority = .ok (pq.rekey index newPriority) := by
  rw [pqChangePriority]
  by_cases outside : index < 0 ∨ index ≥ pqSize pq
  · rw [if_pos outside, PriorityQueue.rekey, if_pos outside]
  · obtain ⟨i, node, rfl, inside, found⟩ := found_of_inside outside
    rw [if_neg outside, nodeAt_of_getElem? found, ok_bind,
      PriorityQueue.rekey_nodes (Int.natCast_nonneg i) found]
    have length : (pq.nodes.set i
        { node with priority := wrap (-newPriority) }).length =
          pq.nodes.length := List.length_set
    simp only [Int.toNat_natCast]
    split
    next => rfl
    next =>
      split
      next =>
        rw [pqHeapify_of_few (by omega) (by omega) (Nat.le_add_right _ _)]
        rfl
      next => rfl

/-- Below 2^30 nodes every call is manageable, and a removal from 2^30 nodes as
well. -/
theorem manageable_of_few {call : PqCall α} (few : pq.nodes.length ≤ 2 ^ 30)
    (fewer : call = .dequeue ∨ pq.nodes.length < 2 ^ 30) :
    Manageable key pq call := by
  cases call with
  | enqueue item priority =>
      intro full
      have fewer' := fewer.resolve_left (by simp)
      rw [pqSize] at full
      omega
  | dequeue =>
      have length := length_replaceRoot pq.nodes
      rcases List.eq_nil_or_concat (replaceRoot pq.nodes) with empty | ⟨_, _, some⟩
      · rw [Manageable, empty]
        exact shallow_of_nil
      · have positive : 0 < (replaceRoot pq.nodes).length := by
          rw [some]
          simp
        exact shallow_of_length_lt (by omega) positive
  | changePriority index newPriority =>
      intro node _ found _
      have fewer' := fewer.resolve_left (by simp)
      have inside := (List.getElem?_eq_some_iff.mp found).1
      exact shallow_of_length_lt (by rwa [List.length_set])
        (by rwa [List.length_set])

end

end OsSim
