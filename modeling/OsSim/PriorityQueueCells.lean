/-
Module: OsSim.PriorityQueueCells
Purpose: The priority queue of `DS/priority_queue.c` with its nodes in memory: an
  array of pointers that is reallocated when it is full, from `priority_queue` to
  `pq_free`.
Trusted boundary: human-reviewed translation
Main exports:
  PQueueCells, PQueueCells.pqEnqueue, PQueueCells.pqDequeue, PQueueCells.pqFront,
  PQueueCells.pqChangePriority, PQueueCells.pqFree, PQueueCells.view,
  PQueueCells.Laid, pq_cells_refine
-/
import OsSim.PriorityQueue
import OsSim.Library.Lifetime
import OsSim.Library.Simulation

namespace OsSim

open PointerMemory
open BinaryHeap
open Simulation

/-- `PriorityQueue` as it lies in memory: `nodes` points to an array of
`capacity` pointers, of which the first `size` lead to nodes. -/
structure PQueueCells (α : Type) where
  heap : Mem (PQueueNode α)
  arrays : Mem (List (Option Addr))
  nodes : Addr
  size : Int
  capacity : Int
deriving Repr, DecidableEq

namespace PQueueCells

variable {α : Type}

/-! ### The array

A call of the queue works on the array that `nodes` points to.  An access outside
its bounds is a fault. -/

/-- Read `nodes[index]`. -/
def slotAt (array : List (Option Addr)) (index : Int) :
    Except Fault (Option Addr) :=
  if index < 0 then
    .error .danglingPointer
  else
    match array[index.toNat]? with
    | some slot => .ok slot
    | none => .error .danglingPointer

/-- Write `nodes[index]`. -/
def setSlot (array : List (Option Addr)) (index : Int) (slot : Option Addr) :
    Except Fault (List (Option Addr)) :=
  if index < 0 ∨ array.length ≤ index then
    .error .danglingPointer
  else
    .ok (array.set index.toNat slot)

/-- Read `*nodes[index]`. -/
def nodeOf (heap : Mem (PQueueNode α)) (array : List (Option Addr))
    (index : Int) : Except Fault (PQueueNode α) := do
  let slot ← slotAt array index
  derefPtr heap slot

/-- `pq_swap`, of the slots at two indices. -/
def pqSwap (array : List (Option Addr)) (a b : Int) :
    Except Fault (List (Option Addr)) := do
  let temp ← slotAt array a
  let other ← slotAt array b
  let array ← setSlot array a other
  setSlot array b temp

/-- The loop in which `pq_enqueue` and `pq_change_priority` move a node up. -/
def moveUp (heap : Mem (PQueueNode α)) :
    Nat → List (Option Addr) → Int → Except Fault (List (Option Addr))
  | 0, _, _ => .error .outOfFuel
  | fuel + 1, array, parent =>
      if parent > 0 then do
        let child := (parent - 1).tdiv 2
        let lower ← nodeOf heap array parent
        let upper ← nodeOf heap array child
        if comparePriority lower upper > 0 then do
          let array ← pqSwap array parent child
          moveUp heap fuel array child
        else
          pure array
      else
        pure array

/-- The two tests of `pq_heapify`. -/
def takeChild (heap : Mem (PQueueNode α)) (array : List (Option Addr))
    (n child smallest : Int) : Except Fault Int :=
  if child < n then do
    let lower ← nodeOf heap array child
    let upper ← nodeOf heap array smallest
    pure (if comparePriority lower upper > 0 then child else smallest)
  else
    pure smallest

/-- `pq_heapify`, where `n` is the `size` of the queue. -/
def pqHeapify (heap : Mem (PQueueNode α)) (n : Int) :
    Nat → List (Option Addr) → Int → Except Fault (List (Option Addr))
  | 0, _, _ => .error .outOfFuel
  | fuel + 1, array, parent => do
      let left := wrap (2 * parent + 1)
      let right := wrap (2 * parent + 2)
      let smallest ← takeChild heap array n left parent
      let smallest ← takeChild heap array n right smallest
      if smallest ≠ parent then do
        let array ← pqSwap array parent smallest
        pqHeapify heap n fuel array smallest
      else
        pure array

/-! ### The operations -/

/-- `priority_queue`.  A slot that nothing has been written to is `none`, like one
that is NULL. -/
def priorityQueue (α : Type) : PQueueCells α :=
  let (arrays, nodes) := Mem.empty.malloc (List.replicate 100 none)
  { heap := Mem.empty
    arrays := arrays
    nodes := nodes
    size := 0
    capacity := 100 }

/-- The doubling in `pq_enqueue`.  `realloc` moves the slots to a new array and
frees the old one.  Once the capacity has wrapped around it fails, and the write
that follows goes through NULL. -/
def grow (cells : PQueueCells α) : Except Fault (PQueueCells α) :=
  let capacity := wrap (cells.capacity * 2)
  if capacity ≤ 0 then
    .error .nullPointer
  else do
    let array ← deref cells.arrays cells.nodes
    let arrays ← release cells.arrays cells.nodes
    let (arrays, nodes) := arrays.malloc
      (array ++ List.replicate (capacity.toNat - array.length) none)
    pure { cells with arrays := arrays, nodes := nodes, capacity := capacity }

/-- `pq_enqueue`.  The message at its end reads the node in front. -/
def pqEnqueue (cells : PQueueCells α) (item : α) (priority : Int) :
    Except Fault (PQueueCells α) := do
  let (heap, newNode) :=
    cells.heap.malloc { item := item, priority := wrap (-priority) }
  let cells ← (if cells.size = cells.capacity then cells.grow else pure cells)
  let array ← deref cells.arrays cells.nodes
  let array ← setSlot array cells.size (some newNode)
  let size := wrap (cells.size + 1)
  let array ← moveUp heap size.toNat array (size - 1)
  let _ ← nodeOf heap array 0
  let arrays ← update cells.arrays cells.nodes fun _ => array
  pure { cells with heap := heap, arrays := arrays, size := size }

/-- `pq_front` -/
def pqFront (cells : PQueueCells α) : Except Fault (Option α) :=
  if cells.size = 0 then
    .ok none
  else do
    let array ← deref cells.arrays cells.nodes
    let first ← nodeOf cells.heap array 0
    pure (some first.item)

/-- `pq_dequeue` -/
def pqDequeue (cells : PQueueCells α) :
    Except Fault (PQueueCells α × Option α) :=
  if cells.size = 0 then
    .ok (cells, none)
  else do
    let array ← deref cells.arrays cells.nodes
    let first ← nodeOf cells.heap array 0
    let n := cells.size
    let array ← pqSwap array 0 (n - 1)
    let last ← slotAt array (n - 1)
    let heap ← freeSlots cells.heap [last]
    let array ← setSlot array (n - 1) none
    let size := n - 1
    let array ←
      (if size = 0 then pure array
      else pqHeapify heap size size.toNat array 0)
    let arrays ← update cells.arrays cells.nodes fun _ => array
    pure ({ cells with heap := heap, arrays := arrays, size := size },
      some first.item)

/-- `pq_change_priority` -/
def pqChangePriority (cells : PQueueCells α) (index newPriority : Int) :
    Except Fault (PQueueCells α) :=
  if index < 0 ∨ index ≥ cells.size then
    .ok cells
  else do
    let array ← deref cells.arrays cells.nodes
    let node ← nodeOf cells.heap array index
    let slot ← slotAt array index
    let heap ← updatePtr cells.heap slot fun node =>
      { node with priority := wrap (-newPriority) }
    let array ←
      (if wrap (-newPriority) > node.priority then
        moveUp heap cells.size.toNat array index
      else if wrap (-newPriority) < node.priority then
        pqHeapify heap cells.size cells.size.toNat array index
      else
        pure array)
    let arrays ← update cells.arrays cells.nodes fun _ => array
    pure { cells with heap := heap, arrays := arrays }

/-- `pq_free`, with the nodes and the arrays that are left in memory.  An empty
queue is freed without its array. -/
def pqFree (cells : PQueueCells α) :
    Except Fault (Mem (PQueueNode α) × Mem (List (Option Addr))) :=
  if cells.size = 0 then
    .ok (cells.heap, cells.arrays)
  else do
    let array ← deref cells.arrays cells.nodes
    if array.length < cells.size then
      .error .danglingPointer
    else do
      let heap ← freeSlots cells.heap (array.take cells.size.toNat)
      let arrays ← release cells.arrays cells.nodes
      pure (heap, arrays)

/-- The slots in use. -/
def slots (cells : PQueueCells α) : List (Option Addr) :=
  ((cells.arrays.load cells.nodes).getD []).take cells.size.toNat

/-- The queue that the cells stand for: the nodes in place of the pointers. -/
def view (cells : PQueueCells α) : PriorityQueue α :=
  { capacity := cells.capacity
    nodes := cells.slots.filterMap fun slot => slot.bind cells.heap.load }

/-! ### Accesses to the slots in use -/

section

variable {heap : Mem (PQueueNode α)} {used : List Addr} {rest : List (Option Addr)}
  {nodes : List (PQueueNode α)}

/-- The pointers lead to these nodes. -/
def Leads (heap : Mem (PQueueNode α)) (used : List Addr)
    (nodes : List (PQueueNode α)) : Prop :=
  used.map heap.load = nodes.map some

theorem Leads.length (leads : Leads heap used nodes) :
    used.length = nodes.length := by
  simpa using congrArg List.length leads

theorem Leads.load (leads : Leads heap used nodes) {i : Nat} {a : Addr}
    (slot : used[i]? = some a) :
    ∃ node, nodes[i]? = some node ∧ heap.load a = some node := by
  have same := congrArg (fun loads => loads[i]?) leads
  simp only [List.getElem?_map, slot, Option.map_some] at same
  cases found : nodes[i]? with
  | none => simp [found] at same
  | some node =>
      rw [found, Option.map_some, Option.some.injEq] at same
      exact ⟨node, rfl, same⟩

theorem Leads.swap (leads : Leads heap used nodes) (i j : Nat) :
    Leads heap (swap used i j) (swap nodes i j) := by
  rw [Leads, ← swap_map, ← swap_map, leads]

/-- Pointers to cells that stay as they are lead to the same nodes. -/
theorem Leads.congr {heap' : Mem (PQueueNode α)} (leads : Leads heap used nodes)
    (same : ∀ a ∈ used, heap'.load a = heap.load a) : Leads heap' used nodes :=
  (List.map_congr_left same).trans leads

theorem slotAt_used {i : Nat} {a : Addr} (slot : used[i]? = some a) :
    slotAt (used.map some ++ rest) i = .ok (some a) := by
  obtain ⟨inside, _⟩ := List.getElem?_eq_some_iff.mp slot
  rw [slotAt, if_neg (by omega), Int.toNat_natCast,
    List.getElem?_append_left (by simpa using inside), List.getElem?_map, slot]
  rfl

theorem setSlot_used {i : Nat} (inside : i < used.length) (a : Addr) :
    setSlot (used.map some ++ rest) i (some a) =
      .ok ((used.set i a).map some ++ rest) := by
  have bound : ¬ ((i : Int) < 0 ∨
      ((used.map some ++ rest).length : Int) ≤ i) := by
    rw [List.length_append, List.length_map]
    omega
  rw [setSlot, if_neg bound, Int.toNat_natCast,
    List.set_append_left _ _ (by simpa using inside), List.map_set]

theorem nodeOf_used (leads : Leads heap used nodes) {i : Nat}
    {node : PQueueNode α} (found : nodes[i]? = some node) :
    nodeOf heap (used.map some ++ rest) i = .ok node := by
  obtain ⟨inside, _⟩ := List.getElem?_eq_some_iff.mp found
  have slot := List.getElem?_eq_getElem (leads.length ▸ inside)
  obtain ⟨node', found', live⟩ := leads.load slot
  rw [found, Option.some.injEq] at found'
  rw [nodeOf, slotAt_used slot, ok_bind, derefPtr, deref_of_load live, found']

theorem nodeOf_first (leads : Leads heap used nodes) {node : PQueueNode α}
    (found : nodes[0]? = some node) :
    nodeOf heap (used.map some ++ rest) 0 = .ok node :=
  nodeOf_used leads found

/-- `pq_swap` of two slots in use exchanges their pointers. -/
theorem pqSwap_used {i j : Nat} (first : i < used.length)
    (second : j < used.length) :
    pqSwap (used.map some ++ rest) i j =
      .ok ((swap used i j).map some ++ rest) := by
  have left := List.getElem?_eq_getElem first
  have right := List.getElem?_eq_getElem second
  rw [pqSwap, slotAt_used left, ok_bind, slotAt_used right, ok_bind,
    setSlot_used first, ok_bind, setSlot_used (by simpa using second),
    BinaryHeap.swap, left, right]

/-! ### The loops -/

/-- An array whose slots in use were permuted, so that they lead to these nodes. -/
def Permuted (heap : Mem (PQueueNode α)) (used : List Addr)
    (rest : List (Option Addr)) (nodes : List (PQueueNode α))
    (result : Except Fault (List (Option Addr))) : Prop :=
  ∃ used', result = .ok (used'.map some ++ rest) ∧ used'.Perm used ∧
    Leads heap used' nodes

/-- Permuting further. -/
theorem Permuted.of_perm {used' : List Addr}
    {result : Except Fault (List (Option Addr))}
    (permuted : Permuted heap used' rest nodes result)
    (perm : used'.Perm used) : Permuted heap used rest nodes result := by
  obtain ⟨used'', run, perm', leads⟩ := permuted
  exact ⟨used'', run, perm'.trans perm, leads⟩

/-- The way up through the pointers is that of the nodes. -/
theorem moveUp_used (leads : Leads heap used nodes) {i : Nat}
    (inside : i < used.length) {fuel : Nat} (enough : i < fuel) :
    Permuted heap used rest (siftUp outranks nodes i)
      (moveUp heap fuel (used.map some ++ rest) i) := by
  induction fuel generalizing used nodes i with
  | zero => omega
  | succ fuel ih =>
      rw [moveUp, siftUp]
      by_cases positive : 0 < i
      · have above : (i - 1) / 2 < used.length := by omega
        have positive' : (i : Int) > 0 := by omega
        have child : ((i : Int) - 1).tdiv 2 = ((i - 1) / 2 : Nat) := by
          rw [Int.tdiv_eq_ediv_of_nonneg (by omega)]
          omega
        have lower := List.getElem?_eq_getElem (leads.length ▸ inside)
        have upper := List.getElem?_eq_getElem (leads.length ▸ above)
        rw [if_pos positive, if_pos positive', child, nodeOf_used leads lower,
          ok_bind, nodeOf_used leads upper, ok_bind, beforeAt, lower, upper]
        simp only [outranks, decide_eq_true_eq]
        split
        · rw [pqSwap_used inside above, ok_bind]
          exact (ih (leads.swap i _) (by rwa [swap_length]) (by omega)).of_perm
            (swap_perm ..)
        · exact ⟨used, rfl, List.Perm.refl _, leads⟩
      · rw [if_neg positive, if_neg (by omega)]
        exact ⟨used, rfl, List.Perm.refl _, leads⟩

/-- A test through the pointers is one of the nodes. -/
theorem takeChild_used (leads : Leads heap used nodes) (child : Nat)
    {smallest : Nat} (inside : smallest < nodes.length) :
    takeChild heap (used.map some ++ rest) nodes.length child smallest =
      .ok (better outranks nodes nodes.length child smallest : Nat) := by
  rw [takeChild, better]
  by_cases bound : child < nodes.length
  · have lower := List.getElem?_eq_getElem bound
    have upper := List.getElem?_eq_getElem inside
    rw [if_pos (by omega), nodeOf_used leads lower, nodeOf_used leads upper,
      ok_bind, ok_bind, beforeAt, lower, upper]
    simp only [bound, decide_true, Bool.true_and, outranks, decide_eq_true_eq,
      pure_eq_ok]
    split <;> rfl
  · rw [if_neg (by omega)]
    simp [bound]

/-- So is the way down, as long as the index of no child wraps around. -/
theorem pqHeapify_used (leads : Leads heap used nodes)
    (small : nodes.length < 2 ^ 30) {i : Nat} (inside : i < nodes.length)
    {fuel : Nat} (enough : nodes.length ≤ fuel + i) :
    Permuted heap used rest (siftDown outranks nodes nodes.length i)
      (pqHeapify heap nodes.length fuel (used.map some ++ rest) i) := by
  induction fuel generalizing used nodes i with
  | zero => omega
  | succ fuel ih =>
      have left : wrap (2 * (i : Int) + 1) = (2 * i + 1 : Nat) := by
        rw [wrap_of_inRange ⟨by omega, by omega⟩]
        omega
      have right : wrap (2 * (i : Int) + 2) = (2 * i + 2 : Nat) := by
        rw [wrap_of_inRange ⟨by omega, by omega⟩]
        omega
      have middle := better_lt outranks nodes (2 * i + 1) inside
      have chosen : better outranks nodes nodes.length (2 * i + 2)
          (better outranks nodes nodes.length (2 * i + 1) i) =
            bestOf outranks nodes nodes.length i := rfl
      rw [pqHeapify, siftDown, left, right,
        takeChild_used leads _ inside, ok_bind, takeChild_used leads _ middle,
        ok_bind, chosen]
      by_cases moves : bestOf outranks nodes nodes.length i ≠ i
      · obtain ⟨lower, inside'⟩ :=
          (bestOf_cases outranks nodes nodes.length i).resolve_left moves
        have length := swap_length nodes i (bestOf outranks nodes nodes.length i)
        rw [if_pos moves, if_pos (by omega),
          pqSwap_used (leads.length ▸ inside) (leads.length ▸ inside'), ok_bind]
        have enough' : (swap nodes i (bestOf outranks nodes nodes.length i)).length ≤
            fuel + bestOf outranks nodes nodes.length i := by
          rw [length]
          omega
        have deeper := ih (leads.swap i (bestOf outranks nodes nodes.length i))
          (length.symm ▸ small) (length.symm ▸ inside') enough'
        rw [length] at deeper
        exact deeper.of_perm (swap_perm ..)
      · rw [if_neg moves, if_neg (by omega)]
        exact ⟨used, rfl, List.Perm.refl _, leads⟩

/-- The end of `pq_dequeue`: an empty heap is left alone. -/
theorem pqHeapify_root (leads : Leads heap used nodes)
    (small : nodes.length < 2 ^ 30) :
    Permuted heap used rest
      (if nodes.isEmpty then nodes else siftDown outranks nodes nodes.length 0)
      (if (used.length : Int) = 0 then pure (used.map some ++ rest)
      else pqHeapify heap used.length used.length (used.map some ++ rest) 0) := by
  have length := leads.length
  cases nodes with
  | nil =>
      rw [List.length_nil] at length
      rw [if_pos (show (used.length : Int) = 0 by omega)]
      exact ⟨used, rfl, List.Perm.refl _, leads⟩
  | cons first others =>
      rw [List.length_cons] at length
      rw [if_neg (show ¬ (used.length : Int) = 0 by omega), leads.length]
      exact pqHeapify_used leads small (Nat.succ_pos _) (le_refl _)

end

/-! ### The representation -/

/-- The cells represent the queue: the first slots of the array lead to its nodes,
there are no others, and no other array. -/
structure Laid (cells : PQueueCells α) (pq : PriorityQueue α)
    (used : List Addr) (rest : List (Option Addr)) : Prop where
  array : cells.arrays.load cells.nodes = some (used.map some ++ rest)
  leads : Leads cells.heap used pq.nodes
  owned : Exactly cells.heap used
  arrays : Exactly cells.arrays [cells.nodes]
  size : cells.size = used.length
  capacity : cells.capacity = used.length + rest.length
  same : cells.capacity = pq.capacity
  positive : 1 ≤ cells.capacity

/-- Whatever else the array holds. -/
def Represents (cells : PQueueCells α) (pq : PriorityQueue α) : Prop :=
  ∃ used rest, Laid cells pq used rest

theorem Represents.create :
    Represents (priorityQueue α) (OsSim.priorityQueue α) :=
  ⟨[], List.replicate 100 none,
    { array := Mem.load_malloc_self _ _
      leads := rfl
      owned := Exactly.empty
      arrays := Exactly.empty.malloc _
      size := rfl
      capacity := rfl
      same := rfl
      positive := show (1 : Int) ≤ 100 by decide }⟩

/-- Writing to the slot behind the first ones. -/
theorem setSlot_at (before : List (Option Addr)) (old slot : Option Addr)
    (after : List (Option Addr)) :
    setSlot (before ++ old :: after) before.length slot =
      .ok (before ++ slot :: after) := by
  have bound : ¬ ((before.length : Int) < 0 ∨
      ((before ++ old :: after).length : Int) ≤ before.length) := by
    rw [List.length_append, List.length_cons]
    omega
  rw [setSlot, if_neg bound, Int.toNat_natCast, List.set_append_right _ _ (le_refl _),
    Nat.sub_self, List.set_cons_zero]

namespace Laid

variable {cells : PQueueCells α} {pq : PriorityQueue α} {used : List Addr}
  {rest : List (Option Addr)}

theorem size_eq (laid : Laid cells pq used rest) :
    cells.size = pq.nodes.length := by
  rw [laid.size, laid.leads.length]

theorem size_of_nil (laid : Laid cells pq used rest) (nodes : pq.nodes = []) :
    cells.size = 0 := by
  rw [laid.size_eq, nodes, List.length_nil]
  rfl

theorem size_of_cons (laid : Laid cells pq used rest) {first : PQueueNode α}
    {others : List (PQueueNode α)} (nodes : pq.nodes = first :: others) :
    cells.size = others.length + 1 := by
  rw [laid.size_eq, nodes, List.length_cons]
  rfl

theorem deref_array (laid : Laid cells pq used rest) :
    deref cells.arrays cells.nodes = .ok (used.map some ++ rest) :=
  deref_of_load laid.array

/-- The array is written back, with as many slots as before. -/
theorem store (laid : Laid cells pq used rest) {heap : Mem (PQueueNode α)}
    {used' : List Addr} {rest' : List (Option Addr)} {nodes : List (PQueueNode α)}
    (leads : Leads heap used' nodes) (owned : Exactly heap used')
    (length : used'.length + rest'.length = used.length + rest.length)
    {size : Int} (counted : size = used'.length) :
    ∃ arrays, update cells.arrays cells.nodes
        (fun _ => used'.map some ++ rest') = .ok arrays ∧
      Represents { cells with heap := heap, arrays := arrays, size := size }
        { pq with nodes := nodes } := by
  refine ⟨_, update_of_load laid.array _, used', rest', ?_⟩
  exact
    { array := Mem.load_put_self laid.array _
      leads := leads
      owned := owned
      arrays := laid.arrays.put laid.array _
      size := counted
      capacity := by
        have capacity := laid.capacity
        dsimp only
        omega
      same := laid.same
      positive := laid.positive }

/-- `realloc` keeps the pointers and makes room for as many more. -/
theorem grow (laid : Laid cells pq used []) (small : cells.capacity < 2 ^ 30) :
    ∃ cells', cells.grow = .ok cells' ∧ cells'.heap = cells.heap ∧
      Laid cells' { pq with capacity := pq.capacity * 2 } used
        (List.replicate used.length none) := by
  have positive := laid.positive
  have capacity := laid.capacity
  rw [List.length_nil] at capacity
  have doubled : wrap (cells.capacity * 2) = cells.capacity * 2 :=
    wrap_of_inRange ⟨by omega, by omega⟩
  obtain ⟨released, gone⟩ := laid.arrays.release
  rw [PQueueCells.grow, doubled]
  dsimp only
  rw [if_neg (by omega), laid.deref_array, ok_bind, released, ok_bind]
  refine ⟨_, rfl, rfl, ?_⟩
  have added : (cells.capacity * 2).toNat - (used.map some ++ []).length =
      used.length := by
    rw [List.append_nil, List.length_map]
    omega
  rw [added, List.append_nil]
  exact
    { array := Mem.load_malloc_self _ _
      leads := laid.leads
      owned := laid.owned
      arrays := gone.malloc _
      size := laid.size
      capacity := by
        rw [List.length_replicate]
        dsimp only
        omega
      same := by
        dsimp only
        rw [laid.same]
      positive := by
        dsimp only
        omega }

/-- Before an insertion there is a slot behind those in use. -/
theorem room (laid : Laid cells pq used rest) (small : used.length < 2 ^ 30) :
    ∃ cells' slot rest',
      (if cells.size = cells.capacity then cells.grow else pure cells) =
        .ok cells' ∧
      cells'.heap = cells.heap ∧
      Laid cells'
        { pq with
          capacity :=
            if pqSize pq = pq.capacity then pq.capacity * 2 else pq.capacity }
        used (slot :: rest') := by
  have size : pqSize pq = cells.size := by rw [pqSize, laid.size_eq]
  have positive := laid.positive
  have used_eq := laid.size
  have capacity := laid.capacity
  rw [size, ← laid.same]
  by_cases full : cells.size = cells.capacity
  · rw [if_pos full, if_pos full]
    cases rest with
    | cons slot rest =>
        rw [List.length_cons] at capacity
        omega
    | nil =>
        rw [List.length_nil] at capacity
        obtain ⟨cells', run, heap, laid'⟩ := laid.grow (by omega)
        refine ⟨cells', none, List.replicate (used.length - 1) none, run, heap, ?_⟩
        rw [← List.replicate_succ,
          Nat.sub_add_cancel (show 1 ≤ used.length by omega), laid.same]
        exact laid'
  · rw [if_neg full, if_neg full]
    cases rest with
    | nil =>
        rw [List.length_nil] at capacity
        omega
    | cons slot rest =>
        refine ⟨cells, slot, rest, rfl, rfl, ?_⟩
        rw [laid.same]
        exact laid

end Laid

/-! ### The operations on the representation -/

/-- A new node at the end. -/
theorem leads_malloc {heap : Mem (PQueueNode α)} {used : List Addr}
    {nodes : List (PQueueNode α)} (leads : Leads heap used nodes)
    (owned : Exactly heap used) (node : PQueueNode α) :
    Leads (heap.malloc node).1 (used ++ [(heap.malloc node).2])
      (nodes ++ [node]) := by
  have front : used.map (heap.malloc node).1.load = nodes.map some := by
    refine leads.congr fun a member => ?_
    obtain ⟨old, live⟩ := owned.load member
    rw [Mem.load_malloc_of_live live, live]
  rw [Leads, List.map_append, List.map_append, front, List.map_singleton,
    List.map_singleton, Mem.load_malloc_self]

/-- Without the last pointer. -/
theorem leads_dropLast {heap heap' : Mem (PQueueNode α)} {used : List Addr}
    {nodes : List (PQueueNode α)} (leads : Leads heap used nodes)
    (same : ∀ a ∈ used.dropLast, heap'.load a = heap.load a) :
    Leads heap' used.dropLast nodes.dropLast := by
  rw [Leads, List.map_congr_left same, List.map_dropLast, leads,
    List.map_dropLast]

/-- After the exchange of the first slot with the last one, the last pointer is
freed, and the others lead to the other nodes. -/
theorem leads_ends {heap : Mem (PQueueNode α)} {used : List Addr}
    {nodes : List (PQueueNode α)} (leads : Leads heap used nodes)
    (owned : Exactly heap used) (positive : 0 < used.length) :
    ∃ used' last, swap used 0 (used.length - 1) = used' ++ [last] ∧
      Exactly heap (last :: used') ∧
      Leads (heap.drop last) used' (swap nodes 0 (nodes.length - 1)).dropLast := by
  have nonempty : swap used 0 (used.length - 1) ≠ [] := by
    rwa [← List.length_pos_iff, swap_length]
  have split := (List.dropLast_append_getLast nonempty).symm
  have owned' : Exactly heap ((swap used 0 (used.length - 1)).getLast nonempty ::
      (swap used 0 (used.length - 1)).dropLast) := by
    refine owned.perm ((swap_perm used 0 (used.length - 1)).symm.trans ?_)
    nth_rewrite 1 [split]
    exact List.perm_append_singleton _ _
  refine ⟨_, _, split, owned', ?_⟩
  rw [← leads.length]
  refine leads_dropLast (leads.swap 0 (used.length - 1)) fun a member => ?_
  have fresh := (List.nodup_cons.mp owned'.nodup).1
  exact Mem.load_drop_of_ne _ fun equal => fresh (equal ▸ member)

/-- One node is overwritten. -/
theorem leads_put {heap : Mem (PQueueNode α)} {used : List Addr}
    {nodes : List (PQueueNode α)} (leads : Leads heap used nodes)
    (owned : Exactly heap used) {i : Nat} {a : Addr} (slot : used[i]? = some a)
    (node : PQueueNode α) : Leads (heap.put a node) used (nodes.set i node) := by
  obtain ⟨old, _, live⟩ := leads.load slot
  obtain ⟨inside, here⟩ := List.getElem?_eq_some_iff.mp slot
  rw [Leads, List.map_set, ← leads]
  apply List.ext_getElem?
  intro j
  rw [List.getElem?_map, List.getElem?_set, List.getElem?_map, List.length_map]
  by_cases atIndex : i = j
  · rw [if_pos atIndex, ← atIndex, if_pos inside, slot, Option.map_some,
      Mem.load_put_self live]
  · rw [if_neg atIndex]
    cases other : used[j]? with
    | none => rfl
    | some b =>
        obtain ⟨inside', there⟩ := List.getElem?_eq_some_iff.mp other
        have apart : b ≠ a := by
          rw [← here, ← there]
          exact fun equal => atIndex
            ((owned.nodup.getElem_inj_iff).mp equal).symm
        rw [Option.map_some, Option.map_some, Mem.load_put_of_ne _ apart]

namespace Represents

variable {cells : PQueueCells α} {pq : PriorityQueue α}

/-- `pq_enqueue` on the cells does what it does on the nodes. -/
theorem enqueue (represents : Represents cells pq)
    (small : pq.nodes.length < 2 ^ 30 - 1) (item : α) (priority : Int) :
    ∃ cells', cells.pqEnqueue item priority = .ok cells' ∧
      Represents cells' (pq.insert item priority) := by
  obtain ⟨used, rest, laid⟩ := represents
  have length := laid.leads.length
  obtain ⟨grown, slot, rest', run, heap, laid'⟩ := laid.room (by omega)
  let node : PQueueNode α := { item := item, priority := wrap (-priority) }
  let new := (cells.heap.malloc node).2
  have leads := leads_malloc laid.leads laid.owned node
  have owned : Exactly (cells.heap.malloc node).1 (used ++ [new]) :=
    (laid.owned.malloc node).perm (List.perm_append_singleton _ _).symm
  have longer : (used ++ [new]).length = used.length + 1 := by simp
  have written : setSlot (used.map some ++ slot :: rest') used.length
      (some new) = .ok ((used ++ [new]).map some ++ rest') := by
    have at' := setSlot_at (used.map some) slot (some new) rest'
    rw [List.length_map] at at'
    simpa using at'
  have size : wrap ((used.length : Int) + 1) = (used.length + 1 : Nat) := by
    rw [wrap_of_inRange ⟨by omega, by omega⟩]
    rfl
  have child : ((used.length + 1 : Nat) : Int) - 1 = used.length := by omega
  have climbed : Permuted (cells.heap.malloc node).1 (used ++ [new]) rest'
      (siftUp outranks (pq.nodes ++ [node]) used.length)
      (moveUp (cells.heap.malloc node).1 (used.length + 1)
        ((used ++ [new]).map some ++ rest') used.length) :=
    moveUp_used leads (longer ▸ Nat.lt_succ_self _) (Nat.lt_succ_self _)
  obtain ⟨used', climb, perm, leads'⟩ := climbed
  have nonempty : 0 < (siftUp outranks (pq.nodes ++ [node])
      used.length).length := by
    rw [(siftUp_perm ..).length_eq, List.length_append, List.length_singleton]
    omega
  have balance : used'.length + rest'.length =
      used.length + (slot :: rest').length := by
    rw [perm.length_eq, longer, List.length_cons]
    omega
  have counted : ((used.length + 1 : Nat) : Int) = used'.length := by
    rw [perm.length_eq, longer]
  obtain ⟨arrays, stored, represents'⟩ :=
    laid'.store leads' (owned.perm perm.symm) balance counted
  have value : pq.insert item priority =
      { capacity :=
          if pqSize pq = pq.capacity then pq.capacity * 2 else pq.capacity
        nodes := siftUp outranks (pq.nodes ++ [node]) used.length } := by
    rw [length]
    rfl
  refine ⟨_, ?_, value ▸ represents'⟩
  rw [PQueueCells.pqEnqueue]
  dsimp only
  rw [run, ok_bind, laid'.deref_array, ok_bind, laid'.size, written, ok_bind,
    size, child, Int.toNat_natCast, climb, ok_bind,
    nodeOf_first leads' (List.getElem?_eq_getElem nonempty), ok_bind, stored]
  rfl

/-- So does `pq_front`. -/
theorem front (represents : Represents cells pq) :
    cells.pqFront = .ok (OsSim.pqFront pq) := by
  obtain ⟨used, rest, laid⟩ := represents
  rw [PQueueCells.pqFront, OsSim.pqFront]
  cases nodes : pq.nodes with
  | nil => rw [if_pos (laid.size_of_nil nodes)]
  | cons first others =>
      have size := laid.size_of_cons nodes
      have found : pq.nodes[0]? = some first := by rw [nodes]; rfl
      rw [if_neg (by omega), laid.deref_array, ok_bind,
        nodeOf_first laid.leads found, ok_bind]
      rfl

/-- So does `pq_dequeue`, which frees the node. -/
theorem dequeue (represents : Represents cells pq)
    (small : pq.nodes.length < 2 ^ 30) :
    ∃ cells', cells.pqDequeue = .ok (cells', pq.removeFirst.2) ∧
      Represents cells' pq.removeFirst.1 := by
  obtain ⟨used, rest, laid⟩ := id represents
  rw [PQueueCells.pqDequeue, PriorityQueue.removeFirst]
  cases nodes : pq.nodes with
  | nil =>
      rw [if_pos (laid.size_of_nil nodes)]
      exact ⟨cells, rfl, represents⟩
  | cons first others =>
      have size := laid.size_of_cons nodes
      have found : pq.nodes[0]? = some first := by rw [nodes]; rfl
      have length := laid.leads.length
      rw [nodes, List.length_cons] at length
      rw [nodes, List.length_cons] at small
      obtain ⟨used', last, split, owned, leads⟩ :=
        leads_ends laid.leads laid.owned (by omega)
      obtain ⟨released, owned'⟩ := owned.release
      have length' : used'.length = others.length := by
        have same := congrArg List.length split
        rw [swap_length, List.length_append, List.length_singleton] at same
        omega
      have index : cells.size - 1 = (used'.length : Nat) := by omega
      have exchanged : pqSwap (used.map some ++ rest) 0 (used'.length : Nat) =
          .ok ((used' ++ [last]).map some ++ rest) := by
        have ends : pqSwap (used.map some ++ rest) (0 : Nat)
            (used.length - 1 : Nat) =
              .ok ((swap used 0 (used.length - 1)).map some ++ rest) :=
          pqSwap_used (by omega) (by omega)
        rw [split, show used.length - 1 = used'.length by omega] at ends
        exact ends
      have atEnd : slotAt ((used' ++ [last]).map some ++ rest) (used'.length : Nat) =
          .ok (some last) := slotAt_used (by simp)
      have cleared : setSlot ((used' ++ [last]).map some ++ rest)
          (used'.length : Nat) none = .ok (used'.map some ++ none :: rest) := by
        have at' := setSlot_at (used'.map some) (some last) none rest
        rw [List.length_map] at at'
        simpa using at'
      have fewer : (swap (first :: others) 0 (others.length + 1 - 1)).dropLast.length <
          2 ^ 30 := by
        rw [List.length_dropLast, swap_length, List.length_cons]
        omega
      rw [nodes, List.length_cons] at leads
      have sifted : Permuted (cells.heap.drop last) used' (none :: rest) _ _ :=
        pqHeapify_root leads fewer
      obtain ⟨used'', sift, perm, leads'⟩ := sifted
      have balance : used''.length + (none :: rest).length =
          used.length + rest.length := by
        rw [perm.length_eq, List.length_cons]
        omega
      have counted : ((used'.length : Nat) : Int) = used''.length := by
        rw [perm.length_eq]
      obtain ⟨arrays, stored, represents'⟩ :=
        laid.store leads' (owned'.perm perm.symm) balance counted
      refine ⟨_, ?_, represents'⟩
      rw [if_neg (by omega), laid.deref_array, ok_bind,
        nodeOf_first laid.leads found, ok_bind]
      dsimp only
      rw [index, exchanged, ok_bind, atEnd, ok_bind, freeSlots, released, ok_bind,
        freeSlots, ok_bind, cleared, ok_bind, Int.toNat_natCast, sift, ok_bind,
        stored]
      rfl

/-- So does `pq_change_priority`. -/
theorem changePriority (represents : Represents cells pq)
    (small : pq.nodes.length < 2 ^ 30) (index newPriority : Int) :
    ∃ cells', cells.pqChangePriority index newPriority = .ok cells' ∧
      Represents cells' (pq.rekey index newPriority) := by
  obtain ⟨used, rest, laid⟩ := id represents
  have size : pqSize pq = cells.size := by rw [pqSize, laid.size_eq]
  rw [PQueueCells.pqChangePriority]
  by_cases outside : index < 0 ∨ index ≥ cells.size
  · have value : pq.rekey index newPriority = pq := by
      rw [PriorityQueue.rekey, if_pos (size ▸ outside)]
    rw [if_pos outside, value]
    exact ⟨cells, rfl, represents⟩
  · rw [not_or] at outside
    obtain ⟨i, rfl⟩ := Int.eq_ofNat_of_zero_le (Int.not_lt.mp outside.1)
    have length := laid.leads.length
    have inside : i < used.length := by
      have size := laid.size
      omega
    have slot := List.getElem?_eq_getElem inside
    obtain ⟨node, found, live⟩ := laid.leads.load slot
    let changed : PQueueNode α := { node with priority := wrap (-newPriority) }
    have leads := leads_put laid.leads laid.owned slot changed
    have owned := laid.owned.put live changed
    have small' : (pq.nodes.set i changed).length < 2 ^ 30 := by
      rwa [List.length_set]
    have moved : Permuted (cells.heap.put used[i] changed) used rest
        (if wrap (-newPriority) > node.priority then
          siftUp outranks (pq.nodes.set i changed) i
        else if wrap (-newPriority) < node.priority then
          siftDown outranks (pq.nodes.set i changed)
            (pq.nodes.set i changed).length i
        else pq.nodes.set i changed)
        (if wrap (-newPriority) > node.priority then
          moveUp (cells.heap.put used[i] changed) used.length
            (used.map some ++ rest) i
        else if wrap (-newPriority) < node.priority then
          pqHeapify (cells.heap.put used[i] changed) used.length used.length
            (used.map some ++ rest) i
        else pure (used.map some ++ rest)) := by
      split
      · exact moveUp_used leads inside inside
      · split
        · rw [leads.length]
          exact pqHeapify_used leads small' (leads.length ▸ inside)
            (Nat.le_add_right _ _)
        · exact ⟨used, rfl, List.Perm.refl _, leads⟩
    obtain ⟨used', run, perm, leads'⟩ := moved
    have balance : used'.length + rest.length = used.length + rest.length := by
      rw [perm.length_eq]
    have counted : ((used.length : Nat) : Int) = used'.length := by
      rw [perm.length_eq]
    obtain ⟨arrays, stored, represents'⟩ :=
      laid.store leads' (owned.perm perm.symm) balance counted
    have value := PriorityQueue.rekey_nodes (Int.natCast_nonneg i) found newPriority
    refine ⟨_, ?_, value ▸ represents'⟩
    rw [if_neg (not_or.mpr outside), laid.deref_array, ok_bind,
      nodeOf_used laid.leads found, ok_bind, slotAt_used slot, ok_bind, updatePtr,
      update_of_load live, ok_bind, laid.size, Int.toNat_natCast, run, ok_bind, stored]
    rfl

/-- The slots in use lead to the nodes, each to its own. -/
theorem slots_spec (represents : Represents cells pq) :
    cells.view = pq ∧ cells.size = cells.slots.length ∧ none ∉ cells.slots ∧
      Exactly cells.heap cells.slots.reduceOption := by
  obtain ⟨used, rest, laid⟩ := represents
  have slots : cells.slots = used.map some := by
    rw [PQueueCells.slots, laid.array, laid.size, Int.toNat_natCast,
      Option.getD_some, List.take_left' (List.length_map ..)]
  have nodes : (used.map some).filterMap (fun slot => slot.bind cells.heap.load) =
      pq.nodes := by
    have loads := congrArg List.reduceOption laid.leads
    rw [reduceOption_map_some, List.reduceOption, List.filterMap_map] at loads
    rw [List.filterMap_map]
    exact loads
  rw [PQueueCells.view, slots, nodes, reduceOption_map_some, laid.same, laid.size,
    List.length_map]
  exact ⟨rfl, rfl, by simp, laid.owned⟩

/-- `pq_free` frees every node once.  It frees the array too, unless the queue is
empty. -/
theorem free (represents : Represents cells pq) :
    ∃ heap arrays, cells.pqFree = .ok (heap, arrays) ∧
      (∀ a, heap.load a = none) ∧
      ∀ a, arrays.load a ≠ none ↔ a = cells.nodes ∧ cells.size = 0 := by
  obtain ⟨used, rest, laid⟩ := represents
  have size := laid.size
  rw [PQueueCells.pqFree]
  by_cases empty : cells.size = 0
  · rw [if_pos empty]
    have unused : used = [] := List.length_eq_zero_iff.mp (by omega)
    refine ⟨_, _, rfl, (unused ▸ laid.owned).drained, fun a => ?_⟩
    rw [laid.arrays.live, List.mem_singleton, and_iff_left empty]
  · obtain ⟨released, gone⟩ := laid.arrays.release
    have bound : ¬ ((used.map some ++ rest).length : Int) < cells.size := by
      rw [List.length_append, List.length_map]
      omega
    have owned : Exactly cells.heap ((used.map some).reduceOption ++ []) := by
      rw [reduceOption_map_some, List.append_nil]
      exact laid.owned
    obtain ⟨heap, freed, drained⟩ := owned.freeSlots_eq
    refine ⟨heap, cells.arrays.drop cells.nodes, ?_, drained.drained, fun a => ?_⟩
    · rw [if_neg empty, laid.deref_array, ok_bind, if_neg bound, size,
        Int.toNat_natCast, List.take_left' (List.length_map ..), freed, ok_bind,
        released, ok_bind]
      rfl
    · rw [gone.live]
      simp [empty]

end Represents

end PQueueCells

/-! ### Sequences of operations -/

/-- An operation on a priority queue. -/
inductive PqOp (α : Type) where
  | enqueue (item : α) (priority : Int)
  | dequeue
  | front
  | size
  | changePriority (index newPriority : Int)
deriving Repr, DecidableEq

/-- Whether an operation adds a node. -/
def PqOp.adds {α : Type} : PqOp α → Bool
  | .enqueue _ _ => true
  | _ => false

/-- What an operation on a priority queue returns. -/
inductive PqAnswer (α : Type) where
  | done
  | item (item : Option α)
  | size (size : Int)
deriving Repr, DecidableEq

/-- One operation on a queue, with its answer. -/
def PriorityQueue.answer {α : Type} (pq : PriorityQueue α) :
    PqOp α → Except Fault (PriorityQueue α × PqAnswer α)
  | .enqueue item priority => .ok (pq.insert item priority, .done)
  | .dequeue => .ok (pq.removeFirst.1, .item pq.removeFirst.2)
  | .front => .ok (pq, .item (pqFront pq))
  | .size => .ok (pq, .size (pqSize pq))
  | .changePriority index newPriority =>
      .ok (pq.rekey index newPriority, .done)

/-- The same operation on the cells. -/
def PQueueCells.answer {α : Type} (cells : PQueueCells α) :
    PqOp α → Except Fault (PQueueCells α × PqAnswer α)
  | .enqueue item priority => do
      let cells ← cells.pqEnqueue item priority
      pure (cells, .done)
  | .dequeue => do
      let (cells, item) ← cells.pqDequeue
      pure (cells, .item item)
  | .front => do
      let item ← cells.pqFront
      pure (cells, .item item)
  | .size => .ok (cells, .size cells.size)
  | .changePriority index newPriority => do
      let cells ← cells.pqChangePriority index newPriority
      pure (cells, .done)

/-- There is room for the nodes that the operations add. -/
def PQueueCells.Fits {α : Type} (ops : List (PqOp α)) (cells : PQueueCells α)
    (pq : PriorityQueue α) : Prop :=
  cells.Represents pq ∧ pq.nodes.length + ops.countP PqOp.adds < 2 ^ 30

/-- One operation answers alike on the cells and on the nodes. -/
theorem fits_step {α : Type} {op : PqOp α} {ops : List (PqOp α)}
    {cells : PQueueCells α} {pq : PriorityQueue α}
    (fits : PQueueCells.Fits (op :: ops) cells pq) :
    ∃ cells' pq' answer, cells.answer op = .ok (cells', answer) ∧
      pq.answer op = .ok (pq', answer) ∧ PQueueCells.Fits ops cells' pq' := by
  obtain ⟨represents, room⟩ := fits
  rw [List.countP_cons] at room
  cases op with
  | enqueue item priority =>
      have one : (if (PqOp.enqueue item priority).adds then 1 else 0) = 1 := rfl
      rw [one] at room
      obtain ⟨cells', run, represents'⟩ :=
        represents.enqueue (by omega) item priority
      refine ⟨cells', _, .done, ?_, rfl, represents', ?_⟩
      · rw [PQueueCells.answer, run]
        rfl
      · rw [(PriorityQueue.insert_perm ..).length_eq, List.length_cons]
        omega
  | dequeue =>
      obtain ⟨cells', run, represents'⟩ := represents.dequeue (by omega)
      refine ⟨cells', _, .item pq.removeFirst.2, ?_, rfl, represents', ?_⟩
      · rw [PQueueCells.answer, run]
        rfl
      · have fewer := PriorityQueue.length_removeFirst_le pq
        omega
  | front =>
      refine ⟨cells, _, .item (pqFront pq), ?_, rfl, represents, by omega⟩
      rw [PQueueCells.answer, represents.front]
      rfl
  | size =>
      obtain ⟨used, rest, laid⟩ := id represents
      refine ⟨cells, _, .size (pqSize pq), ?_, rfl, represents, by omega⟩
      rw [PQueueCells.answer, laid.size_eq]
      rfl
  | changePriority index newPriority =>
      obtain ⟨cells', run, represents'⟩ :=
        represents.changePriority (by omega) index newPriority
      refine ⟨cells', _, .done, ?_, rfl, represents', ?_⟩
      · rw [PQueueCells.answer, run]
        rfl
      · rw [PriorityQueue.length_rekey]
        omega

/-- The nodes and pointers of the priority queue refine the queue of nodes.  From
`priority_queue` on, every sequence of operations with fewer than 2^30 insertions
returns, with the answers of the queue of nodes, and touches no slot outside the
array.  The nodes that are allocated are those that the slots in use point to.
`pq_free` frees each of them once, and the array unless the queue is empty. -/
theorem pq_cells_refine {α : Type} (ops : List (PqOp α))
    (fits : ops.countP PqOp.adds < 2 ^ 30) :
    ∃ cells pq answers,
      outputs PQueueCells.answer (.priorityQueue α) ops = .ok (cells, answers) ∧
      outputs PriorityQueue.answer (priorityQueue α) ops = .ok (pq, answers) ∧
      cells.view = pq ∧ cells.size = cells.slots.length ∧
      none ∉ cells.slots ∧ cells.slots.reduceOption.Nodup ∧
      (∀ a, cells.heap.load a ≠ none ↔ some a ∈ cells.slots) ∧
      ∃ heap arrays, cells.pqFree = .ok (heap, arrays) ∧
        (∀ a, heap.load a = none) ∧
        ∀ a, arrays.load a ≠ none ↔ a = cells.nodes ∧ cells.size = 0 := by
  have start : PQueueCells.Fits ops (.priorityQueue α) (priorityQueue α) :=
    ⟨.create, by simpa [priorityQueue] using fits⟩
  have steps : ∀ op ops (cells : PQueueCells α) (pq : PriorityQueue α),
      PQueueCells.Fits (op :: ops) cells pq → _ := fun _ _ _ _ fits => fits_step fits
  obtain ⟨cells, pq, answers, run, run', represents, _⟩ :=
    outputs_related steps start
  obtain ⟨view, size, full, owned⟩ := represents.slots_spec
  refine ⟨cells, pq, answers, run, run', view, size, full, owned.nodup, ?_,
    represents.free⟩
  intro a
  rw [owned.live, List.reduceOption_mem_iff]

/-- The more urgent item goes first, until it is put behind the other one. -/
private def rekeying : List (PqOp Nat) :=
  [.enqueue 10 5, .enqueue 20 3, .front, .changePriority 0 9, .dequeue, .size,
    .dequeue, .dequeue]

theorem pq_cells_refine_overtaking :
    ∃ cells pq, outputs PQueueCells.answer (.priorityQueue Nat) rekeying =
        .ok (cells, [.done, .done, .item (some 20), .done, .item (some 10), .size 1,
          .item (some 20), .item none]) ∧
      cells.view = pq ∧
      ∃ heap arrays, cells.pqFree = .ok (heap, arrays) ∧
        (∀ a, heap.load a = none) ∧ arrays.load cells.nodes ≠ none := by
  obtain ⟨cells, pq, answers, run, _, view, _, _, _, _, heap, arrays, freed, drained,
    left⟩ := pq_cells_refine rekeying (by decide)
  have known : (do
      let ends ← outputs PQueueCells.answer (.priorityQueue Nat) rekeying
      pure (ends.2, ends.1.size)) = Except.ok
        ([.done, .done, .item (some 20), .done, .item (some 10), .size 1,
          .item (some 20), .item none], 0) := by
    decide +kernel
  rw [run, ok_bind, pure_eq_ok, Except.ok.injEq, Prod.mk.injEq] at known
  exact ⟨cells, pq, known.1 ▸ run, view, heap, arrays, freed, drained,
    (left cells.nodes).mpr ⟨rfl, known.2⟩⟩

end OsSim
