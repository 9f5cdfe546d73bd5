/-
Module: OsSim.PriorityQueueOrder
Purpose: In which order a priority queue gives back the items that were put into
  it, and when that is the order of their priorities.
Trusted boundary: none
Main exports:
  enqueueAll, dequeueAll, drained, GivesBackInOrder, Carries,
  outranks_iff_of_carries, Near, ahead, Orderable, shallow_replaced,
  priority_order_iff
-/
import OsSim.Library.LeftEdge
import OsSim.Library.Trace
import OsSim.PriorityQueueInt
import Mathlib.Data.List.Induction

namespace OsSim

open PointerMemory
open BinaryHeap
open Trace

variable {α : Type}

/-- `pq_enqueue` of an item with its own priority. -/
def enqueueItem (priority : α → Int) (pq : PriorityQueue α) (item : α) :
    Except Fault (PriorityQueue α) :=
  pqEnqueue pq item (priority item)

/-- `pq_enqueue` for every item of a list, into an empty queue. -/
def enqueueAll (priority : α → Int) (items : List α) :
    Except Fault (PriorityQueue α) :=
  runs (enqueueItem priority) (priorityQueue α) items

/-- `pq_dequeue`, as often as the count says or until the queue is empty. -/
def dequeueAll : Nat → PriorityQueue α → Except Fault (List α)
  | 0, _ => .ok []
  | count + 1, pq => do
      let (pq, returned) ← pqDequeue pq
      match returned with
      | none => pure []
      | some item => do
          let items ← dequeueAll count pq
          pure (item :: items)

/-- The items in the order in which a queue that was given all of them returns
them. -/
def drained (priority : α → Int) (items : List α) : Except Fault (List α) := do
  let pq ← enqueueAll priority items
  dequeueAll pq.nodes.length pq

/-- Every call returns, and the queue returns every item of the list, in
non-decreasing order of priority. -/
def GivesBackInOrder (priority : α → Int) (items : List α) : Prop :=
  ∃ order, drained priority items = .ok order ∧ order.Perm items ∧
    order.Pairwise fun a b => priority a ≤ priority b

/-! ### On the exact heap

The same calls on the exact heap, which cannot fail. -/

/-- Insert every item of a list into an empty heap. -/
def insertAll (priority : α → Int) (items : List α) : PriorityQueue α :=
  items.foldl (fun pq item => pq.insert item (priority item))
    (priorityQueue α)

/-- Remove the first item, as often as the count says or until the heap is
empty. -/
def removeAll : Nat → PriorityQueue α → List α
  | 0, _ => []
  | count + 1, pq =>
      match pq.removeFirst with
      | (_, none) => []
      | (pq, some item) => item :: removeAll count pq

/-- The items in the order in which the exact heap gives them back. -/
def servedOrder (priority : α → Int) (items : List α) : List α :=
  removeAll (insertAll priority items).nodes.length (insertAll priority items)

/-! ### The comparison -/

/-- Every node stores the negated priority of its item, as an `int`. -/
def Carries (priority : α → Int) (nodes : List (PQueueNode α)) : Prop :=
  ∀ node ∈ nodes, node.priority = wrap (-priority node.item)

/-- On two nodes `compare_priority` is the difference of the priorities, the
wrong way round and wrapped around. -/
theorem comparePriority_of_carries {a b : PQueueNode α} {p q : Int}
    (left : a.priority = wrap (-p)) (right : b.priority = wrap (-q)) :
    comparePriority a b = wrap (q - p) := by
  rw [comparePriority, left, right, wrap, wrap, wrap, wrap,
    Int.bmod_sub_bmod, Int.sub_bmod_bmod]
  congr 1
  omega

/-- Where the difference fits an `int`, the test compares the priorities. -/
theorem outranks_iff_of_carries {a b : PQueueNode α} {p q : Int}
    (left : a.priority = wrap (-p)) (right : b.priority = wrap (-q))
    (fits : InRange (q - p)) : outranks a b = true ↔ p < q := by
  rw [outranks, decide_eq_true_iff, comparePriority_of_carries left right,
    wrap_of_inRange fits]
  constructor <;> intro <;> omega

/-- Where the difference of two `int`s does not fit an `int`, the lower priority
does not outrank the higher one. -/
theorem not_outranks_of_far {a b : PQueueNode α} {p q : Int}
    (left : a.priority = wrap (-p)) (right : b.priority = wrap (-q))
    (low : InRange p) (high : InRange q) (far : 2 ^ 31 ≤ q - p) :
    outranks a b = false := by
  obtain ⟨lower, _⟩ := low
  obtain ⟨_, upper⟩ := high
  rw [outranks, decide_eq_false_iff_not, comparePriority_of_carries left right,
    wrap_of_past far (by omega)]
  omega

/-! ### Filling and draining a queue -/

/-- Nodes that a queue of these items may hold. -/
structure Filled (priority : α → Int) (items : List α) (pq : PriorityQueue α) :
    Prop where
  carries : Carries priority pq.nodes
  items : (pq.nodes.map PQueueNode.item).Perm items

namespace Filled

variable {priority : α → Int} {items : List α} {pq : PriorityQueue α}

theorem empty : Filled priority [] (priorityQueue α) :=
  ⟨fun _ member => absurd member List.not_mem_nil, List.Perm.refl _⟩

theorem enqueue (filled : Filled priority items pq) (item : α) :
    Filled priority (item :: items) (pq.insert item (priority item)) := by
  have perm := PriorityQueue.insert_perm pq item (priority item)
  constructor
  · intro node member
    rcases List.mem_cons.mp (perm.mem_iff.mp member) with new | old
    · rw [new]
    · exact filled.carries node old
  · exact (perm.map PQueueNode.item).trans (filled.items.cons item)

/-- Inserting more items one after the other. -/
theorem foldl (filled : Filled priority items pq) (more : List α) :
    Filled priority (more.reverse ++ items)
      (more.foldl (fun pq item => pq.insert item (priority item)) pq) := by
  induction more generalizing items pq with
  | nil => exact filled
  | cons item more ih =>
      rw [List.reverse_cons, List.append_assoc]
      exact ih (filled.enqueue item)

theorem all (priority : α → Int) (items : List α) :
    Filled priority items (insertAll priority items) := by
  have start : Filled priority [] (priorityQueue α) := empty
  have reversed := start.foldl items
  rw [List.append_nil] at reversed
  exact ⟨reversed.carries, reversed.items.trans (List.reverse_perm items)⟩

end Filled

/-- The first removal of a queue that holds something. -/
theorem removeAll_cons {pq : PriorityQueue α} {first : PQueueNode α}
    {rest : List (PQueueNode α)} (nodes : pq.nodes = first :: rest)
    (count : Nat) :
    removeAll (count + 1) pq =
      first.item :: removeAll count pq.removeFirst.1 := by
  have returned := (PriorityQueue.removeFirst_spec nodes).1
  rw [removeAll]
  cases removal : pq.removeFirst with
  | mk after item =>
      rw [removal] at returned
      simp only at returned
      rw [returned]

/-- Draining a queue returns every item it holds. -/
theorem removeAll_perm (pq : PriorityQueue α) :
    (removeAll pq.nodes.length pq).Perm (pq.nodes.map PQueueNode.item) := by
  induction length : pq.nodes.length generalizing pq with
  | zero =>
      rw [List.eq_nil_of_length_eq_zero length]
      exact List.Perm.refl _
  | succ count ih =>
      cases split : pq.nodes with
      | nil => simp [split] at length
      | cons first rest =>
          have others := (PriorityQueue.removeFirst_spec split).2
          rw [split, List.length_cons, Nat.add_right_cancel_iff] at length
          rw [removeAll_cons split, List.map_cons]
          exact ((ih _ (others.length_eq.trans length)).trans
            (others.map _)).cons first.item

theorem servedOrder_perm (priority : α → Int) (items : List α) :
    (servedOrder priority items).Perm items :=
  (removeAll_perm _).trans (Filled.all priority items).items

/-! ### Priorities that are near each other -/

/-- No two priorities differ by more than an `int` holds. -/
def Near (priority : α → Int) (items : List α) : Prop :=
  ∀ a ∈ items, ∀ b ∈ items, priority a - priority b < 2 ^ 31

/-- The key by which the heap is in order: the negated priority, unwrapped. -/
def rank (priority : α → Int) (node : PQueueNode α) : Int :=
  -priority node.item

theorem Carries.ranks {priority : α → Int} {items : List α}
    {nodes : List (PQueueNode α)} (carries : Carries priority nodes)
    (held : ∀ node ∈ nodes, node.item ∈ items) (near : Near priority items) :
    Ranks outranks (rank priority) nodes := by
  intro a left b right
  have up := near _ (held a left) _ (held b right)
  have down := near _ (held b right) _ (held a left)
  rw [outranks_iff_of_carries (carries a left) (carries b right)
    ⟨by omega, by omega⟩, rank, rank]
  constructor <;> intro <;> omega

namespace Filled

variable {priority : α → Int} {items : List α} {pq : PriorityQueue α}

theorem held (filled : Filled priority items pq) {node : PQueueNode α}
    (member : node ∈ pq.nodes) : node.item ∈ items :=
  filled.items.mem_iff.mp (List.mem_map_of_mem member)

theorem ranks (filled : Filled priority items pq) (near : Near priority items) :
    Ranks outranks (rank priority) pq.nodes :=
  filled.carries.ranks (fun _ member => filled.held member) near

theorem enqueue_ordered {item : α} (filled : Filled priority items pq)
    (near : Near priority (item :: items))
    (ordered : Ordered (rank priority) pq.nodes) :
    Ordered (rank priority) (pq.insert item (priority item)).nodes := by
  have perm := PriorityQueue.insert_perm pq item (priority item)
  apply PriorityQueue.insert_ordered_by ordered
  exact ((filled.enqueue item).ranks near).perm perm.symm

theorem foldl_ordered (filled : Filled priority items pq) (more : List α)
    (near : Near priority (more.reverse ++ items))
    (ordered : Ordered (rank priority) pq.nodes) :
    Ordered (rank priority)
      (more.foldl (fun pq item => pq.insert item (priority item))
        pq).nodes := by
  induction more generalizing items pq with
  | nil => exact ordered
  | cons item more ih =>
      rw [List.reverse_cons, List.append_assoc] at near
      apply ih (filled.enqueue item) near
      apply filled.enqueue_ordered _ ordered
      intro a left b right
      exact near a (List.mem_append_right _ left) b
        (List.mem_append_right _ right)

end Filled

/-- A heap in order is drained in order. -/
theorem removeAll_sorted {priority : α → Int} {pq : PriorityQueue α}
    (ordered : Ordered (rank priority) pq.nodes)
    (ranks : Ranks outranks (rank priority) pq.nodes) :
    (removeAll pq.nodes.length pq).Pairwise
      fun a b => priority a ≤ priority b := by
  induction length : pq.nodes.length generalizing pq with
  | zero => exact List.Pairwise.nil
  | succ count ih =>
      cases split : pq.nodes with
      | nil => simp [split] at length
      | cons first rest =>
          have others := (PriorityQueue.removeFirst_spec split).2
          have shorter : pq.removeFirst.1.nodes.length = count := by
            rw [others.length_eq]
            rw [split, List.length_cons] at length
            omega
          rw [removeAll_cons split, List.pairwise_cons]
          constructor
          · intro item member
            rw [← shorter] at member
            obtain ⟨node, held, same⟩ := List.mem_map.mp
              ((removeAll_perm _).mem_iff.mp member)
            have least : rank priority node ≤ rank priority first := by
              apply le_front_of_ordered ordered split
              rw [split]
              exact List.mem_cons_of_mem _ (others.mem_iff.mp held)
            rw [rank, rank, same] at least
            omega
          · apply ih (PriorityQueue.removeFirst_ordered_by ordered ranks) _ shorter
            intro a left b right
            apply ranks
            · rw [split]
              exact List.mem_cons_of_mem _ (others.mem_iff.mp left)
            · rw [split]
              exact List.mem_cons_of_mem _ (others.mem_iff.mp right)

theorem insertAll_ordered {priority : α → Int} {items : List α}
    (near : Near priority items) :
    Ordered (rank priority) (insertAll priority items).nodes := by
  apply Filled.empty.foldl_ordered items
  · intro a left b right
    simp only [List.append_nil, List.mem_reverse] at left right
    exact near a left b right
  · intro c _ bound
    cases bound

/-- The exact heap gives items with priorities near each other back in order. -/
theorem servedOrder_sorted {priority : α → Int} {items : List α}
    (near : Near priority items) :
    (servedOrder priority items).Pairwise fun a b => priority a ≤ priority b :=
  removeAll_sorted (insertAll_ordered near)
    ((Filled.all priority items).ranks near)

/-! ### The calls and the exact heap

What the calls return is what the exact heap has.  They all return unless the array
would have to grow past the range of `int`, or a removal lets a node sink to index
2^30 - 1.  The capacity is 100 doubled again and again, and the last such number in
the range of `int` is 100 * 2^24 = 1677721600. -/

/-- The capacity is the first one, doubled some number of times. -/
def Doubled (pq : PriorityQueue α) : Prop :=
  ∃ times : Nat, pq.capacity = (100 * 2 ^ times : Nat)

section

variable {pq : PriorityQueue α} {priority : α → Int} {items : List α}

theorem Doubled.insert (doubled : Doubled pq) (item : α) (priority : Int) :
    Doubled (pq.insert item priority) := by
  obtain ⟨times, capacity⟩ := doubled
  have same : (pq.insert item priority).capacity =
      if pqSize pq = pq.capacity then pq.capacity * 2 else pq.capacity := rfl
  rw [Doubled, same]
  split
  next => exact ⟨times + 1, by rw [capacity, Nat.pow_succ]; omega⟩
  next => exact ⟨times, capacity⟩

theorem Doubled.capacity_le (doubled : Doubled pq) (roomy : Roomy pq) :
    pq.capacity ≤ 1677721600 := by
  obtain ⟨times, capacity⟩ := doubled
  have int := roomy.int
  rcases Nat.lt_or_ge times 25 with few | many
  · have bound := Nat.pow_le_pow_right (show 0 < 2 by decide)
      (Nat.le_of_lt_succ few)
    omega
  · have bound := Nat.pow_le_pow_right (show 0 < 2 by decide) many
    omega

/-- Before the last possible capacity is used up, a full array can be doubled. -/
theorem Doubled.fits (doubled : Doubled pq) (fewer : pqSize pq < 1677721600)
    (full : pqSize pq = pq.capacity) : pq.capacity * 2 < 2 ^ 31 := by
  obtain ⟨times, capacity⟩ := doubled
  rcases Nat.lt_or_ge times 24 with few | many
  · have bound := Nat.pow_le_pow_right (show 0 < 2 by decide)
      (Nat.le_of_lt_succ few)
    omega
  · have bound := Nat.pow_le_pow_right (show 0 < 2 by decide) many
    omega

/-- Insertions that return leave the exact heap. -/
theorem foldl_of_runs (roomy : Roomy pq) {after : PriorityQueue α}
    (run : runs (enqueueItem priority) pq items = .ok after) :
    after = items.foldl (fun pq item => pq.insert item (priority item)) pq ∧
      Roomy after := by
  induction items generalizing pq with
  | nil =>
      obtain rfl := Except.ok.inj run
      exact ⟨rfl, roomy⟩
  | cons item items ih =>
      obtain ⟨next, inserted, rest⟩ := runs_cons_ok.mp run
      rcases enqueue_decided roomy item (priority item) with
        ⟨fits, value⟩ | ⟨_, fault, failed⟩
      · rw [enqueueItem, value] at inserted
        obtain rfl := Except.ok.inj inserted
        exact ih (roomy.insert fits item (priority item)) rest
      · rw [enqueueItem, failed] at inserted
        cases inserted

/-- Up to 1677721600 nodes all insertions return. -/
theorem runs_of_few (roomy : Roomy pq) (doubled : Doubled pq)
    (few : pq.nodes.length + items.length ≤ 1677721600) :
    ∃ after, runs (enqueueItem priority) pq items = .ok after := by
  induction items generalizing pq with
  | nil => exact ⟨pq, rfl⟩
  | cons item items ih =>
      rw [List.length_cons] at few
      have fits := doubled.fits (by rw [pqSize]; omega)
      have longer := (PriorityQueue.insert_perm pq item (priority item)).length_eq
      rw [List.length_cons] at longer
      rcases enqueue_decided roomy item (priority item) with
        ⟨_, value⟩ | ⟨full, _⟩
      · obtain ⟨after, rest⟩ := ih (roomy.insert fits item (priority item))
          (doubled.insert item (priority item)) (by omega)
        exact ⟨after, runs_cons_ok.mpr ⟨_, value, rest⟩⟩
      · exact absurd fits full

theorem insertAll_of_enqueueAll (run : enqueueAll priority items = .ok pq) :
    pq = insertAll priority items ∧ Roomy pq :=
  foldl_of_runs priorityQueue_roomy run

theorem insertAll_doubled (priority : α → Int) (items : List α) :
    Doubled (insertAll priority items) := by
  have start : Doubled (priorityQueue α) := ⟨0, rfl⟩
  rw [insertAll]
  generalize priorityQueue α = pq at start
  induction items generalizing pq with
  | nil => exact start
  | cons item items ih => exact ih _ (start.insert item (priority item))

/-- Filling a queue returns exactly up to 1677721600 items. -/
theorem enqueueAll_returns_iff (priority : α → Int) (items : List α) :
    enqueueAll priority items = .ok (insertAll priority items) ↔
      items.length ≤ 1677721600 := by
  constructor
  · intro run
    obtain ⟨_, roomy⟩ := insertAll_of_enqueueAll run
    have capacity := (insertAll_doubled priority items).capacity_le roomy
    have room := roomy.room
    have length := (Filled.all priority items).items.length_eq
    rw [List.length_map] at length
    rw [pqSize, length] at room
    omega
  · intro few
    obtain ⟨pq, run⟩ : ∃ pq,
        runs (enqueueItem priority) (priorityQueue α) items = .ok pq :=
      runs_of_few priorityQueue_roomy ⟨0, rfl⟩
        (show 0 + items.length ≤ 1677721600 by omega)
    rw [enqueueAll, run, (insertAll_of_enqueueAll run).1]

/-- Removals that return give back what the exact heap does. -/
theorem removeAll_of_dequeueAll {count : Nat} (roomy : Roomy pq) {order : List α}
    (run : dequeueAll count pq = .ok order) : order = removeAll count pq := by
  induction count generalizing pq order with
  | zero => exact (Except.ok.inj run).symm
  | succ count ih =>
      obtain ⟨removal, performed, rest⟩ := bind_eq_ok.mp run
      have same : removal = PqCall.meant pq .dequeue :=
        PqCall.perform_sound roomy performed
      obtain rfl : removal = pq.removeFirst := same
      rw [removeAll]
      cases returned : pq.removeFirst with
      | mk after first =>
          have kept : Roomy after := by
            have removed := roomy.removeFirst
            rwa [returned] at removed
          rw [returned] at rest
          cases first with
          | none => exact (Except.ok.inj rest).symm
          | some item =>
              obtain ⟨others, run', last⟩ := bind_eq_ok.mp rest
              rw [← Except.ok.inj last, ih kept run']

theorem servedOrder_of_drained {order : List α}
    (run : drained priority items = .ok order) :
    order = servedOrder priority items := by
  obtain ⟨pq, filled, rest⟩ := bind_eq_ok.mp run
  obtain ⟨rfl, roomy⟩ := insertAll_of_enqueueAll filled
  exact removeAll_of_dequeueAll roomy rest

end

/-! ### How deep a removal lets a node sink

A node that sinks to index 2^30 - 1 passes thirty others, and the node removed was
ahead of it as well.  Where at most thirty items are ahead of some other one, no
removal goes that deep; where there are more, some order of arrival leaves a heap in
which the first removal does. -/

/-- The items that some other item of the list comes after. -/
def ahead (priority : α → Int) (items : List α) : List α :=
  items.filter fun item => ∃ other ∈ items, priority item < priority other

/-- Where few nodes are ahead of some other one, none sinks deep. -/
theorem shallow_of_few_ahead {key : PQueueNode α → Int}
    {nodes : List (PQueueNode α)} (ordered : Ordered key nodes)
    (few : (nodes.filter fun a => ∃ b ∈ nodes, key b < key a).length ≤ 30) :
    Shallow key (replaceRoot nodes) 0 := by
  intro place sinks
  by_contra deep
  have many : 30 < (nodes.filter fun a => ∃ b ∈ nodes, key b < key a).length :=
    ahead_of_sinks ordered sinks (by decide) (Nat.le_of_not_lt deep)
  omega

/-- Lists of items that come back in order, in whatever order they arrive. -/
structure Orderable (priority : α → Int) (items : List α) : Prop where
  near : Near priority items
  room : items.length ≤ 1677721600
  shallow : items.length ≤ 2 ^ 30 ∨ (ahead priority items).length ≤ 30

section

variable {priority : α → Int} {items : List α}

theorem Orderable.perm (orderable : Orderable priority items) {arrival : List α}
    (perm : arrival.Perm items) : Orderable priority arrival := by
  have length := perm.length_eq
  have counted : (ahead priority arrival).length = (ahead priority items).length := by
    rw [ahead, ahead, ← List.countP_eq_length_filter, perm.countP_eq,
      ← List.countP_eq_length_filter]
    apply List.countP_congr
    intro item _
    simp only [decide_eq_true_eq, perm.mem_iff]
  refine ⟨?_, length ▸ orderable.room, ?_⟩
  · intro a left b right
    exact orderable.near a (perm.mem_iff.mp left) b (perm.mem_iff.mp right)
  · rw [length, counted]
    exact orderable.shallow

/-- The nodes of some of the items that are ahead of each other. -/
theorem length_ahead_le {nodes : List (PQueueNode α)}
    (held : (nodes.map PQueueNode.item).Subperm items) :
    (nodes.filter fun a => ∃ b ∈ nodes,
        rank priority b < rank priority a).length ≤
      (ahead priority items).length := by
  rw [ahead, ← List.countP_eq_length_filter, ← List.countP_eq_length_filter]
  refine Nat.le_trans ?_ (held.countP_le _)
  rw [List.countP_map]
  apply List.countP_mono_left
  intro node _ before
  obtain ⟨other, member, lower⟩ := of_decide_eq_true before
  apply decide_eq_true
  refine ⟨other.item, held.subset (List.mem_map_of_mem member), ?_⟩
  rw [rank, rank] at lower
  omega

/-- A queue that is being drained of these items. -/
structure Draining (priority : α → Int) (items : List α) (pq : PriorityQueue α) :
    Prop where
  roomy : Roomy pq
  carries : Carries priority pq.nodes
  ordered : Ordered (rank priority) pq.nodes
  held : (pq.nodes.map PQueueNode.item).Subperm items

namespace Draining

variable {pq : PriorityQueue α}

theorem ranks (draining : Draining priority items pq) (near : Near priority items) :
    Ranks outranks (rank priority) pq.nodes :=
  draining.carries.ranks
    (fun _ member => draining.held.subset (List.mem_map_of_mem member)) near

theorem removeFirst (draining : Draining priority items pq)
    (near : Near priority items) : Draining priority items pq.removeFirst.1 := by
  have ordered := PriorityQueue.removeFirst_ordered_by draining.ordered
    (draining.ranks near)
  cases split : pq.nodes with
  | nil =>
      have same : pq.removeFirst.1 = pq := by
        rw [PriorityQueue.removeFirst, split]
      rw [same]
      exact draining
  | cons first rest =>
      have others := (PriorityQueue.removeFirst_spec split).2
      refine ⟨draining.roomy.removeFirst, ?_, ordered, ?_⟩
      · intro node member
        apply draining.carries
        rw [split]
        exact List.mem_cons_of_mem _ (others.mem_iff.mp member)
      · have held := draining.held
        rw [split, List.map_cons] at held
        exact (others.map _).subperm.trans
          ((List.sublist_cons_self _ _).subperm.trans held)

theorem shallow (draining : Draining priority items pq)
    (orderable : Orderable priority items) :
    Shallow (rank priority) (replaceRoot pq.nodes) 0 := by
  rcases orderable.shallow with few | few
  · have fewer := draining.held.length_le
    rw [List.length_map] at fewer
    have manageable : Manageable (rank priority) pq .dequeue :=
      manageable_of_few (fewer.trans few) (Or.inl rfl)
    exact manageable
  · exact shallow_of_few_ahead draining.ordered
      ((length_ahead_le draining.held).trans few)

/-- Every removal returns. -/
theorem dequeueAll_eq (draining : Draining priority items pq)
    (orderable : Orderable priority items) (count : Nat) :
    dequeueAll count pq = .ok (removeAll count pq) := by
  induction count generalizing pq with
  | zero => rfl
  | succ count ih =>
      have next := ih (draining.removeFirst orderable.near)
      rcases dequeue_decided draining.roomy (draining.ranks orderable.near) with
        ⟨_, run⟩ | ⟨deep, _⟩
      · rw [dequeueAll, run, ok_bind, removeAll]
        cases returned : pq.removeFirst with
        | mk after first =>
            rw [returned] at next
            cases first with
            | none => rfl
            | some item =>
                dsimp only at next ⊢
                rw [next]
                rfl
      · exact absurd (draining.shallow orderable) deep

end Draining

/-- Few enough items with priorities near each other come back in order. -/
theorem givesBackInOrder_of_orderable (orderable : Orderable priority items) :
    GivesBackInOrder priority items := by
  have run := (enqueueAll_returns_iff priority items).mpr orderable.room
  have filled := Filled.all priority items
  have draining : Draining priority items (insertAll priority items) :=
    ⟨(insertAll_of_enqueueAll run).2, filled.carries,
      insertAll_ordered orderable.near, filled.items.subperm⟩
  refine ⟨servedOrder priority items, ?_, servedOrder_perm priority items,
    servedOrder_sorted orderable.near⟩
  rw [drained, run, ok_bind]
  exact draining.dequeueAll_eq orderable _

/-! ### An arrival that goes deep -/

/-- The node of an item. -/
def stored (priority : α → Int) (item : α) : PQueueNode α :=
  { item := item, priority := wrap (-priority item) }

/-- Items that arrive in the order of a heap stay in that order. -/
theorem insertAll_eq_of_ordered {nodes : List (PQueueNode α)}
    (carries : Carries priority nodes) (ordered : Ordered (rank priority) nodes)
    (ranks : Ranks outranks (rank priority) nodes) :
    (insertAll priority (nodes.map PQueueNode.item)).nodes = nodes := by
  induction nodes using List.reverseRecOn with
  | nil => rfl
  | append_singleton nodes node ih =>
      have before := ih
        (fun other member => carries other (List.mem_append_left _ member))
        ordered.of_append
        (fun a left b right => ranks a (List.mem_append_left _ left) b
          (List.mem_append_left _ right))
      have last : { item := node.item, priority := wrap (-priority node.item) } =
          node := by
        rw [← carries node (List.mem_append_right _ List.mem_cons_self)]
      rw [insertAll, List.map_append, List.foldl_append]
      show (PriorityQueue.insert (insertAll priority (nodes.map PQueueNode.item))
        node.item (priority node.item)).nodes = nodes ++ [node]
      rw [PriorityQueue.insert]
      dsimp only
      rw [before, last]
      exact ordered.siftUp_eq ranks (by simp)

/-- Where more than thirty items are ahead of some other one, and there are more
than 2^30, some order of arrival makes the first removal fail. -/
theorem exists_deep_arrival (near : Near priority items)
    (large : 2 ^ 30 < items.length) (many : 30 < (ahead priority items).length) :
    ∃ arrival : List α, arrival.Perm items ∧
      ¬ GivesBackInOrder priority arrival := by
  have counted : ((items.map (stored priority)).filter fun a =>
      ∃ b ∈ items.map (stored priority), rank priority b < rank priority a).length =
        (ahead priority items).length := by
    rw [ahead, ← List.countP_eq_length_filter, List.countP_map,
      ← List.countP_eq_length_filter]
    apply List.countP_congr
    intro item _
    constructor
    · intro before
      obtain ⟨_, member, lower⟩ := of_decide_eq_true before
      obtain ⟨other, inside, rfl⟩ := List.mem_map.mp member
      exact decide_eq_true ⟨other, inside, Int.neg_lt_neg_iff.mp lower⟩
    · intro before
      obtain ⟨other, inside, lower⟩ := of_decide_eq_true before
      exact decide_eq_true ⟨stored priority other, List.mem_map_of_mem inside,
        Int.neg_lt_neg lower⟩
  obtain ⟨nodes, perm, ordered, sinks⟩ : ∃ nodes : List (PQueueNode α),
      nodes.Perm (items.map (stored priority)) ∧ Ordered (rank priority) nodes ∧
        Sinks (rank priority) (replaceRoot nodes)
          (keyAt (rank priority) (replaceRoot nodes) 0) 0 (2 ^ 30 - 1) :=
    exists_leaning (by rw [counted]; exact many)
      (by rw [List.length_map]; exact large)
  have arrives : (nodes.map PQueueNode.item).Perm items := by
    have mapped := perm.map PQueueNode.item
    rwa [List.map_map, List.map_id''] at mapped
    exact fun _ => rfl
  have carries : Carries priority nodes := by
    intro node member
    obtain ⟨item, _, rfl⟩ := List.mem_map.mp (perm.mem_iff.mp member)
    rfl
  have ranks := carries.ranks
    (fun node member => arrives.mem_iff.mp (List.mem_map_of_mem member)) near
  have whole := insertAll_eq_of_ordered carries ordered ranks
  refine ⟨nodes.map PQueueNode.item, arrives, ?_⟩
  rintro ⟨order, run, _⟩
  obtain ⟨pq, filled, rest⟩ := bind_eq_ok.mp run
  obtain ⟨rfl, roomy⟩ := insertAll_of_enqueueAll filled
  have length := arrives.length_eq
  rw [List.length_map] at length
  obtain ⟨count, size⟩ : ∃ count, nodes.length = count + 1 :=
    ⟨nodes.length - 1, by omega⟩
  rcases dequeue_decided roomy (by rw [whole]; exact ranks) with
    ⟨shallow, _⟩ | ⟨_, fault, failed⟩
  · rw [whole] at shallow
    exact absurd (shallow _ sinks) (Nat.lt_irrefl _)
  · rw [whole, size, dequeueAll, failed] at rest
    cases rest

end

/-! ### Priorities that are far from each other -/

/-- Items that do not outrank the first node are put behind it. -/
theorem foldl_keeps_first (priority : α → Int) {first : PQueueNode α}
    (more : List α)
    (lower : ∀ item ∈ more, outranks
      { item := item, priority := wrap (-priority item) } first = false)
    {pq : PriorityQueue α} {rest : List (PQueueNode α)}
    (nodes : pq.nodes = first :: rest) :
    ∃ rest', (more.foldl (fun pq item => pq.insert item (priority item))
      pq).nodes = first :: rest' := by
  induction more generalizing pq rest with
  | nil => exact ⟨rest, nodes⟩
  | cons item more ih =>
      have behind : ∀ other ∈ more, outranks
          { item := other, priority := wrap (-priority other) } first = false :=
        fun other member => lower other (List.mem_cons_of_mem _ member)
      obtain ⟨rest', same | ⟨_, higher⟩⟩ :=
        PriorityQueue.insert_front nodes item (priority item)
      · exact ih behind same
      · rw [lower item List.mem_cons_self] at higher
        cases higher

/-- The first node stays above a bound that all new items are above. -/
theorem foldl_first_above (priority : α → Int) (bound : Int) (more : List α)
    (above : ∀ item ∈ more, bound < priority item) {pq : PriorityQueue α}
    {first : PQueueNode α} {rest : List (PQueueNode α)}
    (nodes : pq.nodes = first :: rest) (higher : bound < priority first.item) :
    ∃ first' rest', (more.foldl
        (fun pq item => pq.insert item (priority item)) pq).nodes =
          first' :: rest' ∧
      bound < priority first'.item := by
  induction more generalizing pq first rest with
  | nil => exact ⟨first, rest, nodes, higher⟩
  | cons item more ih =>
      have others : ∀ other ∈ more, bound < priority other :=
        fun other member => above other (List.mem_cons_of_mem _ member)
      obtain ⟨rest', same | ⟨new, _⟩⟩ :=
        PriorityQueue.insert_front nodes item (priority item)
      · exact ih others same higher
      · exact ih others new (above item List.mem_cons_self)

/-- Some order of arrival in which the item `high` comes before all those whose
priorities are too far below its own. -/
def highFirst (priority : α → Int) (high : α) (others : List α) : List α :=
  let far := others.filter fun item => 2 ^ 31 ≤ priority high - priority item
  let near := others.filter fun item => !(2 ^ 31 ≤ priority high - priority item)
  high :: (far ++ near)

theorem highFirst_perm (priority : α → Int) (high : α) (others : List α) :
    (highFirst priority high others).Perm (high :: others) :=
  (List.filter_append_perm _ others).cons high

/-- In that order the first item returned is not one of the far ones. -/
theorem servedOrder_highFirst (priority : α → Int) (high : α) (others : List α)
    (ints : ∀ item ∈ high :: others, InRange (priority item)) :
    ∃ item rest, servedOrder priority (highFirst priority high others) =
        item :: rest ∧
      priority high - 2 ^ 31 < priority item := by
  let top : PQueueNode α := { item := high, priority := wrap (-priority high) }
  have first : (PriorityQueue.insert (priorityQueue α) high (priority high)).nodes =
      [top] := by
    have perm := PriorityQueue.insert_perm (priorityQueue α) high (priority high)
    exact List.perm_singleton.mp perm
  obtain ⟨rest, kept⟩ := foldl_keeps_first priority
    (others.filter fun item => 2 ^ 31 ≤ priority high - priority item)
    (by
      intro item member
      obtain ⟨inside, far⟩ := List.mem_filter.mp member
      rw [decide_eq_true_iff] at far
      exact not_outranks_of_far rfl rfl
        (ints item (List.mem_cons_of_mem _ inside))
        (ints high List.mem_cons_self) far)
    first
  obtain ⟨last, rest', nodes, above⟩ := foldl_first_above
    priority (priority high - 2 ^ 31)
    (others.filter fun item => !(2 ^ 31 ≤ priority high - priority item))
    (by
      intro item member
      have near := (List.mem_filter.mp member).2
      simp only [Bool.not_eq_true', decide_eq_false_iff_not] at near
      omega)
    kept (by show priority high - 2 ^ 31 < priority high; omega)
  have whole : (insertAll priority (highFirst priority high others)).nodes =
      last :: rest' := by
    rw [insertAll, highFirst, List.foldl_cons, List.foldl_append]
    exact nodes
  have order := removeAll_cons whole rest'.length
  rw [← List.length_cons (a := last), ← whole] at order
  exact ⟨last.item, _, order, above⟩

/-- In an arrival order of a low priority and one too high above it, the low one does
not come first. -/
theorem near_of_givesBack {priority : α → Int} {items : List α}
    (ints : ∀ item ∈ items, InRange (priority item))
    (always : ∀ arrival : List α, arrival.Perm items →
      GivesBackInOrder priority arrival) : Near priority items := by
  intro high highMember low lowMember
  by_contra far
  obtain ⟨left, right, split⟩ := List.append_of_mem highMember
  have perm : (high :: (left ++ right)).Perm items := by
    rw [split]
    exact List.perm_middle.symm
  have arrives := (highFirst_perm priority high (left ++ right)).trans perm
  obtain ⟨item, rest, order, above⟩ :=
    servedOrder_highFirst priority high (left ++ right)
      (fun item member => ints item (perm.mem_iff.mp member))
  obtain ⟨_, run, returned, sorted⟩ := always _ arrives
  rw [servedOrder_of_drained run, order] at returned sorted
  have comes : low ∈ item :: rest :=
    (returned.trans arrives).mem_iff.mpr lowMember
  rcases List.mem_cons.mp comes with same | later
  · subst same
    omega
  · have least := List.rel_of_pairwise_cons sorted later
    omega

end OsSim
