/-
Module: OsSim.IQueue
Purpose: The queue interface of `DS/IQueue.c` over the circular queue and the
  priority queue, and the list of items that both of them show.
Trusted boundary: human-reviewed translation
Main exports:
  SchedulingAlgorithm, QueueType, IQueue, initQueue, IQueue.enqueue,
  IQueue.dequeue, IQueue.front, IQueue.isEmpty, IQueue.size,
  IQueue.changePriority, Shows, KeyedBy, Heaped, Spread
-/
import OsSim.CircularQueue
import OsSim.PriorityQueueInt

namespace OsSim

open PointerMemory
open DoublyLinked

variable {α : Type}

/-- `SchedulingAlgorithm` -/
inductive SchedulingAlgorithm where
  | rr
  | hpf
  | srtn
deriving Repr, DecidableEq

/-- `QueueType` -/
inductive QueueType where
  | circularQueue
  | priorityQueue
deriving Repr, DecidableEq

/-- `IQueue`: the tag `type` and the queue that `q` points to, the circular one
with the memory of its nodes. -/
inductive IQueue (α : Type) where
  | circular (heap : Mem (QueueNode α)) (q : CircularQueue)
  | priority (pq : PriorityQueue α)
deriving Repr, DecidableEq

/-- The field `type`. -/
def IQueue.type : IQueue α → QueueType
  | .circular _ _ => .circularQueue
  | .priority _ => .priorityQueue

/-- The queue type that `init_queue` chooses. -/
def queueType : SchedulingAlgorithm → QueueType
  | .rr => .circularQueue
  | .hpf | .srtn => .priorityQueue

/-- `init_queue` -/
def initQueue (α : Type) (algType : SchedulingAlgorithm) : IQueue α :=
  match queueType algType with
  | .circularQueue => .circular Mem.empty circularQueue
  | .priorityQueue => .priority (priorityQueue α)

namespace IQueue

/-- `enqueue` -/
def enqueue (queue : IQueue α) (obj : α) (priority : Int) :
    Except Fault (IQueue α) :=
  match queue with
  | .circular heap q => do
      let (heap, q) ← cqEnqueue heap q obj
      pure (.circular heap q)
  | .priority pq => .ok (.priority (pq.insert obj priority))

/-- `dequeue` -/
def dequeue (queue : IQueue α) (remove : Bool) :
    Except Fault (IQueue α × Option α) :=
  match queue with
  | .circular heap q =>
      if remove then do
        let (heap, q, obj) ← cqDequeueAndRemove heap q
        pure (.circular heap q, obj)
      else do
        let (q, obj) ← cqDequeue heap q
        pure (.circular heap q, obj)
  | .priority pq => .ok (.priority pq.removeFirst.1, pq.removeFirst.2)

/-- `front` -/
def front (queue : IQueue α) : Except Fault (Option α) :=
  match queue with
  | .circular heap q => cqFront heap q
  | .priority pq => .ok (pqFront pq)

/-- `is_empty` -/
def isEmpty (queue : IQueue α) : Bool :=
  match queue with
  | .circular _ q => q.size = 0
  | .priority pq => pqIsEmpty pq

/-- `size` -/
def size (queue : IQueue α) : Int :=
  match queue with
  | .circular _ q => q.size
  | .priority pq => pqSize pq

/-- `change_priority` -/
def changePriority (queue : IQueue α) (index newPriority : Int) : IQueue α :=
  match queue with
  | .circular heap q => .circular heap q
  | .priority pq => .priority (pq.rekey index newPriority)

/-- The objects in a queue, front first: the circle read from the head as often
as `size` says, or the nodes of the heap in the order of their slots. -/
def items (queue : IQueue α) : Except Fault (List α) :=
  match queue with
  | .circular heap q => do
      let nodes ← goRound (queueLinks α) heap q.size.toNat q.head
      pure (nodes.map Prod.snd)
  | .priority pq => .ok (pq.nodes.map PQueueNode.item)

/-- The objects in a heap with the priorities stored for them. -/
def entries (queue : IQueue α) : List (α × Int) :=
  match queue with
  | .circular _ _ => []
  | .priority pq => pq.nodes.map fun node => (node.item, node.priority)

end IQueue

/-! ### The functions behind the interface

The scheduler keeps one object for each process that is alive, so that its queues
stay far below 2^30 objects.  They are modelled without the limits of `int`: the
circular queue by its exact `size`, the priority queue by the exact heap.  As long as
the queue is that short, the functions of the two queues do the same. -/

/-- The functions of the circular queue that read its `size`. -/
theorem IQueue.circular_agrees {heap : Mem (QueueNode α)} {q : CircularQueue}
    {front back : List (Addr × α)} (ring : RingAt heap q front back)
    (short : (front ++ back).length < 2 ^ 31) :
    (IQueue.circular heap q).isEmpty = cqIsEmpty q ∧
      (IQueue.circular heap q).size = cqSize q := by
  refine ⟨(ring.isEmpty_eq short).symm, ?_⟩
  rw [cqSize, ring.intSize_eq short, IQueue.size, ring.size]

/-- The functions of the priority queue that may touch its array.  What they leave
has room again, as a new queue has by `priorityQueue_roomy`. -/
theorem IQueue.priority_agrees {pq : PriorityQueue α} (roomy : Roomy pq)
    (few : pq.nodes.length < 2 ^ 30) :
    (∀ obj priority, Roomy (pq.insert obj priority) ∧
        (IQueue.priority pq).enqueue obj priority = (do
          let pq ← pqEnqueue pq obj priority
          pure (.priority pq))) ∧
      (∀ remove, Roomy pq.removeFirst.1 ∧
        (IQueue.priority pq).dequeue remove = (do
          let (pq, obj) ← pqDequeue pq
          pure (.priority pq, obj))) ∧
      ∀ index newPriority, Roomy (pq.rekey index newPriority) ∧
        (do
          let pq ← pqChangePriority pq index newPriority
          pure (IQueue.priority pq)) =
            .ok ((IQueue.priority pq).changePriority index newPriority) := by
  refine ⟨?_, ?_, ?_⟩
  · intro obj priority
    have fits : pqSize pq = pq.capacity → pq.capacity * 2 < 2 ^ 31 := by
      intro full
      rw [pqSize] at full
      omega
    refine ⟨roomy.insert fits obj priority, ?_⟩
    rw [pqEnqueue_of_few roomy few, ok_bind]
    rfl
  · intro remove
    refine ⟨roomy.removeFirst, ?_⟩
    rw [pqDequeue_of_few few, ok_bind]
    rfl
  · intro index newPriority
    refine ⟨roomy.rekey index newPriority, ?_⟩
    rw [pqChangePriority_of_few few, ok_bind]
    rfl

/-! ### The items a queue shows -/

/-- The queue is well formed and holds these items, the first one in front. -/
def Shows (queue : IQueue α) (items : List α) : Prop :=
  match queue with
  | .circular heap q => ∃ front back, RingAt heap q front back ∧
      items = (front ++ back).map Prod.snd
  | .priority pq => items = pq.nodes.map PQueueNode.item

/-- The nodes of a heap store these keys for their items. -/
def KeyedBy (queue : IQueue α) (key : α → Int) : Prop :=
  match queue with
  | .circular _ _ => True
  | .priority pq => ∀ node ∈ pq.nodes, node.priority = key node.item

theorem initQueue_type (algType : SchedulingAlgorithm) :
    (initQueue α algType).type = queueType algType := by
  rw [initQueue]
  cases queueType algType <;> rfl

theorem initQueue_shows (algType : SchedulingAlgorithm) :
    Shows (initQueue α algType) [] := by
  rw [initQueue]
  cases queueType algType with
  | circularQueue => exact ⟨[], [], circularQueue_ringAt _, rfl⟩
  | priorityQueue => rfl

theorem initQueue_keyedBy (algType : SchedulingAlgorithm) (key : α → Int) :
    KeyedBy (initQueue α algType) key := by
  rw [initQueue]
  cases queueType algType with
  | circularQueue => trivial
  | priorityQueue =>
      intro node member
      cases member

namespace Shows

variable {queue : IQueue α} {items : List α} {key : α → Int}

theorem isEmpty_iff (shows : Shows queue items) :
    queue.isEmpty = true ↔ items = [] := by
  cases queue with
  | circular heap q =>
      obtain ⟨front, back, ring, same⟩ := shows
      rw [IQueue.isEmpty, decide_eq_true_iff, ring.size_eq_zero_iff, same,
        List.map_eq_nil_iff]
  | priority pq =>
      rw [Shows] at shows
      rw [IQueue.isEmpty, pqIsEmpty, decide_eq_true_iff, shows,
        List.map_eq_nil_iff, List.length_eq_zero_iff]

theorem size_eq (shows : Shows queue items) : queue.size = items.length := by
  cases queue with
  | circular heap q =>
      obtain ⟨front, back, ring, same⟩ := shows
      rw [IQueue.size, ring.size, same, List.length_map]
  | priority pq =>
      rw [Shows] at shows
      rw [IQueue.size, pqSize, shows, List.length_map]

theorem items_eq (shows : Shows queue items) : queue.items = .ok items := by
  cases queue with
  | circular heap q =>
      obtain ⟨front, back, ring, same⟩ := shows
      rw [IQueue.items, ring.size, Int.toNat_natCast, ring.head,
        ring.circle.goRound_eq, ok_bind, same, pure_eq_ok]
  | priority pq =>
      rw [Shows] at shows
      rw [IQueue.items, shows]

/-- A queue shows one list of items only. -/
theorem unique {other : List α} (shows : Shows queue items)
    (shows' : Shows queue other) : other = items :=
  Except.ok.inj (shows'.items_eq.symm.trans shows.items_eq)

theorem front_eq (shows : Shows queue items) :
    queue.front = .ok items.head? := by
  cases queue with
  | circular heap q =>
      obtain ⟨front, back, ring, same⟩ := shows
      rw [IQueue.front, ring.front_eq, same]
  | priority pq =>
      rw [Shows] at shows
      rw [IQueue.front, pqFront_eq, shows]

/-- An insertion adds the item, somewhere behind the front of a ring. -/
theorem enqueue (shows : Shows queue items) (obj : α) (priority : Int) :
    ∃ queue' items', queue.enqueue obj priority = .ok queue' ∧
      queue'.type = queue.type ∧ Shows queue' items' ∧
      items'.Perm (obj :: items) ∧
      (queue.type = .circularQueue → items ≠ [] →
        items'.head? = items.head?) := by
  cases queue with
  | circular heap q =>
      obtain ⟨front, back, ring, same⟩ := shows
      obtain ⟨heap', q', node, run, ring'⟩ := ring.enqueue obj
      refine ⟨.circular heap' q', _, ?_, rfl, ⟨_, _, ring', rfl⟩, ?_, ?_⟩
      · rw [IQueue.enqueue, run]
        rfl
      · rw [same]
        simp only [List.map_append, List.map_cons,
          List.append_assoc, List.singleton_append]
        exact List.perm_middle
      · intro _ nonempty
        rw [same]
        cases front with
        | nil =>
            rw [ring.closed rfl] at same
            exact absurd same nonempty
        | cons first rest => rfl
  | priority pq =>
      rw [Shows] at shows
      refine ⟨.priority (pq.insert obj priority), _, rfl, rfl, rfl, ?_, ?_⟩
      · rw [shows]
        exact (PriorityQueue.insert_perm pq obj priority).map PQueueNode.item
      · intro impossible
        cases impossible

/-- A queue with a front is not empty. -/
theorem front_inv (shows : Shows queue items) {first : α}
    (front : queue.front = .ok (some first)) : ∃ rest, items = first :: rest := by
  rw [shows.front_eq, Except.ok.injEq] at front
  exact List.head?_eq_some_iff.mp front

/-- A ring that shows items has a head node, with the front. -/
theorem circular_inv {heap : Mem (QueueNode α)} {q : CircularQueue} {first : α}
    {rest : List α} (shows : Shows (.circular heap q) (first :: rest)) :
    ∃ node front back, RingAt heap q (node :: front) back ∧
      first = node.2 ∧ rest = (front ++ back).map Prod.snd := by
  obtain ⟨front, back, ring, same⟩ := shows
  cases front with
  | nil =>
      rw [ring.closed rfl] at same
      cases same
  | cons node front =>
      rw [List.cons_append, List.map_cons, List.cons.injEq] at same
      exact ⟨node, front, back, ring, same⟩

/-- A heap that shows items has a root, with the front. -/
theorem priority_inv {pq : PriorityQueue α} {first : α} {rest : List α}
    (shows : Shows (.priority pq) (first :: rest)) :
    ∃ node nodes, pq.nodes = node :: nodes ∧ first = node.item ∧
      rest = nodes.map PQueueNode.item := by
  rw [Shows] at shows
  cases split : pq.nodes with
  | nil => simp [split] at shows
  | cons node nodes =>
      rw [split, List.map_cons, List.cons.injEq] at shows
      exact ⟨node, nodes, rfl, shows⟩

/-- The root of a heap with correct keys stores the key of the front. -/
theorem root_priority {pq : PriorityQueue α} {node : PQueueNode α}
    {nodes : List (PQueueNode α)} (split : pq.nodes = node :: nodes)
    (keyed : KeyedBy (.priority pq) key) : node.priority = key node.item := by
  apply keyed node
  rw [split]
  exact List.mem_cons_self

/-- In a heap with correct keys an insertion leaves the front alone, unless the
new item has a greater key. -/
theorem enqueue_front {queue' : IQueue α} {items' : List α} {first : α}
    {rest : List α} (shows : Shows queue (first :: rest))
    (keyed : KeyedBy queue key) {obj : α} {priority : Int}
    (run : queue.enqueue obj priority = .ok queue')
    (shows' : Shows queue' items') :
    items'.head? = some first ∨
      (items'.head? = some obj ∧
        0 < wrap (wrap (-priority) - key first)) := by
  cases queue with
  | circular heap q =>
      obtain ⟨queue'', items'', run', _, shows'', _, kept⟩ :=
        shows.enqueue obj priority
      rw [run, Except.ok.injEq] at run'
      subst run'
      have same := (shows''.front_eq).symm.trans shows'.front_eq
      rw [Except.ok.injEq] at same
      rw [← same]
      exact Or.inl (kept rfl (List.cons_ne_nil _ _))
  | priority pq =>
      cases run
      obtain ⟨node, nodes, split, rfl, rfl⟩ := shows.priority_inv
      have stored := root_priority split keyed
      rw [Shows] at shows'
      obtain ⟨rest', same | ⟨same, higher⟩⟩ :=
        PriorityQueue.insert_front split obj priority
      · rw [shows', same]
        exact Or.inl rfl
      · rw [shows', same, ← stored]
        rw [outranks, decide_eq_true_iff, comparePriority] at higher
        exact Or.inr ⟨rfl, higher⟩

/-- Removal returns the front and keeps the other items. -/
theorem dequeue_remove {first : α} {rest : List α}
    (shows : Shows queue (first :: rest)) :
    ∃ queue' items', queue.dequeue true = .ok (queue', some first) ∧
      queue'.type = queue.type ∧ Shows queue' items' ∧ items'.Perm rest ∧
      ∀ key, KeyedBy queue key → KeyedBy queue' key := by
  cases queue with
  | circular heap q =>
      obtain ⟨node, front, back, ring, rfl, rfl⟩ := shows.circular_inv
      obtain ⟨heap', q', run, ring'⟩ := ring.dequeueAndRemove
      refine ⟨.circular heap' q', _, ?_, rfl, ⟨_, _, ring', rfl⟩, ?_,
        fun _ _ => trivial⟩
      · rw [IQueue.dequeue, if_pos rfl, run]
        rfl
      · rw [shortened_append]
  | priority pq =>
      obtain ⟨node, nodes, split, rfl, rfl⟩ := shows.priority_inv
      obtain ⟨returned, others⟩ := PriorityQueue.removeFirst_spec split
      refine ⟨.priority pq.removeFirst.1, _, ?_, rfl, rfl, ?_, ?_⟩
      · rw [IQueue.dequeue, returned]
      · exact others.map PQueueNode.item
      · intro key keyed other member
        apply keyed other
        rw [split]
        exact List.mem_cons_of_mem _ (others.mem_iff.mp member)

/-- Nothing is removed from an empty queue. -/
theorem dequeue_empty (shows : Shows queue []) (remove : Bool) :
    queue.dequeue remove = .ok (queue, none) := by
  cases queue with
  | circular heap q =>
      obtain ⟨front, back, ring, same⟩ := shows
      have none := List.map_eq_nil_iff.mp same.symm
      have head : q.head = Option.none := by
        rw [ring.head, none]
        rfl
      rw [IQueue.dequeue, cqDequeueAndRemove, cqDequeue, head]
      cases remove <;> rfl
  | priority pq =>
      have none : pq.nodes = [] := List.map_eq_nil_iff.mp shows.symm
      rw [IQueue.dequeue, PriorityQueue.removeFirst, none]

/-- On a ring, `dequeue` without removal rotates. -/
theorem dequeue_rotate {first : α} {rest : List α}
    (shows : Shows queue (first :: rest)) (ring : queue.type = .circularQueue) :
    ∃ queue', queue.dequeue false = .ok (queue', some first) ∧
      queue'.type = queue.type ∧ Shows queue' (rest ++ [first]) := by
  cases queue with
  | circular heap q =>
      obtain ⟨node, front, back, ring, rfl, rfl⟩ := shows.circular_inv
      obtain ⟨q', run, ring'⟩ := ring.dequeue
      refine ⟨.circular heap q', ?_, rfl, _, _, ring', ?_⟩
      · rw [IQueue.dequeue, if_neg (by decide), run]
        rfl
      · rw [turned_append]
        simp
  | priority pq => cases ring

/-- On a ring, an insertion goes somewhere behind the front. -/
theorem enqueue_ring {queue' : IQueue α} (shows : Shows queue items)
    (ring : queue.type = .circularQueue) {obj : α} {priority : Int}
    (run : queue.enqueue obj priority = .ok queue') :
    ∃ left right, items = left ++ right ∧ (left = [] → right = []) ∧
      Shows queue' (left ++ obj :: right) := by
  cases queue with
  | circular heap q =>
      obtain ⟨front, back, ring, same⟩ := shows
      obtain ⟨heap', q', node, run', ring'⟩ := ring.enqueue obj
      rw [IQueue.enqueue, run'] at run
      cases run
      refine ⟨front.map Prod.snd, back.map Prod.snd, ?_, ?_, _, _, ring', ?_⟩
      · rw [same, List.map_append]
      · intro empty
        rw [List.map_eq_nil_iff] at empty ⊢
        exact ring.closed empty
      · simp
  | priority pq => cases ring

/-- On a ring, a removal leaves the other items in their order. -/
theorem dequeue_ring {queue' : IQueue α} {first : α} {rest : List α}
    {next : Option α} (shows : Shows queue (first :: rest))
    (ring : queue.type = .circularQueue)
    (run : queue.dequeue true = .ok (queue', next)) : Shows queue' rest := by
  cases queue with
  | circular heap q =>
      obtain ⟨node, front, back, ring, rfl, rfl⟩ := shows.circular_inv
      obtain ⟨heap', q', run', ring'⟩ := ring.dequeueAndRemove
      rw [IQueue.dequeue, if_pos rfl, run'] at run
      cases run
      exact ⟨_, _, ring', by rw [shortened_append]⟩
  | priority pq => cases ring

/-- Re-keying the front node keeps the items. -/
theorem changePriority (shows : Shows queue items) (newPriority : Int) :
    ∃ items', Shows (queue.changePriority 0 newPriority) items' ∧
      (queue.changePriority 0 newPriority).type = queue.type ∧
      items'.Perm items := by
  cases queue with
  | circular heap q => exact ⟨items, shows, rfl, List.Perm.refl _⟩
  | priority pq =>
      rw [Shows] at shows
      refine ⟨_, rfl, rfl, ?_⟩
      cases split : pq.nodes with
      | nil =>
          have outside : (0 : Int) < 0 ∨ (0 : Int) ≥ pqSize pq := by
            simp [pqSize, split]
          rw [PriorityQueue.rekey, if_pos outside, shows]
      | cons node nodes =>
          rw [shows, split]
          exact (PriorityQueue.rekey_perm split newPriority).map PQueueNode.item

/-- Re-keying changes the entry of the front only. -/
theorem changePriority_entries {first : α} {rest : List α}
    (shows : Shows queue (first :: rest)) (heap : queue.type = .priorityQueue)
    (newPriority : Int) :
    ∃ key others, queue.entries.Perm ((first, key) :: others) ∧
      (queue.changePriority 0 newPriority).entries.Perm
        ((first, wrap (-newPriority)) :: others) := by
  cases queue with
  | circular heap' q => cases heap
  | priority pq =>
      obtain ⟨node, nodes, split, rfl, rfl⟩ := shows.priority_inv
      refine ⟨node.priority,
        nodes.map fun node => (node.item, node.priority), ?_, ?_⟩
      · rw [IQueue.entries, split, List.map_cons]
      · exact (PriorityQueue.rekey_perm split newPriority).map
          fun node => (node.item, node.priority)

/-- Re-keying the front node with a greater key keeps it in front. -/
theorem changePriority_front {first : α} {rest : List α}
    (shows : Shows queue (first :: rest)) (keyed : KeyedBy queue key)
    {newPriority : Int} (higher : key first ≤ wrap (-newPriority)) :
    Shows (queue.changePriority 0 newPriority) (first :: rest) := by
  cases queue with
  | circular heap q => exact shows
  | priority pq =>
      obtain ⟨node, nodes, split, rfl, rfl⟩ := shows.priority_inv
      have stored := root_priority split keyed
      show node.item :: nodes.map PQueueNode.item = List.map PQueueNode.item
        (pq.rekey 0 newPriority).nodes
      rw [PriorityQueue.rekey_front split (stored ▸ higher), List.map_cons]

end Shows

namespace KeyedBy

variable {queue queue' : IQueue α} {key : α → Int}

/-- Keys that agree on the items are equally correct. -/
theorem congr {other : α → Int} {items : List α} (keyed : KeyedBy queue key)
    (shows : Shows queue items) (agree : ∀ item ∈ items, other item = key item) :
    KeyedBy queue other := by
  cases queue with
  | circular heap q => trivial
  | priority pq =>
      rw [Shows] at shows
      intro node member
      rw [keyed node member, agree]
      rw [shows]
      exact List.mem_map_of_mem member

theorem enqueue (keyed : KeyedBy queue key) {obj : α} {priority : Int}
    (own : queue.type = .priorityQueue → key obj = wrap (-priority))
    (run : queue.enqueue obj priority = .ok queue') : KeyedBy queue' key := by
  cases queue with
  | circular heap q =>
      obtain ⟨⟨heap', q'⟩, _, rest⟩ := bind_eq_ok.mp run
      cases rest
      trivial
  | priority pq =>
      cases run
      intro node member
      rcases List.mem_cons.mp
        ((PriorityQueue.insert_perm pq obj priority).mem_iff.mp member)
        with new | old
      · rw [new, own rfl]
      · exact keyed node old

/-- Re-keying the front node makes the keys correct for the new key of the
front. -/
theorem changePriority {other : α → Int} {first : α} {rest : List α}
    (keyed : KeyedBy queue key) (shows : Shows queue (first :: rest))
    {newPriority : Int} (own : other first = wrap (-newPriority))
    (agree : ∀ item ∈ rest, other item = key item) :
    KeyedBy (queue.changePriority 0 newPriority) other := by
  cases queue with
  | circular heap q => trivial
  | priority pq =>
      obtain ⟨node, nodes, split, rfl, rfl⟩ := shows.priority_inv
      intro found member
      rcases List.mem_cons.mp
          ((PriorityQueue.rekey_perm split newPriority).mem_iff.mp member) with
        same | old
      · rw [same, ← own]
      · rw [keyed found (by simp [split, old]), agree]
        exact List.mem_map_of_mem old

end KeyedBy

/-! ### The order of a heap -/

/-- The nodes of a heap are in order. -/
def Heaped (queue : IQueue α) : Prop :=
  match queue with
  | .circular _ _ => True
  | .priority pq => HeapOrdered pq

/-- The priorities stored in a heap can be compared by subtraction. -/
def Spread (queue : IQueue α) : Prop :=
  match queue with
  | .circular _ _ => True
  | .priority pq => Comparable pq.nodes

theorem initQueue_heaped (algType : SchedulingAlgorithm) :
    Heaped (initQueue α algType) := by
  rw [initQueue]
  cases queueType algType with
  | circularQueue => trivial
  | priorityQueue =>
      intro c _ bound
      cases bound

/-- An entry of a heap is an item with its key. -/
theorem KeyedBy.entry {queue : IQueue α} {items : List α} {key : α → Int}
    (keyed : KeyedBy queue key) (shows : Shows queue items) {item : α}
    {stored : Int} (member : (item, stored) ∈ queue.entries) :
    item ∈ items ∧ stored = key item := by
  cases queue with
  | circular heap q => cases member
  | priority pq =>
      rw [Shows] at shows
      obtain ⟨node, inside, same⟩ := List.mem_map.mp member
      cases same
      rw [shows]
      exact ⟨List.mem_map_of_mem inside, keyed node inside⟩

/-- Keys that are close enough to each other can be compared. -/
theorem KeyedBy.spread {queue : IQueue α} {items : List α} {key : α → Int}
    (keyed : KeyedBy queue key) (shows : Shows queue items)
    (close : ∀ a ∈ items, ∀ b ∈ items, InRange (key a - key b)) :
    Spread queue := by
  cases queue with
  | circular heap q => trivial
  | priority pq =>
      rw [Shows] at shows
      intro a left b right
      rw [keyed a left, keyed b right]
      apply close
      · rw [shows]
        exact List.mem_map_of_mem left
      · rw [shows]
        exact List.mem_map_of_mem right

namespace Heaped

variable {queue queue' : IQueue α} {items : List α} {key : α → Int}

theorem enqueue (heaped : Heaped queue) {obj : α} {priority : Int}
    (run : queue.enqueue obj priority = .ok queue') (spread : Spread queue') :
    Heaped queue' := by
  cases queue with
  | circular heap q =>
      obtain ⟨⟨heap', q'⟩, _, rest⟩ := bind_eq_ok.mp run
      cases rest
      trivial
  | priority pq =>
      cases run
      exact PriorityQueue.insert_ordered heaped
        (Comparable.perm spread (PriorityQueue.insert_perm pq obj priority).symm)

theorem dequeue (heaped : Heaped queue) (spread : Spread queue) {next : Option α}
    (run : queue.dequeue true = .ok (queue', next)) : Heaped queue' := by
  cases queue with
  | circular heap q =>
      rw [IQueue.dequeue, if_pos rfl] at run
      obtain ⟨⟨heap', q', obj⟩, _, rest⟩ := bind_eq_ok.mp run
      cases rest
      trivial
  | priority pq =>
      cases run
      exact PriorityQueue.removeFirst_ordered heaped spread

/-- Re-keying the front keeps the order. -/
theorem changePriority (heaped : Heaped queue) {newPriority : Int}
    (spread : Spread (queue.changePriority 0 newPriority)) :
    Heaped (queue.changePriority 0 newPriority) := by
  cases queue with
  | circular heap q => trivial
  | priority pq =>
      cases split : pq.nodes with
      | nil =>
          have outside : (0 : Int) < 0 ∨ (0 : Int) ≥ pqSize pq := by
            simp [pqSize, split]
          have same : pq.rekey 0 newPriority = pq := by
            rw [PriorityQueue.rekey, if_pos outside]
          show HeapOrdered (pq.rekey 0 newPriority)
          rw [same]
          exact heaped
      | cons first rest =>
          have found : pq.nodes[(0 : Int).toNat]? = some first := by
            rw [split]
            rfl
          exact PriorityQueue.rekey_ordered heaped (Int.le_refl 0) found
            (Comparable.perm spread
              (PriorityQueue.rekey_set_perm (Int.le_refl 0) found newPriority).symm)

/-- The front of a heap has the greatest key. -/
theorem key_le_front {first : α} {rest : List α} (heaped : Heaped queue)
    (keyed : KeyedBy queue key) (shows : Shows queue (first :: rest))
    (type : queue.type = .priorityQueue) {a : α} (member : a ∈ first :: rest) :
    key a ≤ key first := by
  cases queue with
  | circular heap q => cases type
  | priority pq =>
      obtain ⟨top, others, split, rfl, rfl⟩ := shows.priority_inv
      rw [Shows] at shows
      rw [shows] at member
      obtain ⟨node, inside, rfl⟩ := List.mem_map.mp member
      have bound := HeapOrdered.le_front heaped split inside
      rw [keyed node inside, Shows.root_priority split keyed] at bound
      exact bound

end Heaped

end OsSim
