/-
Module: OsSim.CircularQueue
Purpose: The circular queue of `DS/circular_queue.c`.  Its nodes form a circle
  with a head, from which the queue is read, and a tail, after which new nodes
  go.  Rotating moves the head only, so the tail may come to lie anywhere.
Trusted boundary: human-reviewed translation
Main exports:
  QueueNode, CircularQueue, CircularQueue.intSize, circularQueue, cqEnqueue,
  cqDequeue, cqDequeueAndRemove, cqFront, cqIsEmpty, cqSize, cqEnqueue_intSize,
  cqDequeue_intSize, cqDequeueAndRemove_intSize, RingAt, RingAt.enqueue,
  RingAt.dequeue, RingAt.dequeueAndRemove
-/
import OsSim.Library.Ring
import OsSim.MachineInt

namespace OsSim

open PointerMemory
open DoublyLinked

variable {α : Type}

/-- `QueueNode`.  The links are not initialised when a node is made, which
`none` stands for. -/
structure QueueNode (α : Type) where
  obj : α
  next : Option Addr
  prev : Option Addr
deriving Repr, DecidableEq

/-- `CircularQueue`.  The `int` field `size` only goes up and down by one.  Here it
counts exactly, and what the field holds is `intSize`, the value that is read. -/
structure CircularQueue where
  head : Option Addr
  tail : Option Addr
  size : Int
deriving Repr, DecidableEq

/-- What the `int` field `size` holds: the exact count, wrapped around. -/
def CircularQueue.intSize (q : CircularQueue) : Int := wrap q.size

/-- The links of a node. -/
def queueLinks (α : Type) : Links (QueueNode α) α :=
  { next := QueueNode.next, prev := QueueNode.prev, data := QueueNode.obj }

/-- `circular_queue` -/
def circularQueue : CircularQueue := { head := none, tail := none, size := 0 }

/-- `cq_enqueue` -/
def cqEnqueue (heap : Mem (QueueNode α)) (q : CircularQueue) (obj : α) :
    Except Fault (Mem (QueueNode α) × CircularQueue) :=
  let (heap, node) := heap.malloc { obj := obj, next := none, prev := none }
  match q.tail with
  | none => do
      let heap ← update heap node fun n => { n with next := some node }
      let heap ← update heap node fun n => { n with prev := some node }
      pure (heap,
        { q with head := some node, tail := some node, size := q.size + 1 })
  | some tail => do
      let last ← deref heap tail
      let heap ← update heap node fun n => { n with next := last.next }
      let heap ← update heap node fun n => { n with prev := some tail }
      let last ← deref heap tail
      let heap ← updatePtr heap last.next fun n => { n with prev := some node }
      let heap ← update heap tail fun n => { n with next := some node }
      pure (heap, { q with tail := some node, size := q.size + 1 })

/-- `cq_dequeue` -/
def cqDequeue (heap : Mem (QueueNode α)) (q : CircularQueue) :
    Except Fault (CircularQueue × Option α) :=
  match q.head with
  | none => .ok (q, none)
  | some head => do
      let node ← deref heap head
      pure ({ q with head := node.next }, some node.obj)

/-- The test of `cq_dequeue_and_remove` for a queue of a single node.  Its
second half is evaluated only where the first one holds. -/
def isOnlyNode (heap : Mem (QueueNode α)) (q : CircularQueue) (node : Addr) :
    Except Fault Bool :=
  if some node = q.tail then do
    let tail ← derefPtr heap q.tail
    pure (decide (some node = tail.next))
  else
    .ok false

/-- `cq_dequeue_and_remove` -/
def cqDequeueAndRemove (heap : Mem (QueueNode α)) (q : CircularQueue) :
    Except Fault (Mem (QueueNode α) × CircularQueue × Option α) :=
  match q.head with
  | none => .ok (heap, q, none)
  | some head => do
      let node ← deref heap head
      let obj := node.obj
      let only ← isOnlyNode heap q head
      if only then do
        let heap ← release heap head
        pure (heap, { q with head := none, tail := none, size := q.size - 1 },
          some obj)
      else do
        let heap ← updatePtr heap node.prev fun n => { n with next := node.next }
        let node ← deref heap head
        let heap ← updatePtr heap node.next fun n => { n with prev := node.prev }
        let node ← deref heap head
        let tail := if some head = q.tail then node.prev else q.tail
        let heap ← release heap head
        pure (heap, { q with head := node.next, tail := tail, size := q.size - 1 },
          some obj)

/-- `cq_front` -/
def cqFront (heap : Mem (QueueNode α)) (q : CircularQueue) :
    Except Fault (Option α) :=
  match q.head with
  | none => .ok none
  | some head => do
      let node ← deref heap head
      pure (some node.obj)

/-- `cq_is_empty` -/
def cqIsEmpty (q : CircularQueue) : Bool := q.intSize = 0

/-- `cq_size` -/
def cqSize (q : CircularQueue) : Int := q.intSize

/-! ### The counter

The exact count is there to be compared with the nodes.  No function of the queue
reads it: `cq_is_empty` and `cq_size` read `intSize`, and by the next lemmas that goes
up and down as the field `size` does, wrapping around at each step. -/

section

variable {heap heap' : Mem (QueueNode α)} {q q' : CircularQueue}

/-- `q->size++` -/
theorem cqEnqueue_intSize {obj : α} (run : cqEnqueue heap q obj = .ok (heap', q')) :
    q'.intSize = wrap (q.intSize + 1) := by
  have size : q'.size = q.size + 1 := by
    rw [cqEnqueue] at run
    dsimp only at run
    split at run
    next =>
      obtain ⟨_, _, run⟩ := bind_eq_ok.mp run
      obtain ⟨_, _, run⟩ := bind_eq_ok.mp run
      cases run
      rfl
    next =>
      obtain ⟨_, _, run⟩ := bind_eq_ok.mp run
      obtain ⟨_, _, run⟩ := bind_eq_ok.mp run
      obtain ⟨_, _, run⟩ := bind_eq_ok.mp run
      obtain ⟨_, _, run⟩ := bind_eq_ok.mp run
      obtain ⟨_, _, run⟩ := bind_eq_ok.mp run
      obtain ⟨_, _, run⟩ := bind_eq_ok.mp run
      cases run
      rfl
  rw [CircularQueue.intSize, size, CircularQueue.intSize, wrap_add]

/-- `cq_dequeue` leaves `size` as it is. -/
theorem cqDequeue_intSize {obj : Option α}
    (run : cqDequeue heap q = .ok (q', obj)) : q'.intSize = q.intSize := by
  rw [cqDequeue] at run
  split at run
  next =>
    cases run
    rfl
  next =>
    obtain ⟨_, _, run⟩ := bind_eq_ok.mp run
    cases run
    rfl

/-- `q->size--`, where there is a node to remove. -/
theorem cqDequeueAndRemove_intSize {obj : Option α} (nonempty : q.head ≠ none)
    (run : cqDequeueAndRemove heap q = .ok (heap', q', obj)) :
    q'.intSize = wrap (q.intSize - 1) := by
  have size : q'.size = q.size - 1 := by
    rw [cqDequeueAndRemove] at run
    split at run
    next empty => exact absurd empty nonempty
    next =>
      obtain ⟨_, _, run⟩ := bind_eq_ok.mp run
      obtain ⟨only, _, run⟩ := bind_eq_ok.mp run
      split at run
      next =>
        obtain ⟨_, _, run⟩ := bind_eq_ok.mp run
        cases run
        rfl
      next =>
        obtain ⟨_, _, run⟩ := bind_eq_ok.mp run
        obtain ⟨_, _, run⟩ := bind_eq_ok.mp run
        obtain ⟨_, _, run⟩ := bind_eq_ok.mp run
        obtain ⟨_, _, run⟩ := bind_eq_ok.mp run
        obtain ⟨_, _, run⟩ := bind_eq_ok.mp run
        cases run
        rfl
  rw [CircularQueue.intSize, size, CircularQueue.intSize, Int.sub_eq_add_neg,
    Int.sub_eq_add_neg, wrap_add]

end

/-! ### The circle behind the pointers

Read from the head, the nodes fall into those up to the tail and those after
it.  A new node goes between the two parts. -/

/-- The heap and the head, tail and size of `q` represent the nodes `front` up
to the tail, and the nodes `back` after it. -/
structure RingAt (heap : Mem (QueueNode α)) (q : CircularQueue)
    (front back : List (Addr × α)) : Prop where
  circle : Circle (queueLinks α) heap (front ++ back)
  head : q.head = firstAddr none (front ++ back)
  tail : q.tail = lastAddr none front
  closed : front = [] → back = []
  size : q.size = (front ++ back).length

/-- The two parts after the head has moved from `node` to the next node.  Where
`node` was the tail, all nodes now lie before it. -/
def turned (node : Addr × α) (rest back : List (Addr × α)) :
    List (Addr × α) × List (Addr × α) :=
  if rest.isEmpty then (back ++ [node], []) else (rest, back ++ [node])

theorem turned_append (node : Addr × α) (rest back : List (Addr × α)) :
    (turned node rest back).1 ++ (turned node rest back).2 =
      rest ++ back ++ [node] := by
  cases rest with
  | nil => simp [turned]
  | cons second rest => simp [turned]

/-- The two parts after the first node has been removed.  Where it was the tail,
the node before it becomes the tail. -/
def shortened (rest back : List (Addr × α)) :
    List (Addr × α) × List (Addr × α) :=
  if rest.isEmpty then (back, []) else (rest, back)

theorem shortened_append (rest back : List (Addr × α)) :
    (shortened rest back).1 ++ (shortened rest back).2 = rest ++ back := by
  cases rest with
  | nil => simp [shortened]
  | cons second rest => simp [shortened]

theorem circularQueue_ringAt (heap : Mem (QueueNode α)) :
    RingAt heap circularQueue [] [] :=
  ⟨Circle.empty, rfl, rfl, fun _ => rfl, rfl⟩

namespace RingAt

variable {heap : Mem (QueueNode α)} {q : CircularQueue}
  {front back : List (Addr × α)}

theorem size_eq_zero_iff (ring : RingAt heap q front back) :
    q.size = 0 ↔ front ++ back = [] := by
  rw [ring.size, Int.natCast_eq_zero, List.length_eq_zero_iff]

/-- As long as an `int` can count the nodes, the field is their number. -/
theorem intSize_eq (ring : RingAt heap q front back)
    (short : (front ++ back).length < 2 ^ 31) :
    q.intSize = (front ++ back).length := by
  rw [CircularQueue.intSize, ring.size]
  exact wrap_of_inRange ⟨by omega, by omega⟩

/-- So long the queue is empty by its size when it has no nodes. -/
theorem isEmpty_eq (ring : RingAt heap q front back)
    (short : (front ++ back).length < 2 ^ 31) :
    cqIsEmpty q = (q.size = 0 : Bool) := by
  rw [cqIsEmpty, ring.intSize_eq short, ring.size]

/-- The front of the queue is its first object. -/
theorem front_eq (ring : RingAt heap q front back) :
    cqFront heap q = .ok (((front ++ back).map Prod.snd).head?) := by
  rw [cqFront, ring.head]
  cases split : front ++ back with
  | nil => rfl
  | cons node rest =>
      have circle := ring.circle
      rw [split] at circle
      obtain ⟨⟨cell, live, data, _⟩, _⟩ := circle.seg
      have obj : cell.obj = node.2 := data
      rw [firstAddr_cons]
      dsimp only
      rw [deref_of_load live, ok_bind, obj]
      rfl

/-- Nodes of a circle are live, so a newly allocated one is not among them. -/
theorem malloc_fresh {nodes : List (Addr × α)}
    (circle : Circle (queueLinks α) heap nodes) (cell : QueueNode α) :
    (heap.malloc cell).2 ∉ addrs nodes := by
  intro member
  obtain ⟨node, inside, same⟩ := List.mem_map.mp member
  obtain ⟨old, loaded, _⟩ := circle.seg.load inside
  exact Mem.ne_malloc_of_live loaded cell same

/-- The first node of an empty queue becomes its head and its tail. -/
theorem enqueue_empty (ring : RingAt heap q [] []) (obj : α) :
    ∃ heap' q' node, cqEnqueue heap q obj = .ok (heap', q') ∧
      RingAt heap' q' [(node, obj)] [] := by
  let cell : QueueNode α := { obj := obj, next := none, prev := none }
  let address := (heap.malloc cell).2
  have tail : q.tail = none := ring.tail
  have live : (heap.malloc cell).1.load address = some cell :=
    Mem.load_malloc_self heap cell
  have linked : ((heap.malloc cell).1.put address
      { cell with next := some address }).load address =
        some { cell with next := some address } := Mem.load_put_self live _
  have closed := Mem.load_put_self linked
    { cell with next := some address, prev := some address }
  refine ⟨_, { q with
      head := some address, tail := some address, size := q.size + 1 },
    address, ?_, ⟨⟨⟨⟨_, closed, rfl, rfl, rfl⟩, trivial⟩,
      List.nodup_singleton _⟩, rfl, rfl, ?_, ?_⟩⟩
  · rw [cqEnqueue]
    dsimp only
    rw [tail]
    dsimp only
    rw [update_of_load live, ok_bind, update_of_load linked, ok_bind, pure_eq_ok]
  · intro empty
    cases empty
  · show q.size + 1 = 1
    rw [ring.size]
    rfl

/-- A new node goes after the tail and becomes the tail. -/
theorem enqueue_after {last : Addr × α}
    (ring : RingAt heap q (front ++ [last]) back) (obj : α) :
    ∃ heap' q' node, cqEnqueue heap q obj = .ok (heap', q') ∧
      RingAt heap' q' (front ++ [last] ++ [(node, obj)]) back := by
  let cell : QueueNode α := { obj := obj, next := none, prev := none }
  let address := (heap.malloc cell).2
  let next := firstAddr (firstAddr none (front ++ last :: back)) back
  have tail : q.tail = some last.1 := by
    rw [ring.tail, lastAddr_append_singleton]
  have regroup : front ++ [last] ++ back = front ++ last :: back := by simp
  have circle := ring.circle
  rw [regroup] at circle
  have fresh : address ∉ addrs (front ++ last :: back) :=
    malloc_fresh circle cell
  -- The node gets its links before any link leads to it.
  obtain ⟨_, ⟨old, loaded, _, _, following⟩, _⟩ := seg_append.mp circle.seg
  have oldNext : old.next = next := following
  have apart : last.1 ≠ address :=
    fun same => fresh (same ▸ List.mem_map_of_mem (by simp))
  have live : (heap.malloc cell).1.load address = some cell :=
    Mem.load_malloc_self heap cell
  have loaded₁ : (heap.malloc cell).1.load last.1 = some old :=
    Mem.load_malloc_of_live loaded cell
  have live₂ := Mem.load_put_self live { cell with next := next }
  have live₃ := Mem.load_put_self live₂
    { cell with next := next, prev := some last.1 }
  have loaded₃ : (((heap.malloc cell).1.put address
      { cell with next := next }).put address
        { cell with next := next, prev := some last.1 }).load last.1 =
          some old := by
    rw [Mem.load_put_of_ne _ apart, Mem.load_put_of_ne _ apart, loaded₁]
  have circle₃ : Circle (queueLinks α) (((heap.malloc cell).1.put address
      { cell with next := next }).put address
        { cell with next := next, prev := some last.1 })
      (front ++ last :: back) :=
    ⟨((circle.seg.malloc cell).put_of_not_mem fresh _).put_of_not_mem fresh _,
      circle.nodup⟩
  obtain ⟨middle, final, first, second, circle'⟩ :=
    circle₃.insertAfter (address, obj) fresh live₃ rfl rfl
      (f := fun n => { n with prev := some address })
      (g := fun n => { n with next := some address }) rfl
      (fun _ => rfl) (fun _ => rfl) (fun _ => rfl)
      (fun _ => rfl) (fun _ => rfl) (fun _ => rfl)
  have target : ∃ first, next = some first := by
    cases front <;> cases back <;> exact ⟨_, rfl⟩
  obtain ⟨target, nextTarget⟩ := target
  have toward : updateIfPtr _ next _ = .ok middle := first
  rw [nextTarget] at toward
  refine ⟨final, { q with tail := some address, size := q.size + 1 }, address,
    ?_, ⟨by simpa using circle', ?_, ?_, ?_, ?_⟩⟩
  · rw [cqEnqueue]
    dsimp only
    rw [tail]
    dsimp only
    rw [deref_of_load loaded₁, ok_bind, oldNext, update_of_load live, ok_bind,
      update_of_load live₂, ok_bind, deref_of_load loaded₃, ok_bind, oldNext,
      nextTarget, updatePtr_some, toward, ok_bind]
    have relinked : update middle last.1 _ = .ok final := second
    rw [relinked, ok_bind, pure_eq_ok]
  · show q.head = _
    rw [ring.head]
    cases front <;> rfl
  · show some address = _
    rw [lastAddr_append_singleton]
  · intro empty
    simp at empty
  · show q.size + 1 = _
    rw [ring.size]
    simp only [List.length_append, List.length_singleton]
    omega

/-- Every nonempty queue has a tail to insert after. -/
theorem enqueue (ring : RingAt heap q front back) (obj : α) :
    ∃ heap' q' node, cqEnqueue heap q obj = .ok (heap', q') ∧
      RingAt heap' q' (front ++ [(node, obj)]) back := by
  rcases List.eq_nil_or_concat front with empty | ⟨before, last, split⟩
  · subst empty
    have none := ring.closed rfl
    subst none
    exact ring.enqueue_empty obj
  · rw [List.concat_eq_append] at split
    subst split
    exact ring.enqueue_after obj

/-- The first node, read through the head. -/
theorem head_cell {node : Addr × α} {rest : List (Addr × α)}
    (ring : RingAt heap q (node :: rest) back) :
    q.head = some node.1 ∧
      ∃ cell, heap.load node.1 = some cell ∧ cell.obj = node.2 ∧
        cell.next = firstAddr none (rest ++ back ++ [node]) := by
  obtain ⟨cell, live, data, next, _⟩ := ring.circle.first_cell
  exact ⟨ring.head, cell, live, data, next⟩

/-- Rotating returns the first object and reads the circle from the next node
on. -/
theorem dequeue {node : Addr × α} {rest : List (Addr × α)}
    (ring : RingAt heap q (node :: rest) back) :
    ∃ q', cqDequeue heap q = .ok (q', some node.2) ∧
      RingAt heap q' (turned node rest back).1 (turned node rest back).2 := by
  obtain ⟨head, cell, live, obj, next⟩ := ring.head_cell
  have turn : (turned node rest back).1 ++ (turned node rest back).2 =
      rest ++ back ++ [node] := turned_append node rest back
  refine ⟨{ q with head := cell.next }, ?_, ⟨?_, ?_, ?_, ?_, ?_⟩⟩
  · rw [cqDequeue, head]
    dsimp only
    rw [deref_of_load live, ok_bind, obj, pure_eq_ok]
  · rw [turn]
    exact ring.circle.rotate_first
  · rw [turn]
    exact next
  · show q.tail = _
    rw [ring.tail]
    cases rest with
    | nil => simp [turned]
    | cons second rest => rfl
  · intro empty
    cases rest with
    | nil => simp [turned] at empty
    | cons second rest => cases empty
  · show q.size = _
    rw [turn, ring.size]
    simp only [List.length_append, List.length_cons, List.length_nil]
    omega

/-- The only node of a queue is its tail and its own successor; the first of
several is not. -/
theorem isOnlyNode_eq {node : Addr × α} {rest : List (Addr × α)}
    (ring : RingAt heap q (node :: rest) back) :
    isOnlyNode heap q node.1 = .ok (decide (rest ++ back = [])) := by
  obtain ⟨_, cell, live, _, next⟩ := ring.head_cell
  rw [isOnlyNode]
  by_cases last : some node.1 = q.tail
  · rw [if_pos last, ← last, derefPtr, deref_of_load live, ok_bind, next,
      pure_eq_ok, Except.ok.injEq, decide_eq_decide]
    cases split : rest ++ back with
    | nil => simp
    | cons second others =>
        have outside : node.1 ∉ addrs (rest ++ back) :=
          (List.nodup_cons.mp ring.circle.nodup).1
        rw [split] at outside
        constructor
        · intro same
          rw [List.cons_append, firstAddr_cons, Option.some.injEq] at same
          exact absurd (same ▸ List.mem_cons_self) outside
        · intro impossible
          cases impossible
  · rw [if_neg last, Except.ok.injEq, eq_comm, decide_eq_false_iff_not]
    intro empty
    rw [List.append_eq_nil_iff] at empty
    apply last
    rw [ring.tail, empty.1]
    rfl

/-- Removing returns the first object and takes its node out of the circle. -/
theorem dequeueAndRemove {node : Addr × α} {rest : List (Addr × α)}
    (ring : RingAt heap q (node :: rest) back) :
    ∃ heap' q', cqDequeueAndRemove heap q = .ok (heap', q', some node.2) ∧
      RingAt heap' q' (shortened rest back).1 (shortened rest back).2 := by
  obtain ⟨head, cell, live, obj, _⟩ := ring.head_cell
  have size : q.size - 1 = (rest ++ back).length := by
    rw [ring.size, List.cons_append, List.length_cons]
    omega
  rw [cqDequeueAndRemove, head]
  dsimp only
  rw [deref_of_load live, ok_bind, obj, ring.isOnlyNode_eq, ok_bind]
  by_cases only : rest ++ back = []
  · rw [if_pos (decide_eq_true only), release_of_load live, ok_bind, pure_eq_ok]
    rw [List.append_eq_nil_iff] at only
    obtain ⟨restEmpty, backEmpty⟩ := only
    subst restEmpty backEmpty
    exact ⟨_, _, rfl, Circle.empty, rfl, rfl, fun _ => rfl, size⟩
  · rw [if_neg (by simpa using only)]
    have circle : Circle (queueLinks α) heap (node :: (rest ++ back)) :=
      ring.circle
    obtain ⟨cell', middle, final, live', _, prev, next, first, second, circle',
        kept, kept'⟩ :=
      circle.removeFirst only
        (f := fun n => { n with next := firstAddr none (rest ++ back) })
        (g := fun n => { n with prev := lastAddr none (rest ++ back) })
        (fun _ => rfl) (fun _ => rfl) (fun _ => rfl)
        (fun _ => rfl) (fun _ => rfl) (fun _ => rfl)
    rw [live, Option.some.injEq] at live'
    subst live'
    have prev' : cell.prev = lastAddr none (rest ++ back) := prev
    have next' : cell.next = firstAddr none (rest ++ back) := next
    obtain ⟨before, _, beforeIs⟩ := lastAddr_mem none only
    obtain ⟨after, afterIs⟩ : ∃ after, firstAddr none (rest ++ back) = some after
      := by
      cases split : rest ++ back with
      | nil => exact absurd split only
      | cons second others => exact ⟨second.1, rfl⟩
    have outside : node.1 ∉ addrs (rest ++ back) :=
      (List.nodup_cons.mp circle.nodup).1
    rw [beforeIs] at first
    rw [afterIs] at second
    rw [prev', beforeIs, updatePtr_some, next', first, ok_bind,
      deref_of_load kept, ok_bind, next', afterIs, updatePtr_some, prev', second,
      ok_bind, deref_of_load kept', ok_bind, release_of_load kept', ok_bind,
      pure_eq_ok, next', prev']
    have parts := shortened_append rest back
    refine ⟨_, _, rfl, ⟨⟨?_, ?_⟩, ?_, ?_, ?_, ?_⟩⟩
    · rw [parts]
      exact circle'.seg.drop_of_not_mem outside
    · rw [parts]
      exact circle'.nodup
    · rw [parts]
    · rw [ring.tail]
      cases rest with
      | nil => exact if_pos rfl
      | cons third rest =>
          obtain ⟨address, inside, last⟩ :=
            lastAddr_mem (some node.1) (List.cons_ne_nil third rest)
          have apart : some node.1 ≠ lastAddr none (node :: third :: rest) := by
            rw [lastAddr_cons, last]
            intro same
            rw [Option.some.injEq] at same
            apply outside
            rw [addrs, List.map_append, List.mem_append, same]
            exact Or.inl inside
          rw [if_neg apart]
          rfl
    · intro empty
      cases rest with
      | nil => rfl
      | cons second rest => cases empty
    · rw [parts]
      exact size

end RingAt

end OsSim
