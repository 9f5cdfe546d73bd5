/-
Module: OsSim.CircularQueueRing
Purpose: The nodes of the circular queue as a ring, after any sequence of calls:
  which nodes are reached, how their links invert each other, which objects they
  hold, and what going round once returns.
Trusted boundary: none
Main exports:
  CqHistory, CqHistory.step, cqDequeues, Reached, Encircles, RingKept,
  CqHistory.Supported, ring_kept_iff, ring_size_wraps
-/
import Mathlib.Data.List.Rotate
import OsSim.CircularQueueRuns

namespace OsSim

open PointerMemory
open DoublyLinked
open Trace

variable {α : Type}

/-- A queue, with the objects that have entered it and those that
`cq_dequeue_and_remove` has returned. -/
structure CqHistory (α : Type) where
  store : CqStore α
  enqueued : List α
  removed : List α
deriving Repr, DecidableEq

namespace CqHistory

def new (α : Type) : CqHistory α :=
  { store := CqStore.new α, enqueued := [], removed := [] }

/-- One call. -/
def step (h : CqHistory α) (call : CqCall α) : Except Fault (CqHistory α) := do
  let (store, returned) ← call.perform h.store
  match call with
  | .enqueue obj =>
      pure { h with store := store, enqueued := h.enqueued ++ [obj] }
  | .dequeueAndRemove =>
      pure { h with store := store, removed := h.removed ++ returned.toList }
  | .dequeue | .front => pure { h with store := store }

end CqHistory

/-- A number of calls of `cq_dequeue`, with what they return. -/
def cqDequeues (heap : Mem (QueueNode α)) :
    Nat → CircularQueue → Except Fault (CircularQueue × List (Option α))
  | 0, q => .ok (q, [])
  | n + 1, q => do
      let first ← cqDequeue heap q
      let rest ← cqDequeues heap n first.1
      pure (rest.1, first.2 :: rest.2)

/-- The addresses that the pointers of the queue and of its nodes lead to. -/
inductive Reached (heap : Mem (QueueNode α)) (q : CircularQueue) : Addr → Prop
  | head {a : Addr} (starts : q.head = some a) : Reached heap q a
  | tail {a : Addr} (ends : q.tail = some a) : Reached heap q a
  | next {a b : Addr} (from_node : Reached heap q a)
      (leads : nextOf (queueLinks α) heap a = some b) : Reached heap q b
  | prev {a b : Addr} (from_node : Reached heap q a)
      (leads : prevOf (queueLinks α) heap a = some b) : Reached heap q b

/-- The nodes of a queue, in the order in which `next` visits them from the head:
as many as `size`, all distinct, with the head after the last; `prev` inverts
`next`, the tail is one of them, and no pointer leads to a freed node.  As many
calls of `cq_dequeue` return the objects in this order and leave the queue as it
was. -/
structure Encircles (heap : Mem (QueueNode α)) (q : CircularQueue)
    (nodes : List (Addr × α)) : Prop where
  size : q.intSize = nodes.length
  visited : goRound (queueLinks α) heap nodes.length q.head = .ok nodes
  returns : advance (queueLinks α) heap nodes.length q.head = q.head
  distinct : (addrs nodes).Nodup
  forth : ∀ a ∈ addrs nodes, ∃ b ∈ addrs nodes,
    nextOf (queueLinks α) heap a = some b ∧
      prevOf (queueLinks α) heap b = some a
  back : ∀ a ∈ addrs nodes, ∃ b ∈ addrs nodes,
    prevOf (queueLinks α) heap a = some b ∧
      nextOf (queueLinks α) heap b = some a
  tail : ∀ a, q.tail = some a → a ∈ addrs nodes
  live : ∀ a, Reached heap q a → ∃ cell, heap.load a = some cell
  rotation : cqDequeues heap nodes.length q =
    .ok (q, nodes.map fun node => some node.2)

/-- The queue is empty by its size, its head and its tail alike; its nodes form a
ring, and hold exactly the objects that have entered and not been removed. -/
structure RingKept (h : CqHistory α) : Prop where
  head : h.store.q.intSize = 0 ↔ h.store.q.head = none
  tail : h.store.q.head = none ↔ h.store.q.tail = none
  ring : ∃ nodes, Encircles h.store.heap h.store.q nodes ∧
    (nodes.map Prod.snd ++ h.removed).Perm h.enqueued

namespace RingAt

variable {heap : Mem (QueueNode α)} {q : CircularQueue}
  {front back : List (Addr × α)}

theorem empty_iff (ring : RingAt heap q front back) :
    front ++ back = [] ↔ front = [] := by
  constructor
  · exact fun empty => (List.append_eq_nil_iff.mp empty).1
  · intro empty
    rw [empty, ring.closed empty, List.append_nil]

theorem head_none_iff (ring : RingAt heap q front back) :
    q.head = none ↔ front = [] := by
  rw [ring.head, ← ring.empty_iff]
  cases front ++ back <;> simp

theorem tail_none_iff (ring : RingAt heap q front back) :
    q.tail = none ↔ front = [] := by
  rw [ring.tail]
  constructor
  · intro none
    by_contra nonempty
    rw [lastAddr_eq_getLast _ nonempty] at none
    cases none
  · rintro rfl
    rfl

theorem intSize_zero_iff (ring : RingAt heap q front back)
    (short : (front ++ back).length < 2 ^ 31) : q.intSize = 0 ↔ front = [] := by
  rw [ring.intSize_eq short, Int.natCast_eq_zero, List.length_eq_zero_iff,
    ring.empty_iff]

/-- The tail is one of the nodes. -/
theorem tail_mem (ring : RingAt heap q front back) {a : Addr}
    (tail : q.tail = some a) : a ∈ addrs (front ++ back) := by
  have nonempty : front ≠ [] := by
    intro empty
    rw [ring.tail_none_iff.mpr empty] at tail
    cases tail
  obtain ⟨last, member, same⟩ := lastAddr_mem none nonempty
  rw [ring.tail, same, Option.some.injEq] at tail
  rw [addrs, List.map_append, ← tail]
  exact List.mem_append_left _ member

/-- The pointers of a ring lead to its nodes only. -/
theorem reached (ring : RingAt heap q front back) {a : Addr}
    (reach : Reached heap q a) : a ∈ addrs (front ++ back) := by
  induction reach with
  | head starts =>
      rw [ring.head] at starts
      cases split : front ++ back with
      | nil =>
          rw [split] at starts
          cases starts
      | cons node rest =>
          rw [split, firstAddr_cons, Option.some.injEq] at starts
          rw [← starts]
          exact List.mem_cons_self
  | tail ends => exact ring.tail_mem ends
  | next _ leads inside =>
      obtain ⟨b, member, next, _⟩ := ring.circle.successor inside
      rw [leads, Option.some.injEq] at next
      exact next ▸ member
  | prev _ leads inside =>
      obtain ⟨b, member, prev, _⟩ := ring.circle.predecessor inside
      rw [leads, Option.some.injEq] at prev
      exact prev ▸ member

/-- Rotating changes the head only. -/
theorem cqDequeue_frame {q' : CircularQueue} {obj : Option α}
    (run : cqDequeue heap q = .ok (q', obj)) :
    q'.tail = q.tail ∧ q'.size = q.size := by
  rw [cqDequeue] at run
  split at run
  next =>
    cases run
    exact ⟨rfl, rfl⟩
  next head _ =>
    obtain ⟨node, _, rest⟩ := bind_eq_ok.mp run
    cases rest
    exact ⟨rfl, rfl⟩

/-- Rotations return the objects from the head on and read the circle from as
many nodes further. -/
theorem cqDequeues_eq (ring : RingAt heap q front back) {n : Nat}
    (enough : n ≤ (front ++ back).length) :
    ∃ q' front' back', cqDequeues heap n q =
        .ok (q', ((front ++ back).take n).map fun node => some node.2) ∧
      RingAt heap q' front' back' ∧ front' ++ back' = (front ++ back).rotate n ∧
      q'.tail = q.tail ∧ q'.size = q.size := by
  induction n generalizing q front back with
  | zero => exact ⟨q, front, back, rfl, ring, by simp, rfl, rfl⟩
  | succ n ih =>
      cases front with
      | nil =>
          rw [ring.closed rfl] at enough
          simp at enough
      | cons node rest =>
          obtain ⟨q₁, run, ring₁⟩ := ring.dequeue
          have turn := turned_append node rest back
          rw [List.cons_append, List.length_cons, Nat.succ_le_succ_iff] at enough
          have room : n ≤ ((turned node rest back).1 ++
              (turned node rest back).2).length := by
            rw [turn, List.length_append]
            omega
          obtain ⟨q', front', back', more, ring', same, tail, size⟩ := ih ring₁ room
          obtain ⟨tail₁, size₁⟩ := cqDequeue_frame run
          refine ⟨q', front', back', ?_, ring', ?_, tail.trans tail₁,
            size.trans size₁⟩
          · rw [cqDequeues, run, ok_bind, more, ok_bind, pure_eq_ok, turn,
              List.take_append_of_le_length enough, List.cons_append,
              List.take_succ_cons, List.map_cons]
          · rw [same, turn, List.cons_append, List.rotate_cons_succ]

/-- Going round once returns every object and leaves the queue as it was. -/
theorem rotation (ring : RingAt heap q front back) :
    cqDequeues heap (front ++ back).length q =
      .ok (q, (front ++ back).map fun node => some node.2) := by
  obtain ⟨q', front', back', run, ring', same, tail, size⟩ :=
    ring.cqDequeues_eq (le_refl _)
  rw [List.rotate_length] at same
  have unchanged : q' = q := by
    have head : q'.head = q.head := by rw [ring'.head, same, ring.head]
    cases q'
    cases q
    simp only at head tail size
    rw [head, tail, size]
  rw [run, List.take_length, unchanged]

theorem encircles (ring : RingAt heap q front back)
    (short : (front ++ back).length < 2 ^ 31) :
    Encircles heap q (front ++ back) where
  size := ring.intSize_eq short
  visited := by
    rw [ring.head]
    exact ring.circle.goRound_eq
  returns := by
    rw [ring.head]
    exact ring.circle.advance_eq
  distinct := ring.circle.nodup
  forth := fun _ => ring.circle.successor
  back := fun _ => ring.circle.predecessor
  tail := fun _ => ring.tail_mem
  live := by
    intro a reach
    obtain ⟨node, member, same⟩ := List.mem_map.mp (ring.reached reach)
    obtain ⟨cell, live, _⟩ := ring.circle.seg.load member
    exact ⟨cell, same ▸ live⟩
  rotation := ring.rotation

end RingAt

namespace CqHistory

/-! ### The ring and its counter

The links are right after every call, wherever the head and the tail have come to
lie.  Only the counter has a limit: it is an `int`, and goes up with every node.
So the ring is kept exactly as long as the nodes can be counted, and the first
node beyond that makes `size` negative while the ring is still whole.
-/

/-- What every call keeps: the ring, and that its objects are those that have
entered and not been removed. -/
private def Rings (h : CqHistory α) : Prop :=
  ∃ front back, RingAt h.store.heap h.store.q front back ∧
    ((front ++ back).map Prod.snd ++ h.removed).Perm h.enqueued

private theorem rings_new : Rings (CqHistory.new α) :=
  ⟨[], [], circularQueue_ringAt _, List.Perm.refl _⟩

/-- The objects after one more has entered, wherever it was put. -/
private theorem entered_perm {front back removed enqueued : List α} (obj : α)
    (perm : (front ++ back ++ removed).Perm enqueued) :
    (front ++ [obj] ++ back ++ removed).Perm (enqueued ++ [obj]) := by
  have moved : (front ++ obj :: (back ++ removed)).Perm
      (obj :: (front ++ (back ++ removed))) := List.perm_middle
  simp only [List.append_assoc, List.singleton_append] at moved perm ⊢
  exact moved.trans ((perm.cons obj).trans
    (List.perm_append_singleton obj enqueued).symm)

/-- One call. -/
private theorem Rings.step {h : CqHistory α} (rings : Rings h)
    (call : CqCall α) : ∃ h', h.step call = .ok h' ∧ Rings h' := by
  obtain ⟨front, back, ring, perm⟩ := rings
  cases call with
  | enqueue obj =>
      obtain ⟨heap, q, node, run, ring'⟩ := ring.enqueue obj
      refine ⟨{ h with
        store := { heap := heap, q := q }, enqueued := h.enqueued ++ [obj] },
        ?_, front ++ [(node, obj)], back, ring', ?_⟩
      · rw [CqHistory.step, CqCall.perform, run]
        rfl
      · rw [List.map_append] at perm
        rw [List.map_append, List.map_append]
        exact entered_perm obj perm
  | dequeue =>
      cases front with
      | nil =>
          refine ⟨h, ?_, [], back, ring, perm⟩
          rw [CqHistory.step, CqCall.perform, cqDequeue,
            ring.head_none_iff.mpr rfl]
          rfl
      | cons node rest =>
          obtain ⟨q, run, ring'⟩ := ring.dequeue
          refine ⟨{ h with store := { h.store with q := q } }, ?_, _, _, ring', ?_⟩
          · rw [CqHistory.step, CqCall.perform, run]
            rfl
          · rw [turned_append]
            have moved := (List.perm_append_singleton node (rest ++ back)).map
              Prod.snd
            exact (moved.append_right h.removed).trans perm
  | dequeueAndRemove =>
      cases front with
      | nil =>
          refine ⟨h, ?_, [], back, ring, perm⟩
          rw [CqHistory.step, CqCall.perform, cqDequeueAndRemove,
            ring.head_none_iff.mpr rfl]
          show Except.ok { h with removed := h.removed ++ [] } = _
          rw [List.append_nil]
      | cons node rest =>
          obtain ⟨heap, q, run, ring'⟩ := ring.dequeueAndRemove
          refine ⟨{ h with
            store := { heap := heap, q := q }
            removed := h.removed ++ [node.2] }, ?_, _, _, ring', ?_⟩
          · rw [CqHistory.step, CqCall.perform, run]
            rfl
          · rw [shortened_append, ← List.append_assoc]
            exact (List.perm_append_singleton node.2 _).trans perm
  | front =>
      refine ⟨h, ?_, front, back, ring, perm⟩
      rw [CqHistory.step, CqCall.perform, ring.front_eq]
      rfl

/-- As long as an `int` counts the nodes, a ring is all that it has to be. -/
private theorem Rings.kept {h : CqHistory α} (rings : Rings h)
    (short : h.store.q.size < 2 ^ 31) : RingKept h := by
  obtain ⟨front, back, ring, perm⟩ := rings
  have few : (front ++ back).length < 2 ^ 31 := by
    have size := ring.size
    omega
  exact ⟨(ring.intSize_zero_iff few).trans ring.head_none_iff.symm,
    ring.head_none_iff.trans ring.tail_none_iff.symm,
    front ++ back, ring.encircles few, perm⟩

/-- The exact count is that of the objects which have entered and not been
removed. -/
private theorem Rings.size_eq {h : CqHistory α} (rings : Rings h) :
    h.store.q.size = (h.enqueued.length : Int) - h.removed.length := by
  obtain ⟨front, back, ring, perm⟩ := rings
  have lengths := perm.length_eq
  rw [List.length_append, List.length_map] at lengths
  rw [ring.size]
  omega

private theorem enqueue_counts {h next : CqHistory α} {obj : α}
    (run : h.step (.enqueue obj) = .ok next) :
    next.enqueued = h.enqueued ++ [obj] ∧ next.removed = h.removed := by
  obtain ⟨_, _, rest⟩ := bind_eq_ok.mp run
  cases rest
  exact ⟨rfl, rfl⟩

/-- Only an insertion makes the objects more. -/
private theorem other_counts {h next : CqHistory α} {call : CqCall α}
    (other : ∀ obj, call ≠ .enqueue obj) (run : h.step call = .ok next) :
    next.enqueued = h.enqueued ∧ h.removed.length ≤ next.removed.length := by
  obtain ⟨⟨store, returned⟩, _, rest⟩ := bind_eq_ok.mp run
  cases call with
  | enqueue obj => exact absurd rfl (other obj)
  | dequeue =>
      cases rest
      exact ⟨rfl, le_refl _⟩
  | dequeueAndRemove =>
      cases rest
      exact ⟨rfl, by simp⟩
  | front =>
      cases rest
      exact ⟨rfl, le_refl _⟩

/-- No node is added when `size` is the greatest `int`. -/
def Supported (h : CqHistory α) : CqCall α → Prop
  | .enqueue _ => h.store.q.intSize ≠ 2 ^ 31 - 1
  | _ => True

/-- A ring whose nodes an `int` counts. -/
private def Counted (h : CqHistory α) : Prop :=
  Rings h ∧ h.store.q.size < 2 ^ 31

private theorem counted_new : Counted (CqHistory.new α) :=
  ⟨rings_new, show (0 : Int) < 2 ^ 31 by decide⟩

private theorem Counted.intSize_eq {h : CqHistory α} (counted : Counted h) :
    h.store.q.intSize = h.store.q.size := by
  obtain ⟨⟨front, back, ring, _⟩, short⟩ := counted
  have size := ring.size
  exact wrap_of_inRange ⟨by omega, short⟩

/-- A supported call leaves a ring that an `int` counts. -/
private theorem Counted.step {h next : CqHistory α} (counted : Counted h)
    {call : CqCall α} (supported : h.Supported call)
    (run : h.step call = .ok next) : Counted next := by
  have exact := counted.intSize_eq
  obtain ⟨rings, short⟩ := counted
  obtain ⟨next', run', rings'⟩ := rings.step call
  rw [run, Except.ok.injEq] at run'
  subst run'
  refine ⟨rings', ?_⟩
  have before := rings.size_eq
  have after := rings'.size_eq
  by_cases enters : ∃ obj, call = .enqueue obj
  · obtain ⟨obj, rfl⟩ := enters
    obtain ⟨entered, removed⟩ := enqueue_counts run
    have room : h.store.q.intSize ≠ 2 ^ 31 - 1 := supported
    rw [entered, removed, List.length_append, List.length_singleton] at after
    omega
  · obtain ⟨entered, removed⟩ :=
      other_counts (fun obj same => enters ⟨obj, same⟩) run
    rw [entered] at after
    omega

/-- One node more than an `int` counts, and the field `size` is negative. -/
private theorem Counted.lost {h : CqHistory α} (counted : Counted h)
    {call : CqCall α} (unsupported : ¬ h.Supported call) :
    ∃ next, h.step call = .ok next ∧ ¬ RingKept next := by
  have exact := counted.intSize_eq
  obtain ⟨rings, short⟩ := counted
  obtain ⟨next, run, rings'⟩ := rings.step call
  refine ⟨next, run, fun kept => ?_⟩
  cases call with
  | enqueue obj =>
      have full : h.store.q.intSize = 2 ^ 31 - 1 := not_not.mp unsupported
      have before := rings.size_eq
      have after := rings'.size_eq
      obtain ⟨entered, removed⟩ := enqueue_counts run
      rw [entered, removed, List.length_append, List.length_singleton] at after
      have size : next.store.q.size = 2 ^ 31 := by omega
      have negative : next.store.q.intSize = 2 ^ 31 - 2 ^ 32 := by
        rw [CircularQueue.intSize, size, wrap_of_past (by decide) (by decide)]
      obtain ⟨nodes, encircles, _⟩ := kept.ring
      have counts := encircles.size
      omega
  | dequeue => exact unsupported trivial
  | dequeueAndRemove => exact unsupported trivial
  | front => exact unsupported trivial

end CqHistory

/-- Every sequence of calls on a new queue succeeds.  After each of them the queue
is a ring of the objects that have entered and not been removed, in its links, its
ends and its `size`, exactly if no object enters while `size` is the greatest
`int`. -/
theorem ring_kept_iff (calls : List (CqCall α)) :
    (∃ last, runs CqHistory.step (CqHistory.new α) calls = .ok last) ∧
      (Throughout CqHistory.step RingKept (CqHistory.new α) calls ↔
        Along CqHistory.step CqHistory.Supported (CqHistory.new α) calls) := by
  constructor
  · obtain ⟨last, run, _⟩ :=
      total_of_steps (fun _ call rings => CqHistory.Rings.step rings call)
        CqHistory.rings_new calls
    exact ⟨last, run⟩
  · exact throughout_iff_along (Q := CqHistory.Counted)
      (fun _ counted => counted.1.kept counted.2)
      (fun _ _ _ counted supported run => counted.step supported run)
      (fun _ _ counted unsupported => counted.lost unsupported)
      CqHistory.counted_new

namespace CqHistory

/-- After `n` insertions the queue counts `n` nodes. -/
private theorem runs_enqueue (obj : α) (n : Nat) :
    ∃ last, runs CqHistory.step (CqHistory.new α)
        (List.replicate n (.enqueue obj)) = .ok last ∧
      Rings last ∧ last.enqueued.length = n ∧ last.removed = [] := by
  induction n with
  | zero => exact ⟨CqHistory.new α, rfl, rings_new, rfl, rfl⟩
  | succ n ih =>
      obtain ⟨last, run, rings, entered, removed⟩ := ih
      obtain ⟨next, stepped, rings'⟩ := rings.step (.enqueue obj)
      obtain ⟨entered', removed'⟩ := enqueue_counts stepped
      refine ⟨next, ?_, rings', ?_, removed'.trans removed⟩
      · rw [List.replicate_succ', runs_append_ok]
        exact ⟨last, run, runs_cons_ok.mpr ⟨next, stepped, rfl⟩⟩
      · rw [entered', List.length_append, entered, List.length_singleton]

end CqHistory

/-- The insertion of 2^31 objects makes `size` negative. -/
theorem ring_size_wraps :
    ¬ ∀ calls : List (CqCall Unit),
      Throughout CqHistory.step RingKept (CqHistory.new Unit) calls := by
  intro always
  obtain ⟨last, run, rings, entered, removed⟩ :=
    CqHistory.runs_enqueue () (2 ^ 31)
  have kept := always _ _ (List.prefix_refl _) last run
  obtain ⟨nodes, encircles, _⟩ := kept.ring
  have counts := encircles.size
  have size := rings.size_eq
  rw [entered, removed, List.length_nil] at size
  have negative : last.store.q.intSize = 2 ^ 31 - 2 ^ 32 := by
    rw [CircularQueue.intSize, size]
    exact wrap_of_past (by decide) (by decide)
  omega

end OsSim
