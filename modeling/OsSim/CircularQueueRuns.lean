/-
Module: OsSim.CircularQueueRuns
Purpose: The circular queue over whole sequences of calls, beside the plain list
  with rotation that it stands for.  It departs from the list where an object
  enters while others lie between the tail and the head.
Trusted boundary: human-reviewed translation
Main exports:
  CqCall, CqStore, CqCall.perform, CqCall.onList, CqStore.servedOut,
  MatchesList, EntersAtEnd, cq_fifo_iff, cq_fifo_fails
-/
import OsSim.CircularQueue
import OsSim.Library.Trace

namespace OsSim

open PointerMemory
open DoublyLinked
open Trace

variable {α : Type}

/-- The calls of a circular queue. -/
inductive CqCall (α : Type) where
  | enqueue (obj : α)
  | dequeue
  | dequeueAndRemove
  | front
deriving Repr, DecidableEq

/-- A queue and the memory of its nodes. -/
structure CqStore (α : Type) where
  heap : Mem (QueueNode α)
  q : CircularQueue
deriving Repr, DecidableEq

/-- The queue that `circular_queue` returns. -/
def CqStore.new (α : Type) : CqStore α :=
  { heap := Mem.empty, q := circularQueue }

namespace CqCall

/-- Perform a call, with the object it returns. -/
def perform (s : CqStore α) : CqCall α → Except Fault (CqStore α × Option α)
  | .enqueue obj => do
      let (heap, q) ← cqEnqueue s.heap s.q obj
      pure ({ heap := heap, q := q }, none)
  | .dequeue => do
      let (q, obj) ← cqDequeue s.heap s.q
      pure ({ s with q := q }, obj)
  | .dequeueAndRemove => do
      let (heap, q, obj) ← cqDequeueAndRemove s.heap s.q
      pure ({ heap := heap, q := q }, obj)
  | .front => do
      let obj ← cqFront s.heap s.q
      pure (s, obj)

/-- What the call is meant to do: the same on a list with the next object first,
where objects enter at the end and rotate to the end. -/
def onList (items : List α) : CqCall α → List α × Option α
  | .enqueue obj => (items ++ [obj], none)
  | .dequeue =>
      match items with
      | [] => ([], none)
      | first :: rest => (rest ++ [first], some first)
  | .dequeueAndRemove => (items.tail, items.head?)
  | .front => (items, items.head?)

/-- The objects that the calls of a sequence return. -/
def results : CqStore α → List (CqCall α) → Except Fault (List (Option α))
  | _, [] => .ok []
  | s, call :: calls => do
      let (s, obj) ← call.perform s
      let objs ← results s calls
      pure (obj :: objs)

/-- The same on a list. -/
def listResults : List α → List (CqCall α) → List (Option α)
  | _, [] => []
  | items, call :: calls =>
      (call.onList items).2 :: listResults (call.onList items).1 calls

/-- The queue and the list perform the same calls. -/
def lockstep (both : CqStore α × List α) (call : CqCall α) :
    Except Fault (CqStore α × List α) := do
  let (s, _) ← call.perform both.1
  pure (s, (call.onList both.2).1)

end CqCall

namespace CqStore

/-- The objects that the next `n` removals return. -/
def serve : Nat → CqStore α → Except Fault (List α)
  | 0, _ => .ok []
  | n + 1, s => do
      let (heap, q, obj) ← cqDequeueAndRemove s.heap s.q
      match obj with
      | none => pure []
      | some obj => do
          let rest ← serve n { heap := heap, q := q }
          pure (obj :: rest)

/-- The objects in the order in which they are served when nothing else happens. -/
def servedOut (s : CqStore α) : Except Fault (List α) := s.serve s.q.size.toNat

/-- The objects that lie after the tail, up to the head. -/
def afterTail (s : CqStore α) : Except Fault (List α) := do
  let nodes ← goRound (queueLinks α) s.heap s.q.size.toNat s.q.head
  let fromTail := nodes.dropWhile fun node => some node.1 ≠ s.q.tail
  pure (fromTail.tail.map Prod.snd)

end CqStore

/-- The call returns what it returns on the list, and leaves the objects to be
served as the list has them. -/
def MatchesList (both : CqStore α × List α) (call : CqCall α) : Prop :=
  ∃ s obj, call.perform both.1 = .ok (s, obj) ∧ obj = (call.onList both.2).2 ∧
    s.servedOut = .ok (call.onList both.2).1

/-- Where an object enters, nothing else lies between the tail and the head. -/
def EntersAtEnd (both : CqStore α × List α) : CqCall α → Prop
  | .enqueue obj =>
      match both.1.afterTail with
      | .ok later => ∀ other ∈ later, other = obj
      | .error _ => False
  | _ => True

/-! ### One call -/

/-- Moving the first object to the end changes nothing only if all are equal. -/
theorem cons_eq_append_iff {a : α} {items : List α} :
    a :: items = items ++ [a] ↔ ∀ b ∈ items, b = a := by
  induction items with
  | nil => simp
  | cons b items ih =>
      rw [List.cons_append, List.cons.injEq, List.forall_mem_cons, ← ih]
      constructor
      · rintro ⟨same, rest⟩
        subst same
        exact ⟨rfl, rest⟩
      · rintro ⟨same, rest⟩
        subst same
        exact ⟨rfl, rest⟩

namespace RingAt

variable {s : CqStore α} {front back : List (Addr × α)}

/-- Serving follows the circle from the head. -/
theorem serve_eq (ring : RingAt s.heap s.q front back) (n : Nat) :
    s.serve n = .ok (((front ++ back).map Prod.snd).take n) := by
  induction n generalizing s front back with
  | zero => rfl
  | succ n ih =>
      cases front with
      | nil =>
          have head : s.q.head = none := by
            rw [ring.head, ring.closed rfl]
            rfl
          rw [CqStore.serve, cqDequeueAndRemove, head, ring.closed rfl]
          rfl
      | cons node rest =>
          obtain ⟨heap, q, run, ring'⟩ := ring.dequeueAndRemove
          have later := ih (s := ⟨heap, q⟩) ring'
          rw [CqStore.serve, run, ok_bind]
          dsimp only
          rw [later, ok_bind, pure_eq_ok, shortened_append, List.cons_append,
            List.map_cons, List.take_succ_cons]

theorem servedOut_eq (ring : RingAt s.heap s.q front back) :
    s.servedOut = .ok ((front ++ back).map Prod.snd) := by
  rw [CqStore.servedOut, ring.serve_eq, ring.size, Int.toNat_natCast,
    List.take_of_length_le (by rw [List.length_map])]

/-- The nodes after the tail are those of the second part. -/
theorem afterTail_eq (ring : RingAt s.heap s.q front back) :
    s.afterTail = .ok (back.map Prod.snd) := by
  rw [CqStore.afterTail, ring.size, Int.toNat_natCast, ring.head,
    ring.circle.goRound_eq, ok_bind, pure_eq_ok, Except.ok.injEq, ring.tail]
  rcases List.eq_nil_or_concat front with empty | ⟨before, last, split⟩
  · rw [empty, ring.closed empty]
    rfl
  · rw [List.concat_eq_append] at split
    subst split
    have apart := ring.circle.nodup
    rw [addrs, List.append_assoc, List.map_append] at apart
    have before_tail : ∀ node ∈ before, some node.1 ≠ some last.1 := by
      intro node member same
      exact (List.nodup_append.mp apart).2.2 node.1 (List.mem_map_of_mem member)
        last.1 (by simp) (Option.some.inj same)
    rw [lastAddr_append_singleton, List.append_assoc,
      List.dropWhile_append_of_pos (by simpa using before_tail),
      List.singleton_append, List.dropWhile_cons_of_neg (by simp),
      List.tail_cons]

end RingAt

/-- The queue is a circle of the objects in the list. -/
private def Represents (both : CqStore α × List α) : Prop :=
  ∃ front back, RingAt both.1.heap both.1.q front back ∧
    both.2 = (front ++ back).map Prod.snd

/-- Where the queue holds the list, every call succeeds and returns what it
returns on the list, and every call but an insertion leaves them the same. -/
private theorem Represents.perform {both : CqStore α × List α}
    (represents : Represents both) (call : CqCall α) :
    ∃ s obj front back, call.perform both.1 = .ok (s, obj) ∧
      obj = (call.onList both.2).2 ∧ RingAt s.heap s.q front back ∧
      ((front ++ back).map Prod.snd = (call.onList both.2).1 ↔
        EntersAtEnd both call) := by
  obtain ⟨s, items⟩ := both
  obtain ⟨front, back, ring, same⟩ := represents
  dsimp only at ring same
  subst same
  cases call with
  | enqueue obj =>
      obtain ⟨heap, q, node, run, ring'⟩ := ring.enqueue obj
      refine ⟨⟨heap, q⟩, none, _, back, ?_, rfl, ring', ?_⟩
      · rw [CqCall.perform, run]
        rfl
      · rw [CqCall.onList, EntersAtEnd, ring.afterTail_eq]
        dsimp only
        rw [← cons_eq_append_iff, List.map_append, List.map_append,
          List.map_append, List.append_assoc, List.append_assoc,
          List.append_cancel_left_eq]
        rfl
  | dequeue =>
      cases front with
      | nil =>
          have head : s.q.head = none := by
            rw [ring.head, ring.closed rfl]
            rfl
          refine ⟨s, none, [], back, ?_, ?_, ring, ?_⟩
          · rw [CqCall.perform, cqDequeue, head]
            rfl
          · rw [ring.closed rfl]
            rfl
          · rw [ring.closed rfl]
            exact iff_of_true rfl trivial
      | cons node rest =>
          obtain ⟨q, run, ring'⟩ := ring.dequeue
          refine ⟨{ s with q := q }, some node.2, _, _, ?_, rfl, ring', ?_⟩
          · rw [CqCall.perform, run]
            rfl
          · refine iff_of_true ?_ trivial
            rw [turned_append, List.map_append]
            rfl
  | dequeueAndRemove =>
      cases front with
      | nil =>
          have head : s.q.head = none := by
            rw [ring.head, ring.closed rfl]
            rfl
          refine ⟨s, none, [], back, ?_, ?_, ring, ?_⟩
          · rw [CqCall.perform, cqDequeueAndRemove, head]
            rfl
          · rw [ring.closed rfl]
            rfl
          · rw [ring.closed rfl]
            exact iff_of_true rfl trivial
      | cons node rest =>
          obtain ⟨heap, q, run, ring'⟩ := ring.dequeueAndRemove
          refine ⟨⟨heap, q⟩, some node.2, _, _, ?_, rfl, ring', ?_⟩
          · rw [CqCall.perform, run]
            rfl
          · refine iff_of_true ?_ trivial
            rw [shortened_append]
            rfl
  | front =>
      refine ⟨s, _, front, back, ?_, rfl, ring, iff_of_true rfl trivial⟩
      rw [CqCall.perform, ring.front_eq]
      rfl

private theorem Represents.matches_iff {both : CqStore α × List α}
    (represents : Represents both) (call : CqCall α) :
    MatchesList both call ↔ EntersAtEnd both call := by
  obtain ⟨s, obj, front, back, run, returned, ring, same⟩ :=
    represents.perform call
  rw [← same]
  constructor
  · rintro ⟨s', obj', run', _, served⟩
    rw [run, Except.ok.injEq] at run'
    cases run'
    rw [ring.servedOut_eq, Except.ok.injEq] at served
    exact served
  · intro equal
    exact ⟨s, obj, run, returned, by rw [ring.servedOut_eq, equal]⟩

private theorem Represents.step {both next : CqStore α × List α}
    {call : CqCall α} (represents : Represents both)
    (kept : MatchesList both call)
    (run : CqCall.lockstep both call = .ok next) : Represents next := by
  obtain ⟨s, obj, front, back, performed, _, ring, same⟩ :=
    represents.perform call
  rw [CqCall.lockstep, performed] at run
  cases run
  exact ⟨front, back, ring, (same.mpr ((represents.matches_iff call).mp kept)).symm⟩

/-! ### Sequences of calls

As long as the tail lies directly before the head, the circle read from the head
is the list, and a rotation that moves the head only also moves the first object
to the end.  After it the tail lies before other objects, and the next one to enter
does so behind the tail and before those.  The list has it at the end.  The two
differ in their results unless the objects that lie between are the same as the
one that enters, which the condition therefore allows.
-/

private theorem represents_new : Represents (CqStore.new α, []) :=
  ⟨[], [], circularQueue_ringAt _, rfl⟩

/-- A sequence that matches the list returns what the list returns. -/
theorem results_of_matches {s : CqStore α} {items : List α}
    {calls : List (CqCall α)}
    (kept : Along CqCall.lockstep MatchesList (s, items) calls) :
    CqCall.results s calls = .ok (CqCall.listResults items calls) := by
  induction calls generalizing s items with
  | nil => rfl
  | cons call calls ih =>
      rw [along_cons] at kept
      obtain ⟨⟨s', obj, run, returned, _⟩, rest⟩ := kept
      have stepped : CqCall.lockstep (s, items) call =
          .ok (s', (call.onList items).1) := by
        rw [CqCall.lockstep, run]
        rfl
      have later := ih (rest _ stepped)
      rw [CqCall.results, CqCall.listResults, run, ok_bind]
      dsimp only
      rw [later, ok_bind, returned, pure_eq_ok]

/-- A circular queue performs a sequence of calls as a list with rotation does
exactly when no object enters while a different one lies between the tail and
the head. -/
theorem cq_fifo_iff (calls : List (CqCall α)) :
    (Along CqCall.lockstep MatchesList (CqStore.new α, []) calls ↔
      Along CqCall.lockstep EntersAtEnd (CqStore.new α, []) calls) ∧
    (Along CqCall.lockstep EntersAtEnd (CqStore.new α, []) calls →
      CqCall.results (CqStore.new α) calls =
        .ok (CqCall.listResults [] calls)) := by
  have same : Along CqCall.lockstep MatchesList (CqStore.new α, []) calls ↔
      Along CqCall.lockstep EntersAtEnd (CqStore.new α, []) calls :=
    along_congr (P := Represents)
      (fun _ _ _ represents kept run => represents.step kept run)
      (fun _ call represents => represents.matches_iff call) represents_new
  exact ⟨same, fun allowed => results_of_matches (same.mpr allowed)⟩

/-- After one rotation of two objects, a third one is served between them. -/
theorem cq_fifo_fails :
    ¬ ∀ calls : List (CqCall Nat),
      CqCall.results (CqStore.new Nat) calls =
        .ok (CqCall.listResults [] calls) := by
  intro always
  have run := always [.enqueue 1, .enqueue 2, .dequeue, .enqueue 3,
    .dequeueAndRemove, .dequeueAndRemove, .dequeueAndRemove]
  revert run
  decide +kernel

end OsSim
