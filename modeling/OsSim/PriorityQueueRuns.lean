/-
Module: OsSim.PriorityQueueRuns
Purpose: The priority queue over whole sequences of calls: it stays a heap, and
  holds the pairs of an item and a priority that the calls leave in it, as long as
  no index and no capacity leaves the range of `int`.
Trusted boundary: human-reviewed translation
Main exports:
  PriorityQueue.pairs, PqCall.effect, PqCall.lockstep, Correct, MeetsContract,
  WellKept, priorityQueue_correct_iff, meetsContract_of_few,
  priorityQueue_touches_below_zero
-/
import OsSim.Library.Trace
import OsSim.PriorityQueueHeapify
import Mathlib.Data.Multiset.AddSub

namespace OsSim

open PointerMemory
open BinaryHeap
open Trace

variable {α : Type}

namespace PriorityQueue

/-- The item and the priority number behind a node, whose stored priority is the
negated one. -/
def pair (node : PQueueNode α) : α × Int := (node.item, -node.priority)

/-- The contents of a queue. -/
def pairs (pq : PriorityQueue α) : Multiset (α × Int) := pq.nodes.map pair

/-- The pair at an index. -/
def pairAt (pq : PriorityQueue α) (index : Int) : Option (α × Int) :=
  if 0 ≤ index then (pq.nodes[index.toNat]?).map pair else none

end PriorityQueue

open PriorityQueue

namespace PqCall

/-- What a call is meant to do to the contents: one pair is added, the front
pair is removed, or the pair at the index gets a new priority. -/
def effect [DecidableEq α] (pq : PriorityQueue α) (pairs : Multiset (α × Int)) :
    PqCall α → Multiset (α × Int)
  | .enqueue item priority => (item, priority) ::ₘ pairs
  | .dequeue =>
      match pq.pairAt 0 with
      | none => pairs
      | some front => pairs.erase front
  | .changePriority index newPriority =>
      match pq.pairAt index with
      | none => pairs
      | some (item, priority) =>
          (item, newPriority) ::ₘ pairs.erase (item, priority)

/-- The priority that a call stores is less than `2 ^ 30` in absolute value. -/
def Small : PqCall α → Prop
  | .enqueue _ priority => -2 ^ 30 < priority ∧ priority < 2 ^ 30
  | .dequeue => True
  | .changePriority _ newPriority =>
      -2 ^ 30 < newPriority ∧ newPriority < 2 ^ 30

instance : ∀ call : PqCall α, Decidable call.Small
  | .enqueue _ _ => inferInstanceAs (Decidable (_ ∧ _))
  | .dequeue => inferInstanceAs (Decidable True)
  | .changePriority _ _ => inferInstanceAs (Decidable (_ ∧ _))

/-- A call on the queue, beside what it is meant to do to the contents. -/
def lockstep [DecidableEq α] (both : PriorityQueue α × Multiset (α × Int))
    (call : PqCall α) :
    Except Fault (PriorityQueue α × Multiset (α × Int)) := do
  let (pq, _) ← call.perform both.1
  pure (pq, call.effect both.1 both.2)

end PqCall

/-- The queue is a heap within its capacity, with these contents, and has an item
in front whose priority number is minimal. -/
structure Correct (pq : PriorityQueue α) (pairs : Multiset (α × Int)) : Prop where
  room : pqSize pq ≤ pq.capacity
  ordered : HeapOrdered pq
  contents : pq.pairs = pairs
  empty : pqFront pq = none ↔ pairs = 0
  front : ∀ item, pqFront pq = some item →
    ∃ priority, pq.pairAt 0 = some (item, priority) ∧
      ∀ other ∈ pairs, priority ≤ other.2

/-- The call returns and leaves a correct queue; a removal returns the front. -/
def MeetsContract [DecidableEq α] (both : PriorityQueue α × Multiset (α × Int))
    (call : PqCall α) : Prop :=
  ∃ pq returned, call.perform both.1 = .ok (pq, returned) ∧
    Correct pq (call.effect both.1 both.2) ∧
    (call = .dequeue → returned = pqFront both.1)

/-! ### What every call keeps

The contract follows from an invariant of the exact heap.  The stored priorities
stay small, so that the subtraction of `compare_priority` compares them, and the
array stays within the range of `int`, so that a call either does what it does on
the exact heap or does not return at all. -/

/-- The nodes have room, their stored priorities are those of small numbers, and
they form a heap. -/
structure WellKept (pq : PriorityQueue α) : Prop where
  roomy : Roomy pq
  small : ∀ node ∈ pq.nodes, -2 ^ 30 < node.priority ∧ node.priority < 2 ^ 30
  ordered : HeapOrdered pq

theorem priorityQueue_wellKept : WellKept (priorityQueue α) := by
  refine ⟨priorityQueue_roomy, ?_, ?_⟩
  · intro node member
    cases member
  · intro c _ bound
    cases bound

namespace WellKept

variable {pq : PriorityQueue α}

/-- The stored priority of a small number is the negated one. -/
theorem wrap_neg {priority : Int}
    (small : -2 ^ 30 < priority ∧ priority < 2 ^ 30) :
    wrap (-priority) = -priority := by
  apply wrap_of_inRange
  constructor <;> omega

theorem small_cons {nodes : List (PQueueNode α)} (item : α) {priority : Int}
    (small : ∀ node ∈ nodes, -2 ^ 30 < node.priority ∧ node.priority < 2 ^ 30)
    (new : -2 ^ 30 < priority ∧ priority < 2 ^ 30) :
    ∀ node ∈ { item := item, priority := wrap (-priority) } :: nodes,
      -2 ^ 30 < node.priority ∧ node.priority < 2 ^ 30 := by
  intro node member
  rcases List.mem_cons.mp member with same | old
  · rw [same]
    dsimp only
    rw [wrap_neg new]
    omega
  · exact small node old

theorem small_set {nodes : List (PQueueNode α)} (i : Nat) {node : PQueueNode α}
    {priority : Int}
    (small : ∀ node ∈ nodes, -2 ^ 30 < node.priority ∧ node.priority < 2 ^ 30)
    (new : -2 ^ 30 < priority ∧ priority < 2 ^ 30) :
    ∀ other ∈ nodes.set i { node with priority := wrap (-priority) },
      -2 ^ 30 < other.priority ∧ other.priority < 2 ^ 30 := by
  intro other member
  rcases List.mem_or_eq_of_mem_set member with old | same
  · exact small other old
  · rw [same]
    dsimp only
    rw [wrap_neg new]
    omega

theorem insert (kept : WellKept pq) (item : α) {priority : Int}
    (new : -2 ^ 30 < priority ∧ priority < 2 ^ 30)
    (fits : pqSize pq = pq.capacity → pq.capacity * 2 < 2 ^ 31) :
    WellKept (pq.insert item priority) := by
  have perm := PriorityQueue.insert_perm pq item priority
  have small := small_cons item kept.small new
  exact ⟨kept.roomy.insert fits item priority,
    fun node member => small node (perm.mem_iff.mp member),
    PriorityQueue.insert_ordered kept.ordered (comparable_of_small small)⟩

theorem removeFirst (kept : WellKept pq) : WellKept pq.removeFirst.1 := by
  have ordered :=
    PriorityQueue.removeFirst_ordered kept.ordered (comparable_of_small kept.small)
  refine ⟨kept.roomy.removeFirst, fun node member => ?_, ordered⟩
  cases split : pq.nodes with
  | nil =>
      rw [PriorityQueue.removeFirst, split] at member
      exact kept.small node member
  | cons first rest =>
      apply kept.small node
      rw [split]
      exact List.mem_cons_of_mem _
        ((PriorityQueue.removeFirst_spec split).2.mem_iff.mp member)

theorem rekey (kept : WellKept pq) (index : Int) {newPriority : Int}
    (new : -2 ^ 30 < newPriority ∧ newPriority < 2 ^ 30) :
    WellKept (pq.rekey index newPriority) := by
  by_cases outside : index < 0 ∨ index ≥ pqSize pq
  · rw [PriorityQueue.rekey, if_pos outside]
    exact kept
  · obtain ⟨i, node, rfl, _, found⟩ := found_of_inside outside
    have lower := Int.natCast_nonneg i
    have perm := PriorityQueue.rekey_set_perm lower found newPriority
    have small : ∀ other ∈ pq.nodes.set i
        { node with priority := wrap (-newPriority) },
        -2 ^ 30 < other.priority ∧ other.priority < 2 ^ 30 :=
      small_set i kept.small new
    exact ⟨kept.roomy.rekey i newPriority,
      fun other member => small other (perm.mem_iff.mp member),
      PriorityQueue.rekey_ordered kept.ordered lower found
        (comparable_of_small small)⟩

/-- A manageable call leaves a well kept queue on the exact heap. -/
theorem meant (kept : WellKept pq) {call : PqCall α} (small : call.Small)
    (manageable : Manageable PQueueNode.priority pq call) :
    WellKept (call.meant pq).1 := by
  cases call with
  | enqueue item priority => exact kept.insert item small manageable
  | dequeue => exact kept.removeFirst
  | changePriority index newPriority => exact kept.rekey index small

/-- A call does what it does on the exact heap, or it fails. -/
theorem decided (kept : WellKept pq) {call : PqCall α} (small : call.Small) :
    Manageable PQueueNode.priority pq call ∧
        call.perform pq = .ok (call.meant pq) ∨
      ¬ Manageable PQueueNode.priority pq call ∧
        ∃ fault, call.perform pq = .error fault := by
  cases call with
  | enqueue item priority =>
      rcases enqueue_decided kept.roomy item priority with
        ⟨fits, run⟩ | ⟨full, fault, failed⟩
      · exact Or.inl ⟨fits, by rw [PqCall.perform, run]; rfl⟩
      · exact Or.inr ⟨full, fault, by rw [PqCall.perform, failed]; rfl⟩
  | dequeue =>
      exact dequeue_decided kept.roomy (comparable_of_small kept.small).ranks
  | changePriority index newPriority =>
      have ranks : ∀ node, pq.nodes[index.toNat]? = some node →
          Ranks outranks PQueueNode.priority (pq.nodes.set index.toNat
            { node with priority := wrap (-newPriority) }) := fun node _ =>
        (comparable_of_small (small_set index.toNat kept.small small)).ranks
      rcases changePriority_decided kept.roomy index newPriority ranks with
        ⟨manageable, run⟩ | ⟨deep, fault, failed⟩
      · exact Or.inl ⟨manageable, by rw [PqCall.perform, run]; rfl⟩
      · exact Or.inr ⟨deep, fault, by rw [PqCall.perform, failed]; rfl⟩

/-- The front is an item whose priority number is minimal. -/
theorem front (kept : WellKept pq) {item : α} (front : pqFront pq = some item) :
    ∃ priority, pq.pairAt 0 = some (item, priority) ∧
      ∀ other ∈ pq.pairs, priority ≤ other.2 := by
  cases split : pq.nodes with
  | nil =>
      rw [pqFront, split] at front
      cases front
  | cons first rest =>
      rw [pqFront, split] at front
      cases front
      refine ⟨-first.priority, ?_, ?_⟩
      · rw [pairAt, if_pos (by decide), split]
        rfl
      · intro other member
        rw [pairs, Multiset.mem_coe, List.mem_map] at member
        obtain ⟨node, inside, same⟩ := member
        have bound := kept.ordered.le_front split inside
        rw [← same, pair]
        omega

theorem correct (kept : WellKept pq) : Correct pq pq.pairs where
  room := kept.roomy.room
  ordered := kept.ordered
  contents := rfl
  empty := by
    rw [pqFront_eq, pairs, Multiset.coe_eq_zero, List.map_eq_nil_iff,
      List.head?_eq_none_iff, List.map_eq_nil_iff]
  front := fun _ => kept.front

end WellKept

/-! ### The contents -/

/-- What holds between the calls: a well kept queue, with the contents meant. -/
private def Represented (both : PriorityQueue α × Multiset (α × Int)) : Prop :=
  WellKept both.1 ∧ both.1.pairs = both.2

private theorem represented_start :
    Represented ((priorityQueue α, 0) : PriorityQueue α × Multiset (α × Int)) :=
  ⟨priorityQueue_wellKept, rfl⟩

section

variable [DecidableEq α] {pq : PriorityQueue α}

/-- A list with one element replaced, as a multiset. -/
theorem coe_set {β : Type} [DecidableEq β] {items : List β} {i : Nat}
    (inside : i < items.length) (new : β) :
    (↑(items.set i new) : Multiset β) =
      new ::ₘ (↑items : Multiset β).erase items[i] := by
  rw [Multiset.coe_erase, Multiset.cons_coe, Multiset.coe_eq_coe]
  induction items generalizing i with
  | nil => cases inside
  | cons first rest ih =>
      cases i with
      | zero => simp
      | succ i =>
          have inside' : i < rest.length := Nat.lt_of_succ_lt_succ inside
          have tail := ih inside'
          rw [List.set_cons_succ, List.getElem_cons_succ]
          by_cases same : first = rest[i]
          · rw [← same, List.erase_cons_head]
            rw [← same] at tail
            refine (tail.cons first).trans ((List.Perm.swap ..).trans ?_)
            exact (List.perm_cons_erase (same ▸ List.getElem_mem _)).symm.cons new
          · rw [List.erase_cons_tail (by simpa using same)]
            exact (tail.cons first).trans (List.Perm.swap ..)

/-- A call on the exact heap does to the contents what it is meant to do. -/
theorem pairs_meant {call : PqCall α} (small : call.Small) :
    (call.meant pq).1.pairs = call.effect pq pq.pairs := by
  cases call with
  | enqueue item priority =>
      have perm := (PriorityQueue.insert_perm pq item priority).map pair
      rw [PqCall.meant, PqCall.effect, pairs, Multiset.coe_eq_coe.mpr perm]
      rw [List.map_cons, pair, WellKept.wrap_neg small, Int.neg_neg]
      rfl
  | dequeue =>
      rw [PqCall.meant, PqCall.effect, pairAt, if_pos (by decide)]
      cases split : pq.nodes with
      | nil =>
          have same : pq.removeFirst.1 = pq := by
            rw [PriorityQueue.removeFirst, split]
          rw [same]
          rfl
      | cons first rest =>
          have perm := ((PriorityQueue.removeFirst_spec split).2).map pair
          rw [pairs, Multiset.coe_eq_coe.mpr perm, pairs, split]
          show _ = Multiset.erase (↑(List.map pair (first :: rest))) (pair first)
          rw [List.map_cons, ← Multiset.cons_coe, Multiset.erase_cons_head]
  | changePriority index newPriority =>
      rw [PqCall.meant, PqCall.effect, pairAt]
      by_cases outside : index < 0 ∨ index ≥ pqSize pq
      · have none : (if 0 ≤ index then (pq.nodes[index.toNat]?).map pair
            else none) = none := by
          split
          next lower =>
            rw [pqSize] at outside
            rw [List.getElem?_eq_none (by omega)]
            rfl
          next => rfl
        rw [none, PriorityQueue.rekey, if_pos outside]
      · rw [pqSize] at outside
        have lower : 0 ≤ index := by omega
        have inside : index.toNat < pq.nodes.length := by omega
        have found := List.getElem?_eq_getElem inside
        have perm :=
          (PriorityQueue.rekey_set_perm lower found newPriority).map pair
        rw [if_pos lower, found, pairs, Multiset.coe_eq_coe.mpr perm,
          List.map_set]
        rw [coe_set (by rw [List.length_map]; exact inside), List.getElem_map]
        simp only [pair, WellKept.wrap_neg small, Int.neg_neg]
        rfl

private theorem Represented.step {both next : PriorityQueue α × Multiset (α × Int)}
    (kept : Represented both) {call : PqCall α} (small : call.Small)
    (manageable : Manageable PQueueNode.priority both.1 call)
    (run : PqCall.lockstep both call = .ok next) : Represented next := by
  obtain ⟨wellKept, contents⟩ := kept
  rcases wellKept.decided small with ⟨_, performed⟩ | ⟨unmanageable, _⟩
  · rw [PqCall.lockstep, performed] at run
    obtain rfl := Except.ok.inj run
    refine ⟨wellKept.meant small manageable, ?_⟩
    show (call.meant both.1).1.pairs = call.effect both.1 both.2
    rw [pairs_meant small, contents]
  · exact absurd manageable unmanageable

/-- A call meets its contract exactly if it is manageable. -/
private theorem Represented.meets_iff {both : PriorityQueue α × Multiset (α × Int)}
    (kept : Represented both) {call : PqCall α} (small : call.Small) :
    MeetsContract both call ↔ Manageable PQueueNode.priority both.1 call := by
  obtain ⟨pq, contents⟩ := both
  obtain ⟨wellKept, same⟩ := kept
  dsimp only at wellKept same ⊢
  subst same
  constructor
  · rintro ⟨after, returned, run, _, _⟩
    rcases wellKept.decided small with ⟨manageable, _⟩ | ⟨_, fault, failed⟩
    · exact manageable
    · rw [failed] at run
      cases run
  · intro manageable
    rcases wellKept.decided small with ⟨_, run⟩ | ⟨unmanageable, _⟩
    · refine ⟨_, _, run, ?_, ?_⟩
      · dsimp only
        rw [← pairs_meant small]
        exact (wellKept.meant small manageable).correct
      · rintro rfl
        show pq.removeFirst.2 = pqFront pq
        rw [PriorityQueue.removeFirst, pqFront]
        cases pq.nodes <;> rfl
    · exact absurd manageable unmanageable

/-- Along a sequence of calls with small priorities every call meets its contract
exactly if every call is manageable. -/
theorem along_meets_iff {calls : List (PqCall α)}
    (small : ∀ call ∈ calls, call.Small) :
    Along PqCall.lockstep MeetsContract (priorityQueue α, 0) calls ↔
      Along PqCall.lockstep
        (fun both => Manageable PQueueNode.priority both.1)
        (priorityQueue α, 0) calls := by
  symm
  exact along_congr_of_allowed (P := Represented)
    (fun _ _ _ kept small manageable run => kept.step small manageable run)
    (fun _ _ kept small => (kept.meets_iff small).symm) represented_start
    (along_of_mem small _)

/-- Every call meets its contract while the queue has fewer than 2^30 nodes. -/
theorem meetsContract_of_few {calls : List (PqCall α)}
    (small : ∀ call ∈ calls, call.Small)
    (few : Along PqCall.lockstep (fun both _ => both.1.nodes.length < 2 ^ 30)
      (priorityQueue α, 0) calls) :
    Along PqCall.lockstep MeetsContract (priorityQueue α, 0) calls :=
  (along_meets_iff small).mpr (few.mono fun _ _ fewer =>
    manageable_of_few (Nat.le_of_lt fewer) (Or.inr fewer))

end

/-- A new queue is a correct empty one.  From there on, in a sequence of calls with
small priorities, every call returns and leaves a correct queue with the contents
meant, and every removal returns the front, exactly if no full array is doubled
past the greatest `int` and no node that moves down sinks to index 2^30 - 1 or
beyond. -/
theorem priorityQueue_correct_iff [DecidableEq α] (calls : List (PqCall α))
    (small : ∀ call ∈ calls, call.Small) :
    Correct (priorityQueue α) 0 ∧
      (Along PqCall.lockstep MeetsContract (priorityQueue α, 0) calls ↔
        Along PqCall.lockstep
          (fun both => Manageable PQueueNode.priority both.1)
          (priorityQueue α, 0) calls) :=
  ⟨priorityQueue_wellKept.correct, along_meets_iff small⟩

/-- Three insertions, a re-keying that moves a node down, and a removal. -/
private def rekeyed : List (PqCall Char) :=
  [.enqueue 'a' 4, .enqueue 'b' 2, .enqueue 'c' 3, .changePriority 0 9, .dequeue]

theorem priorityQueue_correct_iff_sample :
    Correct (priorityQueue Char) 0 ∧
      (Along PqCall.lockstep MeetsContract (priorityQueue Char, 0) rekeyed ↔
        Along PqCall.lockstep
          (fun both => Manageable PQueueNode.priority both.1)
          (priorityQueue Char, 0) rekeyed) :=
  priorityQueue_correct_iff rekeyed (by decide)

/-! ### 2^30 nodes -/

/-- A node of equal priority stays at the end. -/
theorem siftUp_levelHeap {n i : Nat} (inside : i < n) :
    siftUp outranks (levelHeap n) i = levelHeap n := by
  have ordered : Ordered PQueueNode.priority (levelHeap n) := by
    intro c _ _
    rw [keyAt_levelHeap, keyAt_levelHeap]
  have comparable : Comparable (levelHeap n) := by
    apply comparable_of_small
    intro node member
    rw [(List.mem_replicate.mp member).2]
    decide
  exact ordered.siftUp_eq comparable.ranks
    (by rwa [levelHeap, List.length_replicate])

theorem insert_levelHeap {pq : PriorityQueue Unit} {n : Nat}
    (nodes : pq.nodes = levelHeap n) :
    (pq.insert () 0).nodes = levelHeap (n + 1) := by
  have added : pq.nodes ++ [{ item := (), priority := wrap (-0) }] =
      levelHeap (n + 1) := by
    rw [nodes, levelHeap, levelHeap, List.replicate_succ']
    rfl
  have length : pq.nodes.length = n := by
    rw [nodes, levelHeap, List.length_replicate]
  rw [PriorityQueue.insert]
  dsimp only
  rw [added, length, siftUp_levelHeap (Nat.lt_succ_self n)]

/-- Up to 2^30 equal priorities may be inserted. -/
theorem runs_levelHeap {n : Nat} (few : n ≤ 2 ^ 30) :
    ∃ pq pairs, runs PqCall.lockstep (priorityQueue Unit, 0)
        (List.replicate n (.enqueue () 0)) = .ok (pq, pairs) ∧
      pq.nodes = levelHeap n ∧ Roomy pq := by
  induction n with
  | zero => exact ⟨_, _, rfl, rfl, priorityQueue_roomy⟩
  | succ n ih =>
      obtain ⟨pq, pairs, run, nodes, roomy⟩ := ih (by omega)
      have length : pq.nodes.length = n := by
        rw [nodes, levelHeap, List.length_replicate]
      have fits : pqSize pq = pq.capacity → pq.capacity * 2 < 2 ^ 31 := by
        intro full
        rw [pqSize, length] at full
        omega
      have stepped : PqCall.lockstep (pq, pairs) (.enqueue () 0) =
          .ok (pq.insert () 0, ((), 0) ::ₘ pairs) := by
        rcases enqueue_decided roomy () 0 with ⟨_, value⟩ | ⟨full, _⟩
        · rw [PqCall.lockstep, PqCall.perform, value]
          rfl
        · exact absurd fits full
      refine ⟨_, ((), 0) ::ₘ pairs, ?_, insert_levelHeap nodes,
        roomy.insert fits () 0⟩
      rw [List.replicate_succ', runs_append_ok]
      exact ⟨_, run, runs_cons_ok.mpr ⟨_, stepped, rfl⟩⟩

/-- The last of 2^30 nodes has no place to look for a second child. -/
theorem pqChangePriority_levelHeap_faults {pq : PriorityQueue Unit}
    (nodes : pq.nodes = levelHeap (2 ^ 30)) :
    pqChangePriority pq ((2 ^ 30 - 1 : Nat) : Int) 5 = .error .danglingPointer := by
  have length : (levelHeap (2 ^ 30)).length = 2 ^ 30 := List.length_replicate
  have node : (levelHeap (2 ^ 30))[2 ^ 30 - 1]? =
      some { item := (), priority := 0 } := by
    rw [levelHeap, List.getElem?_replicate, if_pos (by decide)]
  have bounds : ¬ (((2 ^ 30 - 1 : Nat) : Int) < 0 ∨
      ((2 ^ 30 - 1 : Nat) : Int) ≥ pqSize pq) := by
    rw [pqSize, nodes, length]
    decide
  have lowered : wrap (-5) < 0 := by decide
  have faults : ∀ other : PQueueNode Unit,
      pqHeapify ((levelHeap (2 ^ 30)).set (2 ^ 30 - 1) other).length
        ((levelHeap (2 ^ 30)).set (2 ^ 30 - 1) other) ((2 ^ 30 - 1 : Nat) : Int) =
          .error .danglingPointer := by
    intro other
    have length' : ((levelHeap (2 ^ 30)).set (2 ^ 30 - 1) other).length =
        (2 ^ 30 - 1) + 1 := by
      rw [List.length_set, length]
      omega
    rw [length']
    exact pqHeapify_faults (by omega) (by omega) (Nat.le_refl _) (2 ^ 30 - 1)
  rw [pqChangePriority, if_neg bounds, nodes, nodeAt_of_getElem? node, ok_bind,
    Int.toNat_natCast]
  dsimp only
  rw [if_neg (by decide), if_pos lowered, faults]
  rfl

/-- 2^30 insertions of equal priority, and a lower priority for the last node. -/
def levelThenLowered : List (PqCall Unit) :=
  List.replicate (2 ^ 30) (.enqueue () 0) ++
    [.changePriority ((2 ^ 30 - 1 : Nat) : Int) 5]

theorem levelThenLowered_small : ∀ call ∈ levelThenLowered, call.Small := by
  intro call member
  rcases List.mem_append.mp member with insertion | final
  · rw [(List.mem_replicate.mp insertion).2]
    decide
  · rw [List.mem_singleton.mp final]
    decide

/-- In a queue of 2^30 nodes of equal priority, a lower priority for the last node
makes `pq_heapify` touch a slot in front of the array. -/
theorem priorityQueue_touches_below_zero :
    ¬ ∀ calls : List (PqCall Unit), (∀ call ∈ calls, call.Small) →
      Along PqCall.lockstep MeetsContract (priorityQueue Unit, 0) calls := by
  intro always
  obtain ⟨pq, pairs, run, nodes, _⟩ := runs_levelHeap (Nat.le_refl (2 ^ 30))
  have along := always levelThenLowered levelThenLowered_small
  obtain ⟨after, returned, performed, _⟩ :=
    (along_cons.mp ((along_append.mp along).2 _ run)).1
  rw [PqCall.perform, pqChangePriority_levelHeap_faults nodes] at performed
  cases performed

end OsSim
