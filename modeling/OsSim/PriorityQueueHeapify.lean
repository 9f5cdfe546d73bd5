/-
Module: OsSim.PriorityQueueHeapify
Purpose: `pq_heapify` from any index: which slots it touches, which nodes it
  moves, and when it restores the heap.
Trusted boundary: human-reviewed translation
Main exports:
  RestoresHeap, restoresHeap_of_length_lt, pqHeapify_restores_iff, levelHeap,
  pqHeapify_touches_below_zero
-/
import OsSim.PriorityQueueInt

namespace OsSim

open PointerMemory
open BinaryHeap

variable {α : Type}

/-- `pq_heapify` at `parent` returns without a touch of a slot that is not in
use, moves only nodes of the subtree there, and leaves the heap in order. -/
def RestoresHeap (nodes : List (PQueueNode α)) (parent : Nat) : Prop :=
  ∃ after, (∀ fuel, nodes.length ≤ fuel →
      pqHeapify fuel nodes parent = .ok after) ∧
    Rearranges (Descends parent) nodes after ∧
    Ordered PQueueNode.priority after

/-- While the node stays below index 2^30 - 1, the heap is restored. -/
theorem restoresHeap_of_shallow {nodes : List (PQueueNode α)} {parent : Nat}
    (comparable : Comparable nodes)
    (sinking : Sinking PQueueNode.priority nodes parent)
    (shallow : Shallow PQueueNode.priority nodes parent) :
    RestoresHeap nodes parent := by
  refine ⟨siftDown outranks nodes nodes.length parent, ?_,
    siftDown_rearranges outranks nodes nodes.length parent,
    sinking.siftDown comparable.ranks⟩
  intro fuel enough
  exact pqHeapify_eq comparable.ranks sinking.inside shallow
    (Nat.le_add_right_of_le enough)

/-- With fewer than 2^30 nodes the heap is restored from every index. -/
theorem restoresHeap_of_length_lt {nodes : List (PQueueNode α)} {parent : Nat}
    (few : nodes.length < 2 ^ 30) (comparable : Comparable nodes)
    (sinking : Sinking PQueueNode.priority nodes parent) :
    RestoresHeap nodes parent :=
  restoresHeap_of_shallow comparable sinking
    (shallow_of_length_lt few sinking.inside)

/-- From any index whose node alone may be out of order, `pq_heapify` restores
the heap exactly when that node does not sink to index 2^30 - 1 or below, where
the indices of the children leave the range of `int`. -/
theorem pqHeapify_restores_iff (nodes : List (PQueueNode α)) (parent : Nat)
    (int : nodes.length < 2 ^ 31)
    (small : ∀ node ∈ nodes, -2 ^ 30 < node.priority ∧ node.priority < 2 ^ 30)
    (sinking : Sinking PQueueNode.priority nodes parent) :
    RestoresHeap nodes parent ↔
      ∀ place, Sinks PQueueNode.priority nodes
        (keyAt PQueueNode.priority nodes parent) parent place →
        place < 2 ^ 30 - 1 := by
  have comparable := comparable_of_small small
  constructor
  · rintro ⟨after, returns, _⟩ place sinks
    by_contra deep
    exact pqHeapify_ne_ok comparable.ranks int sinking.inside sinks
      (Nat.le_of_not_lt deep) nodes.length after (returns _ (Nat.le_refl _))
  · exact restoresHeap_of_shallow comparable sinking

/-- Four nodes, of which the one with a single child is out of order. -/
theorem pqHeapify_restores_iff_four :
    let nodes : List (PQueueNode Nat) :=
      [⟨10, 9⟩, ⟨11, 1⟩, ⟨12, 7⟩, ⟨13, 5⟩]
    RestoresHeap nodes 1 ↔
      ∀ place, Sinks PQueueNode.priority nodes
        (keyAt PQueueNode.priority nodes 1) 1 place → place < 2 ^ 30 - 1 := by
  intro nodes
  have pairs : ∀ c < 4, 0 < c → (c - 1) / 2 ≠ 1 →
      keyAt PQueueNode.priority nodes c ≤
        keyAt PQueueNode.priority nodes ((c - 1) / 2) := by
    decide
  have skip : ∀ c < 4, 0 < c → (c - 1) / 2 = 1 →
      keyAt PQueueNode.priority nodes c ≤
        keyAt PQueueNode.priority nodes 0 := by
    decide
  exact pqHeapify_restores_iff nodes 1 (by decide) (by decide)
    ⟨by decide, fun c lower bound => pairs c bound lower,
      fun _ c lower bound => skip c bound lower⟩

/-- A heap of nodes that all have priority 0. -/
def levelHeap (n : Nat) : List (PQueueNode Unit) :=
  List.replicate n { item := (), priority := 0 }

theorem keyAt_levelHeap (n i : Nat) :
    keyAt PQueueNode.priority (levelHeap n) i = 0 := by
  rw [keyAt, levelHeap, List.getElem?_replicate]
  split <;> rfl

theorem sinking_levelHeap {n i : Nat} (inside : i < n) :
    Sinking PQueueNode.priority (levelHeap n) i := by
  refine ⟨by rwa [levelHeap, List.length_replicate], ?_, ?_⟩
  · intro c _ _ _
    rw [keyAt_levelHeap, keyAt_levelHeap]
  · intro _ c _ _ _
    rw [keyAt_levelHeap, keyAt_levelHeap]

/-- In a heap of 2^30 nodes of equal priority, the call at the last one touches
a slot in front of the array. -/
theorem pqHeapify_touches_below_zero :
    ¬ ∀ (nodes : List (PQueueNode Unit)) (parent : Nat),
      nodes.length < 2 ^ 31 →
      (∀ node ∈ nodes, -2 ^ 30 < node.priority ∧ node.priority < 2 ^ 30) →
      Sinking PQueueNode.priority nodes parent → RestoresHeap nodes parent := by
  intro always
  have length : (levelHeap (2 ^ 30)).length = 2 ^ 30 := List.length_replicate
  obtain ⟨after, returns, _⟩ := always (levelHeap (2 ^ 30)) (2 ^ 30 - 1)
    (by rw [length]; decide)
    (by
      intro node member
      rw [(List.mem_replicate.mp member).2]
      decide)
    (sinking_levelHeap (by decide))
  have faults : pqHeapify (2 ^ 30 + 1) (levelHeap (2 ^ 30))
      ((2 ^ 30 - 1 : Nat) : Int) = .error .danglingPointer :=
    pqHeapify_faults (by rw [length]; decide) (by rw [length]; decide)
      (Nat.le_refl _) (2 ^ 30)
  rw [returns _ (by rw [length]; decide)] at faults
  cases faults

end OsSim
