/-
Module: OsSim.Teardown
Purpose: The functions that free a whole structure: the block list of
  `buddy_memory.c`, the list of `DS/linked_list.c` and the ring of
  `DS/circular_queue.c`.  After any history of calls they free every node that
  is left once, and what stays live is exactly what no pointer leads to any more.
Trusted boundary: human-reviewed translation
Main exports:
  destroyMemory, freeLinkedList, cqFree, ListLedger, Intact.exactly,
  destroy_memory_drains, free_linked_list_leaves, cq_free_drains
-/
import OsSim.BuddyIntact
import OsSim.BuddyHistory
import OsSim.CircularQueueRing
import OsSim.LinkedListRuns
import OsSim.Library.Lifetime

namespace OsSim

open PointerMemory
open DoublyLinked
open Trace

variable {α : Type}

/-- `destroy_memory` -/
def destroyMemory (heap : Mem Block) (memory : Option Addr) :
    Except Fault (Mem Block) :=
  freeChain Block.next heap.cells.length heap memory

/-- `free_linked_list`, on the memory of the nodes. -/
def freeLinkedList (heap : Mem (Node α)) (listPtr : Option LinkedList) :
    Except Fault (Mem (Node α)) :=
  match listPtr with
  | none => .ok heap
  | some list => freeChain Node.next heap.cells.length heap list.head

/-- `cq_free`, on the memory of the nodes.  The walk starts behind the tail,
where the circle is opened first. -/
def cqFree (heap : Mem (QueueNode α)) (q : Option CircularQueue) :
    Except Fault (Mem (QueueNode α)) :=
  match q with
  | none => .ok heap
  | some q =>
      match q.tail with
      | none => .ok heap
      | some tail => do
          let node ← deref heap tail
          let heap ← update heap tail fun t => { t with next := none }
          freeChain QueueNode.next heap.cells.length heap node.next

/-! ### The block list -/

/-- The live blocks are those of the list. -/
theorem Intact.exactly {heap : Mem Block} {memory : Addr}
    {nodes : List (Addr × Tile)} (intact : Intact heap memory nodes) :
    Exactly heap (addrs nodes) where
  live := by
    refine fun a => ⟨intact.complete a, fun member => ?_⟩
    obtain ⟨node, inside, rfl⟩ := List.mem_map.mp member
    obtain ⟨cell, loaded, _⟩ := intact.blocks.load inside
    simp [loaded]
  nodup := intact.blocks.linked.nodup

/-- `destroy_memory` on an intact block list leaves no block. -/
theorem Intact.destroyMemory {heap : Mem Block} {memory : Addr}
    {nodes : List (Addr × Tile)} (intact : Intact heap memory nodes) :
    ∃ heap', OsSim.destroyMemory heap (some memory) = .ok heap' ∧
      Exactly heap' [] := by
  have exactly : Exactly heap (addrs nodes ++ []) := by
    rw [List.append_nil]
    exact intact.exactly
  rw [OsSim.destroyMemory, ← intact.blocks.head]
  exact exactly.freeChain_eq intact.blocks.linked.seg
    intact.blocks.linked.length_le

/-- One call that returns keeps the list intact. -/
theorem Intact.call {state next : BuddyHeap} {nodes : List (Addr × Tile)}
    (intact : Intact state.heap state.memory nodes) {call : BuddyCall}
    (run : state.call call = .ok next) :
    ∃ nodes', Intact next.heap next.memory nodes' := by
  cases call with
  | allocate size =>
      obtain ⟨⟨heap, block⟩, allocated, rest⟩ := bind_eq_ok.mp run
      simp only [pure_eq_ok, Except.ok.injEq] at rest
      subst rest
      rcases intact.allocate size with
        ⟨none, _⟩ | ⟨node, heap', nodes', _, some, intact', _⟩
      · rw [none, Except.ok.injEq, Prod.mk.injEq] at allocated
        exact ⟨nodes, allocated.1 ▸ intact⟩
      · rw [some, Except.ok.injEq, Prod.mk.injEq] at allocated
        exact ⟨nodes', allocated.1 ▸ intact'⟩
  | deallocate block =>
      obtain ⟨heap, given, rest⟩ := bind_eq_ok.mp run
      rw [pure_eq_ok, Except.ok.injEq] at rest
      exact rest ▸ intact.deallocate given

/-- Whatever has been allocated and given back before, in any order and with
requests of any size, as long as no released block has been touched:
`destroy_memory` frees every block that splitting has made and merging has left,
each of them once. -/
theorem destroy_memory_drains (calls : List BuddyCall) (last : BuddyHeap)
    (run : runs BuddyHeap.call BuddyHeap.init calls = .ok last) :
    ∃ heap', destroyMemory last.heap (some last.memory) = .ok heap' ∧
      ∀ a, heap'.load a = none := by
  have start : ∃ nodes, Intact BuddyHeap.init.heap BuddyHeap.init.memory nodes :=
    ⟨_, Intact.initial⟩
  obtain ⟨nodes, intact⟩ := invariant_of_steps
    (P := fun s => ∃ nodes, Intact s.heap s.memory nodes)
    (fun _ _ _ ⟨_, intact⟩ stepped => intact.call stepped) start run
  obtain ⟨heap', freed, drained⟩ := intact.destroyMemory
  exact ⟨heap', freed, drained.drained⟩

/-- Requests of several sizes, one of them for no byte, and two blocks given
back. -/
private def requests : List BuddyCall :=
  [.allocate 100, .allocate 30, .allocate 0, .allocate 512, .deallocate 1,
    .deallocate 0, .allocate 200]

theorem destroy_memory_drains_requests :
    ∃ last heap', runs BuddyHeap.call BuddyHeap.init requests = .ok last ∧
      destroyMemory last.heap (some last.memory) = .ok heap' ∧
      ∀ a, heap'.load a = none := by
  have ends : (do
      let last ← runs BuddyHeap.call BuddyHeap.init requests
      pure last.memory) = Except.ok 0 := by
    decide +kernel
  obtain ⟨last, run, _⟩ := bind_eq_ok.mp ends
  obtain ⟨heap', freed, drained⟩ := destroy_memory_drains requests last run
  exact ⟨last, heap', run, freed, drained⟩

/-! ### The linked list

`remove_node` frees its node, the removals from the ends do not.  A node that they
have taken out can be reached by no pointer of the list, so it is lost unless the
caller keeps it.  The ledger keeps count of such nodes, and of those that have been
created and not added; with the nodes of the list these are all that is live.
-/

/-- A list, with the nodes that `remove_node_from_front` and
`remove_node_from_back` have taken out of it: these do not free them. -/
structure ListLedger (α : Type) where
  run : ListRun α
  unfreed : List Addr
deriving Repr, DecidableEq

namespace ListLedger

def start (α : Type) : ListLedger α :=
  { run := .start Mem.empty, unfreed := [] }

/-- The node that an operation takes out without freeing it. -/
def unlinked (list : LinkedList) : ListOp α → Option Addr
  | .removeFromFront => list.head
  | .removeFromBack => list.tail
  | _ => none

/-- Perform one operation. -/
def step (l : ListLedger α) (op : ListOp α) : Except Fault (ListLedger α) := do
  let run ← l.run.step op
  pure { run := run, unfreed := (unlinked l.run.list op).toList ++ l.unfreed }

/-- Created nodes are added once, only members are removed, and none is removed
from an end of an empty list. -/
def Legal (l : ListLedger α) : ListOp α → Prop
  | .removeFromFront => l.run.list.head ≠ none
  | .removeFromBack => l.run.list.head ≠ none
  | op => l.run.Legal op

instance (l : ListLedger α) (node : Addr) :
    Decidable (l.run.Legal (.remove node)) :=
  match read : l.run.forward with
  | .ok nodes => decidable_of_iff (node ∈ addrs nodes)
      ⟨fun member => ⟨nodes, read, member⟩, fun ⟨_, read', member⟩ =>
        Except.ok.inj (read.symm.trans read') ▸ member⟩
  | .error _ => isFalse fun ⟨_, read', _⟩ => by rw [read] at read'; cases read'

instance (l : ListLedger α) : ∀ op, Decidable (l.Legal op)
  | .create _ => inferInstanceAs (Decidable True)
  | .addToBack _ => inferInstanceAs (Decidable (_ ∈ _))
  | .addToFront _ => inferInstanceAs (Decidable (_ ∈ _))
  | .remove node => inferInstanceAs (Decidable (l.run.Legal (.remove node)))
  | .removeFromFront => inferInstanceAs (Decidable (_ ≠ _))
  | .removeFromBack => inferInstanceAs (Decidable (_ ≠ _))

end ListLedger

section

variable {heap heap' : Mem (Node α)} {list list' : LinkedList}
  {owned : List Addr}

/-- Adding a node allocates and frees nothing. -/
theorem addNodeToBack_owned {node : Addr} (exactly : Exactly heap owned)
    (run : addNodeToBack heap list node = .ok (heap', list')) :
    Exactly heap' owned := by
  obtain ⟨_, _, run⟩ := bind_eq_ok.mp run
  dsimp only at run
  split at run
  · rw [pure_eq_ok, Except.ok.injEq, Prod.mk.injEq] at run
    exact run.1 ▸ exactly
  · obtain ⟨first, linked, run⟩ := bind_eq_ok.mp run
    obtain ⟨second, linked', run⟩ := bind_eq_ok.mp run
    rw [pure_eq_ok, Except.ok.injEq, Prod.mk.injEq] at run
    exact run.1 ▸ (exactly.updatePtr linked).update linked'

theorem addNodeToFront_owned {node : Addr} (exactly : Exactly heap owned)
    (run : addNodeToFront heap list node = .ok (heap', list')) :
    Exactly heap' owned := by
  rw [addNodeToFront] at run
  dsimp only at run
  split at run
  · rw [Except.ok.injEq, Prod.mk.injEq] at run
    exact run.1 ▸ exactly
  · obtain ⟨first, linked, run⟩ := bind_eq_ok.mp run
    obtain ⟨second, linked', run⟩ := bind_eq_ok.mp run
    rw [pure_eq_ok, Except.ok.injEq, Prod.mk.injEq] at run
    exact run.1 ▸ (exactly.updatePtr linked).update linked'

/-- Taking out the first node frees nothing. -/
theorem removeNodeFromFront_owned (exactly : Exactly heap owned)
    (run : removeNodeFromFront heap list = .ok (heap', list')) :
    Exactly heap' owned := by
  rw [removeNodeFromFront] at run
  dsimp only at run
  split at run
  · rw [Except.ok.injEq, Prod.mk.injEq] at run
    exact run.1 ▸ exactly
  · split at run
    · rw [Except.ok.injEq, Prod.mk.injEq] at run
      exact run.1 ▸ exactly
    · obtain ⟨_, _, run⟩ := bind_eq_ok.mp run
      obtain ⟨first, linked, run⟩ := bind_eq_ok.mp run
      rw [pure_eq_ok, Except.ok.injEq, Prod.mk.injEq] at run
      exact run.1 ▸ exactly.updatePtr linked

theorem removeNodeFromBack_owned (exactly : Exactly heap owned)
    (run : removeNodeFromBack heap list = .ok (heap', list')) :
    Exactly heap' owned := by
  rw [removeNodeFromBack] at run
  dsimp only at run
  split at run
  · rw [Except.ok.injEq, Prod.mk.injEq] at run
    exact run.1 ▸ exactly
  · split at run
    · rw [Except.ok.injEq, Prod.mk.injEq] at run
      exact run.1 ▸ exactly
    · obtain ⟨_, _, run⟩ := bind_eq_ok.mp run
      obtain ⟨first, linked, run⟩ := bind_eq_ok.mp run
      rw [pure_eq_ok, Except.ok.injEq, Prod.mk.injEq] at run
      exact run.1 ▸ exactly.updatePtr linked

/-- `remove_node` frees the node. -/
theorem removeNode_owned {node : Addr} (exactly : Exactly heap owned)
    (run : removeNode heap list node = .ok (heap', list')) :
    node ∈ owned ∧ Exactly heap' (owned.erase node) := by
  have ends : ∀ {middle : Mem (Node α)} {shorter : LinkedList},
      Exactly middle owned →
      (do
        let freed ← release middle node
        pure (freed, shorter)) = Except.ok (heap', list') →
      node ∈ owned ∧ Exactly heap' (owned.erase node) := by
    intro middle shorter exactly' run
    obtain ⟨freed, released, run⟩ := bind_eq_ok.mp run
    rw [pure_eq_ok, Except.ok.injEq, Prod.mk.injEq] at run
    exact run.1 ▸ exactly'.of_release released
  rw [removeNode] at run
  split at run
  · obtain ⟨⟨middle, shorter⟩, taken, run⟩ := bind_eq_ok.mp run
    exact ends (removeNodeFromFront_owned exactly taken) run
  · split at run
    · obtain ⟨⟨middle, shorter⟩, taken, run⟩ := bind_eq_ok.mp run
      exact ends (removeNodeFromBack_owned exactly taken) run
    · obtain ⟨_, _, run⟩ := bind_eq_ok.mp run
      obtain ⟨first, linked, run⟩ := bind_eq_ok.mp run
      obtain ⟨_, _, run⟩ := bind_eq_ok.mp run
      obtain ⟨second, linked', run⟩ := bind_eq_ok.mp run
      exact ends ((exactly.updatePtr linked).updatePtr linked') run

end

namespace ListLedger

variable {l next : ListLedger α} {nodes : List (Addr × α)}

/-- The live nodes are those of the list, those not added yet, and those taken
out without being freed. -/
structure Kept (l : ListLedger α) (nodes : List (Addr × α)) : Prop where
  stands : l.run.Stands nodes
  exactly : Exactly l.run.heap (addrs nodes ++ (l.run.fresh ++ l.unfreed))

theorem kept_start : Kept (start α) [] where
  stands := ListRun.stands_start Mem.empty
  exactly := Exactly.empty

/-- Which nodes are in the list, waiting and unfreed is a question of order
only. -/
private theorem moved_perm {listed fresh rest unfreed : List Addr} {node : Addr}
    (split : fresh.Perm (node :: rest)) :
    (listed ++ (fresh ++ unfreed)).Perm
      (node :: (listed ++ (rest ++ unfreed))) :=
  ((split.append_right unfreed).append_left listed).trans List.perm_middle

/-- Every legal operation keeps the account. -/
theorem Kept.step (kept : Kept l nodes) {op : ListOp α} (legal : l.Legal op) :
    ∃ next nodes', l.step op = .ok next ∧ Kept next nodes' := by
  have nonempty : op = .removeFromFront ∨ op = .removeFromBack →
      nodes ≠ [] := by
    rintro (rfl | rfl) empty
    · exact legal (kept.stands.head_eq_none.mpr empty)
    · exact legal (kept.stands.head_eq_none.mpr empty)
  have legal' : l.run.Legal op := by
    cases op with
    | removeFromFront => trivial
    | removeFromBack => trivial
    | _ => exact legal
  obtain ⟨run, nodes', stepped, stands, changes⟩ :=
    kept.stands.effect legal' nonempty
  refine ⟨_, nodes', bind_eq_ok.mpr ⟨run, stepped, rfl⟩, stands, ?_⟩
  have exactly := kept.exactly
  cases op with
  | create obj =>
      rw [ListRun.step, Except.ok.injEq] at stepped
      subst stepped changes
      exact (exactly.malloc _).perm List.perm_middle.symm
  | addToBack node =>
      obtain ⟨⟨heap, list⟩, added, rest⟩ := bind_eq_ok.mp stepped
      simp only [pure_eq_ok, Except.ok.injEq] at rest
      obtain ⟨cell, _, rfl⟩ := changes
      subst rest
      refine (addNodeToBack_owned exactly added).perm ?_
      have split : (addrs nodes ++ (l.run.fresh ++ l.unfreed)).Perm
          (node :: (addrs nodes ++ (l.run.fresh.erase node ++ l.unfreed))) :=
        moved_perm (List.perm_cons_erase legal')
      simpa [unlinked] using split.trans List.perm_middle.symm
  | addToFront node =>
      obtain ⟨⟨heap, list⟩, added, rest⟩ := bind_eq_ok.mp stepped
      simp only [pure_eq_ok, Except.ok.injEq] at rest
      obtain ⟨cell, _, rfl⟩ := changes
      subst rest
      refine (addNodeToFront_owned exactly added).perm ?_
      have split : (addrs nodes ++ (l.run.fresh ++ l.unfreed)).Perm
          (node :: (addrs nodes ++ (l.run.fresh.erase node ++ l.unfreed))) :=
        moved_perm (List.perm_cons_erase legal')
      simpa [unlinked] using split
  | remove node =>
      obtain ⟨⟨heap, list⟩, removed, rest⟩ := bind_eq_ok.mp stepped
      simp only [pure_eq_ok, Except.ok.injEq] at rest
      obtain ⟨left, obj, right, rfl, rfl⟩ := changes
      subst rest
      refine (removeNode_owned exactly removed).2.perm ?_
      have split : (addrs (left ++ (node, obj) :: right) ++
          (l.run.fresh ++ l.unfreed)).Perm
          (node :: (addrs (left ++ right) ++ (l.run.fresh ++ l.unfreed))) := by
        simp only [addrs, List.map_append, List.map_cons, List.append_assoc,
          List.cons_append]
        exact List.perm_middle
      simpa [unlinked] using split.erase node
  | removeFromFront =>
      obtain ⟨⟨heap, list⟩, removed, rest⟩ := bind_eq_ok.mp stepped
      simp only [pure_eq_ok, Except.ok.injEq] at rest
      obtain ⟨first, others, rfl⟩ :=
        List.exists_cons_of_ne_nil (nonempty (Or.inl rfl))
      obtain ⟨rfl, _⟩ := changes
      subst rest
      refine (removeNodeFromFront_owned exactly removed).perm ?_
      have head : l.run.list.head = some first.1 := kept.stands.listAt.head
      have moved : (addrs nodes' ++ l.run.fresh ++ first.1 :: l.unfreed).Perm
          (first.1 :: (addrs nodes' ++ l.run.fresh ++ l.unfreed)) :=
        List.perm_middle
      rw [unlinked, head]
      simpa [List.append_assoc] using moved.symm
  | removeFromBack =>
      obtain ⟨⟨heap, list⟩, removed, rest⟩ := bind_eq_ok.mp stepped
      simp only [pure_eq_ok, Except.ok.injEq] at rest
      obtain ⟨others, last, split⟩ :=
        (List.eq_nil_or_concat nodes).resolve_left (nonempty (Or.inr rfl))
      rw [List.concat_eq_append] at split
      obtain ⟨same, _⟩ := changes
      rw [split, List.dropLast_concat] at same
      subst split same rest
      refine (removeNodeFromBack_owned exactly removed).perm ?_
      have tail : l.run.list.tail = some last.1 := by
        rw [kept.stands.listAt.tail, lastAddr_append_singleton]
      have moved : (last.1 :: (l.run.fresh ++ l.unfreed)).Perm
          (l.run.fresh ++ last.1 :: l.unfreed) := List.perm_middle.symm
      rw [unlinked, tail]
      simpa [List.append_assoc] using moved.append_left (addrs nodes')

end ListLedger

/-- Whatever has been done with a list before: `free_linked_list` frees every
node in it once, and what is live afterwards are the nodes that were created and
not added, and those that were removed from an end. -/
theorem free_linked_list_leaves (ops : List (ListOp α))
    (legal : Along ListLedger.step ListLedger.Legal (ListLedger.start α) ops) :
    ∃ last heap', runs ListLedger.step (ListLedger.start α) ops = .ok last ∧
      freeLinkedList last.run.heap (some last.run.list) = .ok heap' ∧
      Exactly heap' (last.run.fresh ++ last.unfreed) := by
  have total : ∀ (l : ListLedger α) (op : ListOp α), (∃ nodes, l.Kept nodes) →
      l.Legal op → ∃ next, l.step op = .ok next ∧ ∃ nodes, next.Kept nodes := by
    rintro l op ⟨nodes, kept⟩ legal
    obtain ⟨next, nodes', stepped, kept'⟩ := kept.step legal
    exact ⟨next, stepped, nodes', kept'⟩
  obtain ⟨last, run, nodes, kept⟩ :=
    total_of_runs total ⟨[], ListLedger.kept_start⟩ legal
  obtain ⟨heap', freed, left⟩ := kept.exactly.freeChain_eq
    kept.stands.listAt.linked.seg kept.stands.listAt.linked.length_le
  refine ⟨last, heap', run, ?_, left⟩
  rw [freeLinkedList, kept.stands.listAt.head]
  exact freed

/-- Three nodes are added; one is removed by address and one from the back. -/
private def listOps : List (ListOp Nat) :=
  [.create 10, .create 20, .create 30, .create 40, .addToBack 1, .addToFront 0,
    .addToBack 3, .remove 1, .removeFromBack]

theorem free_linked_list_leaves_two :
    ∃ last heap', runs ListLedger.step (ListLedger.start Nat) listOps = .ok last ∧
      freeLinkedList last.run.heap (some last.run.list) = .ok heap' ∧
      Exactly heap' (last.run.fresh ++ last.unfreed) :=
  free_linked_list_leaves listOps (by decide +kernel)

/-- Of these the node that was never added stays, and the one removed from the
back. -/
example : (do
    let last ← runs ListLedger.step (ListLedger.start Nat) listOps
    pure (last.run.fresh ++ last.unfreed)) = Except.ok [2, 3] := by
  decide +kernel

/-! ### The ring -/

namespace RingAt

variable {heap heap' : Mem (QueueNode α)} {q q' : CircularQueue}
  {front back : List (Addr × α)} {owned : List Addr}

/-- `cq_free` frees every node of the ring and no other cell. -/
theorem cqFree (ring : RingAt heap q front back)
    (exactly : Exactly heap (addrs (front ++ back) ++ owned)) :
    ∃ heap', OsSim.cqFree heap (some q) = .ok heap' ∧ Exactly heap' owned := by
  rcases List.eq_nil_or_concat front with empty | ⟨before, last, split⟩
  · subst empty
    have none := ring.closed rfl
    subst none
    refine ⟨heap, ?_, exactly⟩
    rw [OsSim.cqFree, ring.tail]
    rfl
  · rw [List.concat_eq_append] at split
    subst split
    have circle := ring.circle.rotate
    rw [← List.append_assoc] at circle
    obtain ⟨cell, opened, live, next, cut, seg⟩ := circle.cut
      (f := fun t => { t with next := none })
      (fun _ => rfl) (fun _ => rfl) (fun _ => rfl)
    have same : (addrs (before ++ [last] ++ back) ++ owned).Perm
        (addrs (back ++ before ++ [last]) ++ owned) := by
      apply List.Perm.append_right
      apply List.Perm.map
      rw [List.append_assoc back]
      exact List.perm_append_comm
    have exactly' := (exactly.perm same).update cut
    have enough : (back ++ before ++ [last]).length ≤ opened.cells.length := by
      have bound := exactly'.length_le
      rw [List.length_append, List.length_map] at bound
      exact Nat.le_trans (Nat.le_add_right _ _) bound
    obtain ⟨heap', freed, left⟩ := exactly'.freeChain_eq seg enough
    refine ⟨heap', ?_, left⟩
    have next' : cell.next = firstAddr none (back ++ before ++ [last]) := next
    rw [OsSim.cqFree, ring.tail, lastAddr_append_singleton]
    dsimp only
    rw [deref_of_load live, ok_bind, cut, ok_bind, next']
    exact freed

/-- `cq_enqueue` makes one node and frees none. -/
theorem cqEnqueue_owned {obj : α} (exactly : Exactly heap owned)
    (run : cqEnqueue heap q obj = .ok (heap', q')) :
    Exactly heap' ((heap.malloc ⟨obj, none, none⟩).2 :: owned) := by
  have made := exactly.malloc ⟨obj, none, none⟩
  rw [cqEnqueue] at run
  dsimp only at run
  cases tail : q.tail with
  | none =>
      rw [tail] at run
      obtain ⟨first, linked, run⟩ := bind_eq_ok.mp run
      obtain ⟨second, linked', run⟩ := bind_eq_ok.mp run
      rw [pure_eq_ok, Except.ok.injEq, Prod.mk.injEq] at run
      exact run.1 ▸ (made.update linked).update linked'
  | some last =>
      rw [tail] at run
      obtain ⟨_, _, run⟩ := bind_eq_ok.mp run
      obtain ⟨first, linked, run⟩ := bind_eq_ok.mp run
      obtain ⟨second, linked', run⟩ := bind_eq_ok.mp run
      obtain ⟨_, _, run⟩ := bind_eq_ok.mp run
      obtain ⟨third, turned, run⟩ := bind_eq_ok.mp run
      obtain ⟨fourth, turned', run⟩ := bind_eq_ok.mp run
      rw [pure_eq_ok, Except.ok.injEq, Prod.mk.injEq] at run
      exact run.1 ▸ (((made.update linked).update linked').updatePtr
        turned).update turned'

/-- `cq_dequeue_and_remove` frees the node that it takes out. -/
theorem cqDequeueAndRemove_owned {obj : α} (exactly : Exactly heap owned)
    (run : cqDequeueAndRemove heap q = .ok (heap', q', some obj)) :
    ∃ head, q.head = some head ∧ head ∈ owned ∧
      Exactly heap' (owned.erase head) := by
  rw [cqDequeueAndRemove] at run
  cases head : q.head with
  | none => simp [head] at run
  | some first =>
      rw [head] at run
      refine ⟨first, rfl, ?_⟩
      obtain ⟨_, _, run⟩ := bind_eq_ok.mp run
      obtain ⟨only, _, run⟩ := bind_eq_ok.mp run
      dsimp only at run
      split at run
      · obtain ⟨freed, released, run⟩ := bind_eq_ok.mp run
        rw [pure_eq_ok, Except.ok.injEq, Prod.mk.injEq] at run
        exact run.1 ▸ exactly.of_release released
      · obtain ⟨first, linked, run⟩ := bind_eq_ok.mp run
        obtain ⟨_, _, run⟩ := bind_eq_ok.mp run
        obtain ⟨second, linked', run⟩ := bind_eq_ok.mp run
        obtain ⟨_, _, run⟩ := bind_eq_ok.mp run
        obtain ⟨freed, released, run⟩ := bind_eq_ok.mp run
        rw [pure_eq_ok, Except.ok.injEq, Prod.mk.injEq] at run
        exact run.1 ▸
          ((exactly.updatePtr linked).updatePtr linked').of_release released

end RingAt

namespace CqHistory

/-- The live nodes are those of the ring. -/
def OnlyRing (h : CqHistory α) : Prop :=
  ∃ front back, RingAt h.store.heap h.store.q front back ∧
    Exactly h.store.heap (addrs (front ++ back))

/-- Every call keeps the account. -/
theorem OnlyRing.step {h : CqHistory α} (only : h.OnlyRing) (call : CqCall α) :
    ∃ next, h.step call = .ok next ∧ next.OnlyRing := by
  obtain ⟨front, back, ring, exactly⟩ := only
  cases call with
  | enqueue obj =>
      obtain ⟨heap, q, node, run, ring'⟩ := ring.enqueue obj
      have made := RingAt.cqEnqueue_owned exactly run
      refine ⟨{ h with
        store := { heap := heap, q := q }, enqueued := h.enqueued ++ [obj] },
        ?_, _, _, ring', ?_⟩
      · rw [CqHistory.step, CqCall.perform, run]
        rfl
      · apply made.of_members
        · intro a member
          obtain ⟨entry, inside, rfl⟩ := List.mem_map.mp member
          obtain ⟨cell, live, _⟩ := ring'.circle.seg.load inside
          simp [live]
        · exact ring'.circle.nodup
        · simp only [addrs, List.map_append, List.map_cons, List.map_nil,
            List.length_append, List.length_cons, List.length_nil]
          omega
  | dequeue =>
      cases front with
      | nil =>
          refine ⟨h, ?_, [], back, ring, exactly⟩
          rw [CqHistory.step, CqCall.perform, cqDequeue,
            ring.head_none_iff.mpr rfl]
          rfl
      | cons node rest =>
          obtain ⟨q, run, ring'⟩ := ring.dequeue
          refine ⟨{ h with store := { h.store with q := q } }, ?_, _, _, ring', ?_⟩
          · rw [CqHistory.step, CqCall.perform, run]
            rfl
          · rw [turned_append]
            exact exactly.perm
              ((List.perm_append_singleton node (rest ++ back)).map Prod.fst).symm
  | dequeueAndRemove =>
      cases front with
      | nil =>
          refine ⟨h, ?_, [], back, ring, exactly⟩
          rw [CqHistory.step, CqCall.perform, cqDequeueAndRemove,
            ring.head_none_iff.mpr rfl]
          show Except.ok { h with removed := h.removed ++ [] } = _
          rw [List.append_nil]
      | cons node rest =>
          obtain ⟨heap, q, run, ring'⟩ := ring.dequeueAndRemove
          obtain ⟨head, first, _, left⟩ :=
            RingAt.cqDequeueAndRemove_owned exactly run
          have same : node.1 = head := Option.some.inj (ring.head.symm.trans first)
          refine ⟨{ h with
            store := { heap := heap, q := q }
            removed := h.removed ++ [node.2] }, ?_, _, _, ring', ?_⟩
          · rw [CqHistory.step, CqCall.perform, run]
            rfl
          · rw [← same, List.cons_append, addrs, List.map_cons,
              List.erase_cons_head] at left
            rw [shortened_append]
            exact left
  | front =>
      refine ⟨h, ?_, front, back, ring, exactly⟩
      rw [CqHistory.step, CqCall.perform, ring.front_eq]
      rfl

end CqHistory

/-- Whatever calls a queue has seen, wherever its tail has come to lie: `cq_free`
frees every node once, and with those that removals have freed that is every
node that was ever made. -/
theorem cq_free_drains (calls : List (CqCall α)) :
    ∃ last heap', runs CqHistory.step (CqHistory.new α) calls = .ok last ∧
      cqFree last.store.heap (some last.store.q) = .ok heap' ∧
      ∀ a, heap'.load a = none := by
  have start : (CqHistory.new α).OnlyRing :=
    ⟨[], [], circularQueue_ringAt Mem.empty, Exactly.empty⟩
  obtain ⟨last, run, front, back, ring, exactly⟩ :=
    total_of_steps (fun _ call only => CqHistory.OnlyRing.step only call) start
      calls
  have exactly' : Exactly last.store.heap (addrs (front ++ back) ++ []) := by
    rw [List.append_nil]
    exact exactly
  obtain ⟨heap', freed, drained⟩ := ring.cqFree exactly'
  exact ⟨last, heap', run, freed, drained.drained⟩

end OsSim
