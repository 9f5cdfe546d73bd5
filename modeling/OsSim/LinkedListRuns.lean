/-
Module: OsSim.LinkedListRuns
Purpose: Sequences of operations on a linked list: when the counter, both
  directions of the links and the order of the nodes agree.
Trusted boundary: human-reviewed translation
Main exports:
  ListOp, ListRun, Consistent, Legal, Changes, Keeps, Supported,
  linkedList_keeps_iff, removeNodeFromFront_counts_below_zero
-/
import OsSim.LinkedList
import OsSim.MachineInt
import OsSim.Library.Trace

namespace OsSim

open PointerMemory
open DoublyLinked
open Trace

variable {α : Type}

/-- What the `int` field `size` holds.  It only goes up and down by one, so it
is the exact count, wrapped around. -/
def LinkedList.intSize (list : LinkedList) : Int := wrap list.size

/-- One operation on a list, or the creation of a node for it. -/
inductive ListOp (α : Type) where
  | create (obj : α)
  | addToBack (node : Addr)
  | addToFront (node : Addr)
  | remove (node : Addr)
  | removeFromFront
  | removeFromBack

/-- A list, and the nodes created for it that were not added to it yet. -/
structure ListRun (α : Type) where
  heap : Mem (Node α)
  list : LinkedList
  fresh : List Addr
deriving Repr, DecidableEq

namespace ListRun

/-- After `create_linked_list`. -/
def start (heap : Mem (Node α)) : ListRun α :=
  { heap := heap, list := createLinkedList, fresh := [] }

/-- Perform one operation. -/
def step (run : ListRun α) : ListOp α → Except Fault (ListRun α)
  | .create obj =>
      .ok { run with
        heap := (createNode run.heap obj).1
        fresh := (createNode run.heap obj).2 :: run.fresh }
  | .addToBack node => do
      let (heap, list) ← addNodeToBack run.heap run.list node
      pure { heap := heap, list := list, fresh := run.fresh.erase node }
  | .addToFront node => do
      let (heap, list) ← addNodeToFront run.heap run.list node
      pure { heap := heap, list := list, fresh := run.fresh.erase node }
  | .remove node => do
      let (heap, list) ← removeNode run.heap run.list node
      pure { run with heap := heap, list := list }
  | .removeFromFront => do
      let (heap, list) ← removeNodeFromFront run.heap run.list
      pure { run with heap := heap, list := list }
  | .removeFromBack => do
      let (heap, list) ← removeNodeFromBack run.heap run.list
      pure { run with heap := heap, list := list }

/-- The nodes from `head` on by `next`. -/
def forward (run : ListRun α) : Except Fault (List (Addr × α)) :=
  follow (nodeLinks α) run.heap run.heap.cells.length run.list.head

/-- The nodes from `tail` on by `prev`. -/
def backward (run : ListRun α) : Except Fault (List (Addr × α)) :=
  follow (nodeLinks α).flip run.heap run.heap.cells.length run.list.tail

/-- The fields and links of the list say in every way that these are its nodes. -/
structure Consistent (run : ListRun α) (nodes : List (Addr × α)) : Prop where
  forward : run.forward = .ok nodes
  backward : run.backward = .ok nodes.reverse
  size : run.list.intSize = nodes.length
  ends : run.list.head = none ↔ run.list.tail = none
  empty : run.list.head = none ↔ run.list.intSize = 0

/-- Created nodes are added once, and only members are removed by address. -/
def Legal (run : ListRun α) : ListOp α → Prop
  | .addToBack node => node ∈ run.fresh
  | .addToFront node => node ∈ run.fresh
  | .remove node => ∃ nodes, run.forward = .ok nodes ∧ node ∈ addrs nodes
  | _ => True

/-- What the name of an operation says about the nodes before and after it. -/
def Changes (run next : ListRun α) (before after : List (Addr × α)) :
    ListOp α → Prop
  | .create _ => after = before
  | .addToBack node =>
      ∃ cell, run.heap.load node = some cell ∧
        after = before ++ [(node, cell.data)]
  | .addToFront node =>
      ∃ cell, run.heap.load node = some cell ∧
        after = (node, cell.data) :: before
  | .remove node =>
      ∃ left obj right, before = left ++ (node, obj) :: right ∧
        after = left ++ right
  | .removeFromFront =>
      after = before.tail ∧ (before = [] → next.list = run.list)
  | .removeFromBack =>
      after = before.dropLast ∧ (before = [] → next.list = run.list)

/-- The operation returns, does what its name says, and finds and leaves a
consistent list. -/
def Keeps (run : ListRun α) (op : ListOp α) : Prop :=
  ∃ before next after, run.Consistent before ∧ run.step op = .ok next ∧
    next.Consistent after ∧ Changes run next before after op

/-- Nothing is removed from an end of an empty list, and nothing is added when
`size` is the greatest `int`. -/
def Supported (run : ListRun α) : ListOp α → Prop
  | .addToBack _ => run.list.intSize ≠ 2 ^ 31 - 1
  | .addToFront _ => run.list.intSize ≠ 2 ^ 31 - 1
  | .removeFromFront => run.list.head ≠ none
  | .removeFromBack => run.list.head ≠ none
  | _ => True

/-! ### Nodes that wait to be added -/

/-- The nodes created but not added are untouched and outside the list. -/
structure Pool (heap : Mem (Node α)) (nodes : List (Addr × α))
    (fresh : List Addr) : Prop where
  unlinked : ∀ node ∈ fresh, ∃ obj, Unlinked heap node obj
  outside : ∀ node ∈ fresh, node ∉ addrs nodes
  nodup : fresh.Nodup

namespace Pool

variable {heap heap' : Mem (Node α)} {nodes after : List (Addr × α)}
  {fresh : List Addr}

/-- What is not written and not added stays in the pool. -/
theorem frame (pool : Pool heap nodes fresh) {fresh' : List Addr}
    (fewer : fresh'.Sublist fresh)
    (outside : ∀ node ∈ fresh', node ∉ addrs after)
    (kept : ∀ node ∈ fresh', heap'.load node = heap.load node) :
    Pool heap' after fresh' where
  unlinked := by
    intro node member
    obtain ⟨obj, unlinked⟩ := pool.unlinked node (fewer.subset member)
    exact ⟨obj, (kept node member).trans unlinked⟩
  outside := outside
  nodup := pool.nodup.sublist fewer

/-- A node that is added leaves the pool. -/
theorem added (pool : Pool heap nodes fresh) {node : Addr}
    (members : ∀ address, address ∈ addrs after ↔
      address = node ∨ address ∈ addrs nodes)
    (kept : ∀ address ∉ addrs after, heap'.load address = heap.load address) :
    Pool heap' after (fresh.erase node) := by
  have outside : ∀ other ∈ fresh.erase node, other ∉ addrs after := by
    intro other member inside
    obtain ⟨different, old⟩ := pool.nodup.mem_erase_iff.mp member
    rcases (members other).mp inside with same | listed
    · exact different same
    · exact pool.outside other old listed
  exact pool.frame List.erase_sublist outside
    fun other member => kept other (outside other member)

/-- A removal leaves the pool as it is. -/
theorem removed (pool : Pool heap nodes fresh)
    (fewer : addrs after ⊆ addrs nodes)
    (kept : ∀ address ∉ addrs nodes, heap'.load address = heap.load address) :
    Pool heap' after fresh :=
  pool.frame (List.Sublist.refl fresh)
    (fun node member inside => pool.outside node member (fewer inside))
    fun node member => kept node (pool.outside node member)

end Pool

/-! ### What one operation does

All four operations keep the links right, for the addresses they are given belong
to nodes.  `size` is counted beside them: a removal from an end counts down even
where there is no node to remove, and an insertion counts up past the greatest
`int`.  Either is visible in the list it leaves, so the operations that keep a list
are exactly the supported ones.
-/

/-- The pointers represent these nodes, and no node of the pool is among them. -/
structure Stands (run : ListRun α) (nodes : List (Addr × α)) : Prop where
  listAt : ListAt run.heap run.list nodes
  pool : Pool run.heap nodes run.fresh

theorem stands_start (heap : Mem (Node α)) : (start heap).Stands [] where
  listAt := createLinkedList_listAt heap
  pool := ⟨fun _ member => absurd member List.not_mem_nil,
    fun _ member => absurd member List.not_mem_nil, List.nodup_nil⟩

namespace Stands

variable {run : ListRun α} {nodes : List (Addr × α)}

theorem forward_eq (stands : run.Stands nodes) : run.forward = .ok nodes := by
  rw [forward, stands.listAt.head]
  exact stands.listAt.linked.follow_eq (Nat.le_refl _)

theorem backward_eq (stands : run.Stands nodes) :
    run.backward = .ok nodes.reverse := by
  rw [backward, stands.listAt.tail]
  exact stands.listAt.linked.follow_flip_eq (Nat.le_refl _)

theorem head_eq_none (stands : run.Stands nodes) :
    run.list.head = none ↔ nodes = [] := by
  rw [stands.listAt.head]
  cases nodes <;> simp

theorem tail_eq_none (stands : run.Stands nodes) :
    run.list.tail = none ↔ nodes = [] := by
  rw [stands.listAt.tail, ← firstAddr_reverse]
  cases split : nodes.reverse with
  | nil => simpa using split
  | cons last rest =>
      have nonempty : nodes ≠ [] := by
        rintro rfl
        cases split
      simp [nonempty]

/-- As long as an `int` can count the nodes, the list is consistent. -/
theorem consistent (stands : run.Stands nodes) (short : nodes.length < 2 ^ 31) :
    run.Consistent nodes := by
  have size : run.list.intSize = nodes.length := by
    rw [LinkedList.intSize, stands.listAt.size]
    exact wrap_of_inRange ⟨by omega, by omega⟩
  refine ⟨stands.forward_eq, stands.backward_eq, size, ?_, ?_⟩
  · rw [stands.head_eq_none, stands.tail_eq_none]
  · rw [stands.head_eq_none, size, Int.natCast_eq_zero, List.length_eq_zero_iff]

/-- A consistent list has no more nodes than an `int` can count. -/
theorem short_of_consistent (stands : run.Stands nodes)
    {nodes' : List (Addr × α)} (consistent : run.Consistent nodes') :
    nodes' = nodes ∧ nodes.length < 2 ^ 31 := by
  have same : nodes' = nodes := by
    have both := consistent.forward.symm.trans stands.forward_eq
    rwa [Except.ok.injEq] at both
  refine ⟨same, ?_⟩
  have counted := consistent.size
  rw [LinkedList.intSize, same] at counted
  have bound := (inRange_wrap run.list.size).2
  omega

theorem create (stands : run.Stands nodes) (obj : α) :
    ∃ next, run.step (.create obj) = .ok next ∧ next.Stands nodes := by
  obtain ⟨unlinked, outside, listAt⟩ := createNode_unlinked stands.listAt obj
  refine ⟨_, rfl, listAt, ?_, ?_, List.nodup_cons.mpr ⟨?_, stands.pool.nodup⟩⟩
  · intro node member
    rcases List.mem_cons.mp member with new | old
    · exact ⟨obj, new ▸ unlinked⟩
    · obtain ⟨other, live⟩ := stands.pool.unlinked node old
      exact ⟨other, Mem.load_malloc_of_live live _⟩
  · intro node member
    rcases List.mem_cons.mp member with new | old
    · exact new ▸ outside
    · exact stands.pool.outside node old
  · intro old
    obtain ⟨other, live⟩ := stands.pool.unlinked _ old
    exact Mem.ne_malloc_of_live live _ rfl

theorem addToBack (stands : run.Stands nodes) {node : Addr}
    (member : node ∈ run.fresh) :
    ∃ next after, run.step (.addToBack node) = .ok next ∧ next.Stands after ∧
      run.Changes next nodes after (.addToBack node) := by
  obtain ⟨obj, unlinked⟩ := stands.pool.unlinked node member
  obtain ⟨heap, list, added, listAt, kept⟩ := addNodeToBack_of_unlinked
    stands.listAt unlinked (stands.pool.outside node member)
  refine ⟨_, _, by rw [step, added]; rfl, ⟨listAt, ?_⟩, _, unlinked, rfl⟩
  apply stands.pool.added _ kept
  intro address
  simp [or_comm]

theorem addToFront (stands : run.Stands nodes) {node : Addr}
    (member : node ∈ run.fresh) :
    ∃ next after, run.step (.addToFront node) = .ok next ∧ next.Stands after ∧
      run.Changes next nodes after (.addToFront node) := by
  obtain ⟨obj, unlinked⟩ := stands.pool.unlinked node member
  obtain ⟨heap, list, added, listAt, kept⟩ := addNodeToFront_of_unlinked
    stands.listAt unlinked (stands.pool.outside node member)
  refine ⟨_, _, by rw [step, added]; rfl, ⟨listAt, ?_⟩, _, unlinked, rfl⟩
  apply stands.pool.added _ kept
  intro address
  simp

theorem remove (stands : run.Stands nodes) {node : Addr}
    (member : node ∈ addrs nodes) :
    ∃ next after, run.step (.remove node) = .ok next ∧ next.Stands after ∧
      run.Changes next nodes after (.remove node) := by
  obtain ⟨entry, inside, rfl⟩ := List.mem_map.mp member
  obtain ⟨left, right, split⟩ := List.append_of_mem inside
  subst split
  obtain ⟨heap, list, removed, listAt, kept⟩ := removeNode_frame stands.listAt
  refine ⟨_, _, by rw [step, removed]; rfl, ⟨listAt, ?_⟩, left, entry.2, right,
    rfl, rfl⟩
  have fewer : addrs (left ++ right) ⊆ addrs (left ++ entry :: right) :=
    ((List.sublist_cons_self _ right).append_left left).map Prod.fst |>.subset
  apply stands.pool.removed fewer
  intro other outside
  apply kept other fun inside => outside (fewer inside)
  rintro rfl
  exact outside (by simp)

theorem removeFromFront {node : Addr × α} {right : List (Addr × α)}
    (stands : run.Stands (node :: right)) :
    ∃ next, run.step .removeFromFront = .ok next ∧ next.Stands right := by
  obtain ⟨heap, list, removed, listAt, kept⟩ :=
    removeNodeFromFront_spec stands.listAt
  refine ⟨_, by rw [step, removed]; rfl, listAt, ?_⟩
  apply stands.pool.removed (List.subset_cons_self _ _)
  intro address outside
  exact kept address fun inside => outside (List.mem_cons_of_mem _ inside)

theorem removeFromBack {node : Addr × α} {left : List (Addr × α)}
    (stands : run.Stands (left ++ [node])) :
    ∃ next, run.step .removeFromBack = .ok next ∧ next.Stands left := by
  obtain ⟨heap, list, removed, listAt, kept⟩ :=
    removeNodeFromBack_spec stands.listAt
  have fewer : addrs left ⊆ addrs (left ++ [node]) :=
    ((List.sublist_append_left left [node]).map Prod.fst).subset
  refine ⟨_, by rw [step, removed]; rfl, listAt, ?_⟩
  apply stands.pool.removed fewer
  intro address outside
  exact kept address fun inside => outside (fewer inside)

/-- Every legal operation does what its name says, except for a removal from an
end of an empty list. -/
theorem effect (stands : run.Stands nodes) {op : ListOp α}
    (legal : run.Legal op)
    (nonempty : op = .removeFromFront ∨ op = .removeFromBack → nodes ≠ []) :
    ∃ next after, run.step op = .ok next ∧ next.Stands after ∧
      run.Changes next nodes after op := by
  cases op with
  | create obj =>
      obtain ⟨next, stepped, kept⟩ := stands.create obj
      exact ⟨next, nodes, stepped, kept, rfl⟩
  | addToBack node => exact stands.addToBack legal
  | addToFront node => exact stands.addToFront legal
  | remove node =>
      obtain ⟨members, read, member⟩ := legal
      rw [stands.forward_eq, Except.ok.injEq] at read
      exact stands.remove (read ▸ member)
  | removeFromFront =>
      obtain ⟨node, right, rfl⟩ :=
        List.exists_cons_of_ne_nil (nonempty (Or.inl rfl))
      obtain ⟨next, stepped, kept⟩ := stands.removeFromFront
      exact ⟨next, right, stepped, kept, rfl,
        fun empty => absurd empty (List.cons_ne_nil _ _)⟩
  | removeFromBack =>
      obtain ⟨left, node, split⟩ :=
        (List.eq_nil_or_concat nodes).resolve_left (nonempty (Or.inr rfl))
      rw [List.concat_eq_append] at split
      subst split
      obtain ⟨next, stepped, kept⟩ := stands.removeFromBack
      exact ⟨next, left, stepped, kept, List.dropLast_concat.symm,
        fun empty => absurd empty (by simp)⟩

/-- A removal from an end of an empty list counts it down. -/
theorem step_of_empty (stands : run.Stands []) {op : ListOp α}
    (removes : op = .removeFromFront ∨ op = .removeFromBack) :
    run.step op =
      .ok { run with list := { run.list with size := run.list.size - 1 } } := by
  have head := stands.head_eq_none.mpr rfl
  rcases removes with front | back
  · subst front
    rw [step, removeNodeFromFront_of_empty run.heap head]
    rfl
  · subst back
    rw [step, removeNodeFromBack_of_empty run.heap head]
    rfl

end Stands

/-- A list whose nodes an `int` can count. -/
def Sound (run : ListRun α) : Prop :=
  ∃ nodes, run.Stands nodes ∧ nodes.length < 2 ^ 31

theorem sound_start (heap : Mem (Node α)) : (start heap).Sound :=
  ⟨[], stands_start heap, by simp⟩

/-- A supported operation leaves no more nodes than an `int` can count. -/
theorem Stands.length_lt {run next : ListRun α} {before after : List (Addr × α)}
    (stands : run.Stands before) (short : before.length < 2 ^ 31)
    {op : ListOp α} (supported : run.Supported op)
    (changes : run.Changes next before after op) : after.length < 2 ^ 31 := by
  have counted := (stands.consistent short).size
  cases op with
  | create obj => exact changes ▸ short
  | addToBack node =>
      obtain ⟨cell, _, rfl⟩ := changes
      have room : run.list.intSize ≠ 2 ^ 31 - 1 := supported
      rw [List.length_append, List.length_singleton]
      omega
  | addToFront node =>
      obtain ⟨cell, _, rfl⟩ := changes
      have room : run.list.intSize ≠ 2 ^ 31 - 1 := supported
      rw [List.length_cons]
      omega
  | remove node =>
      obtain ⟨left, obj, right, rfl, rfl⟩ := changes
      rw [List.length_append, List.length_cons] at short
      rw [List.length_append]
      omega
  | removeFromFront =>
      rw [changes.1, List.length_tail]
      omega
  | removeFromBack =>
      rw [changes.1, List.length_dropLast]
      omega

/-- A supported operation keeps the list. -/
theorem Sound.keeps {run : ListRun α} (sound : run.Sound) {op : ListOp α}
    (legal : run.Legal op) (supported : run.Supported op) :
    ∃ next, run.step op = .ok next ∧ next.Sound ∧ run.Keeps op := by
  obtain ⟨nodes, stands, short⟩ := sound
  have nonempty : op = .removeFromFront ∨ op = .removeFromBack →
      nodes ≠ [] := by
    rintro (rfl | rfl)
    · exact fun empty => supported (stands.head_eq_none.mpr empty)
    · exact fun empty => supported (stands.head_eq_none.mpr empty)
  obtain ⟨next, after, stepped, kept, changes⟩ := stands.effect legal nonempty
  have short' := stands.length_lt short supported changes
  exact ⟨next, stepped, ⟨after, kept, short'⟩, nodes, next, after,
    stands.consistent short, stepped, kept.consistent short', changes⟩

/-- An operation that keeps the list does not remove from an empty one. -/
theorem Stands.nonempty_of_keeps {run : ListRun α} {nodes : List (Addr × α)}
    (stands : run.Stands nodes) {op : ListOp α}
    (removes : op = .removeFromFront ∨ op = .removeFromBack)
    (keeps : run.Keeps op) : run.list.head ≠ none := by
  intro empty
  obtain ⟨before, next, after, found, stepped, _, changes⟩ := keeps
  obtain rfl := (stands.short_of_consistent found).1
  obtain rfl := stands.head_eq_none.mp empty
  rw [stands.step_of_empty removes, Except.ok.injEq] at stepped
  have unchanged : next.list = run.list := by
    rcases removes with rfl | rfl
    · exact changes.2 rfl
    · exact changes.2 rfl
  rw [← stepped] at unchanged
  have counted : run.list.size - 1 = run.list.size :=
    congrArg LinkedList.size unchanged
  omega

/-- An operation that keeps the list does not add to one whose nodes an `int`
can just count. -/
theorem Stands.room_of_keeps {run next : ListRun α}
    {nodes after : List (Addr × α)} (stands : run.Stands nodes)
    (short : nodes.length < 2 ^ 31) {op : ListOp α}
    (stepped : run.step op = .ok next) (kept : next.Stands after)
    (longer : after.length = nodes.length + 1) (keeps : run.Keeps op) :
    run.list.intSize ≠ 2 ^ 31 - 1 := by
  obtain ⟨_, next', _, _, stepped', found, _⟩ := keeps
  rw [stepped, Except.ok.injEq] at stepped'
  have bound := (kept.short_of_consistent (stepped' ▸ found)).2
  have counted := (stands.consistent short).size
  omega

/-- On a sound list the operations that keep it are the supported ones. -/
theorem Sound.supported_iff {run : ListRun α} (sound : run.Sound)
    {op : ListOp α} (legal : run.Legal op) :
    run.Supported op ↔ run.Keeps op := by
  constructor
  · intro supported
    obtain ⟨_, _, _, keeps⟩ := sound.keeps legal supported
    exact keeps
  · intro keeps
    obtain ⟨nodes, stands, short⟩ := sound
    cases op with
    | create obj => trivial
    | addToBack node =>
        obtain ⟨next, after, stepped, kept, cell, _, rfl⟩ :=
          stands.addToBack legal
        exact stands.room_of_keeps short stepped kept (by simp) keeps
    | addToFront node =>
        obtain ⟨next, after, stepped, kept, cell, _, rfl⟩ :=
          stands.addToFront legal
        exact stands.room_of_keeps short stepped kept (by simp) keeps
    | remove node => trivial
    | removeFromFront => exact stands.nonempty_of_keeps (Or.inl rfl) keeps
    | removeFromBack => exact stands.nonempty_of_keeps (Or.inr rfl) keeps

end ListRun

/-- Along a run of legal operations the list is kept, in its counter, in both
directions of its links and in the order of its nodes, exactly when nothing is
removed from an end of an empty list and `size` does not pass the greatest
`int`. -/
theorem linkedList_keeps_iff (heap : Mem (Node α)) (ops : List (ListOp α))
    (legal : Along ListRun.step ListRun.Legal (ListRun.start heap) ops) :
    Along ListRun.step ListRun.Keeps (ListRun.start heap) ops ↔
      Along ListRun.step ListRun.Supported (ListRun.start heap) ops := by
  symm
  apply along_congr_of_allowed (P := ListRun.Sound) _ _
    (ListRun.sound_start heap) legal
  · intro run op next sound legal supported stepped
    obtain ⟨next', stepped', kept, _⟩ := sound.keeps legal supported
    rw [stepped, Except.ok.injEq] at stepped'
    exact stepped' ▸ kept
  · intro run op sound legal
    exact sound.supported_iff legal

/-- Nodes added at both ends, and removed by address and from both ends. -/
theorem linkedList_keeps_iff_two :
    let ops : List (ListOp Nat) :=
      [.create 10, .create 20, .addToBack 1, .addToFront 0, .remove 1,
        .removeFromBack]
    Along ListRun.step ListRun.Keeps (ListRun.start Mem.empty) ops ↔
      Along ListRun.step ListRun.Supported (ListRun.start Mem.empty) ops := by
  intro ops
  apply linkedList_keeps_iff
  let allows : ListRun Nat → ListOp Nat → Bool := fun run op => match op with
    | .addToBack node => run.fresh.contains node
    | .addToFront node => run.fresh.contains node
    | .remove node => match run.forward with
        | .ok nodes => (addrs nodes).contains node
        | .error _ => false
    | _ => true
  have allowed : Along ListRun.step (fun run op => allows run op = true)
      (ListRun.start Mem.empty) ops := by
    decide +kernel
  apply allowed.mono
  intro run op permits
  cases op with
  | addToBack node => exact List.contains_iff_mem.mp permits
  | addToFront node => exact List.contains_iff_mem.mp permits
  | remove node =>
      cases read : run.forward with
      | error fault => simp [allows, read] at permits
      | ok nodes =>
          simp only [allows, read] at permits
          exact ⟨nodes, read, List.contains_iff_mem.mp permits⟩
  | create obj => trivial
  | removeFromFront => trivial
  | removeFromBack => trivial

/-- A removal from the front of a new list leaves `size` below zero. -/
theorem removeNodeFromFront_counts_below_zero :
    ¬ ∀ (heap : Mem (Node Nat)) (ops : List (ListOp Nat)),
      Along ListRun.step ListRun.Legal (ListRun.start heap) ops →
      Along ListRun.step ListRun.Keeps (ListRun.start heap) ops := by
  intro always
  have keeps := always Mem.empty [.removeFromFront]
    (along_cons.mpr ⟨trivial, fun _ _ => trivial⟩)
  exact (ListRun.stands_start Mem.empty).nonempty_of_keeps (Or.inl rfl)
    (along_cons.mp keeps).1 rfl

end OsSim
