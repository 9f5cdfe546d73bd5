/-
Module: OsSim.Library.DoublyLinked
Purpose: Segments of doubly linked cells in a pointer memory, and what the
  usual pointer updates do to them.
Trusted boundary: none
Main exports:
  Links, Links.flip, Seg, seg_append, Seg.frame, Seg.setPrev, Seg.setNext,
  Seg.relink, Seg.relinkNext, Seg.flip, Linked, Linked.unlink, follow,
  Linked.follow_flip_eq
-/
import OsSim.Library.PointerMemory
import Mathlib.Data.List.NodupEquivFin

namespace DoublyLinked

open PointerMemory

variable {α δ : Type}

/-- Where a cell type keeps its two links and its payload. -/
structure Links (α δ : Type) where
  next : α → Option Addr
  prev : α → Option Addr
  data : α → δ

/-- The same cells with the two links in each other's place. -/
def Links.flip (links : Links α δ) : Links α δ :=
  { next := links.prev, prev := links.next, data := links.data }

/-- The address a segment starts at, or `after` when it is empty. -/
def firstAddr (after : Option Addr) : List (Addr × δ) → Option Addr
  | [] => after
  | node :: _ => some node.1

/-- The address a segment ends at, or `before` when it is empty. -/
def lastAddr (before : Option Addr) : List (Addr × δ) → Option Addr
  | [] => before
  | node :: rest => lastAddr (some node.1) rest

/-- The addresses of a segment. -/
abbrev addrs (nodes : List (Addr × δ)) : List Addr := nodes.map Prod.fst

/-- One node between its two neighbours. -/
def NodeAt (links : Links α δ) (memory : Mem α) (before : Option Addr)
    (node : Addr × δ) (after : Option Addr) : Prop :=
  ∃ cell, memory.load node.1 = some cell ∧ links.data cell = node.2 ∧
    links.prev cell = before ∧ links.next cell = after

/-- The nodes are live cells whose `next` links lead from each to the following
one and the last to `after`, and whose `prev` links lead back, the first to
`before`. -/
def Seg (links : Links α δ) (memory : Mem α) :
    Option Addr → List (Addr × δ) → Option Addr → Prop
  | _, [], _ => True
  | before, node :: rest, after =>
      NodeAt links memory before node (firstAddr after rest) ∧
        Seg links memory (some node.1) rest after

/-- A NULL-terminated list: a segment without neighbours whose cells are
pairwise distinct. -/
structure Linked (links : Links α δ) (memory : Mem α)
    (nodes : List (Addr × δ)) : Prop where
  seg : Seg links memory none nodes none
  nodup : (addrs nodes).Nodup

/-- Read a list off by following the `next` links until NULL.  The first
argument bounds the number of cells visited. -/
def follow (links : Links α δ) (memory : Mem α) :
    Nat → Option Addr → Except Fault (List (Addr × δ))
  | _, none => .ok []
  | 0, some _ => .error .outOfFuel
  | fuel + 1, some address => do
      let cell ← deref memory address
      let rest ← follow links memory fuel (links.next cell)
      pure ((address, links.data cell) :: rest)

section

variable {links : Links α δ} {memory : Mem α}

@[simp] theorem firstAddr_nil (after : Option Addr) :
    firstAddr after ([] : List (Addr × δ)) = after := rfl

@[simp] theorem firstAddr_cons (after : Option Addr) (node : Addr × δ)
    (rest : List (Addr × δ)) :
    firstAddr after (node :: rest) = some node.1 := rfl

@[simp] theorem lastAddr_nil (before : Option Addr) :
    lastAddr before ([] : List (Addr × δ)) = before := rfl

@[simp] theorem lastAddr_cons (before : Option Addr) (node : Addr × δ)
    (rest : List (Addr × δ)) :
    lastAddr before (node :: rest) = lastAddr (some node.1) rest := rfl

theorem firstAddr_append (after : Option Addr) (left right : List (Addr × δ)) :
    firstAddr after (left ++ right) =
      firstAddr (firstAddr after right) left := by
  cases left <;> rfl

theorem lastAddr_append (before : Option Addr) (left right : List (Addr × δ)) :
    lastAddr before (left ++ right) =
      lastAddr (lastAddr before left) right := by
  induction left generalizing before with
  | nil => rfl
  | cons node rest ih => exact ih (some node.1)

@[simp] theorem lastAddr_append_singleton (before : Option Addr)
    (left : List (Addr × δ)) (node : Addr × δ) :
    lastAddr before (left ++ [node]) = some node.1 := by
  rw [lastAddr_append]
  rfl

/-- The last address of a segment is that of its last node. -/
theorem lastAddr_eq_getLast (before : Option Addr) {nodes : List (Addr × δ)}
    (nonempty : nodes ≠ []) :
    lastAddr before nodes = some (nodes.getLast nonempty).1 := by
  obtain ⟨front, last, split⟩ :=
    List.eq_nil_or_concat nodes |>.resolve_left nonempty
  subst split
  simp

/-- The last address of a nonempty segment is one of its addresses. -/
theorem lastAddr_mem (before : Option Addr) {nodes : List (Addr × δ)}
    (nonempty : nodes ≠ []) :
    ∃ address ∈ addrs nodes, lastAddr before nodes = some address :=
  ⟨_, List.mem_map_of_mem (List.getLast_mem nonempty),
    lastAddr_eq_getLast before nonempty⟩

@[simp] theorem seg_nil (before after : Option Addr) :
    Seg links memory before [] after := trivial

@[simp] theorem seg_cons {before after : Option Addr} {node : Addr × δ}
    {rest : List (Addr × δ)} :
    Seg links memory before (node :: rest) after ↔
      NodeAt links memory before node (firstAddr after rest) ∧
        Seg links memory (some node.1) rest after := Iff.rfl

/-- A segment splits at every position into two that point at each other. -/
theorem seg_append {before after : Option Addr}
    {left right : List (Addr × δ)} :
    Seg links memory before (left ++ right) after ↔
      Seg links memory before left (firstAddr after right) ∧
        Seg links memory (lastAddr before left) right after := by
  induction left generalizing before with
  | nil => simp
  | cons node rest ih =>
      rw [List.cons_append, seg_cons, seg_cons, ih, lastAddr_cons,
        firstAddr_append, and_assoc]

theorem firstAddr_reverse (after : Option Addr) (nodes : List (Addr × δ)) :
    firstAddr after nodes.reverse = lastAddr after nodes := by
  induction nodes generalizing after with
  | nil => rfl
  | cons node rest ih =>
      rw [List.reverse_cons, firstAddr_append, ih]
      rfl

theorem lastAddr_reverse (before : Option Addr) (nodes : List (Addr × δ)) :
    lastAddr before nodes.reverse = firstAddr before nodes := by
  rw [← firstAddr_reverse, List.reverse_reverse]

/-- Read from its end, a segment is one of the flipped links. -/
theorem Seg.flip {before after : Option Addr} {nodes : List (Addr × δ)}
    (seg : Seg links memory before nodes after) :
    Seg links.flip memory after nodes.reverse before := by
  induction nodes generalizing before with
  | nil => trivial
  | cons node rest ih =>
      obtain ⟨⟨cell, live, payload, preceding, following⟩, tail⟩ := seg
      rw [List.reverse_cons, seg_append, lastAddr_reverse]
      exact ⟨ih tail, ⟨cell, live, payload, following, preceding⟩, trivial⟩

/-- Every node of a segment is a live cell with the node's payload. -/
theorem Seg.load {before after : Option Addr} {nodes : List (Addr × δ)}
    (seg : Seg links memory before nodes after) {node : Addr × δ}
    (member : node ∈ nodes) :
    ∃ cell, memory.load node.1 = some cell ∧ links.data cell = node.2 := by
  induction nodes generalizing before with
  | nil => simp at member
  | cons head rest ih =>
      rw [seg_cons] at seg
      rcases List.mem_cons.mp member with current | later
      · subst current
        obtain ⟨cell, live, payload, _⟩ := seg.1
        exact ⟨cell, live, payload⟩
      · exact ih seg.2 later

/-- A segment depends on its own cells only. -/
theorem Seg.frame {other : Mem α} {before after : Option Addr}
    {nodes : List (Addr × δ)}
    (same : ∀ address ∈ addrs nodes,
      other.load address = memory.load address)
    (seg : Seg links memory before nodes after) :
    Seg links other before nodes after := by
  induction nodes generalizing before with
  | nil => trivial
  | cons node rest ih =>
      rw [seg_cons] at seg ⊢
      obtain ⟨⟨cell, live, shape⟩, tail⟩ := seg
      refine ⟨⟨cell, ?_, shape⟩, ih (fun address member => ?_) tail⟩
      · rw [same node.1 (by simp), live]
      · exact same address (List.mem_cons_of_mem _ member)

/-- Overwriting a cell outside a segment leaves the segment alone. -/
theorem Seg.put_of_not_mem {before after : Option Addr}
    {nodes : List (Addr × δ)} {address : Addr}
    (outside : address ∉ addrs nodes) (cell : α)
    (seg : Seg links memory before nodes after) :
    Seg links (memory.put address cell) before nodes after :=
  seg.frame fun inside member =>
    Mem.load_put_of_ne memory
      (fun same : inside = address => outside (same ▸ member)) cell

/-- Releasing a cell outside a segment leaves the segment alone. -/
theorem Seg.drop_of_not_mem {before after : Option Addr}
    {nodes : List (Addr × δ)} {address : Addr}
    (outside : address ∉ addrs nodes)
    (seg : Seg links memory before nodes after) :
    Seg links (memory.drop address) before nodes after :=
  seg.frame fun inside member =>
    Mem.load_drop_of_ne memory
      (fun same : inside = address => outside (same ▸ member))

/-- An allocation leaves every segment alone. -/
theorem Seg.malloc {before after : Option Addr} {nodes : List (Addr × δ)}
    (seg : Seg links memory before nodes after) (cell : α) :
    Seg links (memory.malloc cell).1 before nodes after := by
  refine seg.frame fun address member => ?_
  obtain ⟨node, inside, same⟩ := List.mem_map.mp member
  obtain ⟨old, live, _⟩ := seg.load inside
  rw [← same, live, Mem.load_malloc_of_live live]

/-- The `prev` link of the first cell decides what a segment starts from. -/
theorem Seg.setPrev {before : Option Addr} {after : Option Addr}
    {node : Addr × δ} {rest : List (Addr × δ)}
    (seg : Seg links memory before (node :: rest) after)
    (fresh : node.1 ∉ addrs rest) {cell old : α}
    (live : memory.load node.1 = some old)
    (next : links.next cell = links.next old)
    (data : links.data cell = links.data old) :
    Seg links (memory.put node.1 cell) (links.prev cell) (node :: rest)
      after := by
  rw [seg_cons] at seg ⊢
  obtain ⟨⟨found, loaded, payload, _, following⟩, tail⟩ := seg
  rw [live, Option.some.injEq] at loaded
  subst found
  exact ⟨⟨cell, Mem.load_put_self live cell, data.trans payload, rfl,
    next.trans following⟩, tail.put_of_not_mem fresh cell⟩

/-- The `next` link of the last cell decides where a segment leads. -/
theorem Seg.setNext {before : Option Addr} {after : Option Addr}
    {node : Addr × δ} {front : List (Addr × δ)}
    (seg : Seg links memory before (front ++ [node]) after)
    (fresh : node.1 ∉ addrs front) {cell old : α}
    (live : memory.load node.1 = some old)
    (prev : links.prev cell = links.prev old)
    (data : links.data cell = links.data old) :
    Seg links (memory.put node.1 cell) before (front ++ [node])
      (links.next cell) := by
  rw [seg_append] at seg ⊢
  obtain ⟨left, ⟨found, loaded, payload, preceding, _⟩, _⟩ := seg
  rw [live, Option.some.injEq] at loaded
  subst found
  exact ⟨left.put_of_not_mem fresh cell,
    ⟨cell, Mem.load_put_self live cell, data.trans payload,
      prev.trans preceding, rfl⟩, trivial⟩

/-- The update `if (p != NULL) p->prev = target` on the cell that follows makes
the rest of the list start from `target`. -/
theorem Seg.relink {before after : Option Addr} {nodes : List (Addr × δ)}
    (seg : Seg links memory before nodes after) (nodup : (addrs nodes).Nodup)
    {f : α → α} {target : Option Addr}
    (next : ∀ cell, links.next (f cell) = links.next cell)
    (data : ∀ cell, links.data (f cell) = links.data cell)
    (prev : ∀ cell, links.prev (f cell) = target) :
    ∃ other, updateIfPtr memory (firstAddr none nodes) f = .ok other ∧
      Seg links other target nodes after ∧
      (∀ address ∉ addrs nodes, other.load address = memory.load address) ∧
      other.cells.length = memory.cells.length := by
  cases nodes with
  | nil => exact ⟨memory, rfl, trivial, fun _ _ => rfl, rfl⟩
  | cons node rest =>
      obtain ⟨cell, live, _⟩ := seg.load (List.mem_cons_self ..)
      have fresh : node.1 ∉ addrs rest := (List.nodup_cons.mp nodup).1
      refine ⟨memory.put node.1 (f cell), update_of_load live f, ?_, ?_,
        Mem.length_put ..⟩
      · rw [← prev cell]
        exact seg.setPrev fresh live (next cell) (data cell)
      · intro address outside
        apply Mem.load_put_of_ne
        intro same
        exact outside (by simp [same])

/-- The update `if (p != NULL) p->next = target` on the cell before makes the
list up to there lead to `target`. -/
theorem Seg.relinkNext {before after : Option Addr} {nodes : List (Addr × δ)}
    (seg : Seg links memory before nodes after) (nodup : (addrs nodes).Nodup)
    {f : α → α} {target : Option Addr}
    (prev : ∀ cell, links.prev (f cell) = links.prev cell)
    (data : ∀ cell, links.data (f cell) = links.data cell)
    (next : ∀ cell, links.next (f cell) = target) :
    ∃ other, updateIfPtr memory (lastAddr none nodes) f = .ok other ∧
      Seg links other before nodes target ∧
      (∀ address ∉ addrs nodes, other.load address = memory.load address) ∧
      other.cells.length = memory.cells.length := by
  rcases List.eq_nil_or_concat nodes with empty | ⟨front, last, split⟩
  · subst empty
    exact ⟨memory, rfl, trivial, fun _ _ => rfl, rfl⟩
  · rw [List.concat_eq_append] at split
    subst split
    obtain ⟨cell, live, _⟩ := seg.load
      (show last ∈ front ++ [last] by simp)
    have fresh : last.1 ∉ addrs front := by
      rw [addrs, List.map_append, List.map_singleton] at nodup
      intro member
      exact (List.nodup_append.mp nodup).2.2 _ member _ (by simp) rfl
    refine ⟨memory.put last.1 (f cell), ?_, ?_, ?_, Mem.length_put ..⟩
    · rw [lastAddr_append_singleton]
      exact update_of_load live f
    · rw [← next cell]
      exact seg.setNext fresh live (prev cell) (data cell)
    · intro address outside
      apply Mem.load_put_of_ne
      intro same
      exact outside (by simp [same])

/-- Following the links of a NULL-terminated segment reads it off. -/
theorem Seg.follow_eq {before : Option Addr} {nodes : List (Addr × δ)}
    (seg : Seg links memory before nodes none) {fuel : Nat}
    (enough : nodes.length ≤ fuel) :
    follow links memory fuel (firstAddr none nodes) = .ok nodes := by
  induction nodes generalizing before fuel with
  | nil => cases fuel <;> rfl
  | cons node rest ih =>
      obtain ⟨⟨cell, live, payload, _, following⟩, tail⟩ := seg
      cases fuel with
      | zero => simp at enough
      | succ fuel =>
          have shorter : rest.length ≤ fuel := Nat.le_of_succ_le_succ enough
          rw [firstAddr_cons, follow, deref_of_load live, ok_bind, following,
            ih tail shorter, ok_bind, pure_eq_ok, payload]

namespace Linked

variable {nodes : List (Addr × δ)}

/-- A list has no more nodes than the memory has cells. -/
theorem length_le (linked : Linked links memory nodes) :
    nodes.length ≤ memory.cells.length := by
  have inside : addrs nodes ⊆ List.range memory.cells.length := by
    intro address member
    obtain ⟨node, nodeMember, same⟩ := List.mem_map.mp member
    obtain ⟨cell, live, _⟩ := linked.seg.load nodeMember
    exact List.mem_range.mpr (same ▸ Mem.lt_length_of_load live)
  have bound := (List.subperm_of_subset linked.nodup inside).length_le
  simpa using bound

theorem follow_eq (linked : Linked links memory nodes) {fuel : Nat}
    (enough : memory.cells.length ≤ fuel) :
    follow links memory fuel (firstAddr none nodes) = .ok nodes :=
  linked.seg.follow_eq (Nat.le_trans linked.length_le enough)

theorem flip (linked : Linked links memory nodes) :
    Linked links.flip memory nodes.reverse where
  seg := linked.seg.flip
  nodup := by
    rw [addrs, List.map_reverse, List.nodup_reverse]
    exact linked.nodup

/-- Following the `prev` links from the last node reads the list backwards. -/
theorem follow_flip_eq (linked : Linked links memory nodes) {fuel : Nat}
    (enough : memory.cells.length ≤ fuel) :
    follow links.flip memory fuel (lastAddr none nodes) = .ok nodes.reverse := by
  rw [← firstAddr_reverse]
  exact linked.flip.follow_eq enough

/-- A memory holds at most one list at each head. -/
theorem unique {other : List (Addr × δ)}
    (linked : Linked links memory nodes)
    (otherLinked : Linked links memory other)
    (head : firstAddr none nodes = firstAddr none other) : nodes = other := by
  have one := linked.follow_eq (Nat.le_refl _)
  have two := otherLinked.follow_eq (Nat.le_refl _)
  rw [head, two, Except.ok.injEq] at one
  exact one.symm

/-- Distinct positions of a list hold distinct addresses. -/
theorem nodup_middle {left right : List (Addr × δ)} {node : Addr × δ}
    (linked : Linked links memory (left ++ node :: right)) :
    node.1 ∉ addrs left ∧ node.1 ∉ addrs right ∧
      ∀ address ∈ addrs left, address ∉ addrs right := by
  have nodup := linked.nodup
  rw [addrs, List.map_append, List.map_cons, List.nodup_append,
    List.nodup_cons] at nodup
  obtain ⟨_, ⟨fresh, _⟩, apart⟩ := nodup
  refine ⟨?_, fresh, ?_⟩
  · intro member
    exact apart _ member _ (by simp) rfl
  · intro address inLeft inRight
    exact apart _ inLeft _ (List.mem_cons_of_mem _ inRight) rfl

/-- Making the neighbours of a node point past it takes it out of the list.  No
cell outside the rest of the list changes, that of the node included. -/
theorem unlink {left right : List (Addr × δ)} {node : Addr × δ}
    (linked : Linked links memory (left ++ node :: right)) {f g : α → α}
    (fPrev : ∀ cell, links.prev (f cell) = links.prev cell)
    (fData : ∀ cell, links.data (f cell) = links.data cell)
    (fNext : ∀ cell, links.next (f cell) = firstAddr none right)
    (gNext : ∀ cell, links.next (g cell) = links.next cell)
    (gData : ∀ cell, links.data (g cell) = links.data cell)
    (gPrev : ∀ cell, links.prev (g cell) = lastAddr none left) :
    ∃ middle last, updateIfPtr memory (lastAddr none left) f = .ok middle ∧
      updateIfPtr middle (firstAddr none right) g = .ok last ∧
      Linked links last (left ++ right) ∧
      (∀ address ∉ addrs left, middle.load address = memory.load address) ∧
      ∀ address ∉ addrs (left ++ right),
        last.load address = memory.load address := by
  obtain ⟨notLeft, notRight, apart⟩ := linked.nodup_middle
  have nodup := linked.nodup
  rw [addrs, List.map_append, List.map_cons, List.nodup_append,
    List.nodup_cons] at nodup
  obtain ⟨leftNodup, ⟨_, rightNodup⟩, _⟩ := nodup
  obtain ⟨leftSeg, _, rightSeg⟩ := seg_append.mp linked.seg
  obtain ⟨middle, first, leftSeg', keptLeft, _⟩ :=
    leftSeg.relinkNext leftNodup fPrev fData fNext
  have rightSeg' : Seg links middle (some node.1) right none :=
    rightSeg.frame fun address member =>
      keptLeft address fun inLeft => apart address inLeft member
  obtain ⟨last, second, rightSeg'', keptRight, _⟩ :=
    rightSeg'.relink rightNodup gNext gData gPrev
  refine ⟨middle, last, first, second, ⟨?_, ?_⟩, keptLeft, ?_⟩
  · refine seg_append.mpr ⟨leftSeg'.frame ?_, rightSeg''⟩
    intro address member
    exact keptRight address fun inRight => apart address member inRight
  · have sublist : (addrs (left ++ right)).Sublist
        (addrs (left ++ node :: right)) :=
      ((List.sublist_cons_self node right).append_left left).map Prod.fst
    exact linked.nodup.sublist sublist
  · intro address outside
    rw [addrs, List.map_append, List.mem_append, not_or] at outside
    rw [keptRight _ outside.2, keptLeft _ outside.1]

end Linked

end

end DoublyLinked
