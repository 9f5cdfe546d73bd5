/-
Module: OsSim.Library.Ring
Purpose: Doubly linked cells closed in a circle: rotation, insertion after a
  cell, removal of a cell, cutting it open, and where the links of its cells
  lead.
Trusted boundary: none
Main exports:
  Circle, Circle.rotate, Circle.insertLast, Circle.insertAfter,
  Circle.removeFirst, goRound, nextOf, prevOf, advance, Circle.successor,
  Circle.predecessor, Circle.advance_eq, Circle.cut
-/
import OsSim.Library.DoublyLinked

namespace DoublyLinked

open PointerMemory

variable {α δ : Type}

/-- A segment whose last cell leads to its first one and back, with pairwise
distinct cells. -/
structure Circle (links : Links α δ) (memory : Mem α)
    (nodes : List (Addr × δ)) : Prop where
  seg : Seg links memory (lastAddr none nodes) nodes (firstAddr none nodes)
  nodup : (addrs nodes).Nodup

/-- Read a number of cells off a circle by following the `next` links. -/
def goRound (links : Links α δ) (memory : Mem α) :
    Nat → Option Addr → Except Fault (List (Addr × δ))
  | 0, _ => .ok []
  | _ + 1, none => .error .nullPointer
  | count + 1, some address => do
      let cell ← deref memory address
      let rest ← goRound links memory count (links.next cell)
      pure ((address, links.data cell) :: rest)

/-- Where the `next` link of a live cell leads. -/
def nextOf (links : Links α δ) (memory : Mem α) (address : Addr) : Option Addr :=
  (memory.load address).bind links.next

/-- Where the `prev` link of a live cell leads. -/
def prevOf (links : Links α δ) (memory : Mem α) (address : Addr) : Option Addr :=
  (memory.load address).bind links.prev

/-- Follow the `next` links a number of times. -/
def advance (links : Links α δ) (memory : Mem α) :
    Nat → Option Addr → Option Addr
  | 0, address => address
  | count + 1, address =>
      advance links memory count (address.bind (nextOf links memory))

variable {links : Links α δ} {memory : Mem α} {nodes : List (Addr × δ)}

/-- Where a nonempty segment ends does not depend on what comes before it. -/
theorem lastAddr_irrel (before other : Option Addr) (nonempty : nodes ≠ []) :
    lastAddr before nodes = lastAddr other nodes := by
  rw [lastAddr_eq_getLast before nonempty, lastAddr_eq_getLast other nonempty]

/-- Where a nonempty segment starts does not depend on what follows it. -/
theorem firstAddr_irrel (after other : Option Addr) (nonempty : nodes ≠ []) :
    firstAddr after nodes = firstAddr other nodes := by
  cases nodes with
  | nil => exact absurd rfl nonempty
  | cons node rest => rfl

/-- Following the links of a segment as often as it is long reads it off. -/
theorem Seg.goRound_eq {before after : Option Addr}
    (seg : Seg links memory before nodes after) :
    goRound links memory nodes.length (firstAddr after nodes) = .ok nodes := by
  induction nodes generalizing before with
  | nil => rfl
  | cons node rest ih =>
      obtain ⟨⟨cell, live, payload, _, following⟩, tail⟩ := seg
      rw [List.length_cons, firstAddr_cons, goRound, deref_of_load live, ok_bind,
        following, ih tail, ok_bind, pure_eq_ok, payload]

/-- Following the links of a segment as often as it is long leads past it. -/
theorem Seg.advance_eq {before after : Option Addr}
    (seg : Seg links memory before nodes after) :
    advance links memory nodes.length (firstAddr after nodes) = after := by
  induction nodes generalizing before with
  | nil => rfl
  | cons node rest ih =>
      obtain ⟨⟨cell, live, _, _, following⟩, tail⟩ := seg
      rw [List.length_cons, firstAddr_cons, advance, Option.bind_some, nextOf, live,
        Option.bind_some, following]
      exact ih tail

namespace Circle

theorem empty : Circle links memory [] := ⟨trivial, List.nodup_nil⟩

/-- Going round a circle once reads it off. -/
theorem goRound_eq (circle : Circle links memory nodes) :
    goRound links memory nodes.length (firstAddr none nodes) = .ok nodes := by
  have start : firstAddr none nodes = firstAddr (firstAddr none nodes) nodes := by
    cases nodes <;> rfl
  rw [start]
  exact circle.seg.goRound_eq

/-- A circle may be read from any of its cells on. -/
theorem rotate {left right : List (Addr × δ)}
    (circle : Circle links memory (left ++ right)) :
    Circle links memory (right ++ left) := by
  have nodup : (addrs (right ++ left)).Nodup := by
    have swapped := circle.nodup
    rw [addrs, List.map_append] at swapped ⊢
    exact List.nodup_append_comm.mp swapped
  by_cases leftEmpty : left = []
  · subst leftEmpty
    rw [List.append_nil]
    exact circle
  · by_cases rightEmpty : right = []
    · subst rightEmpty
      rw [List.append_nil] at circle
      exact circle
    · refine ⟨seg_append.mpr ⟨?_, ?_⟩, nodup⟩
      · have second := (seg_append.mp circle.seg).2
        rw [lastAddr_irrel _ none leftEmpty, firstAddr_append,
          firstAddr_irrel _ none leftEmpty] at second
        rw [lastAddr_append, lastAddr_irrel _ none leftEmpty, firstAddr_append,
          firstAddr_irrel _ none leftEmpty]
        exact second
      · have first := (seg_append.mp circle.seg).1
        rw [lastAddr_append, lastAddr_irrel _ none rightEmpty,
          firstAddr_irrel _ none rightEmpty] at first
        rw [lastAddr_irrel _ none rightEmpty, firstAddr_append,
          firstAddr_irrel _ none rightEmpty]
        exact first

/-- A circle may be read from its second cell on. -/
theorem rotate_first {node : Addr × δ} {rest : List (Addr × δ)}
    (circle : Circle links memory (node :: rest)) :
    Circle links memory (rest ++ [node]) := by
  have split : Circle links memory ([node] ++ rest) := circle
  exact split.rotate

/-- Following the links of a circle as often as it is long leads back to its
start. -/
theorem advance_eq (circle : Circle links memory nodes) :
    advance links memory nodes.length (firstAddr none nodes) =
      firstAddr none nodes := by
  have start : firstAddr none nodes = firstAddr (firstAddr none nodes) nodes := by
    cases nodes <;> rfl
  rw [start, circle.seg.advance_eq, ← start]

/-- The first cell of a circle leads forward to the next one, and back to the
last. -/
theorem first_cell {node : Addr × δ} {rest : List (Addr × δ)}
    (circle : Circle links memory (node :: rest)) :
    ∃ cell, memory.load node.1 = some cell ∧ links.data cell = node.2 ∧
      links.next cell = firstAddr none (rest ++ [node]) ∧
      links.prev cell = lastAddr none (node :: rest) := by
  obtain ⟨⟨cell, live, data, prev, next⟩, _⟩ := circle.seg
  refine ⟨cell, live, data, ?_, prev⟩
  rw [next, firstAddr_append none rest]
  rfl

theorem first_links {node : Addr × δ} {rest : List (Addr × δ)}
    (circle : Circle links memory (node :: rest)) :
    nextOf links memory node.1 = firstAddr none (rest ++ [node]) ∧
      prevOf links memory node.1 = lastAddr none (node :: rest) := by
  obtain ⟨cell, live, _, next, prev⟩ := circle.first_cell
  rw [nextOf, prevOf, live]
  exact ⟨next, prev⟩

/-- The circle read from one of its cells on. -/
theorem from_member (circle : Circle links memory nodes) {address : Addr}
    (member : address ∈ addrs nodes) :
    ∃ node rest, node.1 = address ∧ (∀ other, other ∈ addrs (node :: rest) ↔
      other ∈ addrs nodes) ∧ Circle links memory (node :: rest) := by
  obtain ⟨node, inside, same⟩ := List.mem_map.mp member
  obtain ⟨left, right, split⟩ := List.append_of_mem inside
  subst split
  refine ⟨node, right ++ left, same, ?_, circle.rotate⟩
  intro other
  simp only [addrs, List.map_append, List.map_cons, List.mem_append,
    List.mem_cons]
  tauto

/-- The `next` link of a cell leads to a cell whose `prev` link leads back. -/
theorem successor (circle : Circle links memory nodes) {address : Addr}
    (member : address ∈ addrs nodes) :
    ∃ other ∈ addrs nodes, nextOf links memory address = some other ∧
      prevOf links memory other = some address := by
  obtain ⟨node, rest, rfl, same, turned⟩ := circle.from_member member
  have next := turned.first_links.1
  have circle' : Circle links memory (rest ++ [node]) :=
    rotate_first turned
  cases split : rest ++ [node] with
  | nil => simp at split
  | cons second others =>
      rw [split] at next circle'
      refine ⟨second.1, ?_, next, ?_⟩
      · rw [← same]
        have inside : second ∈ rest ++ [node] := split ▸ List.mem_cons_self
        exact List.mem_map_of_mem (by simpa [or_comm] using inside)
      · rw [circle'.first_links.2, ← split, lastAddr_append_singleton]

/-- The `prev` link of a cell leads to a cell whose `next` link leads back. -/
theorem predecessor (circle : Circle links memory nodes) {address : Addr}
    (member : address ∈ addrs nodes) :
    ∃ other ∈ addrs nodes, prevOf links memory address = some other ∧
      nextOf links memory other = some address := by
  obtain ⟨node, rest, rfl, same, turned⟩ := circle.from_member member
  have prev := turned.first_links.2
  obtain ⟨front, last, split⟩ := List.eq_nil_or_concat (node :: rest)
    |>.resolve_left (List.cons_ne_nil node rest)
  rw [List.concat_eq_append] at split
  rw [split, lastAddr_append_singleton] at prev
  rw [split] at turned
  have circle' : Circle links memory (last :: front) := turned.rotate
  refine ⟨last.1, ?_, prev, ?_⟩
  · rw [← same, split]
    exact List.mem_map_of_mem (by simp)
  · rw [circle'.first_links.1, ← split]
    rfl

/-- Making the first and the last cell of a circle point at a new cell between
them inserts that cell at the end. -/
theorem insertLast {front : List (Addr × δ)} {last new : Addr × δ}
    (circle : Circle links memory (front ++ [last]))
    (fresh : new.1 ∉ addrs (front ++ [last])) {cell : α}
    (live : memory.load new.1 = some cell) (data : links.data cell = new.2)
    (prev : links.prev cell = some last.1)
    (next : links.next cell = firstAddr none (front ++ [last])) {f g : α → α}
    (fNext : ∀ cell, links.next (f cell) = links.next cell)
    (fData : ∀ cell, links.data (f cell) = links.data cell)
    (fPrev : ∀ cell, links.prev (f cell) = some new.1)
    (gPrev : ∀ cell, links.prev (g cell) = links.prev cell)
    (gData : ∀ cell, links.data (g cell) = links.data cell)
    (gNext : ∀ cell, links.next (g cell) = some new.1) :
    ∃ middle final,
      updateIfPtr memory (firstAddr none (front ++ [last])) f = .ok middle ∧
      updateIfPtr middle (some last.1) g = .ok final ∧
      Circle links final (front ++ [last] ++ [new]) := by
  obtain ⟨middle, first, seg, keptFirst, _⟩ :=
    circle.seg.relink circle.nodup fNext fData fPrev
  obtain ⟨final, second, seg', keptSecond, _⟩ :=
    seg.relinkNext circle.nodup gPrev gData gNext
  rw [lastAddr_append_singleton] at second
  have loaded : final.load new.1 = some cell := by
    rw [keptSecond _ fresh, keptFirst _ fresh, live]
  refine ⟨middle, final, first, second, ⟨seg_append.mpr ⟨?_, ?_, trivial⟩, ?_⟩⟩
  · rw [lastAddr_append_singleton]
    exact seg'
  · rw [lastAddr_append_singleton]
    refine ⟨cell, loaded, data, prev, ?_⟩
    rw [next, firstAddr_nil, firstAddr_append none (front ++ [last]),
      firstAddr_irrel none _ (by simp)]
  · rw [addrs, List.map_append, List.nodup_append]
    refine ⟨circle.nodup, List.nodup_singleton _, ?_⟩
    intro address inside other only same
    rw [List.map_singleton, List.mem_singleton] at only
    rw [same, only] at inside
    exact fresh inside

/-- The same insertion after any cell of the circle. -/
theorem insertAfter {left right : List (Addr × δ)} {node : Addr × δ}
    (circle : Circle links memory (left ++ node :: right)) (new : Addr × δ)
    (fresh : new.1 ∉ addrs (left ++ node :: right)) {cell : α}
    (live : memory.load new.1 = some cell) (data : links.data cell = new.2)
    (prev : links.prev cell = some node.1) {f g : α → α}
    (next : links.next cell =
      firstAddr (firstAddr none (left ++ node :: right)) right)
    (fNext : ∀ cell, links.next (f cell) = links.next cell)
    (fData : ∀ cell, links.data (f cell) = links.data cell)
    (fPrev : ∀ cell, links.prev (f cell) = some new.1)
    (gPrev : ∀ cell, links.prev (g cell) = links.prev cell)
    (gData : ∀ cell, links.data (g cell) = links.data cell)
    (gNext : ∀ cell, links.next (g cell) = some new.1) :
    ∃ middle final, updateIfPtr memory (links.next cell) f = .ok middle ∧
      updateIfPtr middle (some node.1) g = .ok final ∧
      Circle links final (left ++ node :: new :: right) := by
  -- Turned so that `node` is the last cell, the insertion is at the end.
  have regroup : left ++ node :: right = (left ++ [node]) ++ right := by simp
  have start : firstAddr (firstAddr none (left ++ node :: right)) right =
      firstAddr none (right ++ left ++ [node]) := by
    rw [List.append_assoc, firstAddr_append none right,
      firstAddr_append none left, firstAddr_append none left]
    cases left <;> rfl
  rw [regroup] at circle
  have turned := circle.rotate
  rw [← List.append_assoc] at turned
  have fresh' : new.1 ∉ addrs (right ++ left ++ [node]) := by
    simp only [addrs, List.map_append, List.map_cons, List.map_nil,
      List.mem_append, List.mem_cons, List.not_mem_nil, or_false,
      not_or] at fresh ⊢
    exact ⟨⟨fresh.2.2, fresh.1⟩, fresh.2.1⟩
  obtain ⟨middle, final, first, second, circle'⟩ :=
    turned.insertLast fresh' live data prev (next.trans start) fNext fData fPrev
      gPrev gData gNext
  refine ⟨middle, final, ?_, second, ?_⟩
  · rw [next, start]
    exact first
  · have back : right ++ left ++ [node] ++ [new] =
        right ++ (left ++ [node, new]) := by simp
    rw [back] at circle'
    have result := circle'.rotate
    simpa using result

/-- Making the neighbours of the first cell point past it takes it out of the
circle.  The cell itself keeps its contents. -/
theorem removeFirst {node : Addr × δ} {rest : List (Addr × δ)}
    (circle : Circle links memory (node :: rest)) (more : rest ≠ [])
    {f g : α → α}
    (fPrev : ∀ cell, links.prev (f cell) = links.prev cell)
    (fData : ∀ cell, links.data (f cell) = links.data cell)
    (fNext : ∀ cell, links.next (f cell) = firstAddr none rest)
    (gNext : ∀ cell, links.next (g cell) = links.next cell)
    (gData : ∀ cell, links.data (g cell) = links.data cell)
    (gPrev : ∀ cell, links.prev (g cell) = lastAddr none rest) :
    ∃ cell middle final, memory.load node.1 = some cell ∧
      links.data cell = node.2 ∧ links.prev cell = lastAddr none rest ∧
      links.next cell = firstAddr none rest ∧
      updateIfPtr memory (lastAddr none rest) f = .ok middle ∧
      updateIfPtr middle (firstAddr none rest) g = .ok final ∧
      Circle links final rest ∧
      middle.load node.1 = some cell ∧ final.load node.1 = some cell := by
  obtain ⟨outside, nodup⟩ := List.nodup_cons.mp circle.nodup
  obtain ⟨⟨cell, live, data, prev, next⟩, seg⟩ := circle.seg
  obtain ⟨middle, first, seg', keptFirst, _⟩ :=
    seg.relinkNext nodup fPrev fData fNext
  obtain ⟨final, second, seg'', keptSecond, _⟩ :=
    seg'.relink nodup gNext gData gPrev
  rw [lastAddr_cons, lastAddr_irrel _ none more] at prev
  rw [firstAddr_irrel _ none more] at next
  refine ⟨cell, middle, final, live, data, prev, next, first, second,
    ⟨seg'', nodup⟩, ?_, ?_⟩
  · rw [keptFirst _ outside, live]
  · rw [keptSecond _ outside, keptFirst _ outside, live]

/-- Clearing the link behind the last cell leaves a chain of all the cells, from
the one that it led to. -/
theorem cut {front : List (Addr × δ)} {last : Addr × δ}
    (circle : Circle links memory (front ++ [last])) {f : α → α}
    (fPrev : ∀ cell, links.prev (f cell) = links.prev cell)
    (fData : ∀ cell, links.data (f cell) = links.data cell)
    (fNext : ∀ cell, links.next (f cell) = none) :
    ∃ cell opened, memory.load last.1 = some cell ∧
      links.next cell = firstAddr none (front ++ [last]) ∧
      update memory last.1 f = .ok opened ∧
      Seg links opened (some last.1) (front ++ [last]) none := by
  obtain ⟨_, ⟨cell, live, _, _, next⟩, _⟩ := seg_append.mp circle.seg
  obtain ⟨opened, run, seg, _, _⟩ :=
    circle.seg.relinkNext circle.nodup fPrev fData fNext
  rw [lastAddr_append_singleton] at run seg
  exact ⟨cell, opened, live, next, run, seg⟩

end Circle

end DoublyLinked
