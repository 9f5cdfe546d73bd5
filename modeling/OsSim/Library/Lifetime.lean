/-
Module: OsSim.Library.Lifetime
Purpose: Which cells of a pointer memory are live, and programs that release
  whole structures.  Releasing a released cell is a fault, so a program that
  returns has released nothing twice; what is live after it has leaked.
Trusted boundary: none
Main exports:
  Exactly, releaseAll, freeChain, freeSlots, Exactly.malloc, Exactly.update,
  Exactly.release, Exactly.of_release, Exactly.of_members,
  Exactly.releaseAll_eq, Exactly.freeChain_eq, Exactly.freeSlots_eq
-/
import OsSim.Library.DoublyLinked
import Mathlib.Data.List.ReduceOption

namespace PointerMemory

open DoublyLinked

variable {α δ : Type}

/-- The live cells are those at these addresses, each of which is named once. -/
structure Exactly (memory : Mem α) (owned : List Addr) : Prop where
  live : ∀ a, memory.load a ≠ none ↔ a ∈ owned
  nodup : owned.Nodup

/-- Release the cells at these addresses, in this order. -/
def releaseAll : Mem α → List Addr → Except Fault (Mem α)
  | memory, [] => .ok memory
  | memory, a :: rest => do
      let memory ← release memory a
      releaseAll memory rest

/-- Walk along a chain of cells and release each of them once the pointer to the
next one has been read.  The first argument bounds the number of cells. -/
def freeChain (next : α → Option Addr) :
    Nat → Mem α → Option Addr → Except Fault (Mem α)
  | _, memory, none => .ok memory
  | 0, _, some _ => .error .outOfFuel
  | fuel + 1, memory, some current => do
      let cell ← deref memory current
      let memory ← release memory current
      freeChain next fuel memory (next cell)

/-- Release the cells that the pointers in an array lead to. -/
def freeSlots : Mem α → List (Option Addr) → Except Fault (Mem α)
  | memory, [] => .ok memory
  | memory, none :: slots => freeSlots memory slots
  | memory, some a :: slots => do
      let memory ← release memory a
      freeSlots memory slots

namespace Exactly

variable {memory : Mem α} {owned : List Addr}

theorem empty : Exactly (Mem.empty : Mem α) [] where
  live := by simp
  nodup := List.nodup_nil

/-- With no live cell left every address has been released. -/
theorem drained (exactly : Exactly memory []) (a : Addr) :
    memory.load a = none :=
  not_not.mp fun live => List.not_mem_nil ((exactly.live a).mp live)

theorem perm {other : List Addr} (exactly : Exactly memory owned)
    (same : owned.Perm other) : Exactly memory other where
  live := fun a => (exactly.live a).trans same.mem_iff
  nodup := same.nodup_iff.mp exactly.nodup

/-- What is live is the same in a memory that agrees on it. -/
theorem congr {other : Mem α} (exactly : Exactly memory owned)
    (same : ∀ a, other.load a ≠ none ↔ memory.load a ≠ none) :
    Exactly other owned where
  live := fun a => (same a).trans (exactly.live a)
  nodup := exactly.nodup

theorem load {a : Addr} (exactly : Exactly memory owned) (member : a ∈ owned) :
    ∃ cell, memory.load a = some cell :=
  Option.ne_none_iff_exists'.mp ((exactly.live a).mpr member)

theorem malloc (exactly : Exactly memory owned) (cell : α) :
    Exactly (memory.malloc cell).1 ((memory.malloc cell).2 :: owned) where
  live := by
    intro a
    by_cases new : a = (memory.malloc cell).2
    · rw [new, Mem.load_malloc_self]
      simp
    · rw [Mem.load_malloc_of_ne memory cell new, exactly.live a,
        List.mem_cons, or_iff_right new]
  nodup := by
    refine List.nodup_cons.mpr ⟨fun old => ?_, exactly.nodup⟩
    obtain ⟨found, live⟩ := exactly.load old
    exact Mem.ne_malloc_of_live live cell rfl

theorem put {a : Addr} {old : α} (exactly : Exactly memory owned)
    (live : memory.load a = some old) (cell : α) :
    Exactly (memory.put a cell) owned := by
  refine exactly.congr fun other => ?_
  by_cases here : other = a
  · rw [here, Mem.load_put_self live, live]
    simp
  · rw [Mem.load_put_of_ne memory here]

/-- A release takes the address out. -/
theorem release {a : Addr} {rest : List Addr}
    (exactly : Exactly memory (a :: rest)) :
    PointerMemory.release memory a = .ok (memory.drop a) ∧
      Exactly (memory.drop a) rest := by
  obtain ⟨cell, live⟩ := exactly.load (List.mem_cons_self ..)
  obtain ⟨fresh, nodup⟩ := List.nodup_cons.mp exactly.nodup
  refine ⟨release_of_load live, ⟨fun other => ?_, nodup⟩⟩
  by_cases here : other = a
  · rw [here, Mem.load_drop_self]
    simp [fresh]
  · rw [Mem.load_drop_of_ne memory here, exactly.live, List.mem_cons,
      or_iff_right here]

/-- Changing a cell releases nothing and allocates nothing. -/
theorem update {memory' : Mem α} {a : Addr} {f : α → α}
    (exactly : Exactly memory owned)
    (run : PointerMemory.update memory a f = .ok memory') :
    Exactly memory' owned := by
  rw [PointerMemory.update] at run
  cases live : memory.load a with
  | none => simp [live] at run
  | some cell =>
      simp only [live, Except.ok.injEq] at run
      exact run ▸ exactly.put live (f cell)

theorem updatePtr {memory' : Mem α} {pointer : Option Addr} {f : α → α}
    (exactly : Exactly memory owned)
    (run : PointerMemory.updatePtr memory pointer f = .ok memory') :
    Exactly memory' owned := by
  cases pointer with
  | none => cases run
  | some a => exact exactly.update run

/-- A release that returns was one of a live cell. -/
theorem of_release {memory' : Mem α} {a : Addr} (exactly : Exactly memory owned)
    (run : PointerMemory.release memory a = .ok memory') :
    a ∈ owned ∧ Exactly memory' (owned.erase a) := by
  have member : a ∈ owned := by
    refine (exactly.live a).mp fun gone => ?_
    simp [PointerMemory.release, gone] at run
  obtain ⟨released, rest⟩ :=
    (exactly.perm (List.perm_cons_erase member)).release
  rw [released, Except.ok.injEq] at run
  exact ⟨member, run ▸ rest⟩

/-- There are no more live cells than cells. -/
theorem length_le (exactly : Exactly memory owned) :
    owned.length ≤ memory.cells.length := by
  have inside : owned ⊆ List.range memory.cells.length := by
    intro a member
    obtain ⟨cell, live⟩ := exactly.load member
    exact List.mem_range.mpr (Mem.lt_length_of_load live)
  simpa using (List.subperm_of_subset exactly.nodup inside).length_le

/-- As many distinct live cells as there are at all are all of them. -/
theorem of_members {members : List Addr} (exactly : Exactly memory owned)
    (live : ∀ a ∈ members, memory.load a ≠ none) (nodup : members.Nodup)
    (all : owned.length ≤ members.length) : Exactly memory members := by
  have inside : members ⊆ owned := fun a member =>
    (exactly.live a).mp (live a member)
  have same : members.Perm owned :=
    (List.subperm_of_subset nodup inside).perm_of_length_le all
  exact exactly.perm same.symm

/-- Releasing some of the live cells returns and leaves the others. -/
theorem releaseAll_eq {gone kept : List Addr}
    (exactly : Exactly memory (gone ++ kept)) :
    ∃ memory', releaseAll memory gone = .ok memory' ∧ Exactly memory' kept := by
  induction gone generalizing memory with
  | nil => exact ⟨memory, rfl, exactly⟩
  | cons a gone ih =>
      obtain ⟨released, exactly'⟩ := exactly.release
      obtain ⟨memory', run, rest⟩ := ih exactly'
      exact ⟨memory', by rw [releaseAll, released, ok_bind, run], rest⟩

end Exactly

/-- Walking along a segment releases its cells in their order. -/
theorem freeChain_of_seg {links : Links α δ} {memory : Mem α}
    {before : Option Addr} {nodes : List (Addr × δ)}
    (seg : Seg links memory before nodes none) (nodup : (addrs nodes).Nodup)
    {fuel : Nat} (enough : nodes.length ≤ fuel) :
    freeChain links.next fuel memory (firstAddr none nodes) =
      releaseAll memory (addrs nodes) := by
  induction nodes generalizing memory before fuel with
  | nil => cases fuel <;> rfl
  | cons node rest ih =>
      obtain ⟨⟨cell, live, _, _, following⟩, tail⟩ := seg
      obtain ⟨fresh, nodup'⟩ := List.nodup_cons.mp nodup
      cases fuel with
      | zero => simp at enough
      | succ fuel =>
          have shorter : rest.length ≤ fuel := Nat.le_of_succ_le_succ enough
          have tail' := tail.drop_of_not_mem fresh
          rw [firstAddr_cons, freeChain, deref_of_load live, ok_bind,
            addrs, List.map_cons, releaseAll, release_of_load live, ok_bind,
            ok_bind, following, ih tail' nodup' shorter]

/-- The pointers of an array without NULL. -/
theorem reduceOption_map_some {β : Type*} (items : List β) :
    (items.map some).reduceOption = items := by
  rw [List.reduceOption, List.filterMap_map]
  exact List.filterMap_some

/-- Releasing what an array points to releases its pointers in their order. -/
theorem freeSlots_eq (memory : Mem α) (slots : List (Option Addr)) :
    freeSlots memory slots = releaseAll memory slots.reduceOption := by
  induction slots generalizing memory with
  | nil => rfl
  | cons slot slots ih =>
      cases slot with
      | none => rw [freeSlots, List.reduceOption_cons_of_none, ih]
      | some a =>
          rw [freeSlots, List.reduceOption_cons_of_some, releaseAll]
          exact congrArg _ (funext fun memory' => ih memory')

namespace Exactly

variable {memory : Mem α} {kept : List Addr}

/-- A walk along a segment leaves the cells outside it. -/
theorem freeChain_eq {links : Links α δ} {before : Option Addr}
    {nodes : List (Addr × δ)} (exactly : Exactly memory (addrs nodes ++ kept))
    (seg : Seg links memory before nodes none) {fuel : Nat}
    (enough : nodes.length ≤ fuel) :
    ∃ memory', freeChain links.next fuel memory (firstAddr none nodes) =
        .ok memory' ∧ Exactly memory' kept := by
  rw [freeChain_of_seg seg (List.nodup_append.mp exactly.nodup).1 enough]
  exact exactly.releaseAll_eq

/-- Releasing an array of pointers leaves what it does not point to. -/
theorem freeSlots_eq {slots : List (Option Addr)}
    (exactly : Exactly memory (slots.reduceOption ++ kept)) :
    ∃ memory', freeSlots memory slots = .ok memory' ∧ Exactly memory' kept := by
  rw [PointerMemory.freeSlots_eq]
  exact exactly.releaseAll_eq

end Exactly

end PointerMemory
