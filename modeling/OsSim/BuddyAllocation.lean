/-
Module: OsSim.BuddyAllocation
Purpose: When `allocate_memory` finds a block, and what an allocation and a
  deallocation leave alone.
Trusted boundary: none
Main exports:
  LeastPower, FreeRegion, Untouched, allocation_complete, live_blocks_untouched
-/
import OsSim.MemoryLedger

namespace OsSim

open PointerMemory
open DoublyLinked
open Tiling
open Dyadic
open Trace

/-- The least power of two that is not below a size. -/
def LeastPower (size : Int) (power : Nat) : Prop :=
  (∃ k, power = 2 ^ k) ∧ size ≤ power ∧
    ∀ k, size ≤ (2 ^ k : Nat) → power ≤ 2 ^ k

/-- `[k * power, (k + 1) * power)` lies in the memory and meets no allocated
block. -/
def FreeRegion (nodes : List (Addr × Tile)) (power k : Nat) : Prop :=
  k * power + power ≤ maxSize ∧
    ∀ node ∈ nodes, node.2.allocated ≠ 0 →
      ¬ tileShape.Meets node.2 (k * power) power

/-- The node is in the list, and its cell has not been released or changed. -/
def Untouched (heap : Mem Block) (nodes : List (Addr × Tile)) (node : Addr × Tile) :
    Prop :=
  node ∈ nodes ∧ (heap.load node.1).map Block.tile = some node.2

theorem leastPower_of_order {size : Int} {order : Nat}
    (fits : size ≤ (2 ^ order : Nat))
    (tight : ((2 ^ order / 2 : Nat) : Int) < size) :
    LeastPower size (2 ^ order) := by
  refine ⟨⟨order, rfl⟩, fits, ?_⟩
  intro k enough
  exact Nat.pow_le_pow_right (by decide) (order_le tight enough)

namespace LeastPower

variable {size : Int} {power : Nat}

theorem exists_of_pos (positive : 1 ≤ size) :
    ∃ power, LeastPower size power := by
  obtain ⟨order, _, fits, tight⟩ := log2Ceil_spec positive
  exact ⟨2 ^ order, leastPower_of_order fits tight⟩

/-- The multiples of the power start dyadic blocks of that size. -/
theorem aligned (least : LeastPower size power) (k : Nat) :
    Aligned (k * power) power :=
  ⟨least.1, Nat.dvd_mul_left power k⟩

end LeastPower

namespace BuddyInvariant

variable {state : BuddyHeap} {nodes : List (Addr × Tile)} {size : Int}
  {power : Nat}

/-- A free block and an allocated one have no byte in common. -/
theorem free_apart (invariant : BuddyInvariant state nodes)
    {one other : Addr × Tile} (first : one ∈ nodes) (second : other ∈ nodes)
    (free : one.2.allocated = 0) (used : other.2.allocated ≠ 0) :
    ¬ tileShape.Meets other.2 one.2.start one.2.size := by
  rintro ⟨below, above⟩
  have same : other.2 = one.2 :=
    eq_of_meets invariant.buddied.covered (List.mem_map_of_mem second)
      (List.mem_map_of_mem first) below above
  exact used (same ▸ free)

/-- A free region lies in one free block, since free buddies have been
merged. -/
theorem exists_free_of_region (invariant : BuddyInvariant state nodes)
    (least : LeastPower size power) {k : Nat}
    (region : FreeRegion nodes power k) :
    ∃ node ∈ nodes, node.2.allocated = 0 ∧ size ≤ node.2.size := by
  obtain ⟨inside, unused⟩ := region
  have free : ∀ tile ∈ tiles nodes, tileShape.Meets tile (k * power) power →
      tileShape.free tile := by
    intro tile member meets
    obtain ⟨node, inList, rfl⟩ := List.mem_map.mp member
    by_contra used
    exact unused node inList used meets
  obtain ⟨tile, member, isFree, above, below⟩ :=
    invariant.buddied.exists_free_cover (least.aligned k) (Nat.zero_le _)
      inside free
  obtain ⟨node, inList, rfl⟩ := List.mem_map.mp member
  refine ⟨node, inList, isFree, ?_⟩
  have large : power ≤ node.2.size := by
    simp only [Shape.stop, tileShape] at above below
    omega
  have enough := least.2.1
  omega

/-- The first bytes of a free block that is large enough are a free region. -/
theorem region_of_free (invariant : BuddyInvariant state nodes)
    (least : LeastPower size power) {node : Addr × Tile} (member : node ∈ nodes)
    (free : node.2.allocated = 0) (fits : size ≤ node.2.size) :
    ∃ k, FreeRegion nodes power k := by
  have inTiles : node.2 ∈ tiles nodes := List.mem_map_of_mem member
  have aligned := invariant.buddied.aligned node.2 inTiles
  obtain ⟨order, sizeEq⟩ : ∃ order, node.2.size = 2 ^ order := aligned.order
  have large : power ≤ node.2.size := by
    rw [sizeEq]
    exact least.2.2 order (sizeEq ▸ fits)
  have divides : power ∣ node.2.start :=
    ((least.aligned 0).size_dvd aligned large).trans aligned.dvd
  obtain ⟨k, start⟩ := divides
  have bounds : node.2.start + node.2.size ≤ maxSize :=
    (tiles_bounds invariant.buddied.covered inTiles).2
  have position : k * power = node.2.start := by rw [start, Nat.mul_comm]
  refine ⟨k, by omega, ?_⟩
  intro other inList used meets
  apply invariant.free_apart member inList free used
  obtain ⟨below, above⟩ := meets
  rw [position] at below above
  exact ⟨by omega, above⟩

end BuddyInvariant

/-! ### Allocation is complete -/

/-- In a reachable state `allocate_memory` returns NULL exactly when no aligned
region of the least sufficient power of two is free; then nothing changes. -/
theorem allocation_complete (state : BuddyHeap) (reachable : state.Reachable)
    (size : Int) (positive : 1 ≤ size) :
    ∃ nodes power heap found, state.blocks = .ok nodes ∧
      LeastPower size power ∧
      allocateMemory state.heap state.memory size = .ok (heap, found) ∧
      (found = none ↔ ¬ ∃ k, FreeRegion nodes power k) ∧
      (found = none → heap = state.heap) := by
  obtain ⟨nodes, invariant⟩ := reachable.invariant
  obtain ⟨power, least⟩ := LeastPower.exists_of_pos positive
  rcases allocateMemory_spec invariant positive with
    ⟨run, none⟩ | ⟨left, node, right, heap', order, halves, split, first, run, _⟩
  · refine ⟨nodes, power, state.heap, Option.none, invariant.blocks_eq, least,
      run, ?_, fun _ => rfl⟩
    refine iff_of_true rfl ?_
    rintro ⟨k, region⟩
    obtain ⟨node, member, free, fits⟩ :=
      invariant.exists_free_of_region least region
    exact none node member free fits
  · refine ⟨nodes, power, heap', some node.1, invariant.blocks_eq, least, run,
      ?_, ?_⟩
    · refine iff_of_false (Option.some_ne_none _) ?_
      intro absent
      exact absent (invariant.region_of_free least (by simp [split]) first.free
        first.fits)
    · intro missing
      exact absurd missing (Option.some_ne_none _)

/-- A request for 600 bytes after one for 513: no region of 1024 bytes is
free. -/
theorem allocation_complete_sample :
    ∃ state : BuddyHeap, state.Reachable ∧
      (∃ nodes power heap found, state.blocks = .ok nodes ∧
        LeastPower 600 power ∧
        allocateMemory state.heap state.memory 600 = .ok (heap, found) ∧
        (found = none ↔ ¬ ∃ k, FreeRegion nodes power k) ∧
        (found = none → heap = state.heap)) := by
  obtain ⟨state, run⟩ : ∃ state, runs BuddyHeap.call BuddyHeap.init
      [.allocate 513] = .ok state := ⟨_, rfl⟩
  have reachable : state.Reachable :=
    ⟨[.allocate 513], by decide +kernel, run⟩
  exact ⟨state, reachable,
    allocation_complete state reachable 600 (by decide)⟩

/-! ### Live blocks are untouched -/

namespace BuddyInvariant

variable {state next : BuddyHeap} {nodes nodes' : List (Addr × Tile)}

theorem kept (invariant : BuddyInvariant state nodes) {node : Addr × Tile}
    (member : node ∈ nodes) : Untouched state.heap nodes node := by
  obtain ⟨cell, loaded, payload⟩ := invariant.blocks.load member
  exact ⟨member, by rw [loaded, Option.map_some, payload]⟩

/-- What an allocation returns: a block that was free, shrunk to the least
sufficient power of two, and apart from the live blocks, which are kept. -/
theorem allocate_kept (invariant : BuddyInvariant state nodes) {size : Int}
    (positive : 1 ≤ size) {heap : Mem Block} {block : Addr}
    (run : allocateMemory state.heap state.memory size = .ok (heap, some block)) :
    ∃ after old tile,
      BuddyInvariant { state with heap := heap } after ∧
      (∀ node ∈ nodes, node.2.allocated ≠ 0 → Untouched heap after node) ∧
      (block, old) ∈ nodes ∧ old.allocated = 0 ∧
      Untouched heap after (block, tile) ∧ tile.allocated = size ∧
      LeastPower size tile.size ∧
      (∀ node ∈ after, node.2.allocated ≠ 0 → node.1 ≠ block →
        ¬ tileShape.Meets node.2 tile.start tile.size) := by
  rcases allocateMemory_spec invariant positive with
    ⟨failed, _⟩ | ⟨left, node, right, heap', order, halves, split, first, run',
      fits, tight, fresh, invariant'⟩
  · rw [failed] at run
    simp at run
  · rw [run'] at run
    simp only [Except.ok.injEq, Prod.mk.injEq, Option.some.injEq] at run
    obtain ⟨rfl, rfl⟩ := run
    have inNodes : node ∈ nodes := by simp [split]
    -- The live nodes are in the unchanged parts of the list.
    have sides : ∀ other ∈ nodes, other.2.allocated ≠ 0 →
        other ∈ left ∨ other ∈ right := by
      intro other member used
      rw [split] at member
      rcases List.mem_append.mp member with inLeft | inRest
      · exact Or.inl inLeft
      · rcases List.mem_cons.mp inRest with same | inRight
        · exact absurd first.free (same ▸ used)
        · exact Or.inr inRight
    have least := leastPower_of_order fits tight
    let tile : Tile :=
      { start := node.2.start, size := 2 ^ order, allocated := size }
    refine ⟨left ++ (node.1, tile) :: (halves ++ right), node.2, tile,
      invariant', ?_, inNodes, first.free,
      invariant'.kept (List.mem_append_right _ List.mem_cons_self), rfl, least,
      ?_⟩
    · intro other member used
      rcases sides other member used with inLeft | inRight
      · exact invariant'.kept (by simp [inLeft])
      · exact invariant'.kept (by simp [inRight])
    · intro other member used apart meets
      have old : other ∈ nodes := by
        rw [split]
        rcases List.mem_append.mp member with inLeft | inRest
        · simp [inLeft]
        · rcases List.mem_cons.mp inRest with same | inTail
          · exact absurd (congrArg Prod.fst same) apart
          · rcases List.mem_append.mp inTail with inHalves | inRight
            · exact absurd (fresh other inHalves).1 used
            · simp [inRight]
      obtain ⟨k, sizeEq⟩ : ∃ k, node.2.size = 2 ^ k :=
        (invariant.buddied.aligned node.2 (List.mem_map_of_mem inNodes)).order
      have smaller : 2 ^ order ≤ node.2.size := by
        rw [sizeEq]
        exact least.2.2 k (sizeEq ▸ first.fits)
      obtain ⟨below, above⟩ := meets
      apply invariant.free_apart inNodes old first.free used
      exact ⟨Nat.lt_of_lt_of_le below (Nat.add_le_add_left smaller _), above⟩

/-- A deallocation keeps the other allocated blocks. -/
theorem deallocate_kept (invariant : BuddyInvariant state nodes) {block : Addr}
    (allocated : state.isAllocated block = true) :
    ∃ heap after,
      deallocateMemory state.memory state.heap (some block) = .ok heap ∧
      BuddyInvariant { state with heap := heap } after ∧
      ∀ node ∈ nodes, node.2.allocated ≠ 0 → node.1 ≠ block →
        Untouched heap after node := by
  obtain ⟨tile, member, used⟩ := (invariant.isAllocated_iff block).mp allocated
  obtain ⟨heap, after, run, invariant', same⟩ :=
    invariant.deallocate_live (mem_live.mpr ⟨member, used⟩)
  refine ⟨heap, after, run, invariant', ?_⟩
  intro node inside nodeUsed apart
  have inLive := same.mem_iff.mp (mem_live.mpr ⟨inside, nodeUsed⟩)
  rcases List.mem_cons.mp inLive with equal | stays
  · exact absurd (congrArg Prod.fst equal) apart
  · exact invariant'.kept (mem_live.mp stays).1

end BuddyInvariant

/-- An exit keeps the blocks recorded for the pids whose blocks are allocated. -/
theorem deallocateProcessMemory_kept {manager : MemoryManager}
    (reachable : manager.buddy.Reachable) (clk : Int) {pid : Int}
    {record : ProcessMemory}
    (found : hashmapGet manager.memoryMap pid = .ok (some record))
    (allocated : manager.buddy.isAllocated record.memory = true) :
    ∃ manager', deallocateProcessMemory manager clk pid = .ok (manager', 1) ∧
      ∀ other kept, hashmapGet manager.memoryMap other = .ok (some kept) →
        manager.buddy.isAllocated kept.memory = true →
        kept.memory ≠ record.memory →
        hashmapGet manager'.memoryMap other = .ok (some kept) ∧
        manager'.buddy.isAllocated kept.memory = true ∧
        (manager'.heap.load kept.memory).map Block.tile =
          (manager.heap.load kept.memory).map Block.tile := by
  obtain ⟨nodes, invariant⟩ := reachable.invariant
  obtain ⟨tile, member, _⟩ := (invariant.isAllocated_iff _).mp allocated
  obtain ⟨log, logged⟩ := logMemoryEvent_ok manager invariant.blocks member clk
    record.id .deallocated
  obtain ⟨heap, after, run, invariant', others⟩ :=
    invariant.deallocate_kept allocated
  have given : deallocateMemory manager.memory manager.heap
      (some record.memory) = .ok heap := run
  refine ⟨{ manager with heap := heap, memoryLog := log }, ?_, ?_⟩
  · rw [deallocateProcessMemory, found]
    simp only [ok_bind, logged, given, pure_eq_ok]
  · intro other kept look live apart
    obtain ⟨tile', member', used'⟩ := (invariant.isAllocated_iff _).mp live
    obtain ⟨inside, cell⟩ := others (kept.memory, tile') member' used' apart
    refine ⟨look, (invariant'.isAllocated_iff _).mpr ⟨tile', inside, used'⟩, ?_⟩
    exact cell.trans (invariant.kept member').2.symm

/-- Live blocks are untouched, by allocations and by deallocations of other
blocks, and so are the blocks the memory map records for other live
processes. -/
theorem live_blocks_untouched :
    (∀ state : BuddyHeap, state.Reachable → ∀ size : Int, 1 ≤ size →
      ∀ heap block,
      allocateMemory state.heap state.memory size = .ok (heap, some block) →
      ∃ nodes after old tile, state.blocks = .ok nodes ∧
        BuddyHeap.blocks { state with heap := heap } = .ok after ∧
        (∀ node ∈ nodes, node.2.allocated ≠ 0 → Untouched heap after node) ∧
        (block, old) ∈ nodes ∧ old.allocated = 0 ∧
        Untouched heap after (block, tile) ∧ tile.allocated = size ∧
        LeastPower size tile.size ∧
        (∀ node ∈ after, node.2.allocated ≠ 0 → node.1 ≠ block →
          ¬ tileShape.Meets node.2 tile.start tile.size)) ∧
    (∀ state : BuddyHeap, state.Reachable → ∀ block,
      state.isAllocated block = true →
      ∃ nodes heap after, state.blocks = .ok nodes ∧
        deallocateMemory state.memory state.heap (some block) = .ok heap ∧
        BuddyHeap.blocks { state with heap := heap } = .ok after ∧
        ∀ node ∈ nodes, node.2.allocated ≠ 0 → node.1 ≠ block →
          Untouched heap after node) ∧
    (∀ manager : MemoryManager, manager.buddy.Reachable → ∀ clk pid record,
      hashmapGet manager.memoryMap pid = .ok (some record) →
      manager.buddy.isAllocated record.memory = true →
      ∃ manager', deallocateProcessMemory manager clk pid = .ok (manager', 1) ∧
        ∀ other kept, hashmapGet manager.memoryMap other = .ok (some kept) →
          manager.buddy.isAllocated kept.memory = true →
          kept.memory ≠ record.memory →
          hashmapGet manager'.memoryMap other = .ok (some kept) ∧
          manager'.buddy.isAllocated kept.memory = true ∧
          (manager'.heap.load kept.memory).map Block.tile =
            (manager.heap.load kept.memory).map Block.tile) := by
  refine ⟨?_, ?_, ?_⟩
  · intro state reachable size positive heap block run
    obtain ⟨nodes, invariant⟩ := reachable.invariant
    obtain ⟨after, old, tile, invariant', kept, taken, free, placed, asked,
      least, apart⟩ := invariant.allocate_kept positive run
    exact ⟨nodes, after, old, tile, invariant.blocks_eq, invariant'.blocks_eq,
      kept, taken, free, placed, asked, least, apart⟩
  · intro state reachable block allocated
    obtain ⟨nodes, invariant⟩ := reachable.invariant
    obtain ⟨heap, after, run, invariant', kept⟩ :=
      invariant.deallocate_kept allocated
    exact ⟨nodes, heap, after, invariant.blocks_eq, run, invariant'.blocks_eq,
      kept⟩
  · intro manager reachable clk pid record found allocated
    exact deallocateProcessMemory_kept reachable clk found allocated

/-- Blocks of 100 bytes and of one byte: a third request keeps both, and the
exit of process 7, which has the first, keeps the second for process 8. -/
theorem live_blocks_untouched_sample :
    ∃ (state : BuddyHeap) (manager manager' : MemoryManager)
      (heap heap' : Mem Block) (nodes after after' : List (Addr × Tile)),
      (∀ node ∈ nodes, node.2.allocated ≠ 0 → Untouched heap after node) ∧
      allocateMemory state.heap state.memory 300 = .ok (heap, some 1) ∧
      (∀ node ∈ nodes, node.2.allocated ≠ 0 → node.1 ≠ 0 →
        Untouched heap' after' node) ∧
      deallocateProcessMemory manager 4 7 = .ok (manager', 1) ∧
      hashmapGet manager'.memoryMap 8 = .ok (some { memory := 3, id := 2 }) ∧
      manager'.buddy.isAllocated 3 = true := by
  have blocks : (do
      let state ← runs BuddyHeap.call BuddyHeap.init
        [.allocate 100, .allocate 1]
      let found ← allocateMemory state.heap state.memory 300
      pure (found.2, state.isAllocated 0, state.isAllocated 3)) =
        Except.ok (some 1, true, true) := by
    decide +kernel
  obtain ⟨state, run, blocks⟩ := bind_eq_ok.mp blocks
  obtain ⟨⟨heap, block⟩, allocated, blocks⟩ := bind_eq_ok.mp blocks
  simp only [pure_eq_ok, Except.ok.injEq, Prod.mk.injEq] at blocks
  obtain ⟨rfl, first, second⟩ := blocks
  have records : (do
      let first ← hashmapPut (hashmapCreate ProcessMemory 100) 7
        { memory := 0, id := 1 }
      let both ← hashmapPut first.1 8 { memory := 3, id := 2 }
      let one ← hashmapGet both.1 7
      let other ← hashmapGet both.1 8
      pure (one, other)) =
        Except.ok (some { memory := 0, id := 1 },
          some { memory := 3, id := 2 }) := by
    decide +kernel
  obtain ⟨⟨_, _⟩, _, records⟩ := bind_eq_ok.mp records
  obtain ⟨⟨map, _⟩, _, records⟩ := bind_eq_ok.mp records
  obtain ⟨one, getOne, records⟩ := bind_eq_ok.mp records
  obtain ⟨other, getOther, records⟩ := bind_eq_ok.mp records
  simp only [pure_eq_ok, Except.ok.injEq, Prod.mk.injEq] at records
  obtain ⟨rfl, rfl⟩ := records
  let manager : MemoryManager :=
    { heap := state.heap, memory := state.memory, memoryMap := map,
      memoryLog := [] }
  have reachable : state.Reachable :=
    ⟨[.allocate 100, .allocate 1], by decide +kernel, run⟩
  obtain ⟨forAllocation, forDeallocation, forExit⟩ := live_blocks_untouched
  obtain ⟨nodes, after, _, _, read, _, kept, _⟩ :=
    forAllocation state reachable 300 (by decide) heap 1 allocated
  obtain ⟨nodes', heap', after', read', _, _, kept'⟩ :=
    forDeallocation state reachable 0 first
  obtain ⟨manager', exited, others⟩ :=
    forExit manager reachable 4 7 _ getOne first
  obtain ⟨look, live, _⟩ := others 8 _ getOther second (by decide)
  have same : nodes' = nodes := by
    rw [read, Except.ok.injEq] at read'
    exact read'.symm
  exact ⟨state, manager, manager', heap, heap', nodes, after, after', kept,
    allocated, same ▸ kept', exited, look, live⟩

end OsSim
