/-
Module: OsSim.BuddyHistory
Purpose: Histories of allocations and deallocations from `init_memory`: the
  invariant of the block list, and the canonical form of the heap.
Trusted boundary: none
Main exports:
  BuddyHeap, BuddyCall, Reachable, BuddyInvariant, allocateMemory_spec,
  deallocateMemory_spec, buddy_list_invariant, buddy_heap_canonical
-/
import OsSim.BuddyList
import OsSim.Library.Trace

namespace OsSim

open PointerMemory
open DoublyLinked
open Tiling
open Dyadic
open Trace

/-- The allocator's memory with the pointer that `init_memory` returned. -/
structure BuddyHeap where
  heap : Mem Block
  memory : Addr
deriving Repr, DecidableEq

/-- One call of the allocator's interface. -/
inductive BuddyCall where
  | allocate (size : Int)
  | deallocate (block : Addr)
deriving Repr, DecidableEq

namespace BuddyHeap

def init : BuddyHeap := { heap := initMemory.1, memory := initMemory.2 }

/-- The block list from the head on. -/
def blocks (state : BuddyHeap) : Except Fault (List (Addr × Tile)) :=
  blockList state.heap state.memory

/-- Start, size and `allocated` of every block, in list order. -/
def tiles (state : BuddyHeap) : Except Fault (List Tile) :=
  printMemo state.heap state.memory

/-- The node at an address is in the list with `allocated != 0`. -/
def isAllocated (state : BuddyHeap) (block : Addr) : Bool :=
  match state.blocks with
  | .ok nodes => nodes.any fun node => node.1 = block ∧ node.2.allocated ≠ 0
  | .error _ => false

def call (state : BuddyHeap) : BuddyCall → Except Fault BuddyHeap
  | .allocate size => do
      let (heap, _) ← allocateMemory state.heap state.memory size
      pure { state with heap := heap }
  | .deallocate block => do
      let heap ← deallocateMemory state.memory state.heap (some block)
      pure { state with heap := heap }

/-- Requests are for at least one byte, and only allocated blocks are given
back. -/
def Legal (state : BuddyHeap) : BuddyCall → Prop
  | .allocate size => 1 ≤ size
  | .deallocate block => state.isAllocated block = true

instance (state : BuddyHeap) (event : BuddyCall) :
    Decidable (state.Legal event) := by
  cases event
  · exact inferInstanceAs (Decidable (_ ≤ _))
  · exact inferInstanceAs (Decidable (_ = _))

/-- A state that some legal history leads to. -/
def Reachable (state : BuddyHeap) : Prop :=
  ∃ calls, Along call Legal init calls ∧ runs call init calls = .ok state

end BuddyHeap

/-- The invariant of the block list: `nodes` is the list behind the pointer that
`init_memory` returned, its blocks are a coalesced tiling of the memory by
dyadic blocks, and an allocated block is less than twice the request. -/
structure BuddyInvariant (state : BuddyHeap) (nodes : List (Addr × Tile)) :
    Prop where
  root : state.memory = initMemory.2
  blocks : BlocksAt state.heap state.memory nodes
  buddied : Buddied tileShape 0 (tiles nodes) maxSize
  fitted : ∀ node ∈ nodes, node.2.allocated ≠ 0 →
    ((node.2.size / 2 : Nat) : Int) < node.2.allocated ∧
      node.2.allocated ≤ node.2.size

namespace BuddyInvariant

variable {state : BuddyHeap} {nodes : List (Addr × Tile)}

theorem initial :
    BuddyInvariant BuddyHeap.init
      [(initMemory.2, { start := 0, size := maxSize, allocated := 0 })] := by
  refine ⟨rfl, initMemory_blocks, ⟨⟨rfl, rfl⟩, ?_, ?_⟩, ?_⟩
  · intro tile member
    rw [List.mem_singleton.mp member]
    exact ⟨⟨10, rfl⟩, Nat.dvd_zero _⟩
  · intro one oneMember other otherMember _ _ _
    rw [List.mem_singleton.mp oneMember, List.mem_singleton.mp otherMember]
    decide
  · intro node member used
    rw [List.mem_singleton.mp member] at used
    exact absurd rfl used

theorem blocks_eq (invariant : BuddyInvariant state nodes) :
    state.blocks = .ok nodes :=
  invariant.blocks.blockList_eq

theorem tiles_eq (invariant : BuddyInvariant state nodes) :
    state.tiles = .ok (tiles nodes) :=
  invariant.blocks.printMemo_eq

/-- There is only one block list. -/
theorem unique (invariant : BuddyInvariant state nodes)
    {other : List (Addr × Tile)} (read : state.blocks = .ok other) :
    nodes = other := by
  rw [invariant.blocks_eq, Except.ok.injEq] at read
  exact read

theorem isAllocated_iff (invariant : BuddyInvariant state nodes)
    (block : Addr) :
    state.isAllocated block = true ↔
      ∃ tile, (block, tile) ∈ nodes ∧ tile.allocated ≠ 0 := by
  rw [BuddyHeap.isAllocated, invariant.blocks_eq]
  simp only [List.any_eq_true, decide_eq_true_eq]
  constructor
  · rintro ⟨node, member, same, used⟩
    exact ⟨node.2, same ▸ member, used⟩
  · rintro ⟨tile, member, used⟩
    exact ⟨(block, tile), member, rfl, used⟩

end BuddyInvariant

/-! ### One call -/

theorem mem_live {nodes : List (Addr × Tile)} {node : Addr × Tile} :
    node ∈ live nodes ↔ node ∈ nodes ∧ node.2.allocated ≠ 0 := by
  simp [live]

/-- `allocate_memory` on a good list: it fails, without a change, when no free
block is large enough, and otherwise takes the first of the smallest ones,
halved down to the least power of two that is not below the request. -/
theorem allocateMemory_spec {state : BuddyHeap} {nodes : List (Addr × Tile)}
    (invariant : BuddyInvariant state nodes) {size : Int}
    (positive : 1 ≤ size) :
    (allocateMemory state.heap state.memory size = .ok (state.heap, none) ∧
        ∀ other ∈ nodes, other.2.allocated = 0 → ¬ size ≤ other.2.size) ∨
      ∃ left node right heap' order halves,
        nodes = left ++ node :: right ∧
        FirstSmallest size left node right ∧
        allocateMemory state.heap state.memory size =
          .ok (heap', some node.1) ∧
        size ≤ (2 ^ order : Nat) ∧ ((2 ^ order / 2 : Nat) : Int) < size ∧
        (∀ half ∈ halves, half.2.allocated = 0 ∧
          state.heap.cells.length ≤ half.1) ∧
        BuddyInvariant { state with heap := heap' }
          (left ++ (node.1,
            { start := node.2.start, size := 2 ^ order, allocated := size }) ::
              (halves ++ right)) := by
  obtain ⟨best, search, isBest⟩ :=
    getSmallestBlockAvailable_spec invariant.blocks size
  cases best with
  | none =>
      exact Or.inl ⟨allocateMemory_none search, isBest⟩
  | some node =>
      obtain ⟨left, right, split, first⟩ := isBest
      obtain ⟨block, tile⟩ := node
      subst split
      obtain ⟨order, orderEq, fits, tight⟩ := log2Ceil_spec positive
      have pending : Pending tileShape 0 (tiles left) tile (tiles right)
          maxSize := by
        apply Pending.of_buddied
        simpa [tiles] using invariant.buddied
      obtain ⟨k, sizeEq⟩ : ∃ k, tile.size = 2 ^ k := pending.tile_aligned.order
      have firstFits : size ≤ tile.size := first.fits
      have le : order ≤ k := order_le tight (sizeEq ▸ firstFits)
      have member : (block, tile) ∈ left ++ (block, tile) :: right := by simp
      obtain ⟨cell, loaded, payload⟩ := invariant.blocks.load member
      have cellSize : cell.size = tile.size := congrArg Tile.size payload
      have enough : k - order < cell.size + 2 := by
        have power : k < 2 ^ k := Nat.lt_two_pow_self
        rw [cellSize, sizeEq]
        omega
      obtain ⟨middle, halves, run, blocks, pending', fresh⟩ :=
        splitLoop_spec le enough sizeEq invariant.blocks pending
      have member' : (block, { tile with size := 2 ^ order }) ∈ left ++
          (block, { tile with size := 2 ^ order }) :: (halves ++ right) := by
        simp
      obtain ⟨cell', loaded', _⟩ := blocks.load member'
      let marked : Block := { cell' with allocated := size }
      refine Or.inr ⟨left, (block, tile), right, middle.put block marked, order,
        halves, rfl, first, ?_, fits, tight, fresh, ?_⟩
      · rw [allocateMemory, search, ok_bind]
        simp only [Option.map_some, deref_of_load loaded, ok_bind, orderEq, run,
          update_of_load loaded', pure_eq_ok]
        rfl
      · refine ⟨invariant.root, blocks.mark loaded' size, ?_, ?_⟩
        · have used : ¬ tileShape.free
              { start := tile.start, size := 2 ^ order, allocated := size } := by
            show ¬ size = 0
            omega
          have replaced : Pending tileShape 0 (tiles left)
              { start := tile.start, size := 2 ^ order, allocated := size }
              (tiles (halves ++ right)) maxSize :=
            pending'.replace rfl rfl
          rw [tiles, List.map_append]
          exact replaced.finish_used used
        · intro node inside nodeUsed
          have old : ∀ {found : Addr × Tile},
              found ∈ left ++ (block, tile) :: right →
              found.2.allocated ≠ 0 →
              ((found.2.size / 2 : Nat) : Int) < found.2.allocated ∧
                found.2.allocated ≤ found.2.size :=
            fun {found} => invariant.fitted found
          rcases List.mem_append.mp inside with inLeft | inRest
          · exact old (by simp [inLeft]) nodeUsed
          · rcases List.mem_cons.mp inRest with same | inTail
            · rw [same]
              exact ⟨tight, fits⟩
            · rcases List.mem_append.mp inTail with inHalves | inRight
              · exact absurd (fresh node inHalves).1 nodeUsed
              · exact old (by simp [inRight]) nodeUsed

/-- `deallocate_memory` on an allocated block of a good list: it returns, and
the other allocated blocks stay as they are. -/
theorem deallocateMemory_spec {state : BuddyHeap} {block : Addr} {tile : Tile}
    {left right : List (Addr × Tile)}
    (invariant : BuddyInvariant state (left ++ (block, tile) :: right)) :
    ∃ heap' nodes,
      deallocateMemory state.memory state.heap (some block) = .ok heap' ∧
      BuddyInvariant { state with heap := heap' } nodes ∧
      live nodes = live left ++ live right := by
  have member : (block, tile) ∈ left ++ (block, tile) :: right := by simp
  obtain ⟨cell, loaded, _⟩ := invariant.blocks.load member
  let cleared : Block := { cell with allocated := 0 }
  let freed : Tile := { tile with allocated := 0 }
  have blocks : BlocksAt (state.heap.put block cleared) state.memory
      (left ++ (block, freed) :: right) := invariant.blocks.mark loaded 0
  have pending : Pending tileShape 0 (tiles left) freed (tiles right)
      maxSize := by
    have whole : Buddied tileShape 0 (tiles left ++ tile :: tiles right)
        maxSize := by
      simpa [tiles] using invariant.buddied
    exact (Pending.of_buddied whole).replace rfl rfl
  have enough : (left ++ (block, freed) :: right).length ≤
      (state.heap.put block cleared).cells.length :=
    blocks.linked.length_le
  obtain ⟨heap', nodes, run, final, buddied, same⟩ :=
    mergeBlock_spec blocks pending rfl enough
  refine ⟨heap', nodes, ?_, ⟨invariant.root, final, buddied, ?_⟩, same⟩
  · rw [deallocateMemory, update_of_load loaded, ok_bind]
    exact run
  · intro node inside used
    have inLive : node ∈ live left ++ live right := by
      rw [← same]
      exact mem_live.mpr ⟨inside, used⟩
    apply invariant.fitted node _ used
    rcases List.mem_append.mp inLive with inLeft | inRight
    · simp [(mem_live.mp inLeft).1]
    · simp [(mem_live.mp inRight).1]

/-! ### Whole histories

A good list is a coalesced tiling of the memory by dyadic blocks, and such a tiling
is determined by its used tiles.  So nothing about a history matters but what is
allocated at its end.  That calls commute, or undo each other, then follows by
comparing allocated blocks: an allocation adds one of them, a deallocation
takes one away.
-/

namespace BuddyInvariant

variable {state : BuddyHeap} {nodes : List (Addr × Tile)}

/-- A legal call returns and keeps the invariant. -/
theorem call_total (invariant : BuddyInvariant state nodes)
    {event : BuddyCall} (legal : state.Legal event) :
    ∃ next, state.call event = .ok next ∧
      ∃ nodes, BuddyInvariant next nodes := by
  cases event with
  | allocate size =>
      rcases allocateMemory_spec invariant legal with
        ⟨run, _⟩ | ⟨left, node, right, heap', order, halves, _, _, run, _, _, _,
          kept⟩
      · refine ⟨state, ?_, nodes, invariant⟩
        rw [BuddyHeap.call, run]
        rfl
      · refine ⟨{ state with heap := heap' }, ?_, _, kept⟩
        rw [BuddyHeap.call, run]
        rfl
  | deallocate block =>
      obtain ⟨tile, member, _⟩ := (invariant.isAllocated_iff block).mp legal
      obtain ⟨left, right, split⟩ := List.append_of_mem member
      subst split
      obtain ⟨heap', nodes', run, kept, _⟩ := deallocateMemory_spec invariant
      refine ⟨{ state with heap := heap' }, ?_, nodes', kept⟩
      rw [BuddyHeap.call, run]
      rfl

/-- Two good lists with the same allocated tiles are equal, free tiles
included. -/
theorem tiles_unique {other : BuddyHeap} {otherNodes : List (Addr × Tile)}
    (invariant : BuddyInvariant state nodes)
    (otherInvariant : BuddyInvariant other otherNodes)
    (used : ∀ tile : Tile, tile.allocated ≠ 0 →
      (tile ∈ tiles nodes ↔ tile ∈ tiles otherNodes)) :
    tiles nodes = tiles otherNodes := by
  apply invariant.buddied.unique otherInvariant.buddied
  · intro one two oneFree twoFree start size
    cases one
    cases two
    simp only [tileShape] at oneFree twoFree start size
    rw [oneFree, twoFree, start, size]
  · exact used

/-- The allocated tiles of a list are those of its live nodes. -/
theorem mem_tiles_iff {tile : Tile} (used : tile.allocated ≠ 0) :
    tile ∈ OsSim.tiles nodes ↔ tile ∈ OsSim.tiles (live nodes) := by
  simp only [OsSim.tiles, List.mem_map, mem_live]
  constructor
  · rintro ⟨node, member, same⟩
    exact ⟨node, ⟨member, same ▸ used⟩, same⟩
  · rintro ⟨node, ⟨member, _⟩, same⟩
    exact ⟨node, member, same⟩

/-- Lists with the same live nodes have the same tiles. -/
theorem tiles_unique_of_live {other : BuddyHeap}
    {otherNodes : List (Addr × Tile)}
    (invariant : BuddyInvariant state nodes)
    (otherInvariant : BuddyInvariant other otherNodes)
    (same : live nodes = live otherNodes) :
    tiles nodes = tiles otherNodes := by
  apply invariant.tiles_unique otherInvariant
  intro tile used
  rw [mem_tiles_iff used, same, ← mem_tiles_iff used]

/-- With nothing allocated the memory is one free block. -/
theorem tiles_of_live_nil (invariant : BuddyInvariant state nodes)
    (none : live nodes = []) :
    tiles nodes = [{ start := 0, size := maxSize, allocated := 0 }] :=
  invariant.tiles_unique_of_live initial (none.trans (by decide))

/-- An allocation fails when no free block is large enough.  Otherwise it adds one
block, the first of the smallest free ones that fit, to the allocated ones. -/
theorem allocate_live (invariant : BuddyInvariant state nodes) {size : Int}
    (positive : 1 ≤ size) :
    (allocateMemory state.heap state.memory size = .ok (state.heap, none) ∧
        ∀ other ∈ nodes, other.2.allocated = 0 → ¬ size ≤ other.2.size) ∨
      ∃ heap' nodes' block tile,
        allocateMemory state.heap state.memory size = .ok (heap', some block) ∧
        (∃ left free right, nodes = left ++ (block, free) :: right ∧
          FirstSmallest size left (block, free) right) ∧
        BuddyInvariant { state with heap := heap' } nodes' ∧
        (block, tile) ∈ nodes' ∧ tile.allocated = size ∧
        block ∉ (live nodes).map Prod.fst ∧
        (live nodes').Perm ((block, tile) :: live nodes) := by
  rcases allocateMemory_spec invariant positive with
    failed | ⟨left, node, right, heap', order, halves, split, first, run, _, _,
      fresh, kept⟩
  · exact Or.inl failed
  · have asked : ({ start := node.2.start, size := 2 ^ order,
                    allocated := size } : Tile).allocated = size := rfl
    generalize ({ start := node.2.start, size := 2 ^ order,
                  allocated := size } : Tile) = tile at kept asked
    have used : tile.allocated ≠ 0 := by
      rw [asked]
      omega
    have halvesFree : live halves = [] := by
      apply List.filter_eq_nil_iff.mpr
      intro half member
      simp [(fresh half member).1]
    refine Or.inr ⟨heap', _, node.1, tile, run,
      ⟨left, node.2, right, split, first⟩, kept, by simp, asked, ?_, ?_⟩
    · intro member
      obtain ⟨other, inLive, same⟩ := List.mem_map.mp member
      obtain ⟨inside, otherUsed⟩ := mem_live.mp inLive
      have distinct := invariant.blocks.linked.nodup
      have inside' : node ∈ nodes := by simp [split]
      have equal := List.inj_on_of_nodup_map distinct inside inside' same
      exact otherUsed (equal ▸ first.free)
    · rw [live_append, live_cons_used used, live_append halves, halvesFree,
        List.nil_append, split, live_append, live_cons_free first.free]
      exact List.perm_middle

/-- A deallocation takes one block away from the allocated ones. -/
theorem deallocate_live (invariant : BuddyInvariant state nodes)
    {block : Addr} {tile : Tile} (member : (block, tile) ∈ live nodes) :
    ∃ heap' nodes',
      deallocateMemory state.memory state.heap (some block) = .ok heap' ∧
      BuddyInvariant { state with heap := heap' } nodes' ∧
      (live nodes).Perm ((block, tile) :: live nodes') := by
  obtain ⟨inside, used⟩ := mem_live.mp member
  obtain ⟨left, right, split⟩ := List.append_of_mem inside
  subst split
  obtain ⟨heap', nodes', run, kept, same⟩ := deallocateMemory_spec invariant
  refine ⟨heap', nodes', run, kept, ?_⟩
  rw [live_append, live_cons_used used, same]
  exact List.perm_middle

/-- Giving back the allocated block at an address removes exactly that block
from the live ones. -/
theorem deallocate (invariant : BuddyInvariant state nodes) {block : Addr}
    (allocated : state.isAllocated block = true) :
    ∃ next nodes', state.call (.deallocate block) = .ok next ∧
      BuddyInvariant next nodes' ∧
      live nodes' = (live nodes).filter fun node => node.1 ≠ block := by
  obtain ⟨tile, member, used⟩ := (invariant.isAllocated_iff block).mp allocated
  obtain ⟨left, right, split⟩ := List.append_of_mem member
  subst split
  obtain ⟨heap', nodes', run, kept, same⟩ := deallocateMemory_spec invariant
  obtain ⟨notLeft, notRight, _⟩ := invariant.blocks.linked.nodup_middle
  have keep : ∀ {part : List (Addr × Tile)}, block ∉ addrs part →
      (live part).filter (fun node => node.1 ≠ block) = live part := by
    intro part outside
    apply List.filter_eq_self.mpr
    intro node inside
    have different : node.1 ≠ block := by
      intro equal
      exact outside (equal ▸ List.mem_map_of_mem (mem_live.mp inside).1)
    simpa using different
  refine ⟨{ state with heap := heap' }, nodes', ?_, kept, ?_⟩
  · rw [BuddyHeap.call, run]
    rfl
  · rw [same, live_append, live_cons_used used, List.filter_append,
      keep notLeft, List.filter_cons_of_neg (by simp), keep notRight]

/-- Giving back two allocated blocks removes exactly those two from the live
ones. -/
theorem deallocate_both (invariant : BuddyInvariant state nodes)
    {first second : Addr} (apart : first ≠ second)
    (firstLive : state.isAllocated first = true)
    (secondLive : state.isAllocated second = true) :
    ∃ last lastNodes,
      runs BuddyHeap.call state [.deallocate first, .deallocate second] =
        .ok last ∧
      BuddyInvariant last lastNodes ∧
      live lastNodes = ((live nodes).filter
        fun node => node.1 ≠ first).filter fun node => node.1 ≠ second := by
  obtain ⟨middle, middleNodes, run, kept, same⟩ :=
    invariant.deallocate firstLive
  have stillLive : middle.isAllocated second = true := by
    obtain ⟨tile, member, used⟩ :=
      (invariant.isAllocated_iff second).mp secondLive
    refine (kept.isAllocated_iff second).mpr ⟨tile, ?_, used⟩
    have inLive : (second, tile) ∈ live middleNodes := by
      rw [same, List.mem_filter]
      exact ⟨mem_live.mpr ⟨member, used⟩, by simpa using apart.symm⟩
    exact (mem_live.mp inLive).1
  obtain ⟨last, lastNodes, run', kept', same'⟩ := kept.deallocate stillLive
  refine ⟨last, lastNodes, ?_, kept', by rw [same', same]⟩
  exact runs_cons_ok.mpr ⟨middle, run, runs_cons_ok.mpr ⟨last, run', rfl⟩⟩

/-- Giving back the block that was just returned leaves the live blocks that
were there before the request. -/
theorem allocate_deallocate (invariant : BuddyInvariant state nodes)
    {size : Int} (positive : 1 ≤ size) {heap : Mem Block} {block : Addr}
    (allocated : allocateMemory state.heap state.memory size =
      .ok (heap, some block)) :
    ∃ back backNodes,
      BuddyHeap.call { state with heap := heap } (.deallocate block) =
        .ok back ∧
      BuddyInvariant back backNodes ∧ live backNodes = live nodes := by
  rcases allocateMemory_spec invariant positive with
    ⟨run, _⟩ | ⟨left, node, right, heap', order, halves, split, first, run, _,
      _, fresh, kept⟩
  · rw [run] at allocated
    simp at allocated
  · rw [run] at allocated
    simp only [Except.ok.injEq, Prod.mk.injEq, Option.some.injEq] at allocated
    obtain ⟨rfl, rfl⟩ := allocated
    obtain ⟨back, backNodes, run', kept', same⟩ := deallocateMemory_spec kept
    have halvesFree : live halves = [] := by
      apply List.filter_eq_nil_iff.mpr
      intro half member
      simp [(fresh half member).1]
    refine ⟨{ state with heap := back }, backNodes, ?_, kept', ?_⟩
    · rw [BuddyHeap.call, run']
      rfl
    · rw [same, live_append halves, halvesFree, split, live_append,
        live_cons_free first.free]
      rfl

end BuddyInvariant

/-- A reachable state satisfies the invariant. -/
theorem BuddyHeap.Reachable.invariant {state : BuddyHeap}
    (reachable : state.Reachable) : ∃ nodes, BuddyInvariant state nodes := by
  obtain ⟨calls, legal, run⟩ := reachable
  obtain ⟨last, run', kept⟩ :=
    total_of_runs (P := fun s => ∃ nodes, BuddyInvariant s nodes)
      (fun _ _ ⟨_, holds⟩ allowed => holds.call_total allowed)
      ⟨_, BuddyInvariant.initial⟩ legal
  rw [run, Except.ok.injEq] at run'
  rw [run']
  exact kept

/-- A legal call leads from a reachable state to a reachable state. -/
theorem BuddyHeap.Reachable.call {state next : BuddyHeap}
    (reachable : state.Reachable) (event : BuddyCall) (legal : state.Legal event)
    (called : state.call event = .ok next) : next.Reachable := by
  obtain ⟨calls, allowed, run⟩ := reachable
  refine ⟨calls ++ [event], along_append.mpr ⟨allowed, ?_⟩, ?_⟩
  · intro middle run'
    rw [run, Except.ok.injEq] at run'
    subst run'
    exact along_cons.mpr ⟨legal, fun _ _ => trivial⟩
  · exact runs_append_ok.mpr
      ⟨state, run, runs_cons_ok.mpr ⟨next, called, rfl⟩⟩

/-- Every legal history runs to its end, and the list it leaves is the one the
allocator is meant to keep. -/
theorem buddy_list_invariant (calls : List BuddyCall)
    (legal : Along BuddyHeap.call BuddyHeap.Legal BuddyHeap.init calls) :
    ∃ state nodes, runs BuddyHeap.call BuddyHeap.init calls = .ok state ∧
      state.blocks = .ok nodes ∧
      state.memory = initMemory.2 ∧
      firstAddr none nodes = some state.memory ∧
      Linked blockLinks state.heap nodes ∧
      Tiles tileShape 0 (tiles nodes) maxSize ∧
      (∀ node ∈ nodes, (∃ k, node.2.size = 2 ^ k) ∧
        node.2.size ∣ node.2.start) ∧
      (∀ node ∈ nodes, node.2.allocated ≠ 0 →
        ((node.2.size / 2 : Nat) : Int) < node.2.allocated ∧
        node.2.allocated ≤ node.2.size ∧
        (node.2.size = 1 → node.2.allocated = 1)) ∧
      (∀ one ∈ nodes, ∀ other ∈ nodes, one.2.allocated = 0 →
        other.2.allocated = 0 → one.2.size = other.2.size →
        one.2.start ^^^ one.2.size ≠ other.2.start) := by
  obtain ⟨state, run, nodes, kept⟩ :=
    total_of_runs (P := fun s => ∃ nodes, BuddyInvariant s nodes)
      (fun _ _ ⟨_, holds⟩ allowed => holds.call_total allowed)
      ⟨_, BuddyInvariant.initial⟩ legal
  refine ⟨state, nodes, run, kept.blocks_eq, kept.root, kept.blocks.head,
    kept.blocks.linked, kept.buddied.covered, ?_, ?_, ?_⟩
  · intro node member
    have aligned := kept.buddied.aligned node.2 (List.mem_map_of_mem member)
    exact ⟨aligned.order, aligned.dvd⟩
  · intro node member used
    obtain ⟨above, below⟩ := kept.fitted node member used
    refine ⟨above, below, ?_⟩
    intro one
    rw [one] at above below
    omega
  · intro one oneMember other otherMember
    exact kept.buddied.coalesced one.2 (List.mem_map_of_mem oneMember) other.2
      (List.mem_map_of_mem otherMember)

/-- A history that halves the memory several times and gives one block back. -/
theorem buddy_list_invariant_sample :
    ∃ state nodes, runs BuddyHeap.call BuddyHeap.init
        [.allocate 100, .allocate 1, .allocate 300, .deallocate 0] =
          .ok state ∧
      state.blocks = .ok nodes ∧ Linked blockLinks state.heap nodes ∧
      Tiles tileShape 0 (tiles nodes) maxSize := by
  obtain ⟨state, nodes, run, blocks, _, _, linked, covered, _⟩ :=
    buddy_list_invariant
      [.allocate 100, .allocate 1, .allocate 300, .deallocate 0]
      (by decide +kernel)
  exact ⟨state, nodes, run, blocks, linked, covered⟩

/-- The heap has a canonical form.  Reachable heaps with the same allocated
blocks have the same block list; so the order of two deallocations does not
matter, an allocation is undone by its deallocation, and an empty heap is one
free block again. -/
theorem buddy_heap_canonical :
    (∀ one other : BuddyHeap, one.Reachable → other.Reachable →
      ∀ oneTiles otherTiles, one.tiles = .ok oneTiles →
        other.tiles = .ok otherTiles →
        (∀ tile : Tile, tile.allocated ≠ 0 →
          (tile ∈ oneTiles ↔ tile ∈ otherTiles)) →
        oneTiles = otherTiles) ∧
    (∀ state : BuddyHeap, state.Reachable → ∀ a b, a ≠ b →
      state.isAllocated a = true → state.isAllocated b = true →
      ∃ ab ba final,
        runs BuddyHeap.call state [.deallocate a, .deallocate b] = .ok ab ∧
        runs BuddyHeap.call state [.deallocate b, .deallocate a] = .ok ba ∧
        ab.tiles = .ok final ∧ ba.tiles = .ok final) ∧
    (∀ state : BuddyHeap, state.Reachable → ∀ size : Int, 1 ≤ size →
      ∀ heap block,
      allocateMemory state.heap state.memory size = .ok (heap, some block) →
      ∃ back final,
        BuddyHeap.call { state with heap := heap } (.deallocate block) =
          .ok back ∧
        back.tiles = .ok final ∧ state.tiles = .ok final) ∧
    (∀ state : BuddyHeap, state.Reachable → ∀ final, state.tiles = .ok final →
      (∀ tile ∈ final, tile.allocated = 0) →
      final = [{ start := 0, size := maxSize, allocated := 0 }]) := by
  refine ⟨?_, ?_, ?_, ?_⟩
  · intro one other oneReachable otherReachable oneTiles otherTiles oneRead
      otherRead used
    obtain ⟨nodes, invariant⟩ := oneReachable.invariant
    obtain ⟨otherNodes, otherInvariant⟩ := otherReachable.invariant
    rw [invariant.tiles_eq, Except.ok.injEq] at oneRead
    rw [otherInvariant.tiles_eq, Except.ok.injEq] at otherRead
    subst oneRead otherRead
    exact invariant.tiles_unique otherInvariant used
  · intro state reachable a b different aLive bLive
    obtain ⟨nodes, invariant⟩ := reachable.invariant
    obtain ⟨ab, abNodes, abRun, abKept, abLive⟩ :=
      invariant.deallocate_both different aLive bLive
    obtain ⟨ba, baNodes, baRun, baKept, baLive⟩ :=
      invariant.deallocate_both different.symm bLive aLive
    refine ⟨ab, ba, tiles abNodes, abRun, baRun, abKept.tiles_eq, ?_⟩
    rw [baKept.tiles_eq]
    congr 1
    apply baKept.tiles_unique_of_live abKept
    -- Either order leaves the live blocks at other addresses than `a` and `b`.
    rw [abLive, baLive, List.filter_comm]
  · intro state reachable size positive heap block allocated
    obtain ⟨nodes, invariant⟩ := reachable.invariant
    obtain ⟨back, backNodes, run, kept, same⟩ :=
      invariant.allocate_deallocate positive allocated
    refine ⟨back, tiles nodes, run, ?_, invariant.tiles_eq⟩
    rw [kept.tiles_eq]
    congr 1
    exact kept.tiles_unique_of_live invariant same
  · intro state reachable final read free
    obtain ⟨nodes, invariant⟩ := reachable.invariant
    rw [invariant.tiles_eq, Except.ok.injEq] at read
    subst read
    apply invariant.tiles_of_live_nil
    apply List.filter_eq_nil_iff.mpr
    intro node member
    simp [free node.2 (List.mem_map_of_mem member)]

/-- Two histories that end with one allocated block, of a single byte at address
128; so they end with the same free blocks too. -/
theorem buddy_heap_canonical_sample :
    ∃ one other final,
      runs BuddyHeap.call BuddyHeap.init
        [.allocate 100, .allocate 1, .deallocate 0] = .ok one ∧
      runs BuddyHeap.call BuddyHeap.init
        [.allocate 128, .allocate 1, .allocate 300, .deallocate 0,
          .deallocate 1] = .ok other ∧
      one.tiles = .ok final ∧ other.tiles = .ok final := by
  have ends : ∀ calls, Along BuddyHeap.call BuddyHeap.Legal BuddyHeap.init
        calls →
      (do
        let state ← runs BuddyHeap.call BuddyHeap.init calls
        let tiles ← state.tiles
        pure (tiles.filter fun tile => tile.allocated ≠ 0)) =
          Except.ok [{ start := 128, size := 1, allocated := 1 }] →
      ∃ state tiles, runs BuddyHeap.call BuddyHeap.init calls = .ok state ∧
        state.Reachable ∧ state.tiles = .ok tiles ∧
        ∀ tile : Tile, tile.allocated ≠ 0 →
          (tile ∈ tiles ↔ tile = { start := 128, size := 1, allocated := 1 }) := by
    intro calls legal read
    obtain ⟨state, run, read'⟩ := bind_eq_ok.mp read
    obtain ⟨tiles, read'', used⟩ := bind_eq_ok.mp read'
    rw [pure_eq_ok, Except.ok.injEq] at used
    refine ⟨state, tiles, run, ⟨calls, legal, run⟩, read'', ?_⟩
    intro tile nonzero
    rw [← List.mem_singleton, ← used, List.mem_filter]
    simp [nonzero]
  obtain ⟨one, oneTiles, oneRun, oneReachable, oneRead, oneUsed⟩ :=
    ends [.allocate 100, .allocate 1, .deallocate 0] (by decide +kernel)
      (by decide +kernel)
  obtain ⟨other, otherTiles, otherRun, otherReachable, otherRead, otherUsed⟩ :=
    ends [.allocate 128, .allocate 1, .allocate 300, .deallocate 0,
      .deallocate 1] (by decide +kernel) (by decide +kernel)
  have same : oneTiles = otherTiles := by
    apply buddy_heap_canonical.1 one other oneReachable otherReachable _ _
      oneRead otherRead
    intro tile used
    rw [oneUsed tile used, otherUsed tile used]
  exact ⟨one, other, oneTiles, oneRun, otherRun, oneRead, same ▸ otherRead⟩

end OsSim
