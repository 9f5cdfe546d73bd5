/-
Module: OsSim.BuddyList
Purpose: What every function of the buddy allocator does to the list of blocks
  that its pointers represent.
Trusted boundary: none
Main exports:
  BlocksAt, Best, getSmallestBlockAvailable_spec, splitBlock_spec,
  splitLoop_spec, Joined, mergeBlock_cases, mergeBlock_spec
-/
import OsSim.BuddyMemory
import OsSim.Library.Tiling

namespace OsSim

open PointerMemory
open DoublyLinked
open Tiling

/-- Tiles as the blocks of a tiling. -/
def tileShape : Shape Tile :=
  { start := Tile.start, size := Tile.size, free := fun t => t.allocated = 0 }

/-- The tiles of a list of blocks. -/
abbrev tiles (nodes : List (Addr × Tile)) : List Tile := nodes.map Prod.snd

/-- The blocks that are allocated, with their addresses. -/
def live (nodes : List (Addr × Tile)) : List (Addr × Tile) :=
  nodes.filter fun node => node.2.allocated ≠ 0

/-- The heap holds exactly this block list behind the pointer `memory`. -/
structure BlocksAt (heap : Mem Block) (memory : Addr)
    (nodes : List (Addr × Tile)) : Prop where
  linked : Linked blockLinks heap nodes
  head : firstAddr none nodes = some memory

namespace BlocksAt

variable {heap : Mem Block} {memory : Addr} {nodes : List (Addr × Tile)}

theorem blockList_eq (blocks : BlocksAt heap memory nodes) :
    blockList heap memory = .ok nodes := by
  rw [blockList, ← blocks.head]
  exact blocks.linked.follow_eq (Nat.le_refl _)

theorem unique (blocks : BlocksAt heap memory nodes)
    {other : List (Addr × Tile)} (otherBlocks : BlocksAt heap memory other) :
    nodes = other :=
  blocks.linked.unique otherBlocks.linked
    (blocks.head.trans otherBlocks.head.symm)

theorem printMemo_eq (blocks : BlocksAt heap memory nodes) :
    printMemo heap memory = .ok (tiles nodes) := by
  rw [printMemo, blocks.blockList_eq, ok_bind, pure_eq_ok]

/-- Every block of the list is a live cell. -/
theorem load (blocks : BlocksAt heap memory nodes) {node : Addr × Tile}
    (member : node ∈ nodes) :
    ∃ block, heap.load node.1 = some block ∧ block.tile = node.2 :=
  blocks.linked.seg.load member

end BlocksAt

/-- Changing what is allocated of a block changes nothing else in the list. -/
theorem BlocksAt.mark {heap : Mem Block} {memory block : Addr} {tile : Tile}
    {left right : List (Addr × Tile)} {cell : Block}
    (blocks : BlocksAt heap memory (left ++ (block, tile) :: right))
    (loaded : heap.load block = some cell) (amount : Int) :
    BlocksAt (heap.put block { cell with allocated := amount }) memory
      (left ++ (block, { tile with allocated := amount }) :: right) := by
  obtain ⟨leftSeg, ⟨found, live, payload, previous, following⟩, rightSeg⟩ :=
    seg_append.mp blocks.linked.seg
  obtain ⟨notLeft, notRight, _⟩ := blocks.linked.nodup_middle
  rw [loaded, Option.some.injEq] at live
  subst live
  have fields : cell.tile = tile := payload
  refine ⟨⟨seg_append.mpr ⟨leftSeg.put_of_not_mem notLeft _,
    ⟨_, Mem.load_put_self loaded _, ?_, previous, following⟩,
    rightSeg.put_of_not_mem notRight _⟩, ?_⟩, ?_⟩
  · simp [← fields, blockLinks, Block.tile]
  · have nodup := blocks.linked.nodup
    simp only [addrs, List.map_append, List.map_cons] at nodup ⊢
    exact nodup
  · rw [← blocks.head]
    cases left <;> rfl

theorem initMemory_blocks :
    BlocksAt initMemory.1 initMemory.2
      [(initMemory.2, { start := 0, size := maxSize, allocated := 0 })] := by
  refine ⟨⟨?_, List.nodup_singleton _⟩, rfl⟩
  exact ⟨⟨_, Mem.load_malloc_self Mem.empty _, rfl, rfl, rfl⟩, trivial⟩

/-! ### Searching -/

/-- `node` is a smallest free tile of at least `size`, and the first of those in
the list `left ++ node :: right`. -/
structure FirstSmallest (size : Int) (left : List (Addr × Tile))
    (node : Addr × Tile) (right : List (Addr × Tile)) : Prop where
  free : node.2.allocated = 0
  fits : size ≤ node.2.size
  before : ∀ other ∈ left, other.2.allocated = 0 → size ≤ other.2.size →
    node.2.size < other.2.size
  after : ∀ other ∈ right, other.2.allocated = 0 → size ≤ other.2.size →
    node.2.size ≤ other.2.size

/-- A list has only one such tile. -/
theorem FirstSmallest.unique {size : Int} {left right left' right' :
    List (Addr × Tile)} {node node' : Addr × Tile}
    (first : FirstSmallest size left node right)
    (first' : FirstSmallest size left' node' right')
    (same : left ++ node :: right = left' ++ node' :: right') :
    node = node' := by
  -- Of two different ones the earlier would have to be smaller and larger.
  rcases List.append_eq_append_iff.mp same with
    ⟨gap, split, rest⟩ | ⟨gap, split, rest⟩
  · cases gap with
    | nil => exact (List.cons.inj rest).1
    | cons head gap =>
        obtain ⟨equal, tail⟩ := List.cons.inj rest
        have less := first'.before node (by simp [split, equal]) first.free
          first.fits
        have more := first.after node' (by simp [tail]) first'.free first'.fits
        omega
  · cases gap with
    | nil => exact (List.cons.inj rest).1.symm
    | cons head gap =>
        obtain ⟨equal, tail⟩ := List.cons.inj rest
        have less := first.before node' (by simp [split, equal]) first'.free
          first'.fits
        have more := first'.after node (by simp [tail]) first.free first.fits
        omega

/-- The outcome of searching `nodes` for a free tile of at least `size`. -/
def Best (size : Int) (nodes : List (Addr × Tile)) :
    Option (Addr × Tile) → Prop
  | none => ∀ other ∈ nodes, other.2.allocated = 0 → ¬ size ≤ other.2.size
  | some node => ∃ left right, nodes = left ++ node :: right ∧
      FirstSmallest size left node right

/-- A search has only one outcome. -/
theorem Best.unique {size : Int} {nodes : List (Addr × Tile)}
    {one other : Option (Addr × Tile)} (isBest : Best size nodes one)
    (isBest' : Best size nodes other) : one = other := by
  have inside : ∀ {node left right}, nodes = left ++ node :: right →
      node ∈ nodes := fun split => by simp [split]
  cases one with
  | none =>
      cases other with
      | none => rfl
      | some node =>
          obtain ⟨_, _, split, first⟩ := isBest'
          exact absurd first.fits (isBest node (inside split) first.free)
  | some node =>
      obtain ⟨_, _, split, first⟩ := isBest
      cases other with
      | none => exact absurd first.fits (isBest' node (inside split) first.free)
      | some node' =>
          obtain ⟨_, _, split', first'⟩ := isBest'
          rw [first.unique first' (split.symm.trans split')]

/-- One more block is looked at: it becomes the best one exactly under the test
the loop makes. -/
private theorem Best.extend {size : Int} {seen : List (Addr × Tile)}
    {best : Option (Addr × Tile)} (isBest : Best size seen best)
    (node : Addr × Tile) :
    Best size (seen ++ [node])
      (if node.2.allocated = 0 ∧ size ≤ node.2.size ∧
          (∀ old ∈ best, node.2.size < old.2.size) then some node
        else best) := by
  by_cases taken : node.2.allocated = 0 ∧ size ≤ node.2.size ∧
      (∀ old ∈ best, node.2.size < old.2.size)
  · rw [if_pos taken]
    obtain ⟨free, fits, smaller⟩ := taken
    refine ⟨seen, [], rfl, free, fits, ?_, by simp⟩
    intro other member otherFree otherFits
    cases best with
    | none => exact absurd otherFits (isBest other member otherFree)
    | some old =>
        obtain ⟨left, right, split, first⟩ := isBest
        have less := smaller old rfl
        rw [split, List.mem_append, List.mem_cons] at member
        rcases member with inLeft | same | inRight
        · exact Nat.lt_trans less
            (first.before other inLeft otherFree otherFits)
        · exact same ▸ less
        · exact Nat.lt_of_lt_of_le less
            (first.after other inRight otherFree otherFits)
  · rw [if_neg taken]
    cases best with
    | none =>
        intro other member otherFree otherFits
        rcases List.mem_append.mp member with old | new
        · exact isBest other old otherFree otherFits
        · rw [List.mem_singleton.mp new] at otherFree otherFits
          exact taken ⟨otherFree, otherFits, by simp⟩
    | some old =>
        obtain ⟨left, right, split, first⟩ := isBest
        refine ⟨left, right ++ [node], by simp [split], first.free,
          first.fits, first.before, ?_⟩
        intro other member otherFree otherFits
        rcases List.mem_append.mp member with inRight | new
        · exact first.after other inRight otherFree otherFits
        · rw [List.mem_singleton.mp new] at otherFree otherFits ⊢
          apply Nat.le_of_not_lt
          intro less
          refine taken ⟨otherFree, otherFits, ?_⟩
          intro found same
          rw [Option.mem_def, Option.some.injEq] at same
          exact same ▸ less

/-- The loop of `get_smallest_block_available` keeps the best block seen. -/
private theorem getSmallestLoop_spec {heap : Mem Block} {size : Int}
    {seen rest : List (Addr × Tile)} {best : Option (Addr × Tile)}
    {fuel : Nat}
    (isBest : Best size seen best)
    (seg : Seg blockLinks heap none (seen ++ rest) none) (enough : rest.length ≤ fuel) :
    ∃ final, getSmallestLoop heap size fuel (firstAddr none rest)
        (best.map Prod.fst) = .ok (final.map Prod.fst) ∧
      Best size (seen ++ rest) final := by
  induction rest generalizing seen best fuel with
  | nil =>
      refine ⟨best, ?_, by simpa using isBest⟩
      cases fuel <;> rfl
  | cons node rest ih =>
      cases fuel with
      | zero => simp at enough
      | succ fuel =>
          have shorter : rest.length ≤ fuel := Nat.le_of_succ_le_succ enough
          have regroup : seen ++ node :: rest = (seen ++ [node]) ++ rest := by
            simp
          obtain ⟨cell, loaded, payload, _, following⟩ :=
            (seg_append.mp seg).2.1
          have nodeEq : node.2 = cell.tile := payload.symm
          have next : cell.next = firstAddr none rest := following
          rw [regroup] at seg ⊢
          have extended := isBest.extend node
          obtain ⟨final, run, result⟩ := ih extended seg shorter
          refine ⟨final, ?_, result⟩
          rw [← run, firstAddr_cons, getSmallestLoop, deref_of_load loaded,
            ok_bind, next]
          cases best with
          | none =>
              simp only [Option.map_none, pure_eq_ok, ok_bind]
              congr 1
              simp only [nodeEq, Block.tile, Option.not_mem_none,
                false_imp_iff, implies_true, and_true]
              split <;> rfl
          | some old =>
              obtain ⟨left, right, split, _⟩ := isBest
              have oldMember : old ∈ (seen ++ [node]) ++ rest := by
                simp [split]
              obtain ⟨oldCell, oldLoaded, oldPayload⟩ := seg.load oldMember
              have oldEq : old.2 = oldCell.tile := oldPayload.symm
              simp only [Option.map_some, deref_of_load oldLoaded, ok_bind,
                pure_eq_ok]
              congr 1
              simp only [nodeEq, oldEq, Block.tile, Option.mem_def,
                Option.some.injEq, forall_eq', decide_eq_true_eq]
              split <;> rfl

/-- `get_smallest_block_available` finds the first of the smallest free blocks
of the requested size, if there is one. -/
theorem getSmallestBlockAvailable_spec {heap : Mem Block} {memory : Addr}
    {nodes : List (Addr × Tile)} (blocks : BlocksAt heap memory nodes)
    (size : Int) :
    ∃ best, getSmallestBlockAvailable heap (some memory) size =
        .ok (best.map Prod.fst) ∧ Best size nodes best := by
  have nothing : Best size [] none := by simp [Best]
  obtain ⟨final, run, result⟩ :=
    getSmallestLoop_spec nothing blocks.linked.seg blocks.linked.length_le
  refine ⟨final, ?_, result⟩
  rw [getSmallestBlockAvailable, ← blocks.head]
  exact run

/-- Without a block that is large enough an allocation fails and changes nothing. -/
theorem allocateMemory_none {heap : Mem Block} {memory : Addr} {size : Int}
    (search : getSmallestBlockAvailable heap (some memory) size = .ok none) :
    allocateMemory heap memory size = .ok (heap, none) := by
  rw [allocateMemory, search, ok_bind]
  rfl

/-! ### Splitting

`split_block` works on a list that is coalesced, and leaves one that is not: the
two halves are free buddies of each other.  Between the first split and the last
only the block the loop is working on may have a free buddy, which is what a
pending tiling says.  The loop ends with that block, allocated afterwards, so that
its buddy may stay free.
-/

/-- What the head of a list is does not depend on its tiles. -/
private theorem firstAddr_middle {left right rest : List (Addr × Tile)}
    {address : Addr} {one other : Tile} :
    firstAddr none (left ++ (address, one) :: right) =
      firstAddr none (left ++ (address, other) :: rest) := by
  cases left <;> rfl

/-- `split_block` halves a block and puts a new free block behind it. -/
theorem splitBlock_spec {heap : Mem Block} {memory block : Addr} {tile : Tile}
    {left right : List (Addr × Tile)}
    (blocks : BlocksAt heap memory (left ++ (block, tile) :: right)) :
    ∃ heap', splitBlock heap block = .ok heap' ∧
      heap'.cells.length = heap.cells.length + 1 ∧
      BlocksAt heap' memory
        (left ++ (block, { tile with size := tile.size / 2 }) ::
          (heap.cells.length,
            { start := tile.start + tile.size / 2, size := tile.size / 2,
              allocated := 0 }) :: right) := by
  obtain ⟨seg, nodup⟩ := blocks.linked
  obtain ⟨notLeft, notRight, apart⟩ := blocks.linked.nodup_middle
  obtain ⟨leftSeg, ⟨cell, loaded, payload, previous, following⟩, rightSeg⟩ :=
    seg_append.mp seg
  have fields : cell.tile = tile := payload
  have next : cell.next = firstAddr none right := following
  have unused : ∀ node ∈ left ++ (block, tile) :: right,
      node.1 ≠ heap.cells.length := by
    intro node member
    obtain ⟨found, live, _⟩ := seg.load member
    exact Nat.ne_of_lt (Mem.lt_length_of_load live)
  have blockNe : block ≠ heap.cells.length := unused (block, tile) (by simp)
  -- The memory after the three updates that always happen.
  let halved : Block := { cell with size := cell.size / 2 }
  let fresh : Block :=
    { size := halved.size, start := halved.start + halved.size,
      allocated := 0, next := halved.next, prev := some block }
  let first := heap.put block halved
  let second := (first.malloc fresh).1
  let third :=
    second.put block { halved with next := some heap.cells.length }
  have freshAddr : (first.malloc fresh).2 = heap.cells.length := by
    simp [first]
  have firstLoad : first.load block = some halved :=
    Mem.load_put_self loaded halved
  have secondLoad : second.load block = some halved :=
    Mem.load_malloc_of_live firstLoad fresh
  have thirdLeft : Seg blockLinks third none left (some block) :=
    ((leftSeg.put_of_not_mem notLeft halved).malloc fresh).put_of_not_mem
      notLeft _
  have thirdRight : Seg blockLinks third (some block) right none :=
    ((rightSeg.put_of_not_mem notRight halved).malloc fresh).put_of_not_mem
      notRight _
  have thirdBlock : third.load block =
      some { halved with next := some heap.cells.length } :=
    Mem.load_put_self secondLoad _
  have thirdFresh : third.load heap.cells.length = some fresh := by
    rw [Mem.load_put_of_ne _ blockNe.symm, ← freshAddr]
    exact Mem.load_malloc_self first fresh
  have nodupParts : (addrs right).Nodup := by
    have parts := nodup
    rw [addrs, List.map_append, List.nodup_append, List.map_cons,
      List.nodup_cons] at parts
    exact parts.2.1.2
  obtain ⟨heap', relinked, rightSeg', kept, length⟩ :=
    thirdRight.relink nodupParts
      (f := fun n => { n with prev := some heap.cells.length })
      (fun _ => rfl) (fun _ => rfl) (fun _ => rfl)
  have leftSeg' : Seg blockLinks heap' none left (some block) :=
    thirdLeft.frame fun address member => kept address (apart address member)
  have freshRight : heap.cells.length ∉ addrs right := by
    intro member
    obtain ⟨node, inside, same⟩ := List.mem_map.mp member
    exact unused node (by simp [inside]) same
  have blockLoad := (kept block notRight).trans thirdBlock
  have freshLoad := (kept _ freshRight).trans thirdFresh
  refine ⟨heap', ?_, ?_, ⟨seg_append.mpr ⟨leftSeg', ?_, ?_, rightSeg'⟩, ?_⟩, ?_⟩
  · rw [splitBlock, update_of_load loaded, ok_bind, deref_of_load firstLoad,
      ok_bind]
    show (update second block
      (fun b => { b with next := some (first.malloc fresh).2 }) >>= _) = _
    rw [update_of_load secondLoad, ok_bind, freshAddr, ← relinked, ← next]
    simp only [Mem.length_put]
    rfl
  · rw [length]
    simp [third, second, first]
  · refine ⟨_, blockLoad, ?_, previous, rfl⟩
    simp [← fields, blockLinks, Block.tile, halved]
  · refine ⟨fresh, freshLoad, ?_, rfl, next⟩
    simp [← fields, blockLinks, Block.tile, fresh, halved]
  · have moved : (heap.cells.length ::
        addrs (left ++ (block, tile) :: right)).Nodup := by
      refine List.nodup_cons.mpr ⟨?_, nodup⟩
      intro member
      obtain ⟨node, inside, same⟩ := List.mem_map.mp member
      exact unused node inside same
    refine (List.Perm.nodup_iff ?_).mp moved
    simp only [addrs, List.map_append, List.map_cons]
    refine List.Perm.trans List.perm_middle.symm ?_
    exact List.Perm.append_left _ (List.Perm.swap _ _ _)
  · rw [← blocks.head]
    exact firstAddr_middle

@[simp] theorem log2Floor_two_pow (k : Nat) : log2Floor (2 ^ k) = k := by
  rw [log2Floor, if_neg (Nat.pos_iff_ne_zero.mp (Nat.two_pow_pos k)),
    Nat.log2_two_pow]

/-- The order `allocate_memory` asks for belongs to the least power of two that
is not below the requested size. -/
theorem log2Ceil_spec {size : Int} (positive : 1 ≤ size) :
    ∃ order : Nat, log2Ceil size = order ∧ size ≤ (2 ^ order : Nat) ∧
      ((2 ^ order / 2 : Nat) : Int) < size := by
  obtain ⟨n, rfl⟩ := Int.eq_ofNat_of_zero_le (Int.le_of_lt positive)
  have nonzero : n ≠ 0 := by omega
  have floorLe := Nat.log2_self_le nonzero
  have floorLt : n < 2 ^ (n.log2 + 1) := (Nat.log2_lt nonzero).mp
    (Nat.lt_succ_self _)
  rw [log2Ceil, if_neg (by omega), Int.toNat_natCast]
  by_cases exact : 2 ^ n.log2 = n
  · refine ⟨n.log2, by rw [if_pos exact], by omega, by omega⟩
  · refine ⟨n.log2 + 1, by rw [if_neg exact]; rfl, by omega, ?_⟩
    rw [Nat.pow_succ, Nat.mul_div_cancel _ (by decide)]
    omega

/-- No smaller power of two would do. -/
theorem order_le {size : Int} {order k : Nat}
    (tight : ((2 ^ order / 2 : Nat) : Int) < size)
    (fits : size ≤ (2 ^ k : Nat)) : order ≤ k := by
  apply Nat.le_of_not_lt
  intro less
  obtain ⟨extra, rfl⟩ := Nat.exists_eq_add_of_lt less
  have large : 2 ^ k ≤ 2 ^ (k + extra + 1) / 2 := by
    rw [Nat.pow_succ, Nat.mul_div_cancel _ (by decide)]
    exact Nat.pow_le_pow_right (by decide) (Nat.le_add_right k extra)
  omega

/-- The splitting loop halves the chosen block down to the required order and
leaves the right halves behind it as free blocks. -/
theorem splitLoop_spec {order k fuel : Nat} {heap : Mem Block}
    {memory block : Addr} {tile : Tile} {left right : List (Addr × Tile)}
    (le : order ≤ k) (enough : k - order < fuel) (size : tile.size = 2 ^ k)
    (blocks : BlocksAt heap memory (left ++ (block, tile) :: right))
    (pending : Pending tileShape 0 (tiles left) tile (tiles right) maxSize) :
    ∃ heap' halves, splitLoop order block fuel heap = .ok heap' ∧
      BlocksAt heap' memory
        (left ++ (block, { tile with size := 2 ^ order }) ::
          (halves ++ right)) ∧
      Pending tileShape 0 (tiles left) { tile with size := 2 ^ order }
        (tiles (halves ++ right)) maxSize ∧
      ∀ node ∈ halves, node.2.allocated = 0 ∧ heap.cells.length ≤ node.1 := by
  induction fuel generalizing k heap tile right with
  | zero => simp at enough
  | succ fuel ih =>
      have member : (block, tile) ∈ left ++ (block, tile) :: right := by simp
      obtain ⟨cell, loaded, payload⟩ := blocks.load member
      have fields : cell.tile = tile := payload
      have cellSize : cell.size = 2 ^ k := by
        rw [← size, ← fields]
        rfl
      rw [splitLoop, deref_of_load loaded, ok_bind, cellSize,
        log2Floor_two_pow]
      rcases Nat.eq_or_lt_of_le le with same | less
      · subst same
        have unchanged : { tile with size := 2 ^ order } = tile := by
          rw [← size]
        refine ⟨heap, [], by simp, ?_, ?_, by simp⟩
        · rw [unchanged]
          exact blocks
        · rw [unchanged]
          exact pending
      · rw [if_pos (by omega)]
        obtain ⟨middle, run, grown, blocks'⟩ := splitBlock_spec blocks
        obtain ⟨j, rfl⟩ : ∃ j, k = j + 1 :=
          Nat.exists_eq_succ_of_ne_zero (by omega)
        have half : tile.size / 2 = 2 ^ j := by
          rw [size, Nat.pow_succ, Nat.mul_div_cancel _ (by decide)]
        have large : 1 < tile.size := by
          rw [size]
          exact Nat.one_lt_two_pow (Nat.succ_ne_zero j)
        have pending' : Pending tileShape 0 (tiles left)
            { tile with size := tile.size / 2 }
            ({ start := tile.start + tile.size / 2, size := tile.size / 2,
               allocated := 0 } :: tiles right) maxSize :=
          pending.split large rfl rfl rfl rfl
        obtain ⟨heap', halves, rest, finalBlocks, finalPending, fresh⟩ :=
          ih (Nat.le_of_lt_succ less) (by omega) half blocks' pending'
        refine ⟨heap', halves ++ [(heap.cells.length,
          { start := tile.start + tile.size / 2, size := tile.size / 2,
            allocated := 0 })], ?_, ?_, ?_, ?_⟩
        · rw [run, ok_bind]
          exact rest
        · rw [List.append_assoc]
          exact finalBlocks
        · rw [List.append_assoc]
          exact finalPending
        · intro node member
          rcases List.mem_append.mp member with older | newest
          · obtain ⟨free, above⟩ := fresh node older
            exact ⟨free, by omega⟩
          · rw [List.mem_singleton.mp newest]
            exact ⟨rfl, Nat.le_refl _⟩

/-! ### Merging

Giving a block back turns the argument around: the freed block is the only one
that may have a free buddy.  `merge_block` looks at one neighbour, the one on the
side where the buddy would be.  If that is the buddy, and free, the left one of
the two takes over the right one and is the pending block from then on; if not,
no block of the list is the buddy, and the list is coalesced again.  There is one
block less with each merge, which bounds the recursion.
-/

theorem live_append (left right : List (Addr × Tile)) :
    live (left ++ right) = live left ++ live right :=
  List.filter_append ..

theorem live_cons_free {node : Addr × Tile} (free : node.2.allocated = 0)
    (rest : List (Addr × Tile)) : live (node :: rest) = live rest := by
  simp [live, free]

theorem live_cons_used {node : Addr × Tile} (used : node.2.allocated ≠ 0)
    (rest : List (Addr × Tile)) : live (node :: rest) = node :: live rest := by
  simp [live, used]

/-- Releasing a cell that is not in the list leaves the list alone. -/
theorem BlocksAt.drop {heap : Mem Block} {memory block : Addr}
    {nodes : List (Addr × Tile)} (blocks : BlocksAt heap memory nodes)
    (outside : block ∉ addrs nodes) :
    BlocksAt (heap.drop block) memory nodes :=
  ⟨⟨blocks.linked.seg.drop_of_not_mem outside, blocks.linked.nodup⟩,
    blocks.head⟩

/-- Both branches of `merge_block` let the left one of two neighbours take over
the right one, whose cell is then no longer in the list. -/
theorem absorb_spec {heap : Mem Block} {memory survivor absorbed : Addr}
    {tile other : Tile} {left right : List (Addr × Tile)}
    {cell otherCell : Block}
    (blocks : BlocksAt heap memory
      (left ++ (survivor, tile) :: (absorbed, other) :: right))
    (loaded : heap.load survivor = some cell)
    (otherLoaded : heap.load absorbed = some otherCell) :
    ∃ heap', updateIfPtr
        (heap.put survivor
          { cell with size := cell.size * 2, next := otherCell.next })
        otherCell.next (fun n => { n with prev := some survivor }) =
          .ok heap' ∧
      heap'.load absorbed = some otherCell ∧
      absorbed ∉ addrs
        (left ++ (survivor, { tile with size := tile.size * 2 }) :: right) ∧
      BlocksAt heap' memory
        (left ++ (survivor, { tile with size := tile.size * 2 }) :: right) := by
  obtain ⟨seg, nodup⟩ := blocks.linked
  obtain ⟨notLeft, notRest, apart⟩ := blocks.linked.nodup_middle
  have regroup : left ++ (survivor, tile) :: (absorbed, other) :: right =
      (left ++ [(survivor, tile)]) ++ (absorbed, other) :: right := by simp
  have linked := blocks.linked
  rw [regroup] at linked
  obtain ⟨otherNotLeft, otherNotRight, _⟩ := linked.nodup_middle
  have survivorNe : survivor ≠ absorbed := by
    intro same
    exact otherNotLeft (by simp [same])
  have notRight : survivor ∉ addrs right := fun member =>
    notRest (List.mem_cons_of_mem _ member)
  obtain ⟨leftSeg, ⟨found, live, payload, previous, _⟩,
    ⟨otherFound, otherLive, _, _, following⟩, rightSeg⟩ := seg_append.mp seg
  rw [loaded, Option.some.injEq] at live
  rw [otherLoaded, Option.some.injEq] at otherLive
  subst live otherLive
  have fields : cell.tile = tile := payload
  have next : otherCell.next = firstAddr none right := following
  let merged : Block :=
    { cell with size := cell.size * 2, next := otherCell.next }
  have rightNodup : (addrs right).Nodup := by
    have parts := linked.nodup
    rw [addrs, List.map_append, List.nodup_append, List.map_cons,
      List.nodup_cons] at parts
    exact parts.2.1.2
  obtain ⟨heap', relinked, rightSeg', kept, _⟩ :=
    (rightSeg.put_of_not_mem notRight merged).relink rightNodup
      (f := fun n => { n with prev := some survivor })
      (fun _ => rfl) (fun _ => rfl) (fun _ => rfl)
  have survivorLoad : heap'.load survivor = some merged :=
    (kept survivor notRight).trans (Mem.load_put_self loaded merged)
  refine ⟨heap', ?_, ?_, ?_, ⟨⟨?_, ?_⟩, ?_⟩⟩
  · rw [← next] at relinked
    exact relinked
  · rw [kept absorbed otherNotRight,
      Mem.load_put_of_ne heap survivorNe.symm, otherLoaded]
  · simp only [addrs, List.map_append, List.map_cons, List.mem_append,
      List.mem_cons, not_or]
    simp only [addrs, List.map_append, List.mem_append, not_or] at otherNotLeft
    exact ⟨otherNotLeft.1, survivorNe.symm, otherNotRight⟩
  · refine seg_append.mpr ⟨?_, ⟨merged, survivorLoad, ?_, previous, next⟩,
      rightSeg'⟩
    · refine (leftSeg.put_of_not_mem notLeft merged).frame ?_
      intro address member
      exact kept address fun inRight =>
        apart address member (List.mem_cons_of_mem _ inRight)
    · simp [← fields, blockLinks, Block.tile, merged]
  · have sublist : (addrs
        (left ++ (survivor, { tile with size := tile.size * 2 }) :: right)).Sublist
        (addrs (left ++ (survivor, tile) :: (absorbed, other) :: right)) := by
      simp only [addrs, List.map_append, List.map_cons]
      exact List.Sublist.append_left
        ((List.sublist_cons_self _ _).cons_cons _) _
    exact nodup.sublist sublist
  · rw [← blocks.head]
    exact firstAddr_middle

/-- The left one of two neighbours has taken over the right one: the heap holds
this list, and no cell has become live. -/
structure Joined (heap merged : Mem Block) (memory absorbed : Addr)
    (nodes : List (Addr × Tile)) : Prop where
  blocks : BlocksAt merged memory nodes
  live : ∀ address, merged.load address ≠ none →
    address ≠ absorbed ∧ heap.load address ≠ none

/-- Releasing the cell that was taken over joins the two neighbours. -/
theorem joined_drop {heap heap' : Mem Block} {memory survivor absorbed : Addr}
    {cell grown : Block} {next : Option Addr} {f : Block → Block}
    {nodes : List (Addr × Tile)} (loaded : heap.load survivor = some cell)
    (relinked : updateIfPtr (heap.put survivor grown) next f = .ok heap')
    (outside : absorbed ∉ addrs nodes) (blocks : BlocksAt heap' memory nodes) :
    Joined heap (heap'.drop absorbed) memory absorbed nodes := by
  refine ⟨blocks.drop outside, ?_⟩
  intro address live
  have apart : address ≠ absorbed := by
    rintro rfl
    exact live (Mem.load_drop_self heap' address)
  rw [Mem.load_drop_of_ne _ apart] at live
  exact ⟨apart, live_of_put loaded (live_of_updateIfPtr relinked live)⟩

/-- What one call of `merge_block` does: it returns when the neighbour on the
side of the buddy is no free block of the same size; otherwise the left one of
the two takes over the right one, and it is called on that. -/
theorem mergeBlock_cases (fuel : Nat) {heap : Mem Block} {memory block : Addr}
    {tile : Tile} {left right : List (Addr × Tile)}
    (blocks : BlocksAt heap memory (left ++ (block, tile) :: right)) :
    (mergeBlock memory (fuel + 1) heap block = .ok heap ∧
      (tile.start ^^^ tile.size > tile.start → ∀ node ∈ right.head?,
        ¬ (node.2.size = tile.size ∧ node.2.allocated = 0)) ∧
      (¬ tile.start ^^^ tile.size > tile.start → ∀ node ∈ left.getLast?,
        ¬ (node.2.size = tile.size ∧ node.2.allocated = 0))) ∨
    (∃ buddy other rest merged, right = (buddy, other) :: rest ∧
      tile.start ^^^ tile.size > tile.start ∧
      (other.size = tile.size ∧ other.allocated = 0) ∧
      mergeBlock memory (fuel + 1) heap block =
        mergeBlock memory fuel merged block ∧
      Joined heap merged memory buddy
        (left ++ (block, { tile with size := tile.size * 2 }) :: rest)) ∨
    ∃ front buddy other merged, left = front ++ [(buddy, other)] ∧
      ¬ tile.start ^^^ tile.size > tile.start ∧
      (other.size = tile.size ∧ other.allocated = 0) ∧
      mergeBlock memory (fuel + 1) heap block =
        mergeBlock memory fuel merged buddy ∧
      Joined heap merged memory block
        (front ++ (buddy, { other with size := other.size * 2 }) :: right) := by
  obtain ⟨_, ⟨cell, loaded, payload, previous, following⟩, _⟩ :=
    seg_append.mp blocks.linked.seg
  have fields : cell.tile = tile := payload
  have startEq : cell.start = tile.start := congrArg Tile.start fields
  have sizeEq : cell.size = tile.size := congrArg Tile.size fields
  have next : cell.next = firstAddr none right := following
  have prev : cell.prev = lastAddr none left := previous
  rw [mergeBlock, deref_of_load loaded, ok_bind, startEq, sizeEq]
  by_cases onRight : tile.start ^^^ tile.size > tile.start
  · simp only [onRight, if_true, next]
    cases right with
    | nil => exact Or.inl ⟨rfl, by simp, fun onLeft => absurd trivial onLeft⟩
    | cons node rest =>
        obtain ⟨buddy, other⟩ := node
        have member : (buddy, other) ∈
            left ++ (block, tile) :: (buddy, other) :: rest := by simp
        obtain ⟨otherCell, otherLoaded, otherPayload⟩ := blocks.load member
        have otherFields : otherCell.tile = other := otherPayload
        have otherSize : otherCell.size = other.size :=
          congrArg Tile.size otherFields
        have otherAllocated : otherCell.allocated = other.allocated :=
          congrArg Tile.allocated otherFields
        simp only [firstAddr_cons, deref_of_load otherLoaded, ok_bind,
          otherSize, otherAllocated]
        by_cases mergeable : other.size = tile.size ∧ other.allocated = 0
        · obtain ⟨middle, run, absorbedLoad, outside, merged⟩ :=
            absorb_spec blocks loaded otherLoaded
          rw [if_pos mergeable, update_of_load loaded, ok_bind, run, ok_bind,
            merged.printMemo_eq, ok_bind, release_of_load absorbedLoad, ok_bind]
          exact Or.inr (Or.inl ⟨buddy, other, rest, _, rfl, trivial, mergeable,
            rfl, joined_drop loaded run outside merged⟩)
        · rw [if_neg mergeable]
          refine Or.inl ⟨rfl, ?_, fun onLeft => absurd trivial onLeft⟩
          intro _ node isNext
          rw [List.head?_cons, Option.mem_def, Option.some.injEq] at isNext
          exact isNext ▸ mergeable
  · simp only [onRight, if_false, prev]
    rcases List.eq_nil_or_concat left with empty | ⟨front, node, split⟩
    · subst empty
      exact Or.inl ⟨rfl, fun onRight => absurd onRight id, by simp⟩
    · rw [List.concat_eq_append] at split
      subst split
      obtain ⟨buddy, other⟩ := node
      have regroup : (front ++ [(buddy, other)]) ++ (block, tile) :: right =
          front ++ (buddy, other) :: (block, tile) :: right := by simp
      rw [regroup] at blocks
      have member : (buddy, other) ∈
          front ++ (buddy, other) :: (block, tile) :: right := by simp
      obtain ⟨otherCell, otherLoaded, otherPayload⟩ := blocks.load member
      have otherFields : otherCell.tile = other := otherPayload
      have otherSize : otherCell.size = other.size :=
        congrArg Tile.size otherFields
      have otherAllocated : otherCell.allocated = other.allocated :=
        congrArg Tile.allocated otherFields
      simp only [lastAddr_append_singleton, deref_of_load otherLoaded,
        ok_bind, otherSize, otherAllocated]
      by_cases mergeable : other.size = tile.size ∧ other.allocated = 0
      · obtain ⟨middle, run, absorbedLoad, outside, merged⟩ :=
          absorb_spec blocks otherLoaded loaded
        rw [if_pos mergeable, update_of_load otherLoaded, ok_bind, run,
          ok_bind, release_of_load absorbedLoad, ok_bind]
        exact Or.inr (Or.inr ⟨front, buddy, other, _, rfl, id, mergeable, rfl,
          joined_drop otherLoaded run outside merged⟩)
      · rw [if_neg mergeable]
        refine Or.inl ⟨rfl, fun onRight => absurd onRight id, ?_⟩
        intro _ node isPrevious
        rw [List.getLast?_concat, Option.mem_def, Option.some.injEq]
          at isPrevious
        exact isPrevious ▸ mergeable

/-- `merge_block` on a free block that is the only one that may lack its buddy:
it returns, the list is coalesced again, and the allocated blocks are the same
ones as before, at the same addresses. -/
theorem mergeBlock_spec {fuel : Nat} {heap : Mem Block} {memory block : Addr}
    {tile : Tile} {left right : List (Addr × Tile)}
    (blocks : BlocksAt heap memory (left ++ (block, tile) :: right))
    (pending : Pending tileShape 0 (tiles left) tile (tiles right) maxSize)
    (free : tile.allocated = 0)
    (enough : (left ++ (block, tile) :: right).length ≤ fuel) :
    ∃ heap' nodes, mergeBlock memory fuel heap block = .ok heap' ∧
      BlocksAt heap' memory nodes ∧
      Buddied tileShape 0 (tiles nodes) maxSize ∧
      live nodes = live left ++ live right := by
  induction fuel generalizing heap block tile left right with
  | zero => simp at enough
  | succ fuel ih =>
      have isLeft_iff : tile.start ^^^ tile.size > tile.start ↔
          2 * tile.size ∣ tile.start := pending.tile_aligned.lt_xor_iff
      rcases mergeBlock_cases fuel blocks with
        ⟨stops, nextStays, previousStays⟩ |
        ⟨buddy, other, rest, merged, rfl, onRight, mergeable, goes, joined⟩ |
        ⟨front, buddy, other, merged, rfl, onLeft, mergeable, goes, joined⟩
      · refine ⟨heap, _, stops, blocks, ?_, ?_⟩
        · rw [tiles, List.map_append]
          by_cases isLeft : 2 * tile.size ∣ tile.start
          · apply pending.finish_left_half isLeft
            intro found isNext foundFree same
            rw [tiles, List.head?_map] at isNext
            obtain ⟨node, first, rfl⟩ := Option.map_eq_some_iff.mp isNext
            exact nextStays (isLeft_iff.mpr isLeft) node first ⟨same, foundFree⟩
          · apply pending.finish_right_half isLeft
            intro found isPrevious foundFree same
            rw [tiles, List.getLast?_map] at isPrevious
            obtain ⟨node, last, rfl⟩ := Option.map_eq_some_iff.mp isPrevious
            exact previousStays (fun above => isLeft (isLeft_iff.mp above)) node
              last ⟨same, foundFree⟩
        · rw [live_append, live_cons_free free]
      · have shorter : (left ++ (block,
            { tile with size := tile.size * 2 }) :: rest).length ≤ fuel := by
          simp only [List.length_append, List.length_cons] at enough ⊢
          omega
        obtain ⟨heap', nodes, run, final, buddied, same⟩ :=
          ih joined.blocks (pending.mergeRight (isLeft_iff.mp onRight)
            mergeable.1 rfl (Nat.mul_comm _ _)) free shorter
        refine ⟨heap', nodes, goes.trans run, final, buddied, ?_⟩
        rw [same, live_cons_free mergeable.2]
      · have shorter : (front ++ (buddy,
            { other with size := other.size * 2 }) :: right).length ≤ fuel := by
          simp only [List.length_append, List.length_cons] at enough ⊢
          omega
        have pending' : Pending tileShape 0 (tiles front ++ [other]) tile
            (tiles right) maxSize := by
          simpa [tiles] using pending
        have isRight : ¬ 2 * tile.size ∣ tile.start := fun isLeft =>
          onLeft (isLeft_iff.mpr isLeft)
        obtain ⟨heap', nodes, run, final, buddied, same⟩ :=
          ih joined.blocks (pending'.mergeLeft isRight mergeable.1 rfl (by
            show other.size * 2 = 2 * tile.size
            rw [mergeable.1, Nat.mul_comm])) mergeable.2 shorter
        refine ⟨heap', nodes, goes.trans run, final, buddied, ?_⟩
        rw [same, live_append, live_cons_free mergeable.2]
        simp [live]

end OsSim
