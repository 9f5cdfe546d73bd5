/-
Module: OsSim.BuddyIntact
Purpose: What holds of the block list for requests of any size, zero and
  negative ones included, as long as no released block is touched.
Trusted boundary: none
Main exports:
  Intact, Intact.initial, Intact.allocate, Intact.deallocate
-/
import OsSim.BuddyList

namespace OsSim

open PointerMemory
open DoublyLinked

/-! ### The list without a promise about the requests

A request for no byte halves blocks down to size zero, and then sizes and starts
no longer tell where a block lies.  What is left is the list itself: its links,
and that its cells are the live ones.  Splitting, merging and marking keep that
whatever the sizes are.
-/

/-- Every block size is a power of two, or zero after halving a block of one
byte. -/
def Halved (size : Nat) : Prop := size = 0 ∨ ∃ k, size = 2 ^ k

theorem Halved.half {size : Nat} (halved : Halved size) : Halved (size / 2) := by
  rcases halved with zero | ⟨k, power⟩
  · exact Or.inl (by rw [zero])
  · cases k with
    | zero => exact Or.inl (by rw [power]; rfl)
    | succ k =>
        refine Or.inr ⟨k, ?_⟩
        rw [power, Nat.pow_succ, Nat.mul_div_cancel _ (by decide)]

theorem Halved.double {size : Nat} (halved : Halved size) :
    Halved (size * 2) := by
  rcases halved with zero | ⟨k, power⟩
  · exact Or.inl (by rw [zero])
  · exact Or.inr ⟨k + 1, by rw [power, Nat.pow_succ]⟩

/-- The heap holds this block list and no other live block. -/
structure Intact (heap : Mem Block) (memory : Addr)
    (nodes : List (Addr × Tile)) : Prop where
  blocks : BlocksAt heap memory nodes
  halved : ∀ node ∈ nodes, Halved node.2.size
  complete : ∀ address, heap.load address ≠ none → address ∈ addrs nodes

namespace Intact

variable {heap : Mem Block} {memory : Addr} {nodes : List (Addr × Tile)}

theorem initial :
    Intact initMemory.1 initMemory.2
      [(initMemory.2, { start := 0, size := maxSize, allocated := 0 })] where
  blocks := initMemory_blocks
  halved := by
    intro node member
    rw [List.mem_singleton.mp member]
    exact Or.inr ⟨10, rfl⟩
  complete := by
    intro address live
    by_cases first : address = initMemory.2
    · simp [first]
    · rw [initMemory, Mem.load_malloc_of_ne _ _ first] at live
      simp at live

/-- Changing what is allocated of a block keeps the list intact. -/
theorem mark {block : Addr} {tile : Tile} {left right : List (Addr × Tile)}
    {cell : Block}
    (intact : Intact heap memory (left ++ (block, tile) :: right))
    (loaded : heap.load block = some cell) (amount : Int) :
    Intact (heap.put block { cell with allocated := amount }) memory
      (left ++ (block, { tile with allocated := amount }) :: right) := by
  refine ⟨intact.blocks.mark loaded amount, ?_, ?_⟩
  · intro node member
    simp only [List.mem_append, List.mem_cons] at member
    rcases member with inLeft | rfl | inRight
    · exact intact.halved node (by simp [inLeft])
    · exact intact.halved (block, tile) (by simp)
    · exact intact.halved node (by simp [inRight])
  · intro address live
    have old := intact.complete address (live_of_put loaded live)
    simpa [addrs] using old

/-! ### Splitting -/

/-- `split_block` makes one more address live, that of the new block. -/
theorem live_of_splitBlock {heap' : Mem Block} {block : Addr}
    (split : OsSim.splitBlock heap block = .ok heap') {address : Addr}
    (live : heap'.load address ≠ none) :
    heap.load address ≠ none ∨ address = heap.cells.length := by
  obtain ⟨first, halved, rest⟩ := bind_eq_ok.mp split
  obtain ⟨cell, _, rest⟩ := bind_eq_ok.mp rest
  obtain ⟨third, linked, rest⟩ := bind_eq_ok.mp rest
  have length : first.cells.length = heap.cells.length := by
    rw [update] at halved
    cases found : heap.load block with
    | none => simp [found] at halved
    | some old =>
        simp only [found, Except.ok.injEq] at halved
        rw [← halved, Mem.length_put]
  have live' := live_of_updateIfPtr rest live
  have written : updateIfPtr (first.malloc _).1 (some block) _ = .ok third :=
    linked
  by_cases new : address = first.cells.length
  · exact Or.inr (new.trans length)
  · have old := live_of_updateIfPtr written live'
    rw [Mem.load_malloc_of_ne _ _ new] at old
    have halved' : updateIfPtr heap (some block) _ = .ok first := halved
    exact Or.inl (live_of_updateIfPtr halved' old)

/-- Halving a block keeps the list intact. -/
theorem splitBlock {block : Addr} {tile : Tile}
    {left right : List (Addr × Tile)}
    (intact : Intact heap memory (left ++ (block, tile) :: right)) :
    ∃ heap' new, OsSim.splitBlock heap block = .ok heap' ∧
      Intact heap' memory
        (left ++ (block, { tile with size := tile.size / 2 }) ::
          new :: right) := by
  obtain ⟨heap', run, _, blocks⟩ := splitBlock_spec intact.blocks
  refine ⟨heap', _, run, blocks, ?_, ?_⟩
  · have half : Halved (tile.size / 2) :=
      (intact.halved (block, tile) (by simp)).half
    intro node member
    simp only [List.mem_append, List.mem_cons] at member
    rcases member with inLeft | rfl | rfl | inRight
    · exact intact.halved node (by simp [inLeft])
    · exact half
    · exact half
    · exact intact.halved node (by simp [inRight])
  · intro address live
    have old := intact.complete address
    simp only [addrs, List.map_append, List.map_cons, List.mem_append,
      List.mem_cons] at old ⊢
    rcases live_of_splitBlock run live with before | new
    · rcases old before with inLeft | here | inRight
      · exact Or.inl inLeft
      · exact Or.inr (Or.inl here)
      · exact Or.inr (Or.inr (Or.inr inRight))
    · exact Or.inr (Or.inr (Or.inl new))

/-- The splitting loop returns when some number of halvings leads to the order
it asks for. -/
theorem splitLoop {order : Int} {fuel : Nat} {block : Addr} {tile : Tile}
    {left right : List (Addr × Tile)}
    (intact : Intact heap memory (left ++ (block, tile) :: right))
    (reaches : ∃ j < fuel, log2Floor (tile.size / 2 ^ j) = order) :
    ∃ heap' tile' right',
      OsSim.splitLoop order block fuel heap = .ok heap' ∧
      Intact heap' memory (left ++ (block, tile') :: right') := by
  induction fuel generalizing heap tile right with
  | zero =>
      obtain ⟨j, impossible, _⟩ := reaches
      omega
  | succ fuel ih =>
      have member : (block, tile) ∈ left ++ (block, tile) :: right := by simp
      obtain ⟨cell, loaded, payload⟩ := intact.blocks.load member
      have size : cell.size = tile.size := congrArg Tile.size payload
      rw [OsSim.splitLoop, deref_of_load loaded, ok_bind, size]
      by_cases done : log2Floor tile.size = order
      · rw [if_neg (not_not_intro done)]
        exact ⟨heap, tile, right, rfl, intact⟩
      · rw [if_pos done]
        obtain ⟨middle, new, run, intact'⟩ := intact.splitBlock
        obtain ⟨j, bound, ends⟩ := reaches
        obtain ⟨i, rfl⟩ : ∃ i, j = i + 1 := by
          apply Nat.exists_eq_succ_of_ne_zero
          rintro rfl
          rw [Nat.pow_zero, Nat.div_one] at ends
          exact done ends
        rw [run, ok_bind]
        apply ih intact'
        refine ⟨i, Nat.lt_of_succ_lt_succ bound, ?_⟩
        rw [Nat.div_div_eq_div_mul, Nat.mul_comm, ← Nat.pow_succ]
        exact ends

/-- Halving a block that is large enough leads to the order that
`allocate_memory` computes from the request. -/
theorem reaches_log2Ceil {size : Int} {whole : Nat} (halved : Halved whole)
    (fits : size ≤ whole) :
    ∃ j < whole + 2, log2Floor (whole / 2 ^ j) = log2Ceil size := by
  by_cases positive : 1 ≤ size
  · obtain ⟨order, orderEq, _, tight⟩ := log2Ceil_spec positive
    rcases halved with zero | ⟨k, power⟩
    · omega
    · have le : order ≤ k := order_le tight (power ▸ fits)
      have bound : k < 2 ^ k := Nat.lt_two_pow_self
      refine ⟨k - order, by omega, ?_⟩
      rw [orderEq, power, Nat.pow_div (Nat.sub_le k order) (by decide),
        Nat.sub_sub_self le, log2Floor_two_pow]
  · -- The loop only stops for such a request when the size has become zero.
    refine ⟨whole, by omega, ?_⟩
    rw [Nat.div_eq_of_lt Nat.lt_two_pow_self, log2Floor, if_pos rfl, log2Ceil,
      if_pos (by omega)]

/-- An allocation of any size returns.  It fails when no free block is large
enough, and otherwise takes the first of the smallest ones. -/
theorem allocate (intact : Intact heap memory nodes) (size : Int) :
    (allocateMemory heap memory size = .ok (heap, none) ∧
        Best size nodes none) ∨
      ∃ node heap' nodes', Best size nodes (some node) ∧
        allocateMemory heap memory size = .ok (heap', some node.1) ∧
        Intact heap' memory nodes' ∧ node.1 ∈ addrs nodes' := by
  obtain ⟨best, search, isBest⟩ :=
    getSmallestBlockAvailable_spec intact.blocks size
  cases best with
  | none =>
      exact Or.inl ⟨allocateMemory_none search, isBest⟩
  | some node =>
      obtain ⟨left, right, split, first⟩ := isBest
      obtain ⟨block, tile⟩ := node
      subst split
      have member : (block, tile) ∈ left ++ (block, tile) :: right := by simp
      obtain ⟨cell, loaded, payload⟩ := intact.blocks.load member
      have cellSize : cell.size = tile.size := congrArg Tile.size payload
      have reaches := reaches_log2Ceil (intact.halved _ member) first.fits
      obtain ⟨middle, tile', right', run, intact'⟩ := intact.splitLoop reaches
      have member' : (block, tile') ∈ left ++ (block, tile') :: right' := by
        simp
      obtain ⟨cell', loaded', _⟩ := intact'.blocks.load member'
      refine Or.inr ⟨(block, tile), _, _, ⟨left, right, rfl, first⟩, ?_,
        intact'.mark loaded' size, by simp⟩
      rw [allocateMemory, search, ok_bind]
      simp only [Option.map_some, deref_of_load loaded, ok_bind, cellSize, run,
        update_of_load loaded', pure_eq_ok]

/-! ### Merging -/

/-- Joining two neighbours keeps the list intact. -/
theorem joined {survivor absorbed : Addr} {tile other : Tile}
    {left right : List (Addr × Tile)} {merged : Mem Block}
    (intact : Intact heap memory
      (left ++ (survivor, tile) :: (absorbed, other) :: right))
    (joined : Joined heap merged memory absorbed
      (left ++ (survivor, { tile with size := tile.size * 2 }) :: right)) :
    Intact merged memory
      (left ++ (survivor, { tile with size := tile.size * 2 }) :: right) := by
  refine ⟨joined.blocks, ?_, ?_⟩
  · intro node member
    simp only [List.mem_append, List.mem_cons] at member
    rcases member with inLeft | rfl | inRight
    · exact intact.halved node (by simp [inLeft])
    · exact (intact.halved (survivor, tile) (by simp)).double
    · exact intact.halved node (by simp [inRight])
  · intro address live
    obtain ⟨apart, before⟩ := joined.live address live
    simpa [addrs, apart] using intact.complete address before

/-- `merge_block` on a block of the list returns, whatever the sizes and starts
around it are, and keeps the list intact. -/
theorem mergeBlock {fuel : Nat} {block : Addr} {tile : Tile}
    {left right : List (Addr × Tile)}
    (intact : Intact heap memory (left ++ (block, tile) :: right))
    (enough : (left ++ (block, tile) :: right).length ≤ fuel) :
    ∃ heap' nodes', OsSim.mergeBlock memory fuel heap block = .ok heap' ∧
      Intact heap' memory nodes' := by
  induction fuel generalizing heap block tile left right with
  | zero => simp at enough
  | succ fuel ih =>
      rcases mergeBlock_cases fuel intact.blocks with
        ⟨stops, _⟩ | ⟨buddy, other, rest, merged, rfl, _, _, goes, joined⟩ |
        ⟨front, buddy, other, merged, rfl, _, _, goes, joined⟩
      · exact ⟨heap, _, stops, intact⟩
      · rw [goes]
        apply ih (intact.joined joined)
        simp only [List.length_append, List.length_cons] at enough ⊢
        omega
      · have regroup : (front ++ [(buddy, other)]) ++ (block, tile) :: right =
            front ++ (buddy, other) :: (block, tile) :: right := by simp
        rw [regroup] at intact enough
        rw [goes]
        apply ih (intact.joined joined)
        simp only [List.length_append, List.length_cons] at enough ⊢
        omega

/-- A deallocation that returns keeps the list intact; it can only fail on a
block that has been released. -/
theorem deallocate {heap' : Mem Block} {block : Addr}
    (intact : Intact heap memory nodes)
    (given : deallocateMemory memory heap (some block) = .ok heap') :
    ∃ nodes', Intact heap' memory nodes' := by
  cases loaded : heap.load block with
  | none => simp [deallocateMemory, update, loaded] at given
  | some cell =>
      have member : block ∈ addrs nodes :=
        intact.complete block (by simp [loaded])
      obtain ⟨⟨place, tile⟩, inside, same⟩ := List.mem_map.mp member
      obtain ⟨left, right, split⟩ := List.append_of_mem inside
      have equal : place = block := same
      subst equal split
      have cleared := intact.mark loaded 0
      obtain ⟨last, nodes', run, kept⟩ :=
        cleared.mergeBlock cleared.blocks.linked.length_le
      rw [deallocateMemory, update_of_load loaded, ok_bind, run,
        Except.ok.injEq] at given
      exact ⟨nodes', given ▸ kept⟩

end Intact

end OsSim
