/-
Module: OsSim.BuddyMemory
Purpose: The buddy allocator of `buddy_memory.c`, over a pointer memory of
  `Block` cells.
Trusted boundary: human-reviewed translation
Main exports:
  Block, initMemory, getSmallestBlockAvailable, splitBlock, allocateMemory,
  mergeBlock, deallocateMemory, printMemo
-/
import OsSim.Library.DoublyLinked
import Mathlib.Data.Nat.Bitwise

namespace OsSim

open PointerMemory
open DoublyLinked

/-- `MAX_SIZE` -/
def maxSize : Nat := 1024

/-- `struct Block`.  Sizes and starts are never negative; `allocated` keeps the
requested size, which is an `int`. -/
structure Block where
  size : Nat
  start : Nat
  allocated : Int
  next : Option Addr
  prev : Option Addr
deriving Repr, DecidableEq

/-- What a block says about its stretch of memory, without the links. -/
structure Tile where
  start : Nat
  size : Nat
  allocated : Int
deriving Repr, DecidableEq

def Block.tile (block : Block) : Tile :=
  { start := block.start, size := block.size, allocated := block.allocated }

/-- The links of the block list. -/
def blockLinks : Links Block Tile :=
  { next := Block.next, prev := Block.prev, data := Block.tile }

/-- The memory and the pointer `init_memory` returns, which is also kept in the
global `memo`. -/
def initMemory : Mem Block × Addr :=
  Mem.empty.malloc
    { size := maxSize, start := 0, allocated := 0, next := none, prev := none }

/-- Loop of `get_smallest_block_available` from `current` on. -/
def getSmallestLoop (heap : Mem Block) (size : Int) :
    Nat → Option Addr → Option Addr → Except Fault (Option Addr)
  | _, none, smallest => .ok smallest
  | 0, some _, _ => .error .outOfFuel
  | fuel + 1, some current, smallest => do
      let block ← deref heap current
      let smaller ← match smallest with
        | none => pure true
        | some best => do
            let bestBlock ← deref heap best
            pure (decide (block.size < bestBlock.size))
      getSmallestLoop heap size fuel block.next
        (if block.allocated = 0 ∧ size ≤ block.size ∧ smaller then
          some current else smallest)

/-- `get_smallest_block_available`: the first of the smallest free blocks of at
least `size`. -/
def getSmallestBlockAvailable (heap : Mem Block) (memory : Option Addr)
    (size : Int) : Except Fault (Option Addr) :=
  getSmallestLoop heap size heap.cells.length memory none

/-- `split_block` -/
def splitBlock (heap : Mem Block) (block : Addr) :
    Except Fault (Mem Block) := do
  let heap ← update heap block fun b => { b with size := b.size / 2 }
  let b ← deref heap block
  let (heap, newBlock) := heap.malloc
    { size := b.size, start := b.start + b.size, allocated := 0,
      next := b.next, prev := some block }
  let heap ← update heap block fun b => { b with next := some newBlock }
  updateIfPtr heap b.next fun n => { n with prev := some newBlock }

/-- `INT_MIN`, which a cast of negative infinity or of NaN to `int` yields. -/
def intMin : Int := -2147483648

/-- `(int)(log2(size))`, exact. -/
def log2Floor (size : Nat) : Int :=
  if size = 0 then intMin else Nat.log2 size

/-- `(int)ceil(log2(size))`, exact. -/
def log2Ceil (size : Int) : Int :=
  if size ≤ 0 then intMin
  else if 2 ^ Nat.log2 size.toNat = size.toNat then Nat.log2 size.toNat
  else Nat.log2 size.toNat + 1

/-- Splitting loop of `allocate_memory`. -/
def splitLoop (requiredOrder : Int) (block : Addr) :
    Nat → Mem Block → Except Fault (Mem Block)
  | 0, _ => .error .outOfFuel
  | fuel + 1, heap => do
      let b ← deref heap block
      if log2Floor b.size ≠ requiredOrder then do
        let heap ← splitBlock heap block
        splitLoop requiredOrder block fuel heap
      else
        pure heap

/-- `allocate_memory`.  A block of size `s` is halved at most `s + 1` times
before its size is zero. -/
def allocateMemory (heap : Mem Block) (memory : Addr) (size : Int) :
    Except Fault (Mem Block × Option Addr) := do
  match ← getSmallestBlockAvailable heap (some memory) size with
  | none => pure (heap, none)
  | some block => do
      let b ← deref heap block
      let heap ← splitLoop (log2Ceil size) block (b.size + 2) heap
      let heap ← update heap block fun b => { b with allocated := size }
      pure (heap, some block)

/-- The blocks from the head on, each with its address. -/
def blockList (heap : Mem Block) (memory : Addr) :
    Except Fault (List (Addr × Tile)) :=
  follow blockLinks heap heap.cells.length (some memory)

/-- The lines `print_memo` prints. -/
def printMemo (heap : Mem Block) (memory : Addr) : Except Fault (List Tile) := do
  let blocks ← blockList heap memory
  pure (blocks.map Prod.snd)

/-- `merge_block`, with the global `memo` it prints from.  Every call but the
last one releases a block. -/
def mergeBlock (memo : Addr) : Nat → Mem Block → Addr → Except Fault (Mem Block)
  | 0, _, _ => .error .outOfFuel
  | fuel + 1, heap, block => do
      let b ← deref heap block
      let buddyStart := b.start ^^^ b.size
      if buddyStart > b.start then
        -- Buddy is on the right
        match b.next with
        | none => pure heap
        | some buddy => do
            let c ← deref heap buddy
            if c.size = b.size ∧ c.allocated = 0 then do
              let heap ← update heap block fun b =>
                { b with size := b.size * 2, next := c.next }
              let heap ← updateIfPtr heap c.next fun n =>
                { n with prev := some block }
              let _ ← printMemo heap memo
              let heap ← release heap buddy
              mergeBlock memo fuel heap block
            else
              pure heap
      else
        -- Buddy is on the left
        match b.prev with
        | none => pure heap
        | some buddy => do
            let c ← deref heap buddy
            if c.size = b.size ∧ c.allocated = 0 then do
              let heap ← update heap buddy fun c =>
                { c with size := c.size * 2, next := b.next }
              let heap ← updateIfPtr heap b.next fun n =>
                { n with prev := some buddy }
              let heap ← release heap block
              mergeBlock memo fuel heap buddy
            else
              pure heap

/-- `deallocate_memory` -/
def deallocateMemory (memo : Addr) (heap : Mem Block) (block : Option Addr) :
    Except Fault (Mem Block) :=
  match block with
  | none => .ok heap
  | some block => do
      let heap ← update heap block fun b => { b with allocated := 0 }
      mergeBlock memo heap.cells.length heap block

end OsSim
