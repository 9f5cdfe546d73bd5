/-
Module: OsSim.MemoryManager
Purpose: The memory manager of `memory_manager.c`: blocks of the buddy allocator
  recorded under process ids.
Trusted boundary: human-reviewed translation
Main exports:
  ProcessMemory, MemoryEvent, MemoryManager, initMemoryManager,
  deallocateProcessMemory, allocateProcessMemory, assignMemoryBlockToProcess,
  WaitingList, getOldestFit, getSmallestBlock, deallocateProcessMemory_inv,
  allocateProcessMemory_inv, assignMemoryBlockToProcess_inv
-/
import OsSim.BuddyHistory
import OsSim.HashMap
import OsSim.LinkedList
import OsSim.Process

namespace OsSim

open PointerMemory

/-- `ProcessMemory`.  The block that is recorded is never NULL. -/
structure ProcessMemory where
  memory : Addr
  id : Int
deriving Repr, DecidableEq

/-- The `type` of a line in the memory log. -/
inductive MemoryEventType where
  | deallocated
  | allocated
deriving Repr, DecidableEq

/-- A line of the memory log: "At time .. (de)allocated .. bytes for process ..
from .. to ..". -/
structure MemoryEvent where
  time : Int
  type : MemoryEventType
  bytes : Int
  process : Int
  first : Int
  last : Int
deriving Repr, DecidableEq

/-- The globals `memory` and `memory_map`, the allocator's memory, and the lines
of the memory log, oldest first. -/
structure MemoryManager where
  heap : Mem Block
  memory : Addr
  memoryMap : HashMap ProcessMemory
  memoryLog : List MemoryEvent
deriving Repr, DecidableEq

/-- `init_memory_manager` -/
def initMemoryManager : MemoryManager :=
  { heap := initMemory.1
    memory := initMemory.2
    memoryMap := hashmapCreate ProcessMemory 100
    memoryLog := [] }

/-- `log_memory_event` at a time. -/
def logMemoryEvent (manager : MemoryManager) (clk : Int) (id : Int)
    (block : Addr) (type : MemoryEventType) : Except Fault MemoryManager := do
  let b ← deref manager.heap block
  pure { manager with
    memoryLog := manager.memoryLog ++
      [{ time := clk, type := type, bytes := b.allocated, process := id,
         first := b.start, last := b.start + b.size - 1 }] }

/-- `deallocate_process_memory`, with its result: 1 when a block was given back,
0 when none is recorded. -/
def deallocateProcessMemory (manager : MemoryManager) (clk : Int) (pid : Int) :
    Except Fault (MemoryManager × Int) := do
  match ← hashmapGet manager.memoryMap pid with
  | none => pure (manager, 0)
  | some pmem => do
      let manager ← logMemoryEvent manager clk pmem.id pmem.memory .deallocated
      let heap ← deallocateMemory manager.memory manager.heap (some pmem.memory)
      pure ({ manager with heap := heap }, 1)

/-- `allocate_process_memory` -/
def allocateProcessMemory (manager : MemoryManager) (size : Int) :
    Except Fault (MemoryManager × Option Addr) := do
  let (heap, allocated) ← allocateMemory manager.heap manager.memory size
  pure ({ manager with heap := heap }, allocated)

/-- `assign_memory_block_to_process`.  When the map refuses the record, nothing
keeps the block. -/
def assignMemoryBlockToProcess (manager : MemoryManager) (clk : Int)
    (process : PCB) (block : Option Addr) :
    Except Fault (MemoryManager × PCB) :=
  match block with
  | none => .ok (manager, process)
  | some block => do
      let processMemory := { memory := block, id := process.pdata.id }
      let (memoryMap, status) ←
        hashmapPut manager.memoryMap process.pid processMemory
      let manager := { manager with memoryMap := memoryMap }
      if status > 0 then do
        let process := { process with memoryBlock := some block }
        let manager ←
          logMemoryEvent manager clk processMemory.id block .allocated
        pure (manager, process)
      else
        pure (manager, process)

/-- The waiting list, with the memory its nodes live in. -/
structure WaitingList where
  heap : Mem (Node Process)
  list : LinkedList
deriving Repr, DecidableEq

/-- Loop of `get_oldest_fit` from `current` on.  The block found is read for a
debug line. -/
def oldestFitLoop (manager : MemoryManager) (waitingList : WaitingList) :
    Nat → Option Addr → Except Fault (WaitingList × Option Process)
  | _, none => .ok (waitingList, none)
  | 0, some _ => .error .outOfFuel
  | fuel + 1, some current => do
      let node ← deref waitingList.heap current
      let process := node.data
      match ← getSmallestBlockAvailable manager.heap (some manager.memory)
          process.memorySize with
      | some fitBlock => do
          let _ ← deref manager.heap fitBlock
          let (heap, list) ←
            removeNode waitingList.heap waitingList.list current
          pure ({ heap := heap, list := list }, some process)
      | none => oldestFitLoop manager waitingList fuel node.next

/-- `get_oldest_fit`: the first waiting process that some free block fits, taken
out of the list. -/
def getOldestFit (manager : MemoryManager) (waitingList : WaitingList) :
    Except Fault (WaitingList × Option Process) :=
  if waitingList.list.size = 0 then
    .ok (waitingList, none)
  else
    oldestFitLoop manager waitingList waitingList.heap.cells.length
      waitingList.list.head

/-- `get_smallest_block` -/
def getSmallestBlock (manager : MemoryManager) (process : Process) :
    Except Fault (Option Addr) :=
  getSmallestBlockAvailable manager.heap (some manager.memory)
    process.memorySize

namespace MemoryManager

/-- The allocator's part of the state. -/
def buddy (manager : MemoryManager) : BuddyHeap :=
  { heap := manager.heap, memory := manager.memory }

/-- The block list from the head on. -/
def blocks (manager : MemoryManager) : Except Fault (List (Addr × Tile)) :=
  manager.buddy.blocks

end MemoryManager

/-! ### Calls that return -/

section

variable {manager manager' : MemoryManager} {clk pid size status : Int}

/-- Logging an event changes the log. -/
theorem logMemoryEvent_inv {id : Int} {block : Addr} {type : MemoryEventType}
    (run : logMemoryEvent manager clk id block type = .ok manager') :
    ∃ log, manager' = { manager with memoryLog := log } := by
  obtain ⟨cell, _, ends⟩ := bind_eq_ok.mp run
  rw [pure_eq_ok, Except.ok.injEq] at ends
  exact ⟨_, ends.symm⟩

/-- A deallocation has found no record, or has given the recorded block back. -/
theorem deallocateProcessMemory_inv
    (run : deallocateProcessMemory manager clk pid = .ok (manager', status)) :
    (hashmapGet manager.memoryMap pid = .ok none ∧ manager' = manager ∧
        status = 0) ∨
      ∃ record heap log,
        hashmapGet manager.memoryMap pid = .ok (some record) ∧
        deallocateMemory manager.memory manager.heap (some record.memory) =
          .ok heap ∧
        manager' = { manager with heap := heap, memoryLog := log } ∧
        status = 1 := by
  obtain ⟨found, look, run⟩ := bind_eq_ok.mp run
  cases found with
  | none =>
      simp only [pure_eq_ok, Except.ok.injEq, Prod.mk.injEq] at run
      exact Or.inl ⟨look, run.1.symm, run.2.symm⟩
  | some record =>
      obtain ⟨logged, log, run⟩ := bind_eq_ok.mp run
      obtain ⟨heap, given, run⟩ := bind_eq_ok.mp run
      obtain ⟨lines, rfl⟩ := logMemoryEvent_inv log
      simp only [pure_eq_ok, Except.ok.injEq, Prod.mk.injEq] at run
      exact Or.inr ⟨record, heap, lines, look, given, run.1.symm, run.2.symm⟩

/-- An allocation changes the allocator's memory. -/
theorem allocateProcessMemory_inv {block : Option Addr}
    (run : allocateProcessMemory manager size = .ok (manager', block)) :
    ∃ heap, allocateMemory manager.heap manager.memory size =
        .ok (heap, block) ∧
      manager' = { manager with heap := heap } := by
  obtain ⟨⟨heap, found⟩, taken, ends⟩ := bind_eq_ok.mp run
  simp only [pure_eq_ok, Except.ok.injEq, Prod.mk.injEq] at ends
  exact ⟨heap, ends.2 ▸ taken, ends.1.symm⟩

/-- An assignment puts the block into the memory map; of the control block only
`memory_block` changes. -/
theorem assignMemoryBlockToProcess_inv {process process' : PCB} {block : Addr}
    (run : assignMemoryBlockToProcess manager clk process (some block) =
      .ok (manager', process')) :
    ∃ after result log found,
      hashmapPut manager.memoryMap process.pid
        { memory := block, id := process.pdata.id } = .ok (after, result) ∧
      manager' = { manager with memoryMap := after, memoryLog := log } ∧
      process' = { process with memoryBlock := found } := by
  obtain ⟨⟨after, result⟩, put, run⟩ := bind_eq_ok.mp run
  dsimp only at run
  split at run
  next =>
    obtain ⟨logged, log, run⟩ := bind_eq_ok.mp run
    obtain ⟨lines, rfl⟩ := logMemoryEvent_inv log
    simp only [pure_eq_ok, Except.ok.injEq, Prod.mk.injEq] at run
    exact ⟨after, result, lines, some block, put, run.1.symm, run.2.symm⟩
  next =>
    simp only [pure_eq_ok, Except.ok.injEq, Prod.mk.injEq] at run
    exact ⟨after, result, manager.memoryLog, process.memoryBlock, put,
      run.1.symm, run.2.symm⟩

end

end OsSim
