/-
Module: OsSim.ProcessGenerator
Purpose: The waiting-list branch of `create_processes` in `process_generator.c`,
  with child exits handled between its calls.
Trusted boundary: human-reviewed translation
Main exports:
  Generator, handleChildExit, forkAndSend, Handover, waitingSearch,
  waitingAllocate, waitingBranch
-/
import OsSim.MemoryManager

namespace OsSim

open PointerMemory

/-- The process generator: its memory manager and waiting list, the pids that
`handle_child_exit` passes over, and the control blocks sent so far. -/
structure Generator where
  manager : MemoryManager
  waitingList : WaitingList
  clkPid : Int
  schPid : Int
  messages : List PCB
deriving Repr, DecidableEq

/-- `handle_child_exit`, once or several times in a row: the pids that `waitpid`
returns, each with the clock reading at its deallocation. -/
def handleChildExit (generator : Generator) :
    List (Int × Int) → Except Fault Generator
  | [] => .ok generator
  | (clk, exitedPid) :: exits => do
      let manager ←
        if exitedPid ≠ generator.clkPid ∧ exitedPid ≠ generator.schPid then do
          let (manager, _) ←
            deallocateProcessMemory generator.manager clk exitedPid
          pure manager
        else
          pure generator.manager
      handleChildExit { generator with manager := manager } exits

/-- `fork_and_send` in the parent; `pid` is what `fork` returned. -/
def forkAndSend (generator : Generator) (clk pid : Int) (proc : Process)
    (allocatedBlock : Option Addr) : Except Fault Generator :=
  if pid = -1 then
    .ok generator
  else do
    let (manager, pcb) ← assignMemoryBlockToProcess generator.manager clk
      (newPcb pid proc) allocatedBlock
    pure { generator with
      manager := manager
      messages := generator.messages ++ [pcb] }

/-- The branch is about to call `fork_and_send`: the process taken from the
waiting list, the block that is handed over, and the one `allocated_block`
points to. -/
structure Handover where
  waitedFit : Process
  fitMemoryBlock : Addr
  allocatedBlock : Option Addr
deriving Repr, DecidableEq

/-- The branch up to the call of `allocate_process_memory`, with the exits
handled in its first two gaps. -/
def waitingSearch (generator : Generator) (first second : List (Int × Int)) :
    Except Fault (Generator × Option (Process × Addr)) := do
  let (waitingList, waitedFit) ←
    getOldestFit generator.manager generator.waitingList
  let generator := { generator with waitingList := waitingList }
  match waitedFit with
  | none => pure (generator, none)
  | some waitedFit => do
      let generator ← handleChildExit generator first
      match ← getSmallestBlock generator.manager waitedFit with
      | none => pure (generator, none)
      | some fitMemoryBlock => do
          let generator ← handleChildExit generator second
          pure (generator, some (waitedFit, fitMemoryBlock))

/-- The rest of the branch up to the call of `fork_and_send`, with the exits
handled in its third gap. -/
def waitingAllocate (generator : Generator) (waitedFit : Process)
    (fitMemoryBlock : Addr) (third : List (Int × Int)) :
    Except Fault (Generator × Handover) := do
  let (manager, allocatedBlock) ←
    allocateProcessMemory generator.manager waitedFit.memorySize
  let generator ← handleChildExit { generator with manager := manager } third
  pure (generator,
    { waitedFit := waitedFit
      fitMemoryBlock := fitMemoryBlock
      allocatedBlock := allocatedBlock })

/-- The waiting-list branch: `fork_and_send` is given the block that was looked
up, not `allocated_block`. -/
def waitingBranch (generator : Generator) (first second third : List (Int × Int))
    (clk pid : Int) : Except Fault Generator := do
  let (generator, found) ← waitingSearch generator first second
  match found with
  | none => pure generator
  | some (waitedFit, fitMemoryBlock) => do
      let (generator, handover) ←
        waitingAllocate generator waitedFit fitMemoryBlock third
      forkAndSend generator clk pid handover.waitedFit
        (some handover.fitMemoryBlock)

end OsSim
