/-
Module: OsSim.Process
Purpose: Processes of the input file and their control blocks (`process.h`,
  `PCB.h`, `process_generator.c`).
Trusted boundary: human-reviewed translation
Main exports:
  Process, ProcessState, PCB, newPcb
-/
import OsSim.Library.PointerMemory

namespace OsSim

open PointerMemory

/-- `struct Process`: the input data of a process. -/
structure Process where
  id : Int
  arrivalTime : Int
  runtime : Int
  priority : Int
  memorySize : Int
deriving Repr, DecidableEq

/-- The strings that the scheduler stores in `PCB.state`. -/
inductive ProcessState where
  | started
  | resumed
  | stopped
  | finished
deriving Repr, DecidableEq

/-- `struct PCB`: the runtime state of a process.  `state` and `memoryBlock` are
not initialised when the control block is made, which `none` stands for. -/
structure PCB where
  pid : Int
  startTime : Int
  waitTime : Int
  remainingTime : Int
  state : Option ProcessState
  memoryBlock : Option Addr
  pdata : Process
deriving Repr, DecidableEq

/-- The control block that `fork_and_send` fills in for a new child. -/
def newPcb (pid : Int) (proc : Process) : PCB :=
  { pid := pid
    startTime := -1
    waitTime := 0
    remainingTime := proc.runtime
    state := none
    memoryBlock := none
    pdata := proc }

end OsSim
