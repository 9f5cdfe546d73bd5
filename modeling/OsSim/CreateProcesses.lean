/-
Module: OsSim.CreateProcesses
Purpose: `create_processes` of `process_generator.c`, statement by statement: the
  outer loop with its arrival test, the draining of the waiting list, and the
  signals that are handled between two statements.
Trusted boundary: human-reviewed translation
Main exports:
  processAt, WaitingPointers, CreationStatement, Creation, CreationEvent,
  Creation.start, Creation.arrivalTest, Creation.step
-/
import OsSim.BuddyIntact
import OsSim.Library.Trace
import OsSim.OldestFit
import OsSim.ProcessGenerator

namespace OsSim

open PointerMemory

/-- The element of `process_list` behind a pointer into it. -/
def processAt (processList : List Process) (p : Nat) : Except Fault Process :=
  match processList[p]? with
  | some process => .ok process
  | none => .error .danglingPointer

/-- `waiting_list`, whose nodes hold pointers into `process_list`. -/
structure WaitingPointers where
  heap : Mem (Node Nat)
  list : LinkedList
deriving Repr, DecidableEq

/-- The pointers in the list, oldest first. -/
def WaitingPointers.pointers (waiting : WaitingPointers) :
    Except Fault (List Nat) := do
  let nodes ← DoublyLinked.follow (nodeLinks Nat) waiting.heap
    waiting.heap.cells.length waiting.list.head
  pure (nodes.map Prod.snd)

/-- What `create_processes` does next: the test of the outer loop, a call in the
loop that drains the waiting list, or the arrival test with what depends on it.
The arguments are `waited_fit` and `fit_memory_block`. -/
inductive CreationStatement where
  | loopTest
  | getOldestFit
  | getSmallestBlock (waitedFit : Nat)
  | allocate (waitedFit : Nat) (fitMemoryBlock : Addr)
  | forkAndSend (waitedFit : Nat) (fitMemoryBlock : Addr)
  | arrivalTest
  | finished
  | exited
deriving Repr, DecidableEq

/-- The process generator inside `create_processes`.  `clock` is the last reading
of the arrival test, or the one the clock started with; `handed` and `dropped`
are the pointers that were passed to `fork_and_send` and those that were given
up with "NO OLDEST FIT MEMORY"; `forked` and `children` are the pids that `fork`
returned and those of them that have not been reaped. -/
structure Creation where
  processList : List Process
  manager : MemoryManager
  waiting : WaitingPointers
  statement : CreationStatement
  i : Nat
  processed : List Bool
  interrupted : Bool
  clkPid : Int
  schPid : Int
  messages : List PCB
  endSent : Bool
  clock : Int
  handed : List Nat
  dropped : List Nat
  forked : List Int
  children : List Int
deriving Repr, DecidableEq

/-- What happens next: `handle_child_exit` reaps a pid, `clear_and_exit` runs, or
the next statement is performed.  A statement may read the clock for the arrival
test, stamp a line of the memory log, and fork. -/
inductive CreationEvent where
  | exit (clk pid : Int)
  | interrupt
  | proceed (reading clk pid : Int)
deriving Repr, DecidableEq

namespace Creation

/-- `create_processes` at its first statement, after `init_memory_manager` and
`create_linked_list`. -/
def start (processList : List Process) (clock clkPid schPid : Int) : Creation :=
  { processList := processList
    manager := initMemoryManager
    waiting := { heap := Mem.empty, list := createLinkedList }
    statement := .loopTest
    i := 0
    processed := List.replicate processList.length false
    interrupted := false
    clkPid := clkPid
    schPid := schPid
    messages := []
    endSent := false
    clock := clock
    handed := []
    dropped := []
    forked := []
    children := [] }

/-- The part of the state that `fork_and_send` and `handle_child_exit` work on. -/
def generator (c : Creation) : Generator :=
  { manager := c.manager
    waitingList := { heap := Mem.empty, list := createLinkedList }
    clkPid := c.clkPid
    schPid := c.schPid
    messages := c.messages }

/-- `handle_child_exit` for one pid. -/
def handleChildExit (c : Creation) (clk pid : Int) : Except Fault Creation := do
  let generator ← OsSim.handleChildExit c.generator [(clk, pid)]
  pure { c with
    manager := generator.manager
    children := c.children.erase pid }

/-- `fork_and_send` on a pointer into `process_list`. -/
def forkAndSend (c : Creation) (clk pid : Int) (p : Nat)
    (allocatedBlock : Option Addr) : Except Fault Creation := do
  let process ← processAt c.processList p
  let generator ← OsSim.forkAndSend c.generator clk pid process allocatedBlock
  pure { c with
    manager := generator.manager
    messages := generator.messages
    handed := c.handed ++ [p]
    forked := if pid = -1 then c.forked else pid :: c.forked
    children := if pid = -1 then c.children else pid :: c.children }

/-- `add_node_to_back(waiting_list, create_node(proc))` -/
def addToWaiting (c : Creation) (p : Nat) : Except Fault Creation := do
  let (heap, node) := createNode c.waiting.heap p
  let (heap, list) ← addNodeToBack heap c.waiting.list node
  pure { c with waiting := { heap := heap, list := list } }

/-- The admission of process `i` behind the arrival test. -/
def admission (c : Creation) (process : Process) (clk pid : Int) :
    Except Fault Creation := do
  let c := { c with processed := c.processed.set c.i true }
  let (manager, allocatedBlock) ←
    allocateProcessMemory c.manager process.memorySize
  let c := { c with manager := manager }
  let c ← match allocatedBlock with
    | none => c.addToWaiting c.i
    | some block => c.forkAndSend clk pid c.i (some block)
  pure { c with i := c.i + 1 }

/-- The arrival test at a clock reading, and the branch it leads to.  The clock
is only read while there are processes left. -/
def arrivalTest (c : Creation) (reading clk pid : Int) : Except Fault Creation :=
  match c.processList[c.i]? with
  | none => .ok c
  | some process => do
      let c := { c with clock := reading }
      if reading = process.arrivalTime ∧ c.processed[c.i]? = some false then
        c.admission process clk pid
      else
        pure c

/-- Perform the next statement. -/
def proceed (c : Creation) (reading clk pid : Int) : Except Fault Creation :=
  match c.statement with
  | .loopTest =>
      if (c.i < c.processList.length ∨ c.waiting.list.size ≠ 0) ∧
          c.interrupted = false then
        .ok { c with statement := .getOldestFit }
      else
        -- "no_more_processes" is sent when nothing waits any more.
        .ok { c with
          statement := .finished, endSent := decide (c.waiting.list.size = 0) }
  | .getOldestFit => do
      let (heap, list, waitedFit) ← oldestFit c.manager
        (processAt c.processList) c.waiting.heap c.waiting.list
      let c := { c with waiting := { heap := heap, list := list } }
      match waitedFit with
      | none => pure { c with statement := .arrivalTest }
      | some p => pure { c with statement := .getSmallestBlock p }
  | .getSmallestBlock p => do
      let process ← processAt c.processList p
      match ← OsSim.getSmallestBlock c.manager process with
      | some fit => pure { c with statement := .allocate p fit }
      | none =>
          pure { c with
            statement := .getOldestFit, dropped := c.dropped ++ [p] }
  | .allocate p fit => do
      let process ← processAt c.processList p
      let (manager, _) ← allocateProcessMemory c.manager process.memorySize
      pure { c with manager := manager, statement := .forkAndSend p fit }
  | .forkAndSend p fit => do
      let c ← c.forkAndSend clk pid p (some fit)
      pure { c with statement := .getOldestFit }
  | .arrivalTest => do
      let c ← c.arrivalTest reading clk pid
      pure { c with statement := .loopTest }
  | .finished => .ok c
  | .exited => .ok c

/-- One event.  After `clear_and_exit` there is no process generator. -/
def step (c : Creation) (event : CreationEvent) : Except Fault Creation :=
  if c.statement = .exited then .ok c
  else
    match event with
    | .exit clk pid => c.handleChildExit clk pid
    | .interrupt => .ok { c with interrupted := true, statement := .exited }
    | .proceed reading clk pid => c.proceed reading clk pid

end Creation

end OsSim
