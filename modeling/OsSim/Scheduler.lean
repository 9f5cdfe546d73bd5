/-
Module: OsSim.Scheduler
Purpose: The functions of `scheduler.c` on the scheduler's global variables,
  with `log_event` of `file_handlers.c`.  Each call of `get_clk` reads an
  argument of its own.
Trusted boundary: human-reviewed translation
Main exports:
  Scheduler, runScheduler, validPcb, receivePcb, accountIdle,
  scheduleNextProcess, handleCurrentRunningProcess, handleQuantumExpiration,
  handleProcessTermination, handleProcessTick, loopContinues
-/
import OsSim.IQueue
import OsSim.Process
import Mathlib.Data.Rat.Defs

namespace OsSim

open PointerMemory

/-- The lines of `execution_log.txt`. -/
inductive ExecutionLine where
  | idle (start stop : Int)
  | runs (id burst start stop remaining : Int)
  | finishes (id burst start stop : Int)
deriving Repr, DecidableEq

/-- The lines of `scheduler.log`, each with the address of the control block it
is about.  The turnaround times printed for a finished process are computed from
the fields here. -/
structure LogLine where
  clk : Int
  pcb : Addr
  snapshot : PCB
deriving Repr, DecidableEq

/-- The signals that the scheduler sends to processes. -/
inductive ProcessSignal where
  | sigcont
  | sigstop
deriving Repr, DecidableEq

/-- The global variables of the scheduler process.  `pcbs` is the memory of the
control blocks that `check_for_new_processes` allocates; the files and the
signals sent are kept as lists. -/
structure Scheduler where
  readyQueue : IQueue Addr
  pcbs : Mem PCB
  currentPcb : Option Addr
  quantum : Int
  lastRemainTime : Int
  logStartTime : Int
  executionLog : List ExecutionLine
  lastProcessEndTime : Int
  idleTime : Int
  noMoreProcesses : Bool
  selectedAlgorithm : SchedulingAlgorithm
  schedulerLog : List LogLine
  totalWta : ℚ
  totalWait : Int
  kills : List (Int × ProcessSignal)
deriving Repr, DecidableEq

/-- `run_scheduler`, up to its call of `scheduler_loop`. -/
def runScheduler (schAlgo : SchedulingAlgorithm) (quantum clk : Int) :
    Scheduler :=
  { readyQueue := initQueue Addr schAlgo
    pcbs := Mem.empty
    currentPcb := none
    quantum := quantum
    lastRemainTime := 0
    logStartTime := 0
    executionLog := []
    lastProcessEndTime := clk
    idleTime := 0
    noMoreProcesses := false
    selectedAlgorithm := schAlgo
    schedulerLog := []
    totalWta := 0
    totalWait := 0
    kills := [] }

/-- The test of `check_for_new_processes` for process data it accepts. -/
def validPcb (pcb : PCB) : Bool :=
  ¬ (pcb.pid ≤ 0 ∨ pcb.pdata.id ≤ 0 ∨ pcb.pdata.runtime ≤ 0)

/-- The priority with which `check_for_new_processes` enqueues a new process. -/
def enqueuePriority (algorithm : SchedulingAlgorithm) (pcb : PCB) : Int :=
  match algorithm with
  | .srtn => pcb.remainingTime
  | .hpf => pcb.pdata.priority
  | .rr => 0

namespace Scheduler

/-- Read the control block of the current process. -/
def current (s : Scheduler) : Except Fault PCB := derefPtr s.pcbs s.currentPcb

/-- Assign to fields of the control block of the current process. -/
def updateCurrent (s : Scheduler) (f : PCB → PCB) : Except Fault Scheduler := do
  let pcbs ← updatePtr s.pcbs s.currentPcb f
  pure { s with pcbs := pcbs }

/-- `kill(current_pcb->pid, signal)` -/
def killCurrent (s : Scheduler) (signal : ProcessSignal) :
    Except Fault Scheduler := do
  let pcb ← s.current
  pure { s with kills := s.kills ++ [(pcb.pid, signal)] }

/-- `log_event`, at the clock value it reads. -/
def logEvent (s : Scheduler) (pcb : Option Addr) (clk : Int) :
    Except Fault Scheduler :=
  match pcb with
  | none => .ok s
  | some address => do
      let p ← deref s.pcbs address
      let line := { clk := clk, pcb := address, snapshot := p }
      let s := { s with schedulerLog := s.schedulerLog ++ [line] }
      if p.state = some .finished then
        let ta := clk - p.pdata.arrivalTime
        let wta := (ta : ℚ) / (p.pdata.runtime : ℚ)
        pure { s with
          totalWta := s.totalWta + wta
          totalWait := s.totalWait + p.waitTime }
      else
        pure s

/-- What `check_for_new_processes` does with a process message it received, and
whether it goes on to the next one. -/
def receivePcb (s : Scheduler) (pcb : PCB) : Except Fault (Scheduler × Bool) :=
  if validPcb pcb then do
    let (pcbs, newPcb) := s.pcbs.malloc pcb
    let readyQueue ← s.readyQueue.enqueue newPcb
      (enqueuePriority s.selectedAlgorithm pcb)
    pure ({ s with pcbs := pcbs, readyQueue := readyQueue }, true)
  else
    .ok (s, false)

/-- The idle time that `scheduler_loop` accounts for before it schedules. -/
def accountIdle (s : Scheduler) (currentTime : Int) : Scheduler :=
  if currentTime > s.lastProcessEndTime ∧ s.readyQueue.isEmpty = false then
    { s with
      executionLog :=
        s.executionLog ++ [.idle s.lastProcessEndTime currentTime]
      idleTime := s.idleTime + (currentTime - s.lastProcessEndTime) }
  else
    s

section

variable (s : Scheduler) (clk : Int)

/-! Accounting for idle time writes `idleTime` and a line of `execution_log.txt`. -/

@[simp] theorem accountIdle_readyQueue :
    (s.accountIdle clk).readyQueue = s.readyQueue := by
  rw [accountIdle]
  split <;> rfl

@[simp] theorem accountIdle_pcbs :
    (s.accountIdle clk).pcbs = s.pcbs := by
  rw [accountIdle]
  split <;> rfl

@[simp] theorem accountIdle_currentPcb :
    (s.accountIdle clk).currentPcb = s.currentPcb := by
  rw [accountIdle]
  split <;> rfl

@[simp] theorem accountIdle_quantum :
    (s.accountIdle clk).quantum = s.quantum := by
  rw [accountIdle]
  split <;> rfl

@[simp] theorem accountIdle_lastRemainTime :
    (s.accountIdle clk).lastRemainTime = s.lastRemainTime := by
  rw [accountIdle]
  split <;> rfl

@[simp] theorem accountIdle_logStartTime :
    (s.accountIdle clk).logStartTime = s.logStartTime := by
  rw [accountIdle]
  split <;> rfl

@[simp] theorem accountIdle_lastProcessEndTime :
    (s.accountIdle clk).lastProcessEndTime = s.lastProcessEndTime := by
  rw [accountIdle]
  split <;> rfl

@[simp] theorem accountIdle_noMoreProcesses :
    (s.accountIdle clk).noMoreProcesses = s.noMoreProcesses := by
  rw [accountIdle]
  split <;> rfl

@[simp] theorem accountIdle_selectedAlgorithm :
    (s.accountIdle clk).selectedAlgorithm = s.selectedAlgorithm := by
  rw [accountIdle]
  split <;> rfl

@[simp] theorem accountIdle_schedulerLog :
    (s.accountIdle clk).schedulerLog = s.schedulerLog := by
  rw [accountIdle]
  split <;> rfl

@[simp] theorem accountIdle_totalWta :
    (s.accountIdle clk).totalWta = s.totalWta := by
  rw [accountIdle]
  split <;> rfl

@[simp] theorem accountIdle_totalWait :
    (s.accountIdle clk).totalWait = s.totalWait := by
  rw [accountIdle]
  split <;> rfl

@[simp] theorem accountIdle_kills :
    (s.accountIdle clk).kills = s.kills := by
  rw [accountIdle]
  split <;> rfl

end

/-- The assignment to `current_pcb` in `schedule_next_process`. -/
def takeNext (s : Scheduler) : Except Fault Scheduler :=
  if s.selectedAlgorithm = .hpf then do
    let (readyQueue, next) ← s.readyQueue.dequeue true
    pure { s with readyQueue := readyQueue, currentPcb := next }
  else do
    let next ← s.readyQueue.front
    pure { s with currentPcb := next }

/-- The times that `schedule_next_process` records in the control block. -/
def recordDispatch (s : Scheduler) (currentTime : Int) :
    Except Fault Scheduler := do
  let pcb ← s.current
  if pcb.startTime = -1 then do
    let s ← s.updateCurrent fun p => { p with state := some .started }
    let s ← s.updateCurrent fun p => { p with startTime := currentTime }
    s.updateCurrent fun p =>
      { p with waitTime := currentTime - p.pdata.arrivalTime }
  else do
    let s ← s.updateCurrent fun p => { p with state := some .resumed }
    s.updateCurrent fun p =>
      { p with
        waitTime := (currentTime - p.pdata.arrivalTime) -
          (p.pdata.runtime - p.remainingTime) }

/-- `last_remain_time = current_pcb->remaining_time` -/
def rememberRemaining (s : Scheduler) : Except Fault Scheduler := do
  let pcb ← s.current
  pure { s with lastRemainTime := pcb.remainingTime }

/-- `schedule_next_process`, with the clock values that it and `log_event` read.
The line it prints before its test for NULL reads the control block. -/
def scheduleNextProcess (s : Scheduler) (currentTime logTime : Int) :
    Except Fault Scheduler :=
  if s.readyQueue.isEmpty then .ok s
  else do
    let s ← s.takeNext
    let _ ← s.current
    if s.currentPcb = none then pure s
    else do
      let s ← s.recordDispatch currentTime
      let s ← s.killCurrent .sigcont
      let s ← s.rememberRemaining
      logEvent { s with logStartTime := currentTime } s.currentPcb logTime

/-- The line of `execution_log.txt` about a stint that was cut off. -/
def logStint (s : Scheduler) (currentTime : Int) : Except Fault Scheduler := do
  let pcb ← s.current
  pure { s with
    executionLog := s.executionLog ++ [.runs pcb.pdata.id pcb.pdata.runtime
      s.logStartTime currentTime pcb.remainingTime] }

/-- The rotation of the queue after a preemption, under RR. -/
def rotateQueue (s : Scheduler) : Except Fault Scheduler :=
  if s.selectedAlgorithm = .rr then do
    let (readyQueue, _) ← s.readyQueue.dequeue false
    pure { s with readyQueue := readyQueue }
  else
    .ok s

/-- `handle_quantum_expiration` -/
def handleQuantumExpiration (s : Scheduler) (currentTime logTime : Int) :
    Except Fault Scheduler :=
  if s.currentPcb = none then .ok s
  else do
    let s ← s.logStint currentTime
    let s ← killCurrent { s with lastProcessEndTime := currentTime } .sigstop
    let s ← s.updateCurrent fun p => { p with state := some .stopped }
    let s ← s.logEvent s.currentPcb logTime
    let s ← rotateQueue { s with currentPcb := none }
    pure { s with logStartTime := 0 }

/-- The decision of `handle_current_running_process`, and whether it calls
`handle_quantum_expiration`. -/
def runningDecision (s : Scheduler) (currentTime logTime : Int) :
    Except Fault (Scheduler × Bool) :=
  match s.selectedAlgorithm with
  | .rr =>
      if s.currentPcb = none then .ok (s, false)
      else do
        let pcb ← s.current
        if pcb.remainingTime ≤ s.lastRemainTime - s.quantum then do
          let s ← s.updateCurrent fun p =>
            { p with remainingTime := s.lastRemainTime - s.quantum }
          pure (s, true)
        else
          pure (s, false)
  | .hpf =>
      if s.currentPcb = none then do
        let s ← s.scheduleNextProcess currentTime logTime
        pure (s, false)
      else
        .ok (s, false)
  | .srtn => do
      let nextPcb ← s.readyQueue.front
      if nextPcb = none then pure (s, false)
      else do
        let _ ← derefPtr s.pcbs nextPcb
        pure (s, decide (s.currentPcb ≠ none ∧ nextPcb ≠ s.currentPcb))

/-- `handle_current_running_process` -/
def handleCurrentRunningProcess (s : Scheduler) (currentTime logTime : Int) :
    Except Fault Scheduler := do
  let (s, expired) ← s.runningDecision currentTime logTime
  if expired then s.handleQuantumExpiration currentTime logTime
  else pure s

/-- The line of `execution_log.txt` about a stint that ends a process. -/
def logFinish (s : Scheduler) (currentTime : Int) : Except Fault Scheduler := do
  let pcb ← s.current
  pure { s with
    executionLog := s.executionLog ++ [.finishes pcb.pdata.id pcb.pdata.runtime
      s.logStartTime currentTime] }

/-- The removal of a finished process, which under HPF is not in the queue. -/
def removeFinished (s : Scheduler) : Except Fault Scheduler :=
  if s.selectedAlgorithm ≠ .hpf then do
    let (readyQueue, _) ← s.readyQueue.dequeue true
    pure { s with readyQueue := readyQueue }
  else
    .ok s

/-- The line about the next process, which reads its control block. -/
def announceNext (s : Scheduler) : Except Fault Unit :=
  if s.readyQueue.isEmpty = false then do
    let next ← s.readyQueue.front
    let _ ← derefPtr s.pcbs next
    pure ()
  else
    .ok ()

/-- `handle_process_termination`, the handler of SIGUSR1. -/
def handleProcessTermination (s : Scheduler) (currentTime logTime : Int) :
    Except Fault Scheduler := do
  let s ← s.logFinish currentTime
  let s ← removeFinished { s with lastProcessEndTime := currentTime }
  s.announceNext
  let s ← s.updateCurrent fun p => { p with remainingTime := p.remainingTime - 1 }
  let s ← s.updateCurrent fun p => { p with state := some .finished }
  let s ← s.logEvent s.currentPcb logTime
  pure { s with currentPcb := none, lastRemainTime := 0, logStartTime := 0 }

/-- `handle_process_tick`, the handler of SIGUSR2.  The line it prints before its
test for NULL reads the control block. -/
def handleProcessTick (s : Scheduler) : Except Fault Scheduler := do
  let _ ← s.current
  if s.currentPcb = none then pure s
  else do
    let s ← s.updateCurrent fun p =>
      { p with remainingTime := p.remainingTime - 1 }
    let pcb ← s.current
    if s.selectedAlgorithm = .srtn then
      pure { s with
        readyQueue := s.readyQueue.changePriority 0 pcb.remainingTime }
    else
      pure s

/-- The condition of the loop in `scheduler_loop`. -/
def loopContinues (s : Scheduler) : Bool :=
  s.noMoreProcesses = false ∨ s.readyQueue.isEmpty = false ∨ s.currentPcb ≠ none

/-- The lines about finished processes, by control block. -/
def finished (s : Scheduler) : List Addr :=
  (s.schedulerLog.filter fun line =>
    line.snapshot.state = some .finished).map LogLine.pcb

end Scheduler

end OsSim
