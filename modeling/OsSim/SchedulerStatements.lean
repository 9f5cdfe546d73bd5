/-
Module: OsSim.SchedulerStatements
Purpose: The scheduler statement by statement.  `scheduler_loop`,
  `schedule_next_process` and `handle_quantum_expiration` stop before each of
  their statements, where a signal that a child has sent may be handled.
Trusted boundary: human-reviewed translation
Main exports:
  Statement, Caller, Child, Machine, Interleaving, Machine.init,
  Machine.perform, Machine.countDown, Machine.step,
  Machine.performs_scheduleNextProcess,
  Machine.performs_handleQuantumExpiration
-/
import OsSim.SchedulerWorld

namespace OsSim

open PointerMemory
open Trace

/-- The statement that comes next.  A `printf` has one where it reads a control
block, since NULL is read there too; `check_for_new_processes` and the decision
of `handle_current_running_process` are one each. -/
inductive Statement where
  -- `scheduler_loop`
  | testLoop
  | checkForNewProcesses
  | testIdle
  | readLoopTime
  | testIdleTime
  | printIdle
  | addIdleTime
  | handleCurrentRunningProcess
  | checkNoMoreProcesses
  | sleep
  | exited
  -- `schedule_next_process`
  | testQueue
  | assignNext
  | printScheduling
  | testNext
  | readDispatchTime
  | printRunning
  | testStartTime
  | markStarted
  | setStartTime
  | setFirstWait
  | markResumed
  | setWait
  | killCont
  | setLastRemain
  | setLogStart
  | logDispatch
  -- `handle_quantum_expiration`
  | testCurrent
  | readExpiryTime
  | printExpired
  | printStint
  | setProcessEnd
  | killStop
  | markStopped
  | logStop
  | clearCurrent
  | waitForStop
  | rotate
  | resetLogStart
deriving Repr, DecidableEq

/-- Where `schedule_next_process` has been called. -/
inductive Caller where
  | schedulerLoop
  | handleCurrentRunningProcess
deriving Repr, DecidableEq

/-- The statement after the call. -/
def Caller.returnTo : Caller → Statement
  | .schedulerLoop => .handleCurrentRunningProcess
  | .handleCurrentRunningProcess => .checkNoMoreProcesses

/-- A child: the runtime it has left, and whether it runs or is stopped. -/
structure Child where
  left : Int
  running : Bool
deriving Repr, DecidableEq

/-- The scheduler before its next statement, with the local variable
`current_time` of the function it is in, the messages, the children by control
block, and the signals that are pending. -/
structure Machine where
  sched : Scheduler
  next : Statement
  caller : Caller
  currentTime : Int
  toSend : List PCB
  endSent : Bool
  pcbMessages : List PCB
  endMessages : List String
  children : List Child
  tickPending : Bool
  terminationPending : Bool
deriving Repr, DecidableEq

/-- What happens next: the generator sends a message, the scheduler performs its
next statement, which reads the clock once at most, a child that runs uses up a
unit of its runtime and sends a signal, or a pending signal is handled. -/
inductive Interleaving where
  | send
  | perform (clk : Int)
  | countDown (child : Addr)
  | handleTick
  | handleTermination (now log : Int)
deriving Repr, DecidableEq

namespace Machine

/-- The scheduler at its first loop test. -/
def init (algorithm : SchedulingAlgorithm) (quantum clk : Int)
    (toSend : List PCB) : Machine :=
  { sched := runScheduler algorithm quantum clk
    next := .testLoop
    caller := .schedulerLoop
    currentTime := 0
    toSend := toSend
    endSent := false
    pcbMessages := []
    endMessages := []
    children := []
    tickPending := false
    terminationPending := false }

/-- The messages of `create_processes`. -/
def send (m : Machine) : Machine :=
  match m.toSend with
  | pcb :: rest =>
      { m with toSend := rest, pcbMessages := m.pcbMessages ++ [pcb] }
  | [] =>
      if m.endSent then m
      else
        { m with
          endSent := true
          endMessages := m.endMessages ++ ["no_more_processes"] }

/-- Go on to a statement. -/
def goto (m : Machine) (next : Statement) : Except Fault Machine :=
  .ok { m with next := next }

/-- Go on with the result of a statement. -/
def withSched (m : Machine) (next : Statement) (result : Except Fault Scheduler) :
    Except Fault Machine := do
  let sched ← result
  pure { m with sched := sched, next := next }

/-- Go on after a read of the current control block. -/
def reading (m : Machine) (next : Statement) : Except Fault Machine := do
  let _ ← m.sched.current
  m.goto next

/-- One round of the loop of `check_for_new_processes`. -/
def receive (m : Machine) : Except Fault Machine :=
  match m.pcbMessages with
  | [] => m.goto .testIdle
  | pcb :: rest => do
      let (sched, more) ← m.sched.receivePcb pcb
      if more then
        pure { m with
          sched := sched
          pcbMessages := rest
          children := m.children ++ [{ left := pcb.pdata.runtime, running := false }] }
      else
        pure { m with sched := sched, pcbMessages := rest, next := .testIdle }

/-- `kill(current_pcb->pid, signal)`, with its effect on the child. -/
def kill (m : Machine) (signal : ProcessSignal) (next : Statement) :
    Except Fault Machine := do
  let sched ← m.sched.killCurrent signal
  let children :=
    match m.sched.currentPcb with
    | none => m.children
    | some a => m.children.modify a fun child =>
        { child with running := decide (signal = .sigcont) }
  pure { m with sched := sched, children := children, next := next }

/-- `handle_current_running_process`, up to the function it calls. -/
def handleCurrentRunningProcess (m : Machine) (clk : Int) : Except Fault Machine :=
  if m.sched.selectedAlgorithm = .hpf then
    if m.sched.currentPcb = none then
      .ok { m with next := .testQueue, caller := .handleCurrentRunningProcess }
    else
      m.goto .checkNoMoreProcesses
  else do
    let (sched, expired) ← m.sched.runningDecision clk clk
    pure { m with
      sched := sched
      next := if expired then .testCurrent else .checkNoMoreProcesses }

/-- Perform the next statement. -/
def perform (m : Machine) (clk : Int) : Except Fault Machine :=
  match m.next with
  | .testLoop =>
      m.goto (if m.sched.loopContinues then .checkForNewProcesses else .exited)
  | .checkForNewProcesses => m.receive
  | .testIdle =>
      m.goto (if m.sched.currentPcb = none then .readLoopTime
        else .handleCurrentRunningProcess)
  | .readLoopTime => .ok { m with currentTime := clk, next := .testIdleTime }
  | .testIdleTime =>
      if m.currentTime > m.sched.lastProcessEndTime ∧
          m.sched.readyQueue.isEmpty = false then
        m.goto .printIdle
      else
        .ok { m with next := .testQueue, caller := .schedulerLoop }
  | .printIdle =>
      m.withSched .addIdleTime (.ok { m.sched with
        executionLog := m.sched.executionLog ++
          [.idle m.sched.lastProcessEndTime m.currentTime] })
  | .addIdleTime =>
      .ok { m with
        sched := { m.sched with
          idleTime :=
            m.sched.idleTime + (m.currentTime - m.sched.lastProcessEndTime) }
        next := .testQueue
        caller := .schedulerLoop }
  | .handleCurrentRunningProcess => m.handleCurrentRunningProcess clk
  | .checkNoMoreProcesses =>
      .ok { m with
        sched := OsSim.checkNoMoreProcesses m.sched m.endMessages.head?
        endMessages := m.endMessages.tail
        next := .sleep }
  | .sleep => m.goto .testLoop
  | .exited => .ok m
  | .testQueue =>
      m.goto (if m.sched.readyQueue.isEmpty then m.caller.returnTo
        else .assignNext)
  | .assignNext => m.withSched .printScheduling m.sched.takeNext
  | .printScheduling => m.reading .testNext
  | .testNext =>
      m.goto (if m.sched.currentPcb = none then m.caller.returnTo
        else .readDispatchTime)
  | .readDispatchTime => .ok { m with currentTime := clk, next := .printRunning }
  | .printRunning => m.reading .testStartTime
  | .testStartTime => do
      let pcb ← m.sched.current
      m.goto (if pcb.startTime = -1 then .markStarted else .markResumed)
  | .markStarted =>
      m.withSched .setStartTime
        (m.sched.updateCurrent fun p => { p with state := some .started })
  | .setStartTime =>
      m.withSched .setFirstWait
        (m.sched.updateCurrent fun p => { p with startTime := m.currentTime })
  | .setFirstWait =>
      m.withSched .killCont
        (m.sched.updateCurrent fun p =>
          { p with waitTime := m.currentTime - p.pdata.arrivalTime })
  | .markResumed =>
      m.withSched .setWait
        (m.sched.updateCurrent fun p => { p with state := some .resumed })
  | .setWait =>
      m.withSched .killCont
        (m.sched.updateCurrent fun p =>
          { p with
            waitTime := (m.currentTime - p.pdata.arrivalTime) -
              (p.pdata.runtime - p.remainingTime) })
  | .killCont => m.kill .sigcont .setLastRemain
  | .setLastRemain => m.withSched .setLogStart m.sched.rememberRemaining
  | .setLogStart =>
      m.withSched .logDispatch
        (.ok { m.sched with logStartTime := m.currentTime })
  | .logDispatch =>
      m.withSched m.caller.returnTo (m.sched.logEvent m.sched.currentPcb clk)
  | .testCurrent =>
      m.goto (if m.sched.currentPcb = none then .checkNoMoreProcesses
        else .readExpiryTime)
  | .readExpiryTime => .ok { m with currentTime := clk, next := .printExpired }
  | .printExpired => m.reading .printStint
  | .printStint => m.withSched .setProcessEnd (m.sched.logStint m.currentTime)
  | .setProcessEnd =>
      m.withSched .killStop
        (.ok { m.sched with lastProcessEndTime := m.currentTime })
  | .killStop => m.kill .sigstop .markStopped
  | .markStopped =>
      m.withSched .logStop
        (m.sched.updateCurrent fun p => { p with state := some .stopped })
  | .logStop =>
      m.withSched .clearCurrent (m.sched.logEvent m.sched.currentPcb clk)
  | .clearCurrent =>
      m.withSched .waitForStop (.ok { m.sched with currentPcb := none })
  | .waitForStop => m.goto .rotate
  | .rotate => m.withSched .resetLogStart m.sched.rotateQueue
  | .resetLogStart =>
      m.withSched .checkNoMoreProcesses (.ok { m.sched with logStartTime := 0 })

/-- The loop of `run_process`: a child that runs counts down and sends SIGUSR2,
or SIGUSR1 for its last unit, after which it exits.  A signal that is pending
already is not counted twice. -/
def countDown (m : Machine) (a : Addr) : Machine :=
  match m.children[a]? with
  | none => m
  | some child =>
      if child.running = false ∨ child.left ≤ 0 then m
      else if child.left = 1 then
        { m with
          children := m.children.set a { left := 0, running := false }
          terminationPending := true }
      else
        { m with
          children := m.children.set a { child with left := child.left - 1 }
          tickPending := true }

/-- A pending SIGUSR2 is handled. -/
def handleTick (m : Machine) : Except Fault Machine :=
  if m.tickPending then do
    let sched ← m.sched.handleProcessTick
    pure { m with sched := sched, tickPending := false }
  else
    .ok m

/-- A pending SIGUSR1 is handled. -/
def handleTermination (m : Machine) (now log : Int) : Except Fault Machine :=
  if m.terminationPending then do
    let sched ← m.sched.handleProcessTermination now log
    pure { m with sched := sched, terminationPending := false }
  else
    .ok m

/-- One event. -/
def step (m : Machine) : Interleaving → Except Fault Machine
  | .send => .ok m.send
  | .perform clk => m.perform clk
  | .countDown child => .ok (m.countDown child)
  | .handleTick => m.handleTick
  | .handleTermination now log => m.handleTermination now log

/-! ### Without signals the statements are the functions -/

/-- Statements performed one after the other, each with the clock value it may
read, lead from one machine to another. -/
def Performs (m m' : Machine) : Prop :=
  ∃ clks : List Int, runs step m (clks.map .perform) = .ok m'

theorem Performs.refl (m : Machine) : Performs m m := ⟨[], rfl⟩

/-- Perform one statement first. -/
theorem Performs.cons {m m₁ m' : Machine} (clk : Int)
    (first : m.perform clk = .ok m₁) (rest : Performs m₁ m') :
    Performs m m' := by
  obtain ⟨clks, run⟩ := rest
  exact ⟨clk :: clks, runs_cons_ok.mpr ⟨m₁, first, run⟩⟩

theorem Performs.trans {m m₁ m' : Machine} (first : Performs m m₁)
    (rest : Performs m₁ m') : Performs m m' := by
  obtain ⟨clks, run⟩ := first
  obtain ⟨clks', run'⟩ := rest
  refine ⟨clks ++ clks', ?_⟩
  rw [List.map_append]
  exact runs_append_ok.mpr ⟨m₁, run, run'⟩

theorem withSched_ok {m : Machine} {next : Statement}
    {result : Except Fault Scheduler} {sched : Scheduler}
    (performed : result = .ok sched) :
    m.withSched next result = .ok { m with sched := sched, next := next } := by
  rw [withSched, performed, ok_bind, pure_eq_ok]

theorem reading_ok {m : Machine} {next : Statement} {pcb : PCB}
    (read : m.sched.current = .ok pcb) :
    m.reading next = .ok { m with next := next } := by
  rw [reading, read, ok_bind, goto]

variable {m : Machine} {sched : Scheduler}

/-- The statements that record a dispatch do what `recordDispatch` says. -/
theorem performs_recordDispatch (start : m.next = .testStartTime)
    (run : m.sched.recordDispatch m.currentTime = .ok sched) :
    Performs m { m with sched := sched, next := .killCont } := by
  obtain ⟨pcb, read, run⟩ := bind_eq_ok.mp run
  have tested : m.perform 0 = .ok { m with
      next := if pcb.startTime = -1 then .markStarted else .markResumed } := by
    rw [perform, start]
    dsimp only
    rw [read, ok_bind, goto]
  refine Performs.cons 0 tested ?_
  split at run
  next fresh =>
    obtain ⟨s₁, marked, run⟩ := bind_eq_ok.mp run
    obtain ⟨s₂, timed, waited⟩ := bind_eq_ok.mp run
    rw [if_pos fresh]
    exact .cons 0 (withSched_ok marked) (.cons 0 (withSched_ok timed)
      (.cons 0 (withSched_ok waited) (.refl _)))
  next again =>
    obtain ⟨s₁, marked, waited⟩ := bind_eq_ok.mp run
    rw [if_neg again]
    exact .cons 0 (withSched_ok marked)
      (.cons 0 (withSched_ok waited) (.refl _))

theorem kill_ok {signal : ProcessSignal} (next : Statement)
    (killed : m.sched.killCurrent signal = .ok sched) :
    ∃ children, m.kill signal next =
      .ok { m with sched := sched, children := children, next := next } := by
  rw [kill, killed, ok_bind, pure_eq_ok]
  exact ⟨_, rfl⟩

/-- From its first statement to its return, `schedule_next_process` does what
the function of that name does. -/
theorem performs_scheduleNextProcess (start : m.next = .testQueue)
    {now log : Int} (run : m.sched.scheduleNextProcess now log = .ok sched) :
    ∃ m', Performs m m' ∧ m'.sched = sched ∧ m'.next = m.caller.returnTo := by
  have tested : m.perform 0 = .ok { m with
      next := if m.sched.readyQueue.isEmpty then m.caller.returnTo
        else .assignNext } := by
    rw [perform, start]
    rfl
  rw [Scheduler.scheduleNextProcess] at run
  split at run
  next empty =>
    cases run
    rw [if_pos empty] at tested
    exact ⟨_, .cons 0 tested (.refl _), rfl, rfl⟩
  next filled =>
    rw [if_neg filled] at tested
    obtain ⟨s₁, taken, run⟩ := bind_eq_ok.mp run
    obtain ⟨pcb, read, run⟩ := bind_eq_ok.mp run
    let m₁ : Machine := { m with sched := s₁, next := .testNext }
    have assigned : Performs m m₁ :=
      .cons 0 tested (.cons 0 (withSched_ok taken)
        (.cons 0 (reading_ok read) (.refl _)))
    have decided : m₁.perform 0 = .ok { m₁ with
        next := if s₁.currentPcb = none then m.caller.returnTo
          else .readDispatchTime } := rfl
    split at run
    next idle =>
      cases run
      rw [if_pos idle] at decided
      exact ⟨_, assigned.trans (.cons 0 decided (.refl _)), rfl, rfl⟩
    next runs =>
      rw [if_neg runs] at decided
      obtain ⟨s₂, recorded, run⟩ := bind_eq_ok.mp run
      obtain ⟨s₃, killed, run⟩ := bind_eq_ok.mp run
      obtain ⟨s₄, remembered, logged⟩ := bind_eq_ok.mp run
      let m₂ : Machine :=
        { m₁ with currentTime := now, next := .testStartTime }
      have timed : Performs m₁ m₂ :=
        .cons 0 decided (.cons now rfl (.cons 0 (reading_ok read) (.refl _)))
      have marked : Performs m₂ { m₂ with sched := s₂, next := .killCont } :=
        performs_recordDispatch rfl recorded
      obtain ⟨children, continued⟩ :=
        kill_ok (m := { m₂ with sched := s₂, next := .killCont })
          .setLastRemain killed
      refine ⟨_, assigned.trans (timed.trans (marked.trans
        (.cons 0 continued (.cons 0 (withSched_ok remembered)
          (.cons 0 rfl (.cons log (withSched_ok logged) (.refl _))))))), rfl, rfl⟩

/-- The same for `handle_quantum_expiration`. -/
theorem performs_handleQuantumExpiration (start : m.next = .testCurrent)
    {now log : Int}
    (run : m.sched.handleQuantumExpiration now log = .ok sched) :
    ∃ m', Performs m m' ∧ m'.sched = sched ∧
      m'.next = .checkNoMoreProcesses := by
  have tested : m.perform 0 = .ok { m with
      next := if m.sched.currentPcb = none then .checkNoMoreProcesses
        else .readExpiryTime } := by
    rw [perform, start]
    rfl
  rw [Scheduler.handleQuantumExpiration] at run
  split at run
  next idle =>
    cases run
    rw [if_pos idle] at tested
    exact ⟨_, .cons 0 tested (.refl _), rfl, rfl⟩
  next runs =>
    rw [if_neg runs] at tested
    obtain ⟨s₁, stint, run⟩ := bind_eq_ok.mp run
    obtain ⟨pcb, read, _⟩ := bind_eq_ok.mp stint
    obtain ⟨s₂, killed, run⟩ := bind_eq_ok.mp run
    obtain ⟨s₃, marked, run⟩ := bind_eq_ok.mp run
    obtain ⟨s₄, logged, run⟩ := bind_eq_ok.mp run
    obtain ⟨s₅, rotated, rest⟩ := bind_eq_ok.mp run
    cases rest
    let m₁ : Machine := { m with
      sched := { s₁ with lastProcessEndTime := now }
      currentTime := now
      next := .killStop }
    have printed : Performs m m₁ :=
      .cons 0 tested (.cons now rfl (.cons 0 (reading_ok read)
        (.cons 0 (withSched_ok stint) (.cons 0 rfl (.refl _)))))
    obtain ⟨children, stopped⟩ :=
      kill_ok (m := m₁) .markStopped killed
    exact ⟨_, printed.trans (.cons 0 stopped (.cons 0 (withSched_ok marked)
      (.cons log (withSched_ok logged) (.cons 0 rfl (.cons 0 rfl
        (.cons 0 (withSched_ok rotated) (.cons 0 rfl (.refl _)))))))), rfl, rfl⟩

end Machine

end OsSim
