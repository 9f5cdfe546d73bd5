/-
Module: OsSim.SchedulerHandlers
Purpose: Where the signal handlers of the scheduler may run.  They read the
  control block of the current process before any test for NULL, so they are
  safe exactly between a dispatch and the next statement that gives it up.
Trusted boundary: none
Main exports:
  HandlersSafe, Watched, Watched.step, HandledWhileDispatched,
  handlers_safe_iff, handlers_unsafe
-/
import OsSim.SchedulerStatements

namespace OsSim

open PointerMemory
open Trace

/-- The handler of a pending signal does not read through NULL, and without a
current process the one of SIGUSR2 changes nothing. -/
def HandlersSafe (m : Machine) : Interleaving → Prop
  | .handleTick => m.tickPending = true →
      m.sched.handleProcessTick ≠ .error .nullPointer ∧
        (m.sched.currentPcb = none → m.sched.handleProcessTick = .ok m.sched)
  | .handleTermination now log => m.terminationPending = true →
      m.sched.handleProcessTermination now log ≠ .error .nullPointer
  | _ => True

instance (m : Machine) : ∀ event, Decidable (HandlersSafe m event)
  | .send | .perform _ | .countDown _ => inferInstanceAs (Decidable True)
  | .handleTick => inferInstanceAs (Decidable (_ → _ ∧ (_ → _)))
  | .handleTermination _ _ => inferInstanceAs (Decidable (_ → _))

/-- A run of the scheduler, watched for whether the last statement that assigned
`current_pcb` was that of a dispatch. -/
structure Watched where
  machine : Machine
  dispatched : Bool
deriving Repr, DecidableEq

namespace Watched

/-- A dispatch takes a process from the queue; a preemption and the handler of
SIGUSR1 give it up. -/
def dispatchedAfter (w : Watched) : Interleaving → Bool
  | .perform _ =>
      match w.machine.next with
      | .assignNext => ! w.machine.sched.readyQueue.isEmpty
      | .clearCurrent => false
      | _ => w.dispatched
  | .handleTermination _ _ => w.dispatched && ! w.machine.terminationPending
  | _ => w.dispatched

/-- One event, watched. -/
def step (w : Watched) (event : Interleaving) : Except Fault Watched := do
  let machine ← w.machine.step event
  pure { machine := machine, dispatched := w.dispatchedAfter event }

end Watched

/-- A pending signal is handled after a dispatch, and before the process is given
up. -/
def HandledWhileDispatched (w : Watched) : Interleaving → Prop
  | .handleTick => w.machine.tickPending = true → w.dispatched = true
  | .handleTermination _ _ =>
      w.machine.terminationPending = true → w.dispatched = true
  | _ => True

/-! ### What a statement keeps -/

namespace Scheduler

/-- The queue and the current process are made of control blocks. -/
def WellWired (s : Scheduler) : Prop := ∃ items, s.Wired items

/-- What a statement keeps that does not assign to `current_pcb`. -/
def Keeps (s s' : Scheduler) : Prop :=
  s.WellWired → s'.WellWired ∧ s'.currentPcb = s.currentPcb

variable {s s' : Scheduler} {a : Addr} {pcb : PCB}

theorem Keeps.refl (s : Scheduler) : s.Keeps s := fun wired => ⟨wired, rfl⟩

/-- Only the queue, the control blocks and the current process matter. -/
theorem Keeps.of_eq (queue : s'.readyQueue = s.readyQueue)
    (algorithm : s'.selectedAlgorithm = s.selectedAlgorithm)
    (pcbs : s'.pcbs = s.pcbs) (current : s'.currentPcb = s.currentPcb) :
    s.Keeps s' := by
  rintro ⟨items, shows, type, live, running⟩
  refine ⟨⟨items, ?_, ?_, ?_, ?_⟩, current⟩
  · rw [queue]
    exact shows
  · rw [queue, algorithm]
    exact type
  · rw [pcbs]
    exact live
  · rw [pcbs, current]
    exact running

/-- Writing to a control block keeps all of them. -/
theorem Keeps.of_put (live : s.pcbs.load a = some pcb) {pcb' : PCB}
    (queue : s'.readyQueue = s.readyQueue)
    (algorithm : s'.selectedAlgorithm = s.selectedAlgorithm)
    (pcbs : s'.pcbs = s.pcbs.put a pcb')
    (current : s'.currentPcb = s.currentPcb) : s.Keeps s' := by
  have stays : ∀ b, (∃ old, s.pcbs.load b = some old) →
      ∃ new, s'.pcbs.load b = some new := by
    rintro b ⟨old, loaded⟩
    rw [pcbs]
    by_cases same : b = a
    · subst same
      exact ⟨pcb', Mem.load_put_self live pcb'⟩
    · exact ⟨old, (Mem.load_put_of_ne s.pcbs same pcb').trans loaded⟩
  rintro ⟨items, shows, type, inQueue, running⟩
  refine ⟨⟨items, ?_, ?_, fun b member => stays b (inQueue b member), ?_⟩,
    current⟩
  · rw [queue]
    exact shows
  · rw [queue, algorithm]
    exact type
  · intro b runs
    rw [current] at runs
    exact stays b (running b runs)

theorem keeps_updateCurrent {f : PCB → PCB} (run : s.updateCurrent f = .ok s') :
    s.Keeps s' := by
  intro wired
  cases runs : s.currentPcb with
  | none =>
      rw [updateCurrent, runs, updatePtr] at run
      cases run
  | some a =>
      obtain ⟨items, wired'⟩ := wired
      obtain ⟨pcb, live⟩ := wired'.running a runs
      rw [updateCurrent_eq runs live, Except.ok.injEq] at run
      subst run
      rw [← runs]
      exact Keeps.of_put live rfl rfl rfl rfl ⟨items, wired'⟩

theorem keeps_killCurrent {signal : ProcessSignal}
    (run : s.killCurrent signal = .ok s') : s.Keeps s' := by
  obtain ⟨pcb, _, rest⟩ := bind_eq_ok.mp run
  cases rest
  exact Keeps.of_eq rfl rfl rfl rfl

theorem keeps_rememberRemaining (run : s.rememberRemaining = .ok s') :
    s.Keeps s' := by
  obtain ⟨pcb, _, rest⟩ := bind_eq_ok.mp run
  cases rest
  exact Keeps.of_eq rfl rfl rfl rfl

theorem keeps_logStint {clk : Int} (run : s.logStint clk = .ok s') :
    s.Keeps s' := by
  obtain ⟨pcb, _, rest⟩ := bind_eq_ok.mp run
  cases rest
  exact Keeps.of_eq rfl rfl rfl rfl

theorem keeps_logEvent {pointer : Option Addr} {clk : Int}
    (run : s.logEvent pointer clk = .ok s') : s.Keeps s' := by
  cases pointer with
  | none =>
      cases run
      exact Keeps.refl s
  | some a =>
      obtain ⟨pcb, _, rest⟩ := bind_eq_ok.mp run
      dsimp only at rest
      split at rest
      next =>
        cases rest
        exact Keeps.of_eq rfl rfl rfl rfl
      next =>
        cases rest
        exact Keeps.of_eq rfl rfl rfl rfl

theorem keeps_rotateQueue (run : s.rotateQueue = .ok s') : s.Keeps s' := by
  rintro ⟨items, wired⟩
  obtain ⟨queue, items', rotated, shows, type, perm, _⟩ := wired.rotateQueue
  rw [run, Except.ok.injEq] at rotated
  subst rotated
  exact ⟨⟨items', shows, type.trans wired.type,
    fun a member => wired.live a (perm.mem_iff.mp member), wired.running⟩, rfl⟩

theorem keeps_receivePcb {pcb : PCB} {more : Bool}
    (run : s.receivePcb pcb = .ok (s', more)) : s.Keeps s' := by
  rintro ⟨items, wired⟩
  cases valid : validPcb pcb with
  | false =>
      simp only [receivePcb, valid] at run
      cases run
      exact ⟨⟨items, wired⟩, rfl⟩
  | true =>
      obtain ⟨queue, items', _, received, wired', _⟩ := wired.receivePcb valid
      rw [run, Except.ok.injEq] at received
      cases received
      exact ⟨⟨items', wired'⟩, rfl⟩

/-- Both handlers read through NULL when no process is current. -/
theorem handleProcessTick_idle (idle : s.currentPcb = none) :
    s.handleProcessTick = .error .nullPointer := by
  rw [handleProcessTick, current_none idle, error_bind]

theorem handleProcessTermination_idle (idle : s.currentPcb = none)
    (clk log : Int) :
    s.handleProcessTermination clk log = .error .nullPointer := by
  rw [handleProcessTermination, logFinish, current_none idle, error_bind,
    error_bind]

/-- Except under HPF the decision about the running process assigns to its
remaining time at most. -/
theorem keeps_runningDecision (other : s.selectedAlgorithm ≠ .hpf)
    {clk log : Int} {expired : Bool}
    (run : s.runningDecision clk log = .ok (s', expired)) : s.Keeps s' := by
  rw [runningDecision] at run
  cases algorithm : s.selectedAlgorithm with
  | hpf => exact absurd algorithm other
  | rr =>
      simp only [algorithm] at run
      split at run
      next =>
        cases run
        exact Keeps.refl s
      next =>
        obtain ⟨pcb, _, rest⟩ := bind_eq_ok.mp run
        split at rest
        next =>
          obtain ⟨clipped, updated, rest⟩ := bind_eq_ok.mp rest
          cases rest
          exact keeps_updateCurrent updated
        next =>
          cases rest
          exact Keeps.refl s
  | srtn =>
      simp only [algorithm] at run
      obtain ⟨next, _, rest⟩ := bind_eq_ok.mp run
      split at rest
      next =>
        cases rest
        exact Keeps.refl s
      next =>
        obtain ⟨pcb, _, rest⟩ := bind_eq_ok.mp rest
        cases rest
        exact Keeps.refl s

/-- The dispatch makes the front of the queue current, if there is one. -/
theorem wellWired_takeNext (wired : s.WellWired) (run : s.takeNext = .ok s') :
    s'.WellWired ∧ (s'.currentPcb ≠ none ↔ s.readyQueue.isEmpty = false) := by
  obtain ⟨items, wired⟩ := wired
  cases items with
  | nil =>
      have idle : s' = { s with currentPcb := none } := by
        rw [takeNext] at run
        split at run
        next =>
          rw [wired.shows.dequeue_empty true] at run
          cases run
          rfl
        next =>
          rw [wired.shows.front_eq] at run
          cases run
          rfl
      rw [idle]
      refine ⟨⟨[], wired.shows, wired.type, wired.live, ?_⟩, ?_⟩
      · intro a runs
        cases runs
      · rw [wired.shows.isEmpty_iff.mpr rfl]
        simp
  | cons first rest =>
      obtain ⟨queue, items', taken, shows, type, hpf, others⟩ := wired.takeNext
      rw [run, Except.ok.injEq] at taken
      subst taken
      have member : ∀ a ∈ items', a ∈ first :: rest := by
        intro a inside
        by_cases algorithm : s.selectedAlgorithm = .hpf
        · exact List.mem_cons_of_mem _ ((hpf algorithm).2.mem_iff.mp inside)
        · exact (others algorithm).2 ▸ inside
      refine ⟨⟨items', shows, type.trans wired.type,
        fun a inside => wired.live a (member a inside), ?_⟩, ?_⟩
      · intro a runs
        cases runs
        exact wired.live first List.mem_cons_self
      · have filled : s.readyQueue.isEmpty = false := by
          rw [← Bool.not_eq_true, wired.shows.isEmpty_iff]
          exact List.cons_ne_nil first rest
        exact iff_of_true (Option.some_ne_none first) filled

end Scheduler

namespace Machine

variable {m m' : Machine}

theorem keeps_withSched {next : Statement} {result : Except Fault Scheduler}
    (keeps : ∀ s, result = .ok s → m.sched.Keeps s)
    (run : m.withSched next result = .ok m') : m.sched.Keeps m'.sched := by
  obtain ⟨s, performed, rest⟩ := bind_eq_ok.mp run
  cases rest
  exact keeps s performed

theorem keeps_reading {next : Statement} (run : m.reading next = .ok m') :
    m.sched.Keeps m'.sched := by
  obtain ⟨pcb, _, rest⟩ := bind_eq_ok.mp run
  cases rest
  exact Scheduler.Keeps.refl m.sched

theorem keeps_kill {signal : ProcessSignal} {next : Statement}
    (run : m.kill signal next = .ok m') : m.sched.Keeps m'.sched := by
  obtain ⟨s, killed, rest⟩ := bind_eq_ok.mp run
  cases rest
  exact Scheduler.keeps_killCurrent killed

theorem keeps_receive (run : m.receive = .ok m') :
    m.sched.Keeps m'.sched := by
  rw [receive] at run
  split at run
  next =>
    cases run
    exact Scheduler.Keeps.refl m.sched
  next pcb rest _ =>
    obtain ⟨⟨s, more⟩, received, rest⟩ := bind_eq_ok.mp run
    have keeps := Scheduler.keeps_receivePcb received
    cases more with
    | true =>
        cases rest
        exact keeps
    | false =>
        cases rest
        exact keeps

theorem keeps_handleCurrentRunningProcess {clk : Int}
    (run : m.handleCurrentRunningProcess clk = .ok m') :
    m.sched.Keeps m'.sched := by
  rw [handleCurrentRunningProcess] at run
  by_cases hpf : m.sched.selectedAlgorithm = .hpf
  · rw [if_pos hpf] at run
    split at run <;> cases run <;> exact Scheduler.Keeps.refl m.sched
  · rw [if_neg hpf] at run
    obtain ⟨⟨s, expired⟩, decided, rest⟩ := bind_eq_ok.mp run
    cases rest
    exact Scheduler.keeps_runningDecision hpf decided

/-- Two statements assign to `current_pcb`; no other one does. -/
theorem keeps_perform {clk : Int} (run : m.perform clk = .ok m')
    (assigns : m.next ≠ .assignNext) (clears : m.next ≠ .clearCurrent) :
    m.sched.Keeps m'.sched := by
  have same : m'.sched = m.sched → m.sched.Keeps m'.sched := fun equal =>
    equal ▸ Scheduler.Keeps.refl m.sched
  rw [perform] at run
  cases next : m.next with
  | assignNext => exact absurd next assigns
  | clearCurrent => exact absurd next clears
  | checkForNewProcesses =>
      simp only [next] at run
      exact keeps_receive run
  | handleCurrentRunningProcess =>
      simp only [next] at run
      exact keeps_handleCurrentRunningProcess run
  | testIdleTime =>
      simp only [next] at run
      split at run <;> cases run <;> exact same rfl
  | testStartTime =>
      simp only [next] at run
      obtain ⟨pcb, _, rest⟩ := bind_eq_ok.mp run
      cases rest
      exact same rfl
  | checkNoMoreProcesses =>
      simp only [next] at run
      cases run
      exact Scheduler.Keeps.of_eq (by simp) (by simp) (by simp) (by simp)
  | printIdle | addIdleTime | setLogStart | setProcessEnd | resetLogStart =>
      simp only [next] at run
      cases run
      exact Scheduler.Keeps.of_eq rfl rfl rfl rfl
  | printScheduling | printRunning | printExpired =>
      simp only [next] at run
      exact keeps_reading run
  | markStarted | setStartTime | setFirstWait | markResumed | setWait
  | markStopped =>
      simp only [next] at run
      exact keeps_withSched (fun _ => Scheduler.keeps_updateCurrent) run
  | killCont | killStop =>
      simp only [next] at run
      exact keeps_kill run
  | setLastRemain =>
      simp only [next] at run
      exact keeps_withSched (fun _ => Scheduler.keeps_rememberRemaining) run
  | logDispatch | logStop =>
      simp only [next] at run
      exact keeps_withSched (fun _ => Scheduler.keeps_logEvent) run
  | printStint =>
      simp only [next] at run
      exact keeps_withSched (fun _ => Scheduler.keeps_logStint) run
  | rotate =>
      simp only [next] at run
      exact keeps_withSched (fun _ => Scheduler.keeps_rotateQueue) run
  | testLoop | testIdle | readLoopTime | sleep | exited | testQueue | testNext
  | readDispatchTime | testCurrent | readExpiryTime | waitForStop =>
      simp only [next] at run
      cases run
      exact same rfl

theorem sched_send (m : Machine) : m.send.sched = m.sched := by
  rw [send]
  split
  next => rfl
  next => split <;> rfl

theorem sched_countDown (m : Machine) (a : Addr) :
    (m.countDown a).sched = m.sched := by
  rw [countDown]
  split
  next => rfl
  next =>
    split
    next => rfl
    next => split <;> rfl

end Machine

/-! ### Runs

Both handlers begin with a read through `current_pcb`.  So they are safe exactly
while there is a current process, and the result is about knowing, from the
statements performed, when that is.  Two statements assign to `current_pcb`, and
the watch beside the run notes which of them came last.
-/

/-- What every event keeps: there is a current process exactly while the last
assignment was that of a dispatch. -/
private structure Steady (w : Watched) : Prop where
  wired : w.machine.sched.WellWired
  dispatched : w.dispatched = true ↔ w.machine.sched.currentPcb ≠ none

namespace Steady

variable {w w' : Watched}

private theorem perform (steady : Steady w) {clk : Int} {m : Machine}
    (run : w.machine.perform clk = .ok m) :
    Steady ⟨m, w.dispatchedAfter (.perform clk)⟩ := by
  by_cases assigns : w.machine.next = .assignNext
  · rw [Machine.perform, assigns] at run
    obtain ⟨s, taken, rest⟩ := bind_eq_ok.mp run
    cases rest
    obtain ⟨wired, current⟩ := Scheduler.wellWired_takeNext steady.wired taken
    refine ⟨wired, ?_⟩
    rw [Watched.dispatchedAfter, assigns, current, Bool.not_eq_true']
  · by_cases clears : w.machine.next = .clearCurrent
    · rw [Machine.perform, clears] at run
      cases run
      obtain ⟨items, wired⟩ := steady.wired
      refine ⟨⟨items, wired.shows, wired.type, wired.live, ?_⟩, ?_⟩
      · intro a runs
        cases runs
      · rw [Watched.dispatchedAfter, clears]
        simp
    · obtain ⟨wired, current⟩ :=
        Machine.keeps_perform run assigns clears steady.wired
      refine ⟨wired, ?_⟩
      have same : w.dispatchedAfter (.perform clk) = w.dispatched := by
        rw [Watched.dispatchedAfter]
        split
        next equal => exact absurd equal assigns
        next equal => exact absurd equal clears
        next => rfl
      rw [same, current]
      exact steady.dispatched

private theorem handleTick (steady : Steady w) {m : Machine}
    (run : w.machine.handleTick = .ok m) : Steady ⟨m, w.dispatched⟩ := by
  rw [Machine.handleTick] at run
  split at run
  next =>
    obtain ⟨s, handled, rest⟩ := bind_eq_ok.mp run
    cases rest
    obtain ⟨items, wired⟩ := steady.wired
    cases runs : w.machine.sched.currentPcb with
    | none =>
        rw [Scheduler.handleProcessTick_idle runs] at handled
        cases handled
    | some a =>
        obtain ⟨s', items', _, handled', wired', _, current, _⟩ :=
          wired.handleProcessTick runs
        rw [handled, Except.ok.injEq] at handled'
        subst handled'
        refine ⟨⟨items', wired'⟩, ?_⟩
        rw [current, ← runs]
        exact steady.dispatched
  next =>
    cases run
    exact steady

private theorem handleTermination (steady : Steady w) {m : Machine}
    {now log : Int} (run : w.machine.handleTermination now log = .ok m) :
    Steady ⟨m, w.dispatched && ! w.machine.terminationPending⟩ := by
  rw [Machine.handleTermination] at run
  split at run
  next pending =>
    obtain ⟨s, handled, rest⟩ := bind_eq_ok.mp run
    cases rest
    obtain ⟨items, wired⟩ := steady.wired
    cases runs : w.machine.sched.currentPcb with
    | none =>
        rw [Scheduler.handleProcessTermination_idle runs] at handled
        cases handled
    | some a =>
        obtain ⟨s', items', handled', wired', _, current, _⟩ :=
          wired.handleProcessTermination runs now log
        rw [handled, Except.ok.injEq] at handled'
        subst handled'
        refine ⟨⟨items', wired'⟩, ?_⟩
        rw [pending, current]
        simp
  next quiet =>
    cases run
    have same : (w.dispatched && ! w.machine.terminationPending) =
        w.dispatched := by simp [quiet]
    rw [same]
    exact steady

private theorem step (steady : Steady w) {event : Interleaving}
    (run : w.step event = .ok w') : Steady w' := by
  obtain ⟨m, moved, rest⟩ := bind_eq_ok.mp run
  cases rest
  cases event with
  | send =>
      cases moved
      refine ⟨?_, ?_⟩
      · rw [Machine.sched_send]
        exact steady.wired
      · rw [Machine.sched_send]
        exact steady.dispatched
  | perform clk => exact steady.perform moved
  | countDown child =>
      cases moved
      refine ⟨?_, ?_⟩
      · rw [Machine.sched_countDown]
        exact steady.wired
      · rw [Machine.sched_countDown]
        exact steady.dispatched
  | handleTick => exact steady.handleTick moved
  | handleTermination now log => exact steady.handleTermination moved

/-- The handlers are safe while a process is dispatched, and only then. -/
private theorem safe_iff (steady : Steady w) (event : Interleaving) :
    HandlersSafe w.machine event ↔ HandledWhileDispatched w event := by
  obtain ⟨⟨items, wired⟩, dispatched⟩ := steady
  cases event with
  | send | perform clk | countDown child => exact Iff.rfl
  | handleTick =>
      rw [HandlersSafe, HandledWhileDispatched, dispatched]
      cases runs : w.machine.sched.currentPcb with
      | none => simp [Scheduler.handleProcessTick_idle runs]
      | some a =>
          obtain ⟨s', _, _, handled, _⟩ := wired.handleProcessTick runs
          simp [handled]
  | handleTermination now log =>
      rw [HandlersSafe, HandledWhileDispatched, dispatched]
      cases runs : w.machine.sched.currentPcb with
      | none => simp [Scheduler.handleProcessTermination_idle runs]
      | some a =>
          obtain ⟨s', _, handled, _⟩ :=
            wired.handleProcessTermination runs now log
          simp [handled]

end Steady

/-- In every run the handlers are safe exactly when each pending signal is
handled between a dispatch and the next statement that gives the process up: the
assignment of NULL in `handle_quantum_expiration`, or the handler of SIGUSR1. -/
theorem handlers_safe_iff (algorithm : SchedulingAlgorithm) (quantum clk : Int)
    (toSend : List PCB) (events : List Interleaving) :
    Along Watched.step (fun w event => HandlersSafe w.machine event)
        ⟨Machine.init algorithm quantum clk toSend, false⟩ events ↔
      Along Watched.step HandledWhileDispatched
        ⟨Machine.init algorithm quantum clk toSend, false⟩ events := by
  have start : Steady ⟨Machine.init algorithm quantum clk toSend, false⟩ :=
    ⟨⟨[], initQueue_shows algorithm, initQueue_type algorithm, by simp,
      fun a impossible => by cases impossible⟩, by simp [Machine.init, runScheduler]⟩
  exact along_congr (P := Steady) (fun _ _ _ steady _ run => steady.step run)
    (fun _ event steady => steady.safe_iff event) start

private def statements (n : Nat) : List Interleaving :=
  List.replicate n (.perform 0)

/-- The long process runs when the short one is received.  Just before it is
stopped it sends a tick, which is handled once it is no longer current. -/
private def lateTick : List Interleaving :=
  [.send] ++ statements 24 ++ [.send] ++ statements 9 ++ [.countDown 0] ++
    statements 4 ++ [.handleTick]

theorem handlers_unsafe :
    ¬ ∀ (algorithm : SchedulingAlgorithm) (quantum clk : Int)
      (toSend : List PCB) (events : List Interleaving),
      Along Watched.step (fun w event => HandlersSafe w.machine event)
        ⟨Machine.init algorithm quantum clk toSend, false⟩ events := by
  intro always
  have run := always .srtn 1 0 [sampleJob 1 3 0, sampleJob 2 1 0] lateTick
  revert run
  decide +kernel

end OsSim
