/-
Module: OsSim.SchedulerTurnaround
Purpose: The waiting times that `schedule_next_process` computes and the
  turnaround times of finished processes, against the clock units in which each
  process was current.
Trusted boundary: human-reviewed translation
Main exports:
  Paced, TurnaroundRight, Account, Accounts, WithinCheck, LogRight, Punctual,
  turnaround_right
-/
import OsSim.Library.Timeline
import OsSim.PerformanceStatistics
import OsSim.SchedulerClock
import OsSim.SchedulerRemaining

namespace OsSim

open PointerMemory
open Timeline
open Trace

/-- The clock advances once in a sleep at the end of an iteration; where a
process is current, its signal comes in that same sleep, and no other signal
does; and a process is received no earlier than it arrives. -/
def Paced (c : ClockedWorld) : ClockEvent → Prop
  | .tick => c.world.phase = .sleep ∧ c.ticked = false
  | .signal => c.world.phase = .sleep ∧ c.owed = true
  | .proceed => (c.world.phase = .sleep → c.owed = false) ∧
      (c.world.phase = .receive →
        ∀ pcb ∈ c.world.pcbMessages.head?, pcb.pdata.arrivalTime ≤ c.clk)
  | .send => True

instance (c : ClockedWorld) : ∀ event, Decidable (Paced c event)
  | .tick | .signal => inferInstanceAs (Decidable (_ ∧ _))
  | .proceed => inferInstanceAs (Decidable ((_ → _) ∧ (_ → ∀ pcb ∈ _, _ ≤ _)))
  | .send => inferInstanceAs (Decidable True)

/-- A line about a finished process shows a turnaround time that is the waiting
time and the runtime, and no remaining time. -/
def LogLine.FinishRight (line : LogLine) : Prop :=
  line.snapshot.state = some .finished →
    line.turnaround = line.snapshot.waitTime + line.snapshot.pdata.runtime ∧
      line.snapshot.remainingTime = 0

/-- A line about a dispatch shows as waiting time the clock units since the
arrival in which the process was not current. -/
def LogLine.DispatchRight (units : List (Int × Option Addr)) (line : LogLine) :
    Prop :=
  line.isDispatch = true → line.snapshot.waitTime =
    unitsWithout units line.pcb line.snapshot.pdata.arrivalTime line.clk

/-- All lines are right, and over the dispatches of one process the waiting time
never decreases. -/
structure TurnaroundRight (c : ClockedWorld) : Prop where
  finished : ∀ line ∈ c.world.sched.schedulerLog, line.FinishRight
  dispatched : ∀ line ∈ c.world.sched.schedulerLog, line.DispatchRight c.units
  rising : (c.world.sched.schedulerLog.filter LogLine.isDispatch).Pairwise
    fun line later => line.pcb = later.pcb →
      line.snapshot.waitTime ≤ later.snapshot.waitTime

/-! ### The account of a process

The source never counts waiting time.  It writes `wait_time` at a dispatch, as the
time since the arrival less the time the process has used, and the turnaround
time at the end, as the time since the arrival.  That the two fit together rests
on one equation between the clock and the control block, and this has to hold at
every moment, not only when the source reads them: the time since the
arrival is the units in which the process was not current, the units it has used,
and the unit it has been given but not yet signalled.  Every event is shown to
keep this account: a clock advance adds to the first or to the last of the
three, a signal moves the last to the second, and a dispatch only writes down
what the first has come to.
-/

/-- The unit that the process has been given but not signalled. -/
def ClockedWorld.due (c : ClockedWorld) (a : Addr) : Int :=
  if c.owed = true ∧ c.world.sched.currentPcb = some a then 1 else 0

/-- The control block of a process accounts for the time since its arrival: the
units in which it was not current, those it has used, and the one that is due.
While it is current the first are its waiting time. -/
structure Account (c : ClockedWorld) (a : Addr) (pcb : PCB) : Prop where
  arrived : pcb.pdata.arrivalTime ≤ c.clk
  waits : (unitsWithout c.units a pcb.pdata.arrivalTime c.clk : Int) =
    c.clk - pcb.pdata.arrivalTime - (pcb.pdata.runtime - pcb.remainingTime) -
      c.due a
  started : pcb.startTime = -1 →
    pcb.remainingTime = pcb.pdata.runtime ∧ c.world.sched.currentPcb ≠ some a
  current : c.world.sched.currentPcb = some a →
    c.clk - pcb.pdata.arrivalTime = pcb.waitTime +
      (pcb.pdata.runtime - pcb.remainingTime) + c.due a

/-- Every control block has its account, and only processes received have had a
unit of the clock. -/
structure Accounts (c : ClockedWorld) : Prop where
  own : ∀ a pcb, c.world.sched.pcbs.load a = some pcb → Account c a pcb
  known : ∀ unit ∈ c.units, ∀ a, unit.2 = some a → a < c.world.sched.received

section

variable {c c' : ClockedWorld} {a b : Addr} {pcb pcb' : PCB}

theorem ClockedWorld.due_of_ne (other : c.world.sched.currentPcb ≠ some a) :
    c.due a = 0 := if_neg fun both => other both.2

theorem ClockedWorld.due_of_paid (paid : c.owed = false) (a : Addr) :
    c.due a = 0 := if_neg fun both => by simp [paid] at both

theorem ClockedWorld.due_of_owed (owed : c.owed = true)
    (runs : c.world.sched.currentPcb = some a) : c.due a = 1 :=
  if_pos ⟨owed, runs⟩

/-- The account of a process that is not current, before or after. -/
theorem Account.aside (account : Account c a pcb) (units : c'.units = c.units)
    (clk : c'.clk = c.clk) (before : c.world.sched.currentPcb ≠ some a)
    (after : c'.world.sched.currentPcb ≠ some a) : Account c' a pcb where
  arrived := clk ▸ account.arrived
  waits := by
    rw [units, clk, account.waits, ClockedWorld.due_of_ne before,
      ClockedWorld.due_of_ne after]
  started := fun fresh => ⟨(account.started fresh).1, after⟩
  current := fun runs => absurd runs after

/-- An account depends on the clock, the units, the current process and whether
a signal is due. -/
theorem Account.congr (account : Account c a pcb) (units : c'.units = c.units)
    (clk : c'.clk = c.clk) (owed : c'.owed = c.owed)
    (current : c'.world.sched.currentPcb = c.world.sched.currentPcb) :
    Account c' a pcb := by
  have due : c'.due a = c.due a := by
    rw [ClockedWorld.due, ClockedWorld.due, owed, current]
  refine ⟨clk ▸ account.arrived, ?_, ?_, ?_⟩
  · rw [units, clk, due]
    exact account.waits
  · rw [current]
    exact account.started
  · rw [current, clk, due]
    exact account.current

/-- A unit of the clock passes. -/
theorem Account.tick (account : Account c a pcb) (paid : c.owed = false) :
    Account c.tick a pcb := by
  have passed := unitsWithout_pass c.world.sched.currentPcb c.units a
    account.arrived
  have waits := account.waits
  rw [ClockedWorld.due_of_paid paid] at waits
  have clk : c.tick.clk = c.clk + 1 := rfl
  have units : c.tick.units =
      (c.clk, c.world.sched.currentPcb) :: c.units := rfl
  by_cases runs : c.world.sched.currentPcb = some a
  · have due : c.tick.due a = 1 :=
      ClockedWorld.due_of_owed (by simp [ClockedWorld.tick, runs]) runs
    have current := account.current runs
    rw [ClockedWorld.due_of_paid paid] at current
    rw [if_pos runs] at passed
    refine ⟨?_, ?_, account.started, fun _ => ?_⟩
    · have arrived := account.arrived
      omega
    · rw [units, clk, passed, due]
      omega
    · rw [clk, due]
      omega
  · have due : c.tick.due a = 0 := ClockedWorld.due_of_ne runs
    rw [if_neg runs] at passed
    refine ⟨?_, ?_, account.started, fun same => absurd same runs⟩
    · have arrived := account.arrived
      omega
    · rw [units, clk, passed, due]
      omega

/-- The current process uses the unit that is due. -/
theorem Account.use (account : Account c a pcb)
    (runs : c.world.sched.currentPcb = some a) (owed : c.owed = true)
    (units : c'.units = c.units) (clk : c'.clk = c.clk)
    (paid : c'.owed = false) (pdata : pcb'.pdata = pcb.pdata)
    (start : pcb'.startTime = pcb.startTime)
    (used : pcb'.remainingTime = pcb.remainingTime - 1)
    (waited : pcb'.waitTime = pcb.waitTime) : Account c' a pcb' := by
  have due := ClockedWorld.due_of_owed owed runs
  have waits := account.waits
  have current := account.current runs
  refine ⟨?_, ?_, fun fresh => ?_, fun _ => ?_⟩
  · rw [pdata, clk]
    exact account.arrived
  · rw [units, clk, pdata, used, ClockedWorld.due_of_paid paid]
    omega
  · exact absurd runs (account.started (start ▸ fresh)).2
  · rw [clk, pdata, used, waited, ClockedWorld.due_of_paid paid]
    omega

/-- The process stops being current, with nothing due. -/
theorem Account.stop (account : Account c a pcb) (owed : c.owed = false)
    (units : c'.units = c.units) (clk : c'.clk = c.clk)
    (idle : c'.world.sched.currentPcb = none) (pdata : pcb'.pdata = pcb.pdata)
    (start : pcb'.startTime = pcb.startTime)
    (remaining : pcb'.remainingTime = pcb.remainingTime) : Account c' a pcb' := by
  have other : c'.world.sched.currentPcb ≠ some a := by simp [idle]
  refine ⟨?_, ?_, fun fresh => ⟨?_, other⟩, fun runs => absurd runs other⟩
  · rw [pdata, clk]
    exact account.arrived
  · rw [units, clk, pdata, remaining, ClockedWorld.due_of_ne other, account.waits,
      ClockedWorld.due_of_paid owed]
  · rw [remaining, pdata]
    exact (account.started (start ▸ fresh)).1

/-- At a dispatch the waiting time that is recorded is the number of units so far
in which the process was not current. -/
theorem Account.waitTime_dispatched (account : Account c a pcb)
    (paid : c.owed = false) :
    (Scheduler.dispatchedPcb pcb c.clk).waitTime =
      unitsWithout c.units a pcb.pdata.arrivalTime c.clk := by
  have waits := account.waits
  rw [ClockedWorld.due_of_paid paid] at waits
  rw [waits, Scheduler.dispatchedPcb]
  split
  next fresh =>
    have whole := (account.started fresh).1
    dsimp only
    omega
  next => exact (Int.sub_zero _).symm

/-- A clock value is never the mark of a process that has not started. -/
theorem startTime_dispatchedPcb (pcb : PCB) {clk : Int} (time : 0 ≤ clk) :
    (Scheduler.dispatchedPcb pcb clk).startTime ≠ -1 := by
  rw [Scheduler.dispatchedPcb]
  split
  next =>
    dsimp only
    omega
  next started => exact started

/-- The process becomes current. -/
theorem Account.dispatch (account : Account c a pcb) (paid : c.owed = false)
    (time : 0 ≤ c.clk) (units : c'.units = c.units) (clk : c'.clk = c.clk)
    (paid' : c'.owed = false) :
    Account c' a (Scheduler.dispatchedPcb pcb c.clk) := by
  obtain ⟨_, pdata, remaining, _⟩ := Scheduler.dispatchedPcb_kept pcb c.clk
  have waited := account.waitTime_dispatched paid
  have waits := account.waits
  rw [ClockedWorld.due_of_paid paid] at waits
  refine ⟨?_, ?_, fun fresh => ?_, fun _ => ?_⟩
  · rw [pdata, clk]
    exact account.arrived
  · rw [units, clk, pdata, remaining, ClockedWorld.due_of_paid paid', waits]
  · exact absurd fresh (startTime_dispatchedPcb pcb time)
  · rw [clk, pdata, remaining, ClockedWorld.due_of_paid paid', waited]
    omega

namespace Accounts

theorem tick (accounts : Accounts c) (paid : c.owed = false)
    (wired : ∀ a, c.world.sched.currentPcb = some a →
      ∃ pcb, c.world.sched.pcbs.load a = some pcb) : Accounts c.tick where
  own := fun a pcb live => (accounts.own a pcb live).tick paid
  known := by
    intro unit member a own
    rcases List.mem_cons.mp member with passing | past
    · subst passing
      obtain ⟨pcb, live⟩ := wired a own
      exact Scheduler.lt_received live
    · exact accounts.known unit past a own

/-- One control block is overwritten, and no other process is or becomes
current. -/
theorem put (accounts : Accounts c) (live : c.world.sched.pcbs.load a = some pcb)
    (units : c'.units = c.units) (clk : c'.clk = c.clk)
    (pcbs : c'.world.sched.pcbs = c.world.sched.pcbs.put a pcb')
    (before : ∀ b, c.world.sched.currentPcb = some b → b = a)
    (after : ∀ b, c'.world.sched.currentPcb = some b → b = a)
    (own : Account c' a pcb') : Accounts c' where
  own := by
    intro b pcb'' live'
    rw [pcbs] at live'
    by_cases same : b = a
    · subst same
      rw [Mem.load_put_self live, Option.some.injEq] at live'
      exact live' ▸ own
    · rw [Mem.load_put_of_ne _ same] at live'
      exact (accounts.own b pcb'' live').aside units clk
        (fun runs => same (before b runs)) (fun runs => same (after b runs))
  known := by
    rw [units, Scheduler.received_put pcbs]
    exact accounts.known

/-- A new process has waited since its arrival. -/
theorem receive (accounts : Accounts c)
    (units : c'.units = c.units) (clk : c'.clk = c.clk)
    (pcbs : c'.world.sched.pcbs = (c.world.sched.pcbs.malloc pcb).1)
    (current : c'.world.sched.currentPcb = c.world.sched.currentPcb)
    (owed : c'.owed = c.owed)
    (wired : ∀ a, c.world.sched.currentPcb = some a →
      ∃ pcb, c.world.sched.pcbs.load a = some pcb)
    (fresh : pcb.remainingTime = pcb.pdata.runtime)
    (arrived : pcb.pdata.arrivalTime ≤ c.clk) : Accounts c' where
  own := by
    intro b pcb' live
    rw [pcbs] at live
    by_cases new : b = c.world.sched.received
    · subst new
      have loaded : (c.world.sched.pcbs.malloc pcb).1.load
          c.world.sched.received = some pcb := Mem.load_malloc_self _ pcb
      rw [loaded, Option.some.injEq] at live
      subst live
      have other : c'.world.sched.currentPcb ≠
          some c.world.sched.received := by
        rw [current]
        intro runs
        obtain ⟨old, live⟩ := wired _ runs
        exact Nat.lt_irrefl _ (Scheduler.lt_received live)
      refine ⟨clk ▸ arrived, ?_, fun _ => ⟨fresh, other⟩,
        fun runs => absurd runs other⟩
      rw [units, clk, ClockedWorld.due_of_ne other, unitsWithout_of_unknown
        fun unit member own => Nat.lt_irrefl _
          (accounts.known unit member _ own)]
      omega
    · have old : c.world.sched.pcbs.load b = some pcb' := by
        rw [← live]
        exact (Mem.load_malloc_of_ne _ pcb new).symm
      exact (accounts.own b pcb' old).congr units clk owed current
  known := by
    intro unit member a own
    have bound := accounts.known unit (units ▸ member) a own
    have grown : c'.world.sched.received = c.world.sched.received + 1 := by
      rw [Scheduler.received, pcbs]
      exact Mem.length_malloc c.world.sched.pcbs pcb
    rw [grown]
    exact Nat.lt_succ_of_lt bound

/-- Where no control block and no current process changes, nothing does. -/
theorem same (accounts : Accounts c) (units : c'.units = c.units)
    (clk : c'.clk = c.clk) (owed : c'.owed = c.owed)
    (pcbs : c'.world.sched.pcbs = c.world.sched.pcbs)
    (current : c'.world.sched.currentPcb = c.world.sched.currentPcb) :
    Accounts c' where
  own := fun b pcb live =>
    (accounts.own b pcb (pcbs ▸ live)).congr units clk owed current
  known := by
    rw [units, Scheduler.received, pcbs]
    exact accounts.known

end Accounts

end

/-! ### The quantum check

Under RR `handle_current_running_process` overwrites the remaining time once a
quantum has been used up.  That is harmless when no more than a quantum has been
used, and then it changes nothing.  A signal may come between two checks, so the
invariant asks for more while one may: there the process has used less than its
quantum.  A phase that lets the process go on has found it so, and from there to
the sleep nothing can use a unit up before the one signal that is due.
-/

/-- A signal of the current process may still come before
`handle_current_running_process` is called again. -/
def ClockedWorld.SignalAhead (c : ClockedWorld) : Prop :=
  c.world.phase = .endOfInput ∨
    (c.world.phase = .sleep ∧ (c.ticked = false ∨ c.owed = true))

/-- Under RR the current process has used no more than the quantum since its
dispatch, and less where it may still be signalled before the next check. -/
structure WithinCheck (c : ClockedWorld) : Prop where
  quantum : c.world.sched.selectedAlgorithm = .rr → 0 ≤ c.world.sched.quantum
  used : c.world.sched.selectedAlgorithm = .rr →
    ∀ n ∈ c.world.sched.currentRemaining,
      c.world.sched.lastRemainTime - c.world.sched.quantum ≤ n
  ahead : c.world.sched.selectedAlgorithm = .rr → c.SignalAhead →
    ∀ n ∈ c.world.sched.currentRemaining,
      c.world.sched.lastRemainTime - c.world.sched.quantum < n

namespace WithinCheck

variable {c c' : ClockedWorld}

/-- Where the settings and the current process stay as they are. -/
theorem keep (check : WithinCheck c)
    (algorithm : c'.world.sched.selectedAlgorithm =
      c.world.sched.selectedAlgorithm)
    (quantum : c'.world.sched.quantum = c.world.sched.quantum)
    (last : c'.world.sched.lastRemainTime = c.world.sched.lastRemainTime)
    (remaining : c'.world.sched.currentRemaining =
      c.world.sched.currentRemaining)
    (ahead : c'.SignalAhead → c.SignalAhead) : WithinCheck c' := by
  constructor
  · rw [algorithm, quantum]
    exact check.quantum
  · rw [algorithm, quantum, last, remaining]
    exact check.used
  · rw [algorithm, quantum, last, remaining]
    exact fun rr may => check.ahead rr (ahead may)

/-- Without a current process there is nothing to check. -/
theorem idle (check : WithinCheck c)
    (algorithm : c'.world.sched.selectedAlgorithm =
      c.world.sched.selectedAlgorithm)
    (quantum : c'.world.sched.quantum = c.world.sched.quantum)
    (none : c'.world.sched.currentPcb = none) : WithinCheck c' := by
  have remaining : c'.world.sched.currentRemaining = .none := by
    rw [Scheduler.currentRemaining, none, Option.bind_none]
  constructor
  · rw [algorithm, quantum]
    exact check.quantum
  · rw [remaining]
    intro _ n impossible
    cases impossible
  · rw [remaining]
    intro _ _ n impossible
    cases impossible

/-- Where no signal may come, what the current process has used counts. -/
theorem quiet {a : Addr} {pcb : PCB}
    (enough : c.world.sched.selectedAlgorithm = .rr →
      0 ≤ c.world.sched.quantum ∧
      c.world.sched.lastRemainTime - c.world.sched.quantum ≤ pcb.remainingTime)
    (runs : c.world.sched.currentPcb = some a)
    (live : c.world.sched.pcbs.load a = some pcb) (none : ¬ c.SignalAhead) :
    WithinCheck c := by
  have remaining := Scheduler.currentRemaining_eq runs live
  constructor
  · exact fun rr => (enough rr).1
  · intro rr n same
    rw [remaining, Option.mem_some_iff] at same
    exact same ▸ (enough rr).2
  · exact fun _ may => absurd may none

theorem tick (check : WithinCheck c) (phase : c.world.phase = .sleep)
    (first : c.ticked = false) : WithinCheck c.tick :=
  check.keep rfl rfl rfl rfl fun _ => Or.inr ⟨phase, Or.inl first⟩

/-- A phase that decides to stay on has found less than the quantum used. -/
theorem staysOn (check : WithinCheck c) (stays : c.world.sched.StaysOn)
    (algorithm : c'.world.sched = c.world.sched) : WithinCheck c' := by
  constructor
  · rw [algorithm]
    exact check.quantum
  · rw [algorithm]
    exact check.used
  · rw [algorithm]
    intro rr _ n member
    obtain ⟨a, runs, own⟩ := Option.bind_eq_some_iff.mp member
    obtain ⟨pcb, live, same⟩ := Option.map_eq_some_iff.mp own
    exact same ▸ stays.rr rr a pcb runs live

/-- Every phase keeps to the quantum. -/
theorem proceed (check : WithinCheck c) {world : World} {ticked : Bool}
    (move : Move c.world (.proceed c.reading) world)
    (wired : ∀ a, c.world.sched.currentPcb = some a →
      ∃ pcb, c.world.sched.pcbs.load a = some pcb) :
    WithinCheck { c with world := world, ticked := ticked } := by
  have busy : ∀ {w : World}, w.phase ≠ .endOfInput → w.phase ≠ .sleep →
      ¬ ClockedWorld.SignalAhead { c with world := w, ticked := ticked } := by
    rintro w early awake (ends | ⟨asleep, _⟩)
    · exact early ends
    · exact awake asleep
  cases move with
  | @turned _ phase follows =>
      have still : phase ≠ .endOfInput → phase ≠ .sleep → WithinCheck
          { c with world := { c.world with phase := phase }, ticked := ticked } :=
        fun early awake => check.keep rfl rfl rfl rfl
          fun may => absurd may (busy early awake)
      rw [World.Follows] at follows
      cases before : c.world.phase with
      | loopTest =>
          simp only [before] at follows
          exact still (by rw [follows]; split <;> simp)
            (by rw [follows]; split <;> simp)
      | receive =>
          simp only [before] at follows
          exact still (by simp [follows.2]) (by simp [follows.2])
      | dispatch =>
          simp only [before] at follows
          exact still (by simp [follows.2]) (by simp [follows.2])
      | running =>
          simp only [before] at follows
          rcases follows with ⟨stays, _⟩ | ⟨_, next, _⟩
          · exact check.staysOn stays rfl
          · exact still (by simp [next]) (by simp [next])
      | expire =>
          simp only [before] at follows
          exact check.idle rfl rfl follows.1
      | endOfInput =>
          simp only [before] at follows
      | sleep =>
          simp only [before] at follows
          exact still (by simp [follows]) (by simp [follows])
      | exited =>
          simp only [before] at follows
          exact still (by simp [follows]) (by simp [follows])
  | rejected phase messages invalid =>
      exact check.keep rfl rfl rfl rfl
        fun may => absurd may (busy (by simp) (by simp))
  | received phase messages valid entered =>
      refine check.keep rfl rfl rfl ?_
        fun may => absurd may (busy (by simp [phase]) (by simp [phase]))
      cases runs : c.world.sched.currentPcb with
      | none =>
          rw [Scheduler.currentRemaining, Scheduler.currentRemaining, runs]
          rfl
      | some a =>
          obtain ⟨pcb, live⟩ := wired a runs
          rw [Scheduler.currentRemaining_eq runs live]
          exact Scheduler.currentRemaining_eq runs
            (Mem.load_malloc_of_live live _)
  | @dispatched _ first pcb queue phase idle live took =>
      obtain ⟨_, _, remaining, _⟩ := Scheduler.dispatchedPcb_kept pcb c.clk
      have live' : (c.world.sched.accountIdle c.clk).pcbs.load first = some pcb := by
        rw [Scheduler.accountIdle_pcbs, live]
      have quantum : c.world.sched.selectedAlgorithm = .rr →
          0 ≤ (c.world.sched.accountIdle c.clk).quantum := by
        rw [Scheduler.accountIdle_quantum]
        exact check.quantum
      refine quiet (fun rr => ?_) rfl (Mem.load_put_self live' _)
        (busy (by simp) (by simp))
      have enough := quantum (by simpa using rr)
      refine ⟨enough, ?_⟩
      rw [Scheduler.afterDispatch]
      exact remaining ▸ Int.sub_le_self _ enough
  | redispatched phase hpf idle live took =>
      have other : c.world.sched.selectedAlgorithm ≠ .rr := by simp [hpf]
      exact ⟨check.quantum, fun rr => absurd rr other, fun rr => absurd rr other⟩
  | clipped phase rr runs live used =>
      exact quiet (fun rr => ⟨check.quantum rr, Int.le_refl _⟩) runs
        (Mem.load_put_self live _) (busy (by simp) (by simp))
  | expired phase runs live rotated kept => exact check.idle rfl rfl rfl
  | checked phase =>
      refine check.keep (by simp) (by simp) (by simp) ?_ fun _ => Or.inl phase
      rw [Scheduler.currentRemaining, checkNoMoreProcesses_currentPcb,
        Scheduler.remaining_checkNoMoreProcesses, Scheduler.currentRemaining]

/-- A signal that could come uses no more than the quantum. -/
theorem signal (check : WithinCheck c) (phase : c.world.phase = .sleep)
    (passed : c.ticked = true) (owed : c.owed = true) {a : Addr} {pcb : PCB}
    (runs : c.world.sched.currentPcb = some a)
    (live : c.world.sched.pcbs.load a = some pcb) {children : List Int}
    {queue : IQueue Addr} : WithinCheck { c with
      world := { c.world with
        sched := c.world.sched.afterTick queue a pcb
        children := children }
      owed := false } := by
  have remaining := Scheduler.currentRemaining_eq runs live
  refine quiet (fun rr => ⟨check.quantum rr, ?_⟩) runs (Mem.load_put_self live _)
    ?_
  · have less := check.ahead rr (Or.inr ⟨phase, Or.inr owed⟩) _ remaining
    exact Int.le_sub_one_of_lt less
  · rintro (ends | ⟨_, first | due⟩)
    · rw [phase] at ends
      cases ends
    · rw [passed] at first
      cases first
    · cases due

end WithinCheck

/-! ### The log

The account speaks of the present, the log of the past.  A line is right when it
is written; that it stays right is because the units it counts are those before
its clock value, and later units are added behind them.  The waiting times of one
process then never decrease, since each counts the units without the process up
to its own line, and the lines are in the order of time.
-/

/-- A line of the log is right, and about a process received. -/
structure LineRight (c : ClockedWorld) (line : LogLine) : Prop where
  past : line.clk ≤ c.clk
  origin : c.world.sched.origin line.pcb =
    some (line.snapshot.pid, line.snapshot.pdata)
  finished : line.FinishRight
  dispatched : line.DispatchRight c.units

/-- All lines are right, in the order of the clock. -/
structure LogRight (c : ClockedWorld) : Prop where
  lines : ∀ line ∈ c.world.sched.schedulerLog, LineRight c line
  ordered : c.world.sched.schedulerLog.Pairwise fun line later =>
    line.clk ≤ later.clk

namespace LogRight

variable {c c' : ClockedWorld}

/-- A control block that shows where it comes from has been received. -/
theorem lt_received {s : Scheduler} {a : Addr} {origin : Int × Process}
    (shows : s.origin a = some origin) : a < s.received := by
  obtain ⟨pcb, live, _⟩ := Option.map_eq_some_iff.mp shows
  exact Scheduler.lt_received live

theorem tick (right : LogRight c) : LogRight c.tick where
  lines := by
    intro line member
    obtain ⟨past, origin, finished, dispatched⟩ := right.lines line member
    refine ⟨Int.le_trans past (Int.le_add_one (Int.le_refl _)), origin, finished,
      fun dispatch => ?_⟩
    rw [dispatched dispatch]
    exact congrArg Nat.cast (unitsWithout_cons _ c.units _ past).symm
  ordered := right.ordered

/-- Some more lines, at the present. -/
theorem append (right : LogRight c) (units : c'.units = c.units)
    (clk : c'.clk = c.clk)
    (origin : ∀ a, a < c.world.sched.received →
      c'.world.sched.origin a = c.world.sched.origin a)
    (lines : List LogLine) (brief : lines.length ≤ 1)
    (log : c'.world.sched.schedulerLog = c.world.sched.schedulerLog ++ lines)
    (new : ∀ line ∈ lines, line.clk = c.clk ∧ LineRight c' line) :
    LogRight c' where
  lines := by
    intro line member
    rw [log] at member
    rcases List.mem_append.mp member with old | fresh
    · obtain ⟨past, shows, finished, dispatched⟩ := right.lines line old
      exact ⟨clk ▸ past, (origin _ (lt_received shows)).trans shows, finished,
        units ▸ dispatched⟩
    · exact (new line fresh).2
  ordered := by
    rw [log, List.pairwise_append]
    refine ⟨right.ordered, ?_, ?_⟩
    · cases lines with
      | nil => exact List.Pairwise.nil
      | cons line rest =>
          have none : rest = [] := List.eq_nil_of_length_eq_zero
            (Nat.le_zero.mp (Nat.le_of_succ_le_succ brief))
          subst none
          exact List.pairwise_singleton _ line
    · intro line old later fresh
      rw [(new later fresh).1]
      exact (right.lines line old).past

/-- The dispatches of one process show waiting times that never decrease. -/
theorem rising (right : LogRight c) :
    (c.world.sched.schedulerLog.filter LogLine.isDispatch).Pairwise
      fun line later => line.pcb = later.pcb →
        line.snapshot.waitTime ≤ later.snapshot.waitTime := by
  refine (right.ordered.filter LogLine.isDispatch).imp_of_mem ?_
  intro line later first second ordered same
  obtain ⟨old, dispatch⟩ := List.mem_filter.mp first
  obtain ⟨new, dispatch'⟩ := List.mem_filter.mp second
  have origin := (right.lines line old).origin
  rw [same, (right.lines later new).origin, Option.some.injEq,
    Prod.mk.injEq] at origin
  rw [(right.lines line old).dispatched dispatch,
    (right.lines later new).dispatched dispatch', same, origin.2]
  exact Int.ofNat_le.mpr (unitsWithout_le _ _ _ ordered)

end LogRight

/-! ### Runs -/

/-- What the paced runs keep. -/
structure Punctual (c : ClockedWorld) : Prop where
  charged : ∃ items, Balanced c.world items ∧ Charged c.world items
  inStep : InStep c.world.sched c.world.children
  asleep : c.owed = true → c.world.phase = .sleep ∧ c.ticked = true ∧
    c.world.sched.currentPcb ≠ none
  time : 0 ≤ c.clk
  check : WithinCheck c
  accounts : Accounts c
  log : LogRight c

namespace Punctual

variable {c c' : ClockedWorld}

theorem initial {algorithm : SchedulingAlgorithm} {quantum clk : Int}
    (positive : algorithm = .rr → 1 ≤ quantum) (time : 0 ≤ clk)
    {toSend : List PCB} (sent : ∀ pcb ∈ toSend, Sent pcb) :
    Punctual (ClockedWorld.init algorithm quantum clk toSend) where
  charged := ⟨[], balanced_init algorithm quantum clk sent⟩
  inStep := ⟨fun _ impossible => absurd impossible (Nat.not_lt_zero _),
    fun _ impossible => by cases impossible⟩
  asleep := fun impossible => by cases impossible
  time := time
  check := by
    refine ⟨fun rr => Int.le_trans (by decide) (positive rr), ?_, ?_⟩
    · intro _ n impossible
      cases impossible
    · intro _ _ n impossible
      cases impossible
  accounts := by
    refine ⟨fun a pcb live => ?_, fun _ impossible => by cases impossible⟩
    exact absurd (Mem.lt_length_of_load live) (Nat.not_lt_zero _)
  log := ⟨fun _ impossible => (by cases impossible), List.Pairwise.nil⟩

theorem wired (punctual : Punctual c) (a : Addr)
    (runs : c.world.sched.currentPcb = some a) :
    ∃ pcb, c.world.sched.pcbs.load a = some pcb := by
  obtain ⟨items, balanced, _⟩ := punctual.charged
  exact balanced.tally.wired.running a runs

theorem right (punctual : Punctual c) : TurnaroundRight c where
  finished := fun line member => (punctual.log.lines line member).finished
  dispatched := fun line member => (punctual.log.lines line member).dispatched
  rising := punctual.log.rising

theorem tick (punctual : Punctual c) (phase : c.world.phase = .sleep)
    (first : c.ticked = false) : Punctual c.tick where
  charged := punctual.charged
  inStep := punctual.inStep
  asleep := fun owed => ⟨phase, rfl, Option.isSome_iff_ne_none.mp owed⟩
  time := Int.le_trans punctual.time (Int.le_add_one (Int.le_refl _))
  check := punctual.check.tick phase first
  accounts := by
    apply punctual.accounts.tick _ punctual.wired
    cases owed : c.owed with
    | false => rfl
    | true =>
        have passed := (punctual.asleep owed).2.1
        rw [first] at passed
        cases passed
  log := punctual.log.tick

/-- An event of the scheduler's world keeps the agreement of the remaining times
with the children. -/
theorem world_step (punctual : Punctual c) {event : Event} {world : World}
    (asleep : ∀ clk, event = .signal clk → c.world.phase = .sleep)
    (run : c.world.step event = .ok world) :
    (∃ items, Balanced world items ∧ Charged world items) ∧
      InStep world.sched world.children := by
  obtain ⟨items, balanced, charged⟩ := punctual.charged
  obtain ⟨items', balanced', kept⟩ := balanced.of_step run
  refine ⟨⟨items', balanced', kept (fun clk signal => ?_) charged⟩, ?_⟩
  · exact charged.settled (by rw [asleep clk signal]; rfl)
  · apply (balanced.move run).inStep balanced punctual.inStep fun _ => charged
    cases event with
    | proceed clk => exact fun _ rr => punctual.check.used rr
    | send => trivial
    | signal clk => trivial

theorem send (punctual : Punctual c) {world : World}
    (run : c.world.step .send = .ok world) :
    Punctual { c with world := world } := by
  obtain ⟨charged, inStep⟩ := punctual.world_step (by simp) run
  cases run
  obtain ⟨sched, _, phase⟩ := c.world.send_sched
  refine ⟨charged, inStep, ?_, punctual.time, ?_, ?_, ?_⟩
  · dsimp only
    rw [phase, sched]
    exact punctual.asleep
  · apply punctual.check.keep (congrArg Scheduler.selectedAlgorithm sched)
      (congrArg Scheduler.quantum sched)
      (congrArg Scheduler.lastRemainTime sched)
      (congrArg Scheduler.currentRemaining sched)
    dsimp only [ClockedWorld.SignalAhead]
    rw [phase]
    exact id
  · exact punctual.accounts.same rfl rfl rfl (congrArg Scheduler.pcbs sched)
      (congrArg Scheduler.currentPcb sched)
  · refine punctual.log.append rfl rfl
      (fun a _ => congrArg (Scheduler.origin · a) sched) [] (Nat.zero_le _)
      ((congrArg Scheduler.schedulerLog sched).trans
        (List.append_nil _).symm) ?_
    intro line impossible
    cases impossible

/-- The child of the current process has time left. -/
theorem child_left (punctual : Punctual c) {a : Addr}
    (runs : c.world.sched.currentPcb = some a) :
    ∃ n, c.world.children[a]? = some n ∧ 0 < n := by
  obtain ⟨items, balanced, charged⟩ := punctual.charged
  obtain ⟨pcb, live⟩ := punctual.wired a runs
  have inside : a < c.world.children.length :=
    balanced.tally.counted.symm ▸ Scheduler.lt_received live
  have child := List.getElem?_eq_getElem inside
  refine ⟨_, child, ?_⟩
  have alive := charged.roster.alive runs
  have bounds := balanced.tally.bounds _ (List.getElem_mem inside)
  have running : c.world.children[a] ≠ 0 :=
    fun zero => alive ((balanced.tally.ended a _ child).mp zero)
  omega

/-- The signal that is due finds the current process. -/
theorem signal (punctual : Punctual c) (phase : c.world.phase = .sleep)
    (owed : c.owed = true) {world : World}
    (run : c.world.step (.signal c.reading) = .ok world) :
    Punctual { c with world := world, owed := false } := by
  obtain ⟨charged, inStep⟩ := punctual.world_step (fun _ _ => phase) run
  obtain ⟨items, balanced, before⟩ := punctual.charged
  have passed := (punctual.asleep owed).2.1
  have move := balanced.move run
  have origin := fun a (inside : a < c.world.sched.received) =>
    move.origin inside
  cases move with
  | silent none =>
      obtain ⟨a, runs⟩ :=
        Option.ne_none_iff_exists'.mp (punctual.asleep owed).2.2
      obtain ⟨n, child, left⟩ := punctual.child_left runs
      exact absurd (none a n runs child) (Int.not_le.mpr left)
  | @ticked _ a pcb n queue runs live child more kept rekeyed =>
      have account := punctual.accounts.own a pcb live
      refine ⟨charged, inStep, fun impossible => (by cases impossible),
        punctual.time, punctual.check.signal phase passed owed runs live, ?_, ?_⟩
      · refine punctual.accounts.put live rfl rfl rfl ?_ ?_
          (account.use runs owed rfl rfl rfl rfl rfl rfl rfl)
        · exact fun b same => Option.some.inj (same.symm.trans runs)
        · exact fun b same => Option.some.inj (same.symm.trans runs)
      · refine punctual.log.append rfl rfl origin [] (Nat.zero_le _)
          (List.append_nil _).symm ?_
        intro line impossible
        cases impossible
  | @finished _ a pcb queue runs live child kept removed =>
      have account := punctual.accounts.own a pcb live
      refine ⟨charged, inStep, fun impossible => (by cases impossible),
        punctual.time, punctual.check.idle rfl rfl rfl, ?_, ?_⟩
      · refine punctual.accounts.put live rfl rfl rfl ?_ ?_
          (account.use runs owed rfl rfl rfl rfl rfl rfl rfl)
        · exact fun b same => Option.some.inj (same.symm.trans runs)
        · intro b impossible
          cases impossible
      · refine punctual.log.append rfl rfl origin
          [{ clk := c.clk, pcb := a, snapshot := Scheduler.finishedPcb pcb }]
          (Nat.le_refl _) rfl ?_
        intro line member
        rw [List.mem_singleton.mp member]
        refine ⟨rfl, Int.le_refl _, ?_, fun _ => ?_,
          fun impossible => (by cases impossible)⟩
        · exact (origin a (Scheduler.lt_received live)).trans
            (congrArg (Option.map _) live)
        · have last := punctual.inStep.remaining a (Scheduler.lt_received live)
            (before.roster.alive runs)
          rw [Scheduler.remaining_of_load live, child, Option.some.injEq] at last
          have current := account.current runs
          rw [ClockedWorld.due_of_owed owed runs] at current
          simp only [LogLine.turnaround, Scheduler.finishedPcb]
          omega

/-- Every phase keeps the accounts of all processes. -/
theorem proceed_accounts (punctual : Punctual c) (paid : c.owed = false)
    (arrived : c.world.phase = .receive →
      ∀ pcb ∈ c.world.pcbMessages.head?, pcb.pdata.arrivalTime ≤ c.clk)
    {world : World} {ticked : Bool}
    (run : c.world.step (.proceed c.reading) = .ok world) :
    Accounts { c with world := world, ticked := ticked } := by
  obtain ⟨items, balanced, _⟩ := punctual.charged
  have accounts := punctual.accounts
  have current : ∀ {a b : Addr}, c.world.sched.currentPcb = some a →
      c.world.sched.currentPcb = some b → b = a :=
    fun runs same => Option.some.inj (same.symm.trans runs)
  have none : ∀ {a b : Addr}, c.world.sched.currentPcb = .none →
      c.world.sched.currentPcb = some b → b = a := by
    intro a b idle runs
    rw [idle] at runs
    cases runs
  cases balanced.move run with
  | turned follows => exact accounts.same rfl rfl rfl rfl rfl
  | rejected phase messages invalid => exact accounts.same rfl rfl rfl rfl rfl
  | @received _ pcb rest queue phase messages valid entered =>
      have head : c.world.pcbMessages.head? = some pcb := by
        rw [messages, List.head?_cons]
      have sent := balanced.sent pcb (List.mem_append_left _
        (messages ▸ List.mem_cons_self))
      exact accounts.receive rfl rfl rfl rfl rfl punctual.wired sent.fresh
        (arrived phase pcb head)
  | @dispatched _ first pcb queue phase idle live took =>
      exact accounts.put live rfl rfl (by simp; rfl) (fun _ => none idle)
        (fun b same => (Option.some.inj same).symm)
        ((accounts.own first pcb live).dispatch paid punctual.time rfl rfl paid)
  | @redispatched _ first pcb queue phase hpf idle live took =>
      exact accounts.put live rfl rfl rfl (fun _ => none idle)
        (fun b same => (Option.some.inj same).symm)
        ((accounts.own first pcb live).dispatch paid punctual.time rfl rfl paid)
  | @clipped _ a pcb phase rr runs live used =>
      have enough := punctual.check.used rr _
        (Scheduler.currentRemaining_eq runs live)
      have same := Int.le_antisymm enough used
      refine accounts.put live rfl rfl rfl (fun _ => current runs)
        (fun _ => current runs) ?_
      rw [same]
      exact (accounts.own a pcb live).congr rfl rfl rfl rfl
  | @expired _ a pcb queue phase runs live rotated kept =>
      refine accounts.put live rfl rfl rfl (fun _ => current runs) ?_
        ((accounts.own a pcb live).stop paid rfl rfl rfl rfl rfl rfl)
      intro b impossible
      cases impossible
  | checked phase =>
      exact accounts.same rfl rfl rfl (by simp) (by simp)

/-- The line about a dispatch is right. -/
theorem dispatch_line (punctual : Punctual c) (paid : c.owed = false) {a : Addr}
    {pcb : PCB} (live : c.world.sched.pcbs.load a = some pcb)
    (units : c'.units = c.units) (clk : c'.clk = c.clk)
    (origin : c'.world.sched.origin a = c.world.sched.origin a) :
    LineRight c' (LogLine.mk c.clk a (Scheduler.dispatchedPcb pcb c.clk)) := by
  obtain ⟨pid, pdata, _, unfinished⟩ := Scheduler.dispatchedPcb_kept pcb c.clk
  have waited :=
    (punctual.accounts.own a pcb live).waitTime_dispatched paid
  refine ⟨Int.le_of_eq clk.symm, ?_, fun ended => absurd ended unfinished,
    fun _ => ?_⟩
  · rw [origin, Scheduler.origin, live, Option.map_some, pid, pdata]
  · rw [units, pdata]
    exact waited

/-- Every phase keeps the log right. -/
theorem proceed_log (punctual : Punctual c) (paid : c.owed = false)
    {world : World} {ticked : Bool}
    (run : c.world.step (.proceed c.reading) = .ok world) :
    LogRight { c with world := world, ticked := ticked } := by
  obtain ⟨items, balanced, _⟩ := punctual.charged
  have log := punctual.log
  have move := balanced.move run
  have origin := fun a (inside : a < c.world.sched.received) =>
    move.origin inside
  have quiet : world.sched.schedulerLog = c.world.sched.schedulerLog →
      LogRight { c with world := world, ticked := ticked } := by
    intro same
    refine log.append rfl rfl origin [] (Nat.zero_le _)
      (same.trans (List.append_nil _).symm) ?_
    intro line impossible
    cases impossible
  have one : ∀ line : LogLine, line.clk = c.clk →
      world.sched.schedulerLog = c.world.sched.schedulerLog ++ [line] →
      LineRight { c with world := world, ticked := ticked } line →
      LogRight { c with world := world, ticked := ticked } := by
    intro line now same right
    refine log.append rfl rfl origin [line] (Nat.le_refl _) same ?_
    intro other member
    rw [List.mem_singleton.mp member]
    exact ⟨now, right⟩
  cases move with
  | turned follows => exact quiet rfl
  | rejected phase messages invalid => exact quiet rfl
  | received phase messages valid entered => exact quiet rfl
  | @dispatched _ first pcb queue phase idle live took =>
      refine one (LogLine.mk c.clk first
        (Scheduler.dispatchedPcb pcb c.clk)) rfl
        (congrArg (· ++ [_]) (c.world.sched.accountIdle_schedulerLog c.clk)) ?_
      exact punctual.dispatch_line paid live rfl rfl
        (origin first (Scheduler.lt_received live))
  | @redispatched _ first pcb queue phase hpf idle live took =>
      refine one (LogLine.mk c.clk first
        (Scheduler.dispatchedPcb pcb c.clk)) rfl rfl ?_
      exact punctual.dispatch_line paid live rfl rfl
        (origin first (Scheduler.lt_received live))
  | clipped phase rr runs live used => exact quiet rfl
  | @expired _ a pcb queue phase runs live rotated kept =>
      refine one (LogLine.mk c.clk a { pcb with state := some .stopped }) rfl
        rfl ?_
      refine ⟨Int.le_refl _, ?_, fun impossible => (by cases impossible),
        fun impossible => (by cases impossible)⟩
      exact (origin a (Scheduler.lt_received live)).trans
        (congrArg (Option.map _) live)
  | checked phase =>
      exact quiet (by simp)

/-- Every phase keeps the accounts, at a clock value at which it may receive what
it receives. -/
theorem proceed (punctual : Punctual c) (paid : c.owed = false)
    (arrived : c.world.phase = .receive →
      ∀ pcb ∈ c.world.pcbMessages.head?, pcb.pdata.arrivalTime ≤ c.clk)
    {world : World} {ticked : Bool}
    (run : c.world.step (.proceed c.reading) = .ok world) :
    Punctual { c with world := world, ticked := ticked } := by
  obtain ⟨charged, inStep⟩ := punctual.world_step (by simp) run
  obtain ⟨items, balanced, _⟩ := punctual.charged
  refine ⟨charged, inStep, fun owed => ?_, punctual.time,
    punctual.check.proceed (balanced.move run) punctual.wired,
    punctual.proceed_accounts paid arrived run, punctual.proceed_log paid run⟩
  rw [show c.owed = true from owed] at paid
  cases paid

theorem step (punctual : Punctual c) {event : ClockEvent} (paced : Paced c event)
    (stepped : c.step event = .ok c') : Punctual c' := by
  cases event with
  | tick =>
      cases stepped
      exact punctual.tick paced.1 paced.2
  | send =>
      obtain ⟨world, run, ends⟩ := bind_eq_ok.mp stepped
      cases ends
      exact punctual.send run
  | signal =>
      obtain ⟨world, run, ends⟩ := bind_eq_ok.mp stepped
      cases ends
      exact punctual.signal paced.1 paced.2 run
  | proceed =>
      obtain ⟨world, run, ends⟩ := bind_eq_ok.mp stepped
      cases ends
      have paid : c.owed = false := by
        cases owed : c.owed with
        | false => rfl
        | true => exact owed.symm.trans (paced.1 (punctual.asleep owed).1)
      exact punctual.proceed paid paced.2 run

end Punctual

/-- In every paced run, under each algorithm and under RR with any quantum that
is positive, every line about a finished process shows the waiting time and the
runtime as turnaround time and no remaining time, and the waiting times at the
dispatches of a process never decrease and are the clock units since its arrival
in which it was not current. -/
theorem turnaround_right (algorithm : SchedulingAlgorithm) (quantum clk : Int)
    (positive : algorithm = .rr → 1 ≤ quantum) (time : 0 ≤ clk)
    (toSend : List PCB) (sent : ∀ pcb ∈ toSend, Sent pcb)
    (events : List ClockEvent)
    (paced : Along ClockedWorld.step Paced
      (ClockedWorld.init algorithm quantum clk toSend) events) :
    Throughout ClockedWorld.step TurnaroundRight
      (ClockedWorld.init algorithm quantum clk toSend) events :=
  throughout_of_invariant
    (fun _ _ _ punctual paced stepped => Punctual.step punctual paced stepped)
    (fun _ punctual => Punctual.right punctual)
    (Punctual.initial positive time sent) paced

/-- The first process is preempted after a unit, in an iteration that leaves its
sleep without a current process, and resumed after the second one has ended. -/
private def twoTurns : List ClockEvent :=
  [List.replicate 3 .send, List.replicate 7 .proceed, [.tick, .signal],
    List.replicate 7 .proceed, [.tick], List.replicate 6 .proceed,
    [.tick, .signal], List.replicate 6 .proceed, [.tick, .signal],
    List.replicate 2 .proceed].flatten

theorem turnaround_right_two :
    ∃ c, runs ClockedWorld.step
        (ClockedWorld.init .rr 1 0 [sampleJob 1 2 0, sampleJob 2 1 0]) twoTurns =
          .ok c ∧
      c.world.phase = .exited ∧ c.world.sched.finishedLines.length = 2 ∧
      TurnaroundRight c := by
  have replay : (do
      let c ← runs ClockedWorld.step
        (ClockedWorld.init .rr 1 0 [sampleJob 1 2 0, sampleJob 2 1 0]) twoTurns
      pure (decide (c.world.phase = .exited ∧
        c.world.sched.finishedLines.length = 2))) = Except.ok true := by
    decide +kernel
  obtain ⟨c, run, ends⟩ := bind_eq_ok.mp replay
  simp only [pure_eq_ok, Except.ok.injEq, decide_eq_true_eq] at ends
  exact ⟨c, run, ends.1, ends.2, turnaround_right .rr 1 0 (by decide)
    (by decide) [sampleJob 1 2 0, sampleJob 2 1 0] (by decide) twoTurns
    (by decide +kernel) twoTurns List.prefix_rfl c run⟩

end OsSim
