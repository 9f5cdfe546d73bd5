/-
Module: OsSim.ExecutionChart
Purpose: `execution_log.txt` as a chart of the processor's time: its intervals
  follow each other without overlap, and its stints are those that
  `scheduler.log` shows.
Trusted boundary: none
Main exports:
  ExecutionLine.start, ExecutionLine.stop, Chart, Chart.read, Charted,
  execution_log_chart
-/
import OsSim.SchedulerTiling
import OsSim.Library.Replay
import OsSim.Library.Timeline

namespace OsSim

open PointerMemory
open Trace
open Replay
open Timeline

namespace ExecutionLine

/-- When the interval that a line is about begins. -/
def start : ExecutionLine → Int
  | .idle start _ => start
  | .runs _ _ start _ _ => start
  | .finishes _ _ start _ => start

/-- When it ends. -/
def stop : ExecutionLine → Int
  | .idle _ stop => stop
  | .runs _ _ _ stop _ => stop
  | .finishes _ _ _ stop => stop

/-- Whether a process runs in it. -/
def isStint : ExecutionLine → Bool
  | .idle _ _ => false
  | .runs .. | .finishes .. => true

end ExecutionLine

/-- What the lines of `scheduler.log` say about stints: when the present one
began, and those that are over. -/
structure Chart where
  since : Int
  stints : List ExecutionLine
deriving Repr, DecidableEq

namespace Chart

/-- Before the first line. -/
def blank : Chart := { since := 0, stints := [] }

/-- Read one line.  A stint lasts from a start or a resumption to the next stop
or end. -/
def read (chart : Chart) (line : LogLine) : Option Chart :=
  match line.snapshot.state with
  | some .started | some .resumed => some { chart with since := line.clk }
  | some .stopped => some { chart with
      stints := chart.stints ++ [.runs line.snapshot.pdata.id
        line.snapshot.pdata.runtime chart.since line.clk
        line.snapshot.remainingTime] }
  | some .finished => some { chart with
      stints := chart.stints ++ [.finishes line.snapshot.pdata.id
        line.snapshot.pdata.runtime chart.since line.clk] }
  | none => none

/-- The stints are those of the execution log, and the present one began when
the scheduler says. -/
structure Shows (chart : Chart) (s : Scheduler) : Prop where
  stints : chart.stints = s.executionLog.filter ExecutionLine.isStint
  since : s.currentPcb ≠ none → chart.since = s.logStartTime

variable {chart : Chart} {s s' : Scheduler} {a : Addr} {pcb : PCB}

/-- A dispatch begins a stint. -/
theorem Shows.dispatch (shows : chart.Shows s) (queue : IQueue Addr) (a : Addr)
    (pcb : PCB) (clk : Int) :
    ∃ chart', chart.read
        { clk := clk, pcb := a, snapshot := Scheduler.dispatchedPcb pcb clk } =
          some chart' ∧
      chart'.Shows (s.afterDispatch queue a pcb clk clk) := by
  refine ⟨{ chart with since := clk }, ?_, shows.stints, fun _ => rfl⟩
  by_cases first : pcb.startTime = -1
  · have state : (Scheduler.dispatchedPcb pcb clk).state = some .started := by
      rw [Scheduler.dispatchedPcb, if_pos first]
    simp only [read, state]
  · have state : (Scheduler.dispatchedPcb pcb clk).state = some .resumed := by
      rw [Scheduler.dispatchedPcb, if_neg first]
    simp only [read, state]

/-- Accounting for idle time writes no stint. -/
theorem Shows.accountIdle (shows : chart.Shows s) (clk : Int) :
    chart.Shows (s.accountIdle clk) := by
  rw [Scheduler.accountIdle]
  split
  next =>
    refine ⟨?_, shows.since⟩
    show _ = List.filter _ (s.executionLog ++ [_])
    rw [List.filter_append, shows.stints]
    simp [ExecutionLine.isStint]
  next => exact shows

/-- A preemption ends the stint. -/
theorem Shows.expire (shows : chart.Shows s) (runs : s.currentPcb = some a)
    (queue : IQueue Addr) (pcb : PCB) (clk : Int) :
    ∃ chart', chart.read
        (LogLine.mk clk a { pcb with state := some .stopped }) = some chart' ∧
      chart'.Shows (s.afterExpiration queue a pcb clk clk) := by
  have began := shows.since (by simp [runs])
  refine ⟨_, rfl, ?_, fun runs => absurd rfl runs⟩
  show _ = List.filter _ (s.executionLog ++ [_])
  rw [List.filter_append, shows.stints, began]
  rfl

/-- The end of the process ends the stint too. -/
theorem Shows.terminate (shows : chart.Shows s) (runs : s.currentPcb = some a)
    (queue : IQueue Addr) (pcb : PCB) (clk : Int) :
    ∃ chart', chart.read
        { clk := clk, pcb := a, snapshot := Scheduler.finishedPcb pcb } =
          some chart' ∧
      chart'.Shows (s.afterTermination queue a pcb clk clk) := by
  have began := shows.since (by simp [runs])
  refine ⟨_, rfl, ?_, fun runs => absurd rfl runs⟩
  show _ = List.filter _ (s.executionLog ++ [_])
  rw [List.filter_append, shows.stints, began]
  rfl

end Chart

/-! ### The intervals of the execution log -/

/-- The intervals of the execution log lie between the start of the scheduler and
the time up to which it has accounted, they follow each other, and their lengths
make up the idle time and the stints. -/
structure Charted (start : Int) (s : Scheduler) : Prop where
  turns : Consecutive ExecutionLine.start ExecutionLine.stop start s.executionLog
    s.boundary
  begun : start ≤ s.boundary
  total : (s.executionLog.map fun line => line.stop - line.start).sum =
    s.idleTime + s.stintTime

namespace Charted

variable {start clk : Int} {s s' : Scheduler}

/-- Nothing that the chart depends on has changed. -/
theorem congr (charted : Charted start s) (log : s'.executionLog = s.executionLog)
    (boundary : s'.boundary = s.boundary) (idle : s'.idleTime = s.idleTime) :
    Charted start s' := by
  refine ⟨?_, ?_, ?_⟩
  · rw [log, boundary]
    exact charted.turns
  · rw [boundary]
    exact charted.begun
  · rw [Scheduler.stintTime, log, idle]
    exact charted.total

/-- A stint from the boundary to the clock. -/
theorem stint (charted : Charted start s) (line : ExecutionLine)
    (log : s'.executionLog = s.executionLog ++ [line])
    (begins : line.start = s.boundary) (ends : line.stop = s'.boundary)
    (forward : s.boundary ≤ s'.boundary) (isStint : line.isStint = true)
    (idle : s'.idleTime = s.idleTime) : Charted start s' := by
  have turned : line.start ≤ line.stop := by
    rw [begins, ends]
    exact forward
  refine ⟨?_, charted.begun.trans forward, ?_⟩
  · rw [log, ← ends]
    exact charted.turns.snoc charted.begun (le_of_eq begins.symm) turned
  · have length : line.stint = line.stop - line.start := by
      cases line with
      | idle start stop => cases isStint
      | runs id burst start stop remaining => rfl
      | finishes id burst start stop => rfl
    rw [Scheduler.stintTime_append log, log, List.map_append, List.sum_append,
      charted.total, idle, length, List.map_singleton, List.sum_singleton]
    omega

/-- Accounting for idle time and a dispatch at the same clock value. -/
theorem dispatch (charted : Charted start s) (none : s.currentPcb = none)
    (behind : s.boundary ≤ clk) (queue : IQueue Addr) (a : Addr) (pcb : PCB) :
    Charted start ((s.accountIdle clk).afterDispatch queue a pcb clk clk) := by
  have last : s.boundary = s.lastProcessEndTime := by
    rw [Scheduler.boundary, if_pos none]
  rw [Scheduler.accountIdle]
  split
  next idles =>
    refine ⟨?_, charted.begun.trans behind, ?_⟩
    · have turns : Consecutive ExecutionLine.start ExecutionLine.stop start
          (s.executionLog ++ [.idle s.lastProcessEndTime clk]) clk :=
        charted.turns.snoc charted.begun (le_of_eq last) (le_of_lt idles.1)
      exact turns
    · have stints : Scheduler.stintTime (Scheduler.afterDispatch { s with
          executionLog := s.executionLog ++ [.idle s.lastProcessEndTime clk]
          idleTime := s.idleTime + (clk - s.lastProcessEndTime) } queue a pcb
            clk clk) = s.stintTime :=
        (Scheduler.stintTime_append rfl).trans (Int.add_zero _)
      rw [stints]
      show List.sum (List.map _ (s.executionLog ++ [_])) =
        s.idleTime + (clk - s.lastProcessEndTime) + s.stintTime
      rw [List.map_append, List.sum_append, charted.total, List.map_singleton,
        List.sum_singleton, ExecutionLine.stop, ExecutionLine.start]
      omega
  next =>
    exact ⟨charted.turns.later behind, charted.begun.trans behind, charted.total⟩

end Charted

/-! ### Runs

The two logs are written by the same functions, at the same clock values, but
neither is made from the other.  They agree because both follow the scheduler: a
dispatch notes the time at which the stint begins and writes a line to
`scheduler.log`, and what ends the stint writes a line to either log.
-/

/-- Both logs up to a clock value: the execution log is a chart, its stints are
those of `scheduler.log`, and the lines of that one are in the order of time. -/
structure Plotted (start clk : Int) (s : Scheduler) : Prop where
  charted : Charted start s
  behind : s.boundary ≤ clk
  faithful : Faithful Chart.read Chart.blank Scheduler.schedulerLog Chart.Shows s
  dates : Consecutive LogLine.clk LogLine.clk start s.schedulerLog clk

namespace Plotted

variable {start clk : Int} {s s' : Scheduler}

/-- Where neither log is written and the boundary stays, nothing changes. -/
theorem quiet (plotted : Plotted start clk s)
    (executed : s'.executionLog = s.executionLog)
    (logged : s'.schedulerLog = s.schedulerLog)
    (current : s'.currentPcb = s.currentPcb)
    (since : s'.logStartTime = s.logStartTime)
    (ended : s'.lastProcessEndTime = s.lastProcessEndTime)
    (idle : s'.idleTime = s.idleTime) : Plotted start clk s' := by
  have boundary : s'.boundary = s.boundary := by
    rw [Scheduler.boundary, Scheduler.boundary, current, since, ended]
  refine ⟨plotted.charted.congr executed boundary idle, ?_, ?_, ?_⟩
  · rw [boundary]
    exact plotted.behind
  · refine plotted.faithful.keep logged fun chart shows => ⟨?_, ?_⟩
    · rw [executed]
      exact shows.stints
    · rw [current, since]
      exact shows.since
  · rw [logged]
    exact plotted.dates

/-- One more line of `scheduler.log`, at the present clock value. -/
theorem dated (plotted : Plotted start clk s) {line : LogLine}
    (now : line.clk = clk) :
    Consecutive LogLine.clk LogLine.clk start (s.schedulerLog ++ [line]) clk := by
  have begun := plotted.charted.begun.trans plotted.behind
  have turns : Consecutive LogLine.clk LogLine.clk start (s.schedulerLog ++ [line])
      line.clk := plotted.dates.snoc begun (le_of_eq now.symm) (le_refl _)
  rw [now] at turns
  exact turns

/-- Accounting for idle time and a dispatch. -/
theorem dispatch (plotted : Plotted start clk s) (none : s.currentPcb = none)
    (queue : IQueue Addr) (a : Addr) (pcb : PCB) :
    Plotted start clk ((s.accountIdle clk).afterDispatch queue a pcb clk clk) := by
  have logged := s.accountIdle_schedulerLog clk
  refine ⟨plotted.charted.dispatch none plotted.behind queue a pcb,
    le_refl clk, ?_, ?_⟩
  · have idled : Faithful Chart.read Chart.blank Scheduler.schedulerLog
        Chart.Shows (s.accountIdle clk) :=
      plotted.faithful.keep logged fun _ shows => shows.accountIdle clk
    exact idled.write rfl fun chart shows => shows.dispatch queue a pcb clk
  · show Consecutive _ _ _ ((s.accountIdle clk).schedulerLog ++ [_]) _
    rw [logged]
    exact plotted.dated rfl

/-- A dispatch without an account of idle time. -/
theorem redispatch (plotted : Plotted start clk s)
    (queue : IQueue Addr) (a : Addr) (pcb : PCB) :
    Plotted start clk (s.afterDispatch queue a pcb clk clk) where
  charted := ⟨plotted.charted.turns.later plotted.behind,
    plotted.charted.begun.trans plotted.behind, plotted.charted.total⟩
  behind := le_refl clk
  faithful := plotted.faithful.write rfl
    fun _ shows => shows.dispatch queue a pcb clk
  dates := plotted.dated rfl

/-- The end of a stint, by a preemption. -/
theorem expire (plotted : Plotted start clk s) {a : Addr}
    (runs : s.currentPcb = some a) (queue : IQueue Addr) (pcb : PCB) :
    Plotted start clk (s.afterExpiration queue a pcb clk clk) where
  charted := by
    have since : s.boundary = s.logStartTime := by
      rw [Scheduler.boundary, if_neg (by simp [runs])]
    exact plotted.charted.stint (.runs pcb.pdata.id pcb.pdata.runtime
      s.logStartTime clk pcb.remainingTime) rfl since.symm rfl plotted.behind rfl
      rfl
  behind := le_refl clk
  faithful := plotted.faithful.write rfl
    fun chart shows => shows.expire runs queue pcb clk
  dates := plotted.dated rfl

/-- The end of a stint, by the end of the process. -/
theorem terminate (plotted : Plotted start clk s) {a : Addr}
    (runs : s.currentPcb = some a) (queue : IQueue Addr) (pcb : PCB) :
    Plotted start clk (s.afterTermination queue a pcb clk clk) where
  charted := by
    have since : s.boundary = s.logStartTime := by
      rw [Scheduler.boundary, if_neg (by simp [runs])]
    exact plotted.charted.stint (.finishes pcb.pdata.id pcb.pdata.runtime
      s.logStartTime clk) rfl since.symm rfl plotted.behind rfl rfl
  behind := le_refl clk
  faithful := plotted.faithful.write rfl
    fun chart shows => shows.terminate runs queue pcb clk
  dates := plotted.dated rfl

/-- Every event at this clock value keeps the logs in agreement. -/
theorem move {w w' : World} {event : Event} (move : Move w event w')
    (now : event.reads clk) (plotted : Plotted start clk w.sched) :
    Plotted start clk w'.sched := by
  cases move with
  | sent =>
      rw [w.send_sched.1]
      exact plotted
  | turned follows => exact plotted
  | rejected phase messages invalid => exact plotted
  | silent none => exact plotted
  | received phase messages valid entered =>
      exact plotted.quiet rfl rfl rfl rfl rfl rfl
  | @dispatched readings first pcb queue phase idle live took =>
      have reading : readings = { idle := clk, now := clk, log := clk } := now
      subst reading
      exact plotted.dispatch idle queue first pcb
  | @redispatched readings first pcb queue phase hpf idle live took =>
      have reading : readings = { idle := clk, now := clk, log := clk } := now
      subst reading
      exact plotted.redispatch queue first pcb
  | clipped phase rr runs live used =>
      exact plotted.quiet rfl rfl rfl rfl rfl rfl
  | @expired readings a pcb queue phase runs live rotated kept =>
      have reading : readings = { idle := clk, now := clk, log := clk } := now
      subst reading
      exact plotted.expire runs queue pcb
  | checked phase =>
      exact plotted.quiet (by simp) (by simp) (by simp) (by simp) (by simp)
        (by simp)
  | ticked runs live child more kept rekeyed =>
      exact plotted.quiet rfl rfl rfl rfl rfl rfl
  | @finished readings a pcb queue runs live child kept removed =>
      have reading : readings = { idle := clk, now := clk, log := clk } := now
      subst reading
      exact plotted.terminate runs queue pcb

/-- The logs agree at a later time too. -/
theorem later (plotted : Plotted start clk s) {clk' : Int} (later : clk ≤ clk') :
    Plotted start clk' s :=
  ⟨plotted.charted, plotted.behind.trans later, plotted.faithful,
    plotted.dates.later later⟩

/-- A step of the clocked world keeps the logs in agreement. -/
theorem step {c c' : ClockedWorld} {event : ClockEvent}
    (balanced : ∃ items, Balanced c.world items)
    (plotted : Plotted start c.clk c.world.sched)
    (stepped : c.step event = .ok c') :
    Plotted start c'.clk c'.world.sched := by
  rcases ClockedWorld.step_inv stepped with
    ⟨rfl, rfl⟩ | ⟨worldEvent, world, ticked, owed, same, run, rfl⟩
  · exact plotted.later (Int.le_add_of_nonneg_right (by decide))
  · obtain ⟨items, balanced⟩ := balanced
    exact Plotted.move (balanced.move run)
      (ClockedWorld.worldEvent_reads same) plotted

end Plotted

/-- The two logs of any run, however signals and clock advances fall between the
phases.  The intervals of `execution_log.txt` follow each other between the start
of the scheduler and now, and their lengths are the idle time and the stints; its
stints are those that the lines of `scheduler.log` show; and these lines are in
the order of time. -/
theorem execution_log_chart (algorithm : SchedulingAlgorithm) (quantum clk : Int)
    (toSend : List PCB) (sent : ∀ pcb ∈ toSend, Sent pcb)
    (events : List ClockEvent) :
    ∃ c, runs ClockedWorld.step
        (ClockedWorld.init algorithm quantum clk toSend) events = .ok c ∧
      Consecutive ExecutionLine.start ExecutionLine.stop clk
        c.world.sched.executionLog c.clk ∧
      c.world.sched.idleTime + c.world.sched.stintTime =
        (c.world.sched.executionLog.map fun line => line.stop - line.start).sum ∧
      (∃ chart, replay Chart.read Chart.blank c.world.sched.schedulerLog =
          some chart ∧
        chart.stints = c.world.sched.executionLog.filter ExecutionLine.isStint) ∧
      Consecutive LogLine.clk LogLine.clk clk c.world.sched.schedulerLog c.clk := by
  have start : Plotted clk (ClockedWorld.init algorithm quantum clk toSend).clk
      (ClockedWorld.init algorithm quantum clk toSend).world.sched :=
    ⟨⟨Consecutive.nil _ _ _ _, le_refl clk, rfl⟩, le_refl clk,
      ⟨Chart.blank, rfl, rfl, fun runs => absurd rfl runs⟩, Consecutive.nil _ _ _ _⟩
  have balanced : ∃ items,
      Balanced (ClockedWorld.init algorithm quantum clk toSend).world items :=
    ⟨[], (balanced_init algorithm quantum clk sent).1⟩
  have total : ∀ (c : ClockedWorld) (event : ClockEvent),
      ((∃ items, Balanced c.world items) ∧ Plotted clk c.clk c.world.sched) →
      ∃ c', c.step event = .ok c' ∧ (∃ items, Balanced c'.world items) ∧
        Plotted clk c'.clk c'.world.sched := by
    rintro c event ⟨balanced, plotted⟩
    obtain ⟨c', stepped⟩ := ClockedWorld.step_total balanced event
    exact ⟨c', stepped, ClockedWorld.balanced_step balanced stepped,
      plotted.step balanced stepped⟩
  obtain ⟨c, run, _, plotted⟩ := total_of_steps total
    ⟨balanced, start⟩ events
  obtain ⟨chart, reads, shows⟩ := plotted.faithful
  exact ⟨c, run, plotted.charted.turns.later plotted.behind,
    plotted.charted.total.symm, ⟨chart, reads, shows.stints⟩, plotted.dates⟩

/-- The first process is received late, and stopped for the second one, which is
dispatched a unit later. -/
private def lateStart : List ClockEvent :=
  [[.proceed, .tick, .tick, .send, .send], List.replicate 6 .proceed,
    [.tick, .signal], List.replicate 6 .proceed, [.tick], List.replicate 8 .proceed,
    [.tick, .signal]].flatten

theorem execution_log_chart_late :
    ∃ c, runs ClockedWorld.step
        (ClockedWorld.init .rr 1 0 [sampleJob 1 2 1, sampleJob 2 1 2]) lateStart = .ok c ∧
      Consecutive ExecutionLine.start ExecutionLine.stop 0
        c.world.sched.executionLog c.clk ∧
      c.world.sched.idleTime + c.world.sched.stintTime =
        (c.world.sched.executionLog.map fun line => line.stop - line.start).sum ∧
      (∃ chart, replay Chart.read Chart.blank c.world.sched.schedulerLog =
          some chart ∧
        chart.stints = c.world.sched.executionLog.filter ExecutionLine.isStint) ∧
      Consecutive LogLine.clk LogLine.clk 0 c.world.sched.schedulerLog c.clk :=
  execution_log_chart .rr 1 0 [sampleJob 1 2 1, sampleJob 2 1 2] (by decide)
    lateStart

/-- The execution log of that run. -/
example : (do
    let c ← runs ClockedWorld.step
      (ClockedWorld.init .rr 1 0 [sampleJob 1 2 1, sampleJob 2 1 2]) lateStart
    pure c.world.sched.executionLog) =
    Except.ok [.idle 0 2, .runs 1 2 2 3 1, .idle 3 4, .finishes 2 1 4 5] := by
  decide +kernel

end OsSim
