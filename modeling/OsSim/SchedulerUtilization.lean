/-
Module: OsSim.SchedulerUtilization
Purpose: The two numbers that `scheduler_perf_out` is called with, against the
  clock units in which a process was current.
Trusted boundary: none
Main exports:
  UtilizationRight, cpuUtilization_of_right, Scheduler.stintSoFar, Attended,
  reported_time, utilization_iff
-/
import OsSim.PerformanceStatistics
import OsSim.SchedulerTiling

namespace OsSim

open PointerMemory
open Trace

/-- The total time less the idle time, as `scheduler_perf_out` gets them, is the
number of clock units in which some process was current. -/
def UtilizationRight (c : ClockedWorld) : Prop :=
  c.clk - c.world.sched.idleTime = c.busyUnits

/-- Then the CPU utilization that is printed is the busy share of the total
time. -/
theorem cpuUtilization_of_right {c : ClockedWorld} (right : UtilizationRight c)
    (later : c.clk ≠ 0) (procCount : Nat) (wtas : Nat → ℚ) :
    (schedulerPerfOut c.world.sched procCount wtas c.world.sched.idleTime
      c.clk).cpuUtilization = (c.busyUnits : ℚ) / c.clk * 100 := by
  have time : (c.clk : ℚ) ≠ 0 := Int.cast_ne_zero.mpr later
  have busy : (c.busyUnits : ℚ) = c.clk - c.world.sched.idleTime := by
    have cast := congrArg (fun n : Int => (n : ℚ)) right
    push_cast at cast
    exact cast.symm
  rw [schedulerPerfOut, busy, sub_div, div_self time]

/-! ### Stints and clock units

The numbers that are printed come from clock readings, and what they should tell
is a number of clock units.  The link is a sum that moves with the clock: the completed
stints and what the current one has come to.  No event at one clock value changes
it, and an advance of the clock adds one to it exactly if a process is current.
-/

namespace Scheduler

/-- The length of the stint of the current process at a clock value. -/
def stintSoFar (s : Scheduler) (clk : Int) : Int :=
  if s.currentPcb = none then 0 else clk - s.logStartTime

theorem stintSoFar_none {s : Scheduler} (idle : s.currentPcb = none)
    (clk : Int) : s.stintSoFar clk = 0 := if_pos idle

theorem stintSoFar_some {s : Scheduler} {a : Addr}
    (runs : s.currentPcb = some a) (clk : Int) :
    s.stintSoFar clk = clk - s.logStartTime := if_neg (by simp [runs])

end Scheduler

namespace Scheduler

variable {s : Scheduler}

/-- A stint that has just begun has no length. -/
theorem stints_afterDispatch (idle : s.currentPcb = none) (queue : IQueue Addr)
    (a : Addr) (pcb : PCB) (clk log : Int) :
    (s.afterDispatch queue a pcb clk log).stintTime +
        (s.afterDispatch queue a pcb clk log).stintSoFar clk =
      s.stintTime + s.stintSoFar clk := by
  rw [stintSoFar_none idle, stintSoFar_some rfl]
  show s.stintTime + (clk - clk) = s.stintTime + 0
  omega

/-- A stint that has ended is in the log at its full length. -/
theorem stints_of_ended {a : Addr} (runs : s.currentPcb = some a)
    (s' : Scheduler) (idle : s'.currentPcb = none) {line : ExecutionLine}
    (log : s'.executionLog = s.executionLog ++ [line]) {clk : Int}
    (stint : line.stint = clk - s.logStartTime) :
    s'.stintTime + s'.stintSoFar clk = s.stintTime + s.stintSoFar clk := by
  rw [stintSoFar_none idle, stintSoFar_some runs, stintTime_append log, stint]
  omega

end Scheduler

/-- No event of the scheduler's world changes the length of all stints, the
current one included. -/
theorem Move.stints {w w' : World} {event : Event} {clk : Int}
    (move : Move w event w') (now : event.reads clk) :
    w'.sched.stintTime + w'.sched.stintSoFar clk =
      w.sched.stintTime + w.sched.stintSoFar clk := by
  cases move with
  | sent => rw [w.send_sched.1]
  | @dispatched readings first pcb queue phase idle live took =>
      have reading : readings = { idle := clk, now := clk, log := clk } := now
      subst reading
      have still := (w.sched.accountIdle_currentPcb clk).trans idle
      have dispatch :=
        Scheduler.stints_afterDispatch still queue first pcb clk clk
      rw [w.sched.stintTime_accountIdle, Scheduler.stintSoFar_none still]
        at dispatch
      rw [w.sched.stintSoFar_none idle]
      exact dispatch
  | @redispatched readings first pcb queue phase hpf idle live took =>
      have reading : readings = { idle := clk, now := clk, log := clk } := now
      subst reading
      exact Scheduler.stints_afterDispatch idle queue first pcb clk clk
  | @expired readings a pcb queue phase runs live rotated kept =>
      have reading : readings = { idle := clk, now := clk, log := clk } := now
      subst reading
      exact Scheduler.stints_of_ended runs
        (w.sched.afterExpiration queue a pcb clk clk) rfl rfl rfl
  | @finished readings a pcb queue runs live child kept removed =>
      have reading : readings = { idle := clk, now := clk, log := clk } := now
      subst reading
      exact Scheduler.stints_of_ended runs
        (w.sched.afterTermination queue a pcb clk clk) rfl rfl rfl
  | checked phase =>
      simp [Scheduler.stintTime, Scheduler.stintSoFar]
  | turned follows => rfl
  | rejected phase messages invalid => rfl
  | received phase messages valid entered => rfl
  | clipped phase rr runs live used => rfl
  | silent none => rfl
  | ticked runs live child more kept rekeyed => rfl

/-! ### Signals in the sleep only

Every stint that begins is preceded by an account of the idle time before it,
except under HPF where the decision about the running process finds none.  With
signals in the sleep only, that does not happen: a process that is current in
the dispatch phase is still current in the next one.  So no time is left out,
and the total less the idle time differs from the busy time by the time before
the scheduler was started and the time since the last process ended.
-/

/-- Whether an event of the world is a signal. -/
def Event.isSignal : Event → Bool
  | .signal _ => true
  | .send | .proceed _ => false

/-- A current process is missed by no phase: the decision about the running
process finds one, or nothing waits; and the loop is not left with one. -/
structure Attended (w : World) : Prop where
  running : w.phase = .running →
    w.sched.currentPcb ≠ none ∨ w.sched.readyQueue.isEmpty = true
  exited : w.phase = .exited → w.sched.currentPcb = none

theorem Attended.not_redispatches {w : World} (attended : Attended w)
    (event : Event) : ¬ w.Redispatches event := by
  cases event with
  | send => exact fun impossible => impossible
  | signal clk => exact fun impossible => impossible
  | proceed clk =>
      rintro ⟨phase, _, idle, waiting⟩
      rcases attended.running phase with runs | empty
      · exact runs idle
      · rw [waiting] at empty
        cases empty

/-- In other phases there is nothing to attend to. -/
theorem Attended.of_phase {w : World} (running : w.phase ≠ .running)
    (exited : w.phase ≠ .exited) : Attended w :=
  ⟨fun same => absurd same running, fun same => absurd same exited⟩

theorem Attended.move {w w' : World} {event : Event} (attended : Attended w)
    (move : Move w event w')
    (asleep : event.isSignal = true → w.phase = .sleep) : Attended w' := by
  cases move with
  | sent =>
      obtain ⟨sched, _, phase⟩ := w.send_sched
      constructor
      · rw [sched, phase]
        exact attended.running
      · rw [sched, phase]
        exact attended.exited
  | @turned clk phase follows =>
      rw [World.Follows] at follows
      cases before : w.phase with
      | loopTest =>
          simp only [before] at follows
          refine ⟨fun same => ?_, fun same => ?_⟩
          · have running : phase = .running := same
            rw [follows] at running
            split at running <;> cases running
          · have exited : phase = .exited := same
            rw [follows] at exited
            split at exited
            next => cases exited
            next stops =>
              rw [Scheduler.loopContinues, decide_eq_true_iff, not_or,
                not_or, not_not] at stops
              exact stops.2.2
      | receive =>
          simp only [before] at follows
          exact .of_phase (by simp [follows.2]) (by simp [follows.2])
      | dispatch =>
          simp only [before] at follows
          exact ⟨fun _ => follows.1, fun same => by simp [follows.2] at same⟩
      | running =>
          simp only [before] at follows
          rcases follows with ⟨_, next⟩ | ⟨_, next, _⟩ <;>
            exact .of_phase (by simp [next]) (by simp [next])
      | expire =>
          simp only [before] at follows
          exact .of_phase (by simp [follows.2]) (by simp [follows.2])
      | endOfInput =>
          simp only [before] at follows
      | sleep =>
          simp only [before] at follows
          exact .of_phase (by simp [follows]) (by simp [follows])
      | exited =>
          simp only [before] at follows
          exact ⟨fun same => by simp [follows] at same,
            fun _ => attended.exited before⟩
  | rejected phase messages invalid => exact .of_phase (by simp) (by simp)
  | received phase messages valid entered =>
      exact .of_phase (by simp [phase]) (by simp [phase])
  | dispatched phase idle live took =>
      exact ⟨fun _ => Or.inl (Option.some_ne_none _), fun same => by cases same⟩
  | redispatched phase hpf idle live took => exact .of_phase (by simp) (by simp)
  | clipped phase rr runs live used => exact .of_phase (by simp) (by simp)
  | expired phase runs live rotated kept => exact .of_phase (by simp) (by simp)
  | checked phase => exact .of_phase (by simp) (by simp)
  | silent none => exact attended
  | ticked runs live child more kept rekeyed =>
      have phase := asleep rfl
      exact .of_phase (by simp [phase]) (by simp [phase])
  | finished runs live child kept removed =>
      have phase := asleep rfl
      exact .of_phase (by simp [phase]) (by simp [phase])

/-- What the clock and the scheduler know of each other: the time is accounted
for, and a unit is busy exactly when it lies in a stint. -/
structure Utilized (start : Int) (c : ClockedWorld) : Prop where
  timed : Timed c
  attended : Attended c.world
  accounted : c.world.sched.unaccounted start = 0
  busy : (c.busyUnits : Int) =
    c.world.sched.stintTime + c.world.sched.stintSoFar c.clk

namespace Utilized

variable {start : Int} {c c' : ClockedWorld}

theorem initial (algorithm : SchedulingAlgorithm) (quantum clk : Int)
    {toSend : List PCB} (sent : ∀ pcb ∈ toSend, Sent pcb) :
    Utilized clk (ClockedWorld.init algorithm quantum clk toSend) where
  timed := Timed.initial algorithm quantum clk sent
  attended := .of_phase (by simp [ClockedWorld.init, World.init])
    (by simp [ClockedWorld.init, World.init])
  accounted := by
    show clk - clk - 0 - 0 = 0
    omega
  busy := rfl

/-- A unit that passes is busy if it lies in a stint. -/
theorem busyUnits_tick (c : ClockedWorld) :
    (c.tick.busyUnits : Int) + c.world.sched.stintSoFar c.clk =
      c.busyUnits + c.world.sched.stintSoFar (c.clk + 1) := by
  rw [ClockedWorld.busyUnits, ClockedWorld.tick]
  cases runs : c.world.sched.currentPcb with
  | none =>
      rw [Scheduler.stintSoFar_none runs, Scheduler.stintSoFar_none runs,
        List.countP_cons_of_neg (by simp)]
      rfl
  | some a =>
      rw [Scheduler.stintSoFar_some runs, Scheduler.stintSoFar_some runs,
        List.countP_cons_of_pos (by simp), ClockedWorld.busyUnits]
      omega

theorem step (utilized : Utilized start c) {event : ClockEvent}
    (asleep : c.SleepOnly event) (stepped : c.step event = .ok c') :
    Utilized start c' := by
  obtain ⟨timed', _, same⟩ := utilized.timed.step stepped start
  rcases ClockedWorld.step_inv stepped with
    ⟨rfl, rfl⟩ | ⟨worldEvent, world, ticked, owed, isEvent, run, rfl⟩
  · refine ⟨timed', utilized.attended, utilized.accounted, ?_⟩
    have unit := busyUnits_tick c
    rw [utilized.busy] at unit
    show (c.tick.busyUnits : Int) = c.world.sched.stintTime +
      c.world.sched.stintSoFar (c.clk + 1)
    omega
  · obtain ⟨items, balanced⟩ := utilized.timed.balanced
    have move := balanced.move run
    have atOnce : RedispatchedAtOnce c event :=
      (redispatchedAtOnce_iff isEvent).mpr fun redispatches =>
        absurd redispatches (utilized.attended.not_redispatches _)
    refine ⟨timed', utilized.attended.move move ?_,
      (same.mpr atOnce).trans utilized.accounted, ?_⟩
    · intro signal
      cases event with
      | signal => exact asleep
      | tick => cases isEvent
      | send => cases isEvent; cases signal
      | proceed => cases isEvent; cases signal
    · exact utilized.busy.trans
        (move.stints (ClockedWorld.worldEvent_reads isEvent)).symm

/-- Without a current process the total time less the idle time is the busy
time, the time before the scheduler was started, and the time since the last
process ended. -/
theorem reported_time (utilized : Utilized start c)
    (idle : c.world.sched.currentPcb = none) :
    c.clk - c.world.sched.idleTime = c.busyUnits + start +
      (c.clk - c.world.sched.lastProcessEndTime) := by
  have tiled := (Scheduler.tiled_iff idle start).mpr utilized.accounted
  have busy := utilized.busy
  rw [Scheduler.stintSoFar_none idle] at busy
  rw [Scheduler.Tiled] at tiled
  omega

end Utilized

/-- When the loop has ended, the numbers that `scheduler_perf_out` is called with
are right exactly if the scheduler was started at clock value 0 and the clock
has not advanced since the last process ended. -/
theorem utilization_iff (algorithm : SchedulingAlgorithm) (quantum clk : Int)
    (started : 0 ≤ clk) (toSend : List PCB) (sent : ∀ pcb ∈ toSend, Sent pcb)
    (events : List ClockEvent)
    (asleep : Along ClockedWorld.step ClockedWorld.SleepOnly
      (ClockedWorld.init algorithm quantum clk toSend) events)
    (c : ClockedWorld)
    (run : runs ClockedWorld.step
      (ClockedWorld.init algorithm quantum clk toSend) events = .ok c)
    (exited : c.world.phase = .exited) :
    UtilizationRight c ↔
      clk = 0 ∧ c.clk = c.world.sched.lastProcessEndTime := by
  have utilized : Utilized clk c :=
    invariant_of_runs (fun _ _ _ utilized asleep stepped =>
        utilized.step asleep stepped)
      (Utilized.initial algorithm quantum clk sent) asleep run
  have time := utilized.reported_time (utilized.attended.exited exited)
  have behind := utilized.timed.behind
  rw [UtilizationRight, time]
  omega

/-- Both messages are sent first; the process runs for its unit in the sleep of
the first iteration, and the loop ends. -/
private def oneIteration : List ClockEvent :=
  [[.send, .send], List.replicate 6 .proceed,
    [.tick, .signal, .proceed, .proceed]].flatten

theorem utilization_iff_single :
    ∃ c, runs ClockedWorld.step (ClockedWorld.init .rr 1 0 [sampleJob 1 1 0])
        oneIteration = .ok c ∧ UtilizationRight c := by
  have replay : (do
      let c ← runs ClockedWorld.step (ClockedWorld.init .rr 1 0 [sampleJob 1 1 0])
        oneIteration
      pure (decide (c.world.phase = .exited ∧
        c.clk = c.world.sched.lastProcessEndTime))) = Except.ok true := by
    decide +kernel
  obtain ⟨c, run, ends⟩ := bind_eq_ok.mp replay
  simp only [pure_eq_ok, Except.ok.injEq, decide_eq_true_eq] at ends
  exact ⟨c, run, (utilization_iff .rr 1 0 (by decide) [sampleJob 1 1 0] (by decide)
    oneIteration (by decide +kernel) c run ends.1).mpr
    ⟨rfl, ends.2⟩⟩

/-- The message that the input has ended comes in the second iteration; the
clock advances once more before the loop ends. -/
private def lateEnd : List ClockEvent :=
  [[.send], List.replicate 6 .proceed, [.tick, .signal],
    List.replicate 5 .proceed,
    [.send, .proceed, .tick, .proceed, .proceed]].flatten

/-- The clock unit that passes after the last process has ended is neither idle
time nor busy. -/
theorem utilization_trailing_idle :
    ¬ ∀ (algorithm : SchedulingAlgorithm) (quantum clk : Int), 0 ≤ clk →
      ∀ toSend : List PCB, (∀ pcb ∈ toSend, Sent pcb) →
      ∀ events : List ClockEvent,
      Along ClockedWorld.step ClockedWorld.SleepOnly
        (ClockedWorld.init algorithm quantum clk toSend) events →
      ∀ c, runs ClockedWorld.step
        (ClockedWorld.init algorithm quantum clk toSend) events = .ok c →
      c.world.phase = .exited → UtilizationRight c := by
  intro right
  have replay : (do
      let c ← runs ClockedWorld.step (ClockedWorld.init .rr 1 0 [sampleJob 1 1 0])
        lateEnd
      pure (decide (c.world.phase = .exited ∧ c.clk = 2 ∧
        c.world.sched.idleTime = 0 ∧ c.busyUnits = 1))) = Except.ok true := by
    decide +kernel
  obtain ⟨c, run, ends⟩ := bind_eq_ok.mp replay
  simp only [pure_eq_ok, Except.ok.injEq, decide_eq_true_eq] at ends
  obtain ⟨exited, time, idle, busy⟩ := ends
  have equal := right .rr 1 0 (by decide) [sampleJob 1 1 0] (by decide) _
    (by decide +kernel) c run exited
  rw [UtilizationRight, time, idle, busy] at equal
  exact absurd equal (by decide)

end OsSim
