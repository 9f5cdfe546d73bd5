/-
Module: OsSim.SchedulerTiling
Purpose: The idle time that `scheduler_loop` accounts for and the stints in
  `execution_log.txt`, against the time since the scheduler was started.
Trusted boundary: none
Main exports:
  ExecutionLine.stint, Scheduler.stintTime, Scheduler.Tiled,
  Scheduler.unaccounted, RedispatchedAtOnce, Move.unaccounted_le,
  schedule_tiled_iff
-/
import OsSim.SchedulerClock

namespace OsSim

open PointerMemory
open Trace

/-- The length of the stint that a line is about. -/
def ExecutionLine.stint : ExecutionLine → Int
  | .idle _ _ => 0
  | .runs _ _ start stop _ => stop - start
  | .finishes _ _ start stop => stop - start

namespace Scheduler

/-- The sum of all completed stints. -/
def stintTime (s : Scheduler) : Int :=
  (s.executionLog.map ExecutionLine.stint).sum

/-- The time from the start of the scheduler to the end of the last stint is
idle time or stints. -/
def Tiled (s : Scheduler) (start : Int) : Prop :=
  s.lastProcessEndTime - start = s.idleTime + s.stintTime

/-- Up to when the time is accounted for: the start of the current stint, or the
end of the last one. -/
def boundary (s : Scheduler) : Int :=
  if s.currentPcb = none then s.lastProcessEndTime else s.logStartTime

/-- The time up to the boundary that is neither idle time nor a stint. -/
def unaccounted (s : Scheduler) (start : Int) : Int :=
  s.boundary - start - s.idleTime - s.stintTime

theorem tiled_iff {s : Scheduler} (idle : s.currentPcb = none) (start : Int) :
    s.Tiled start ↔ s.unaccounted start = 0 := by
  rw [Tiled, unaccounted, boundary, if_pos idle]
  constructor <;> intro <;> omega

/-- A dispatch moves the boundary to the clock. -/
theorem unaccounted_afterDispatch (s : Scheduler) (queue : IQueue Addr)
    (a : Addr) (pcb : PCB) (clk log start : Int) :
    (s.afterDispatch queue a pcb clk log).unaccounted start =
      clk - start - s.idleTime - s.stintTime := rfl

/-- One more line adds its stint. -/
theorem stintTime_append {s s' : Scheduler} {line : ExecutionLine}
    (log : s'.executionLog = s.executionLog ++ [line]) :
    s'.stintTime = s.stintTime + line.stint := by
  rw [stintTime, stintTime, log, List.map_append, List.sum_append,
    List.map_singleton, List.sum_singleton]

/-- Accounting for idle time is not a stint. -/
theorem stintTime_accountIdle (s : Scheduler) (clk : Int) :
    (s.accountIdle clk).stintTime = s.stintTime := by
  rw [accountIdle]
  split
  next => exact (stintTime_append rfl).trans (Int.add_zero _)
  next => rfl

/-- The end of a stint moves the boundary, and the stint accounts for it. -/
theorem unaccounted_stint {s : Scheduler} (s' : Scheduler)
    (line : ExecutionLine) {a : Addr} (runs : s.currentPcb = some a)
    (idle : s'.currentPcb = none) {clk : Int} (last : s'.lastProcessEndTime = clk)
    (log : s'.executionLog = s.executionLog ++ [line])
    (stint : line.stint = clk - s.logStartTime)
    (same : s'.idleTime = s.idleTime) (start : Int) :
    s'.unaccounted start = s.unaccounted start := by
  rw [unaccounted, unaccounted, boundary, boundary, if_pos idle,
    if_neg (by simp [runs]), last, same, stintTime_append log, stint]
  omega

theorem unaccounted_afterExpiration {s : Scheduler} {a : Addr}
    (runs : s.currentPcb = some a) (queue : IQueue Addr) (pcb : PCB)
    (clk log start : Int) :
    (s.afterExpiration queue a pcb clk log).unaccounted start =
      s.unaccounted start :=
  unaccounted_stint (s.afterExpiration queue a pcb clk log)
    (.runs pcb.pdata.id pcb.pdata.runtime s.logStartTime clk pcb.remainingTime)
    runs rfl rfl rfl rfl rfl start

theorem unaccounted_afterTermination {s : Scheduler} {a : Addr}
    (runs : s.currentPcb = some a) (queue : IQueue Addr) (pcb : PCB)
    (clk log start : Int) :
    (s.afterTermination queue a pcb clk log).unaccounted start =
      s.unaccounted start :=
  unaccounted_stint (s.afterTermination queue a pcb clk log)
    (.finishes pcb.pdata.id pcb.pdata.runtime s.logStartTime clk)
    runs rfl rfl rfl rfl rfl start

/-- Accounting for idle time moves the accounts up to the clock. -/
theorem idleTime_accountIdle {s : Scheduler} {clk : Int}
    (behind : s.lastProcessEndTime ≤ clk)
    (waiting : s.readyQueue.isEmpty = false) :
    (s.accountIdle clk).idleTime =
      s.idleTime + (clk - s.lastProcessEndTime) := by
  rw [accountIdle]
  by_cases later : clk > s.lastProcessEndTime
  · rw [if_pos ⟨later, waiting⟩]
  · rw [if_neg (fun both => later both.1)]
    omega

end Scheduler

/-- Where `handle_current_running_process` dispatches a process under HPF, it
does so at the clock value at which the last process ended. -/
def RedispatchedAtOnce (c : ClockedWorld) : ClockEvent → Prop
  | .proceed => c.world.phase = .running →
      c.world.sched.selectedAlgorithm = .hpf →
      c.world.sched.currentPcb = none →
      c.world.sched.readyQueue.isEmpty = false →
      c.clk = c.world.sched.lastProcessEndTime
  | _ => True

instance (c : ClockedWorld) : ∀ event, Decidable (RedispatchedAtOnce c event)
  | .proceed => inferInstanceAs (Decidable (_ → _ → _ → _ → _))
  | .send | .signal | .tick => inferInstanceAs (Decidable True)

/-- Taking the front of the queue needs a queue with something in it. -/
theorem Scheduler.Took.waiting {s : Scheduler} {items : List Addr} {first : Addr}
    {queue : IQueue Addr} (wired : s.Wired items) (took : s.Took first queue) :
    s.readyQueue.isEmpty = false := by
  have front := wired.shows.front_eq.symm.trans took.1
  rw [Except.ok.injEq] at front
  rw [Bool.eq_false_iff, Ne, wired.shows.isEmpty_iff]
  intro empty
  rw [empty] at front
  cases front

/-- The next event dispatches a process in `handle_current_running_process`. -/
def World.Redispatches (w : World) : Event → Prop
  | .proceed _ => w.phase = .running ∧ w.sched.selectedAlgorithm = .hpf ∧
      w.sched.currentPcb = none ∧ w.sched.readyQueue.isEmpty = false
  | _ => False

/-! ### What is left out of the account

Time is accounted for up to a boundary: the start of the stint that runs, or the
end of the last one.  A dispatch moves the boundary to the clock, and the idle
time before it is added in the same function.  Where a process is dispatched by
`handle_current_running_process` the idle time is not, so that the boundary moves
and the sum does not.  The time left out never becomes less again, which is why
the schedule is tiled at the end exactly if no such dispatch came late.
-/

/-- Only such a dispatch leaves time unaccounted for: that since the last
process ended. -/
theorem Move.unaccounted {w w' : World} {event : Event} {items : List Addr}
    {clk : Int} (move : Move w event w') (wired : w.sched.Wired items)
    (now : event.reads clk) (behind : w.sched.lastProcessEndTime ≤ clk)
    (start : Int) :
    w'.sched.lastProcessEndTime ≤ clk ∧
      ((¬ w.Redispatches event ∧
          w'.sched.unaccounted start = w.sched.unaccounted start) ∨
        (w.Redispatches event ∧
          w'.sched.unaccounted start = w.sched.unaccounted start +
            (clk - w.sched.lastProcessEndTime))) := by
  have other : ∀ {phase : Phase} {r : Readings}, w.phase = phase →
      phase ≠ .running → ¬ w.Redispatches (.proceed r) := by
    intro phase r here apart both
    exact apart (here.symm.trans both.1)
  cases move with
  | sent =>
      rw [w.send_sched.1]
      exact ⟨behind, Or.inl ⟨fun impossible => impossible, rfl⟩⟩
  | turned follows =>
      refine ⟨behind, Or.inl ⟨?_, rfl⟩⟩
      rintro ⟨phase, hpf, idle, waiting⟩
      rw [World.Follows, phase] at follows
      rcases follows with ⟨stays, _⟩ | ⟨srtn, _⟩
      · rcases stays.hpf hpf with runs | empty
        · exact runs idle
        · rw [waiting] at empty
          cases empty
      · rw [hpf] at srtn
        cases srtn
  | rejected phase messages invalid =>
      exact ⟨behind, Or.inl ⟨other phase (by simp), rfl⟩⟩
  | received phase messages valid entered =>
      exact ⟨behind, Or.inl ⟨other phase (by simp), rfl⟩⟩
  | @dispatched readings first pcb queue phase idle live took =>
      have reading : readings = { idle := clk, now := clk, log := clk } := now
      subst reading
      have waiting := took.waiting wired
      have time := Scheduler.idleTime_accountIdle behind waiting
      have stints := w.sched.stintTime_accountIdle clk
      have last := w.sched.accountIdle_lastProcessEndTime clk
      refine ⟨last.trans_le behind, Or.inl ⟨other phase (by simp), ?_⟩⟩
      rw [Scheduler.unaccounted_afterDispatch, time, stints,
        Scheduler.unaccounted, Scheduler.boundary, if_pos idle]
      dsimp only
      omega
  | @redispatched readings first pcb queue phase hpf idle live took =>
      have reading : readings = { idle := clk, now := clk, log := clk } := now
      subst reading
      refine ⟨behind, Or.inr ⟨⟨phase, hpf, idle, took.waiting wired⟩, ?_⟩⟩
      rw [Scheduler.unaccounted_afterDispatch, Scheduler.unaccounted,
        Scheduler.boundary, if_pos idle]
      dsimp only
      omega
  | clipped phase rr runs live used =>
      refine ⟨behind, Or.inl ⟨?_, rfl⟩⟩
      rintro ⟨_, hpf, _⟩
      rw [rr] at hpf
      cases hpf
  | @expired readings a pcb queue phase runs live rotated kept =>
      have reading : readings = { idle := clk, now := clk, log := clk } := now
      subst reading
      exact ⟨Int.le_refl clk, Or.inl ⟨other phase (by simp),
        Scheduler.unaccounted_afterExpiration runs queue pcb clk clk start⟩⟩
  | checked phase =>
      refine ⟨by simpa using behind, Or.inl ⟨other phase (by simp), ?_⟩⟩
      simp [Scheduler.unaccounted, Scheduler.boundary, Scheduler.stintTime]
  | silent none => exact ⟨behind, Or.inl ⟨fun impossible => impossible, rfl⟩⟩
  | ticked runs live child more kept rekeyed =>
      exact ⟨behind, Or.inl ⟨fun impossible => impossible, rfl⟩⟩
  | @finished readings a pcb queue runs live child kept removed =>
      have reading : readings = { idle := clk, now := clk, log := clk } := now
      subst reading
      exact ⟨Int.le_refl clk, Or.inl ⟨fun impossible => impossible,
        Scheduler.unaccounted_afterTermination runs queue pcb clk clk start⟩⟩

/-- The condition on the clocked world, in terms of the event. -/
theorem redispatchedAtOnce_iff {c : ClockedWorld} {event : ClockEvent}
    {worldEvent : Event} (same : c.worldEvent event = some worldEvent) :
    RedispatchedAtOnce c event ↔ (c.world.Redispatches worldEvent →
      c.clk = c.world.sched.lastProcessEndTime) := by
  cases event with
  | tick => cases same
  | send =>
      cases same
      exact ⟨fun _ impossible => impossible.elim, fun _ => trivial⟩
  | signal =>
      cases same
      exact ⟨fun _ impossible => impossible.elim, fun _ => trivial⟩
  | proceed =>
      cases same
      constructor
      · rintro atOnce ⟨phase, hpf, idle, waiting⟩
        exact atOnce phase hpf idle waiting
      · intro atOnce phase hpf idle waiting
        exact atOnce ⟨phase, hpf, idle, waiting⟩

/-- The accounts of the scheduler's world, whose last stint ended no later than
now. -/
structure Timed (c : ClockedWorld) : Prop where
  balanced : ∃ items, Balanced c.world items
  behind : c.world.sched.lastProcessEndTime ≤ c.clk

namespace Timed

variable {c c' : ClockedWorld}

theorem initial (algorithm : SchedulingAlgorithm) (quantum clk : Int)
    {toSend : List PCB} (sent : ∀ pcb ∈ toSend, Sent pcb) :
    Timed (ClockedWorld.init algorithm quantum clk toSend) where
  balanced := ⟨[], (balanced_init algorithm quantum clk sent).1⟩
  behind := Int.le_refl clk

/-- A step never lowers the unaccounted time, and keeps it exactly when it does
not dispatch a process late. -/
theorem step (timed : Timed c) {event : ClockEvent}
    (stepped : c.step event = .ok c') (start : Int) :
    Timed c' ∧ c.world.sched.unaccounted start ≤
        c'.world.sched.unaccounted start ∧
      (c'.world.sched.unaccounted start = c.world.sched.unaccounted start ↔
        RedispatchedAtOnce c event) := by
  have balanced' := ClockedWorld.balanced_step timed.balanced stepped
  have behind := timed.behind
  rcases ClockedWorld.step_inv stepped with
    ⟨rfl, rfl⟩ | ⟨worldEvent, world, ticked, owed, same, run, rfl⟩
  · refine ⟨⟨balanced', ?_⟩, Int.le_refl _, fun _ => trivial, fun _ => rfl⟩
    exact Int.le_trans behind (Int.le_add_of_nonneg_right (by decide))
  · obtain ⟨items, balanced⟩ := timed.balanced
    obtain ⟨last, change⟩ := (balanced.move run).unaccounted balanced.tally.wired
      (ClockedWorld.worldEvent_reads same) behind start
    refine ⟨⟨balanced', last⟩, ?_⟩
    rw [redispatchedAtOnce_iff same]
    rcases change with ⟨otherwise, unchanged⟩ | ⟨redispatches, more⟩
    · exact ⟨Int.le_of_eq unchanged.symm, fun _ here => absurd here otherwise,
        fun _ => unchanged⟩
    · dsimp only
      refine ⟨by omega, fun unchanged _ => by omega, fun atOnce => ?_⟩
      have now := atOnce redispatches
      omega

end Timed

/-- Whenever no process is current, the time since the start of the scheduler is
idle time and stints, exactly if so far every process that
`handle_current_running_process` dispatched under HPF was dispatched at the clock
value at which the last one had ended. -/
theorem schedule_tiled_iff (algorithm : SchedulingAlgorithm) (quantum clk : Int)
    (toSend : List PCB) (sent : ∀ pcb ∈ toSend, Sent pcb)
    (events : List ClockEvent) (c : ClockedWorld)
    (run : runs ClockedWorld.step
      (ClockedWorld.init algorithm quantum clk toSend) events = .ok c)
    (idle : c.world.sched.currentPcb = none) :
    c.world.sched.Tiled clk ↔ Along ClockedWorld.step RedispatchedAtOnce
      (ClockedWorld.init algorithm quantum clk toSend) events := by
  have start : (ClockedWorld.init algorithm quantum clk
      toSend).world.sched.unaccounted clk = 0 := by
    show clk - clk - 0 - 0 = 0
    omega
  have free : Along ClockedWorld.step (fun _ _ => True)
      (ClockedWorld.init algorithm quantum clk toSend) events :=
    along_of_forall (fun _ _ => trivial) _ _
  have whole := along_iff_of_monotone (P := Timed)
    (fun c : ClockedWorld => c.world.sched.unaccounted clk)
    (fun _ _ _ timed _ stepped => timed.step stepped clk)
    (Timed.initial algorithm quantum clk sent) free run
  rw [Scheduler.tiled_iff idle, ← whole.2, start]

/-- Two processes are received and the first one is dispatched; it ends, and
after some more clock advances the second one is dispatched, and ends too. -/
private def redispatch (pause : List ClockEvent) : List ClockEvent :=
  [[.send, .send], List.replicate 5 .proceed, [.tick, .signal], pause,
    [.proceed, .tick, .signal]].flatten

theorem schedule_tiled_at_once :
    ∃ c, runs ClockedWorld.step
        (ClockedWorld.init .hpf 1 0 [sampleJob 1 1 1, sampleJob 2 1 2]) (redispatch []) =
          .ok c ∧
      c.world.sched.Tiled 0 := by
  have replay : (do
      let c ← runs ClockedWorld.step
        (ClockedWorld.init .hpf 1 0 [sampleJob 1 1 1, sampleJob 2 1 2]) (redispatch [])
      pure (decide (c.world.sched.currentPcb = none))) = Except.ok true := by
    decide +kernel
  obtain ⟨c, run, ends⟩ := bind_eq_ok.mp replay
  simp only [pure_eq_ok, Except.ok.injEq, decide_eq_true_eq] at ends
  exact ⟨c, run, (schedule_tiled_iff .hpf 1 0 [sampleJob 1 1 1, sampleJob 2 1 2]
    (by decide) (redispatch []) c run ends).mpr (by decide +kernel)⟩

/-- The clock advances between the end of the first process and the dispatch of
the second one: that unit is neither idle time nor in a stint. -/
theorem schedule_not_tiled_late :
    ¬ ∀ (algorithm : SchedulingAlgorithm) (quantum clk : Int)
      (toSend : List PCB), (∀ pcb ∈ toSend, Sent pcb) →
      ∀ (events : List ClockEvent) (c : ClockedWorld),
      runs ClockedWorld.step (ClockedWorld.init algorithm quantum clk toSend)
        events = .ok c →
      c.world.sched.currentPcb = none → c.world.sched.Tiled clk := by
  intro tiled
  have replay : (do
      let c ← runs ClockedWorld.step
        (ClockedWorld.init .hpf 1 0 [sampleJob 1 1 1, sampleJob 2 1 2])
        (redispatch [.tick])
      pure (decide (c.world.sched.currentPcb = none ∧
        c.world.sched.lastProcessEndTime = 3 ∧ c.world.sched.idleTime = 0 ∧
        c.world.sched.stintTime = 2))) = Except.ok true := by
    decide +kernel
  obtain ⟨c, run, ends⟩ := bind_eq_ok.mp replay
  simp only [pure_eq_ok, Except.ok.injEq, decide_eq_true_eq] at ends
  obtain ⟨idle, last, none, stints⟩ := ends
  have sum := tiled .hpf 1 0 [sampleJob 1 1 1, sampleJob 2 1 2] (by decide) _ c
    run idle
  rw [Scheduler.Tiled, last, none, stints] at sum
  exact absurd sum (by decide)

end OsSim
