/-
Module: OsSim.PerformanceStatistics
Purpose: What `scheduler_perf_out` computes from the sums that `log_event` keeps,
  against the statistics of the processes that finished.
Trusted boundary: human-reviewed translation
Main exports:
  Performance, schedulerPerfOut, mean, variance, Scheduler.finishedLines,
  StatisticsRight, Totals, statistics_of_finished
-/
import OsSim.SchedulerMoves
import Mathlib.Algebra.Field.Rat
import Mathlib.Algebra.BigOperators.Group.List.Basic
import Mathlib.Tactic.Ring

namespace OsSim

open PointerMemory
open Trace

/-! ### The output -/

/-- The numbers in `scheduler.perf`.  `varianceWta` is the number whose square
root is printed as the standard deviation. -/
structure Performance where
  cpuUtilization : ℚ
  avgWta : ℚ
  avgWait : ℚ
  varianceWta : ℚ
deriving Repr, DecidableEq

/-- `scheduler_perf_out`, for `proc_count` processes and the contents of the
array `WTAs`.  No function writes to that array after its `malloc`. -/
def schedulerPerfOut (s : Scheduler) (procCount : Nat) (wtas : Nat → ℚ)
    (totalIdle totalTime : Int) : Performance :=
  let avgWta := s.totalWta / procCount
  let avgWait := (s.totalWait : ℚ) / procCount
  let diffSquareSum := ((List.range procCount).map fun i =>
    (wtas i - avgWta) * (wtas i - avgWta)).sum
  { cpuUtilization := (1 - (totalIdle : ℚ) / totalTime) * 100
    avgWta := avgWta
    avgWait := avgWait
    varianceWta := diffSquareSum / procCount }

/-! ### The reference -/

def mean (values : List ℚ) : ℚ := values.sum / values.length

/-- The population variance. -/
def variance (values : List ℚ) : ℚ :=
  mean (values.map fun value => (value - mean values) * (value - mean values))

/-- The turnaround time that a line of `scheduler.log` about a finished process
shows. -/
def LogLine.turnaround (line : LogLine) : Int :=
  line.clk - line.snapshot.pdata.arrivalTime

/-- The weighted turnaround time. -/
def LogLine.wta (line : LogLine) : ℚ :=
  (line.turnaround : ℚ) / line.snapshot.pdata.runtime

/-- The lines about finished processes. -/
def Scheduler.finishedLines (s : Scheduler) : List LogLine :=
  s.schedulerLog.filter fun line => line.snapshot.state = some .finished

/-- The output shows the statistics of the finished processes. -/
def StatisticsRight (s : Scheduler) (performance : Performance) : Prop :=
  performance.avgWta = mean (s.finishedLines.map LogLine.wta) ∧
    performance.avgWait =
      mean (s.finishedLines.map fun line => (line.snapshot.waitTime : ℚ)) ∧
    performance.varianceWta = variance (s.finishedLines.map LogLine.wta)

/-! ### The sums -/

/-- The sums that `log_event` keeps are those over the finished processes. -/
structure Totals (s : Scheduler) : Prop where
  wta : s.totalWta = (s.finishedLines.map LogLine.wta).sum
  wait : (s.totalWait : ℚ) =
    (s.finishedLines.map fun line => (line.snapshot.waitTime : ℚ)).sum

namespace Totals

variable {s s' : Scheduler}

theorem initial (algorithm : SchedulingAlgorithm) (quantum clk : Int) :
    Totals (runScheduler algorithm quantum clk) := ⟨rfl, rfl⟩

/-- Where the log and the sums stay. -/
theorem same (totals : Totals s) (log : s'.schedulerLog = s.schedulerLog)
    (wta : s'.totalWta = s.totalWta) (wait : s'.totalWait = s.totalWait) :
    Totals s' := by
  have lines : s'.finishedLines = s.finishedLines := by
    rw [Scheduler.finishedLines, log, Scheduler.finishedLines]
  exact ⟨by rw [wta, lines, totals.wta], by rw [wait, lines, totals.wait]⟩

/-- A line about a process that goes on adds nothing. -/
theorem unfinished (totals : Totals s) {line : LogLine}
    (log : s'.schedulerLog = s.schedulerLog ++ [line])
    (state : line.snapshot.state ≠ some .finished)
    (wta : s'.totalWta = s.totalWta) (wait : s'.totalWait = s.totalWait) :
    Totals s' := by
  have lines : s'.finishedLines = s.finishedLines := by
    rw [Scheduler.finishedLines, log, List.filter_append,
      List.filter_cons_of_neg (by simpa using state), List.filter_nil,
      List.append_nil, Scheduler.finishedLines]
  exact ⟨by rw [wta, lines, totals.wta], by rw [wait, lines, totals.wait]⟩

/-- A line about a finished process adds its times. -/
theorem finished (totals : Totals s) {line : LogLine}
    (log : s'.schedulerLog = s.schedulerLog ++ [line])
    (state : line.snapshot.state = some .finished)
    (wta : s'.totalWta = s.totalWta + line.wta)
    (wait : s'.totalWait = s.totalWait + line.snapshot.waitTime) :
    Totals s' := by
  have lines : s'.finishedLines = s.finishedLines ++ [line] := by
    rw [Scheduler.finishedLines, log, List.filter_append,
      List.filter_cons_of_pos (by simpa using state), List.filter_nil,
      Scheduler.finishedLines]
  constructor
  · rw [wta, lines, List.map_append, List.sum_append, totals.wta]
    simp
  · rw [wait, lines, List.map_append, List.sum_append, ← totals.wait]
    simp

theorem move {w w' : World} {event : Event} (move : Move w event w')
    (totals : Totals w.sched) : Totals w'.sched := by
  cases move with
  | sent =>
      rw [w.send_sched.1]
      exact totals
  | @dispatched clk first pcb queue phase idle live took =>
      exact totals.unfinished
        (congrArg (· ++ [_]) (w.sched.accountIdle_schedulerLog clk.idle))
        (Scheduler.dispatchedPcb_kept pcb clk.now).2.2.2
        (w.sched.accountIdle_totalWta clk.idle)
        (w.sched.accountIdle_totalWait clk.idle)
  | @redispatched clk first pcb queue phase hpf idle live took =>
      exact totals.unfinished rfl (Scheduler.dispatchedPcb_kept pcb clk.now).2.2.2
        rfl rfl
  | expired phase runs live rotated kept =>
      exact totals.unfinished rfl (fun stopped => by cases stopped) rfl rfl
  | finished runs live child kept removed => exact totals.finished rfl rfl rfl rfl
  | checked phase =>
      exact totals.same (by simp) (by simp) (by simp)
  | turned follows => exact totals
  | rejected phase messages invalid => exact totals
  | received phase messages valid entered => exact totals.same rfl rfl rfl
  | clipped phase rr runs live used => exact totals.same rfl rfl rfl
  | silent none => exact totals
  | ticked runs live child more kept rekeyed => exact totals.same rfl rfl rfl

end Totals

/-- The averages are right wherever all processes have finished. -/
theorem Totals.averages {s : Scheduler} (totals : Totals s) (wtas : Nat → ℚ)
    (idle time : Int) :
    (schedulerPerfOut s s.finishedLines.length wtas idle time).avgWta =
        mean (s.finishedLines.map LogLine.wta) ∧
      (schedulerPerfOut s s.finishedLines.length wtas idle time).avgWait =
        mean (s.finishedLines.map
          fun line => (line.snapshot.waitTime : ℚ)) := by
  constructor
  · rw [schedulerPerfOut, mean, totals.wta, List.length_map]
  · rw [schedulerPerfOut, mean, totals.wait, List.length_map]

/-- Where the array holds the same number everywhere, the spread that is printed
is its distance from the average. -/
theorem varianceWta_const (s : Scheduler) {procCount : Nat}
    (some : 1 ≤ procCount) (distance : ℚ) (idle time : Int) :
    (schedulerPerfOut s procCount (fun _ => s.totalWta / procCount + distance)
      idle time).varianceWta = distance * distance := by
  have nonzero : (procCount : ℚ) ≠ 0 := by
    rw [Ne, Nat.cast_eq_zero]
    omega
  simp only [schedulerPerfOut, add_sub_cancel_left, List.map_const',
    List.length_range, List.sum_replicate, nsmul_eq_mul]
  rw [mul_comm, mul_div_assoc, div_self nonzero, mul_one]

/-- When all processes have finished, the averages are right, but whatever the
run, the spread is not right for all contents of the array `WTAs`. -/
theorem statistics_of_finished (algorithm : SchedulingAlgorithm)
    (quantum clk : Int) (toSend : List PCB) (sent : ∀ pcb ∈ toSend, Sent pcb)
    (events : List Event) (w : World)
    (run : runs World.step (World.init algorithm quantum clk toSend) events =
      .ok w)
    (procCount : Nat) (some : 1 ≤ procCount)
    (all : w.sched.finishedLines.length = procCount) (idle time : Int) :
    (∀ wtas,
      (schedulerPerfOut w.sched procCount wtas idle time).avgWta =
          mean (w.sched.finishedLines.map LogLine.wta) ∧
        (schedulerPerfOut w.sched procCount wtas idle time).avgWait =
          mean (w.sched.finishedLines.map
            fun line => (line.snapshot.waitTime : ℚ))) ∧
      ¬ ∀ wtas, StatisticsRight w.sched
        (schedulerPerfOut w.sched procCount wtas idle time) := by
  have totals : Totals w.sched :=
    (balanced_init algorithm quantum clk sent).1.invariant_of_moves
      (P := fun w => Totals w.sched) (fun _ move totals => totals.move move)
      (Totals.initial algorithm quantum clk) run
  refine ⟨fun wtas => all ▸ totals.averages wtas idle time, ?_⟩
  intro right
  have none := (right fun _ => w.sched.totalWta / procCount + 0).2.2
  have one := (right fun _ => w.sched.totalWta / procCount + 1).2.2
  rw [varianceWta_const w.sched some] at none one
  rw [← none] at one
  simp at one

/-- Both messages are sent, the process runs for its unit in the first sleep,
and the loop ends. -/
private def unitRun : List Event :=
  [.send, .send] ++ List.replicate 6 (.proceed ⟨0, 0, 0⟩) ++
    [.signal ⟨1, 1, 1⟩, .proceed ⟨1, 1, 1⟩, .proceed ⟨1, 1, 1⟩]

private theorem unitRun_ends :
    ∃ w, runs World.step (World.init .rr 1 0 [sampleJob 1 1 0]) unitRun = .ok w ∧
      w.phase = .exited ∧ w.sched.finishedLines.length = 1 ∧
      (schedulerPerfOut w.sched 1 (fun _ => 0) 0 1).varianceWta ≠
        variance (w.sched.finishedLines.map LogLine.wta) := by
  have replay : (do
      let w ← runs World.step (World.init .rr 1 0 [sampleJob 1 1 0]) unitRun
      pure (decide (w.phase = .exited ∧ w.sched.finishedLines.length = 1 ∧
        (schedulerPerfOut w.sched 1 (fun _ => 0) 0 1).varianceWta ≠
          variance (w.sched.finishedLines.map LogLine.wta)))) =
      Except.ok true := by
    decide +kernel
  obtain ⟨w, run, ends⟩ := bind_eq_ok.mp replay
  simp only [pure_eq_ok, Except.ok.injEq, decide_eq_true_eq] at ends
  exact ⟨w, run, ends⟩

theorem statistics_of_finished_unit :
    ∃ w, runs World.step (World.init .rr 1 0 [sampleJob 1 1 0]) unitRun = .ok w ∧
      ¬ ∀ wtas, StatisticsRight w.sched
        (schedulerPerfOut w.sched 1 wtas 0 1) := by
  obtain ⟨w, run, _, all, _⟩ := unitRun_ends
  exact ⟨w, run, (statistics_of_finished .rr 1 0 [sampleJob 1 1 0] (by decide)
    unitRun w run 1 (by decide) all 0 1).2⟩

/-- A single process has no spread, but zeros in the array show one. -/
theorem statistics_of_zeros :
    ¬ ∀ (algorithm : SchedulingAlgorithm) (quantum clk : Int)
      (toSend : List PCB), (∀ pcb ∈ toSend, Sent pcb) →
      ∀ (events : List Event) (w : World),
      runs World.step (World.init algorithm quantum clk toSend) events =
        .ok w →
      ∀ procCount, 1 ≤ procCount →
      w.sched.finishedLines.length = procCount →
      ∀ idle time wtas, StatisticsRight w.sched
        (schedulerPerfOut w.sched procCount wtas idle time) := by
  intro right
  obtain ⟨w, run, _, all, wrong⟩ := unitRun_ends
  exact wrong (right .rr 1 0 [sampleJob 1 1 0] (by decide) unitRun w run 1
    (by decide) all 0 1 fun _ => 0).2.2

end OsSim
