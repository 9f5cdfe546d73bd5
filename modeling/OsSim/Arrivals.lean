/-
Module: OsSim.Arrivals
Purpose: When the arrival test of `create_processes`, which compares the clock
  with the arrival time of one process, misses an arrival.
Trusted boundary: none
Main exports:
  Creation.Admits, NoneMissed, AdmitsDue, ClockAdvances, Timely,
  no_arrival_missed_iff
-/
import OsSim.CreationMoves

namespace OsSim

open PointerMemory
open DoublyLinked
open Trace

namespace Creation

/-- The arrival test at this reading admits process `i`, and `i` advances: the
process is passed to `fork_and_send`, or it becomes the last one of the waiting
list. -/
def Admits (c : Creation) (reading clk pid : Int) : Prop :=
  ∃ process next, c.processList[c.i]? = some process ∧
    c.arrivalTest reading clk pid = .ok next ∧ next.i = c.i + 1 ∧
    ((next.handed = c.handed ++ [c.i] ∧ next.waiting = c.waiting ∧
        ∃ posted, Posted pid process posted ∧
          next.messages = c.messages ++ posted) ∨
      (next.handed = c.handed ∧ next.messages = c.messages ∧
        ∃ waiting, c.waiting.pointers = .ok waiting ∧
          next.waiting.pointers = .ok (waiting ++ [c.i])))

/-- A process that is still pending can be admitted at some reading of the clock
that is not in the past. -/
def NoneMissed (c : Creation) : Prop :=
  c.statement ≠ .exited → ∀ process, c.processList[c.i]? = some process →
    ∃ reading, c.clock ≤ reading ∧ ∀ clk pid, c.Admits reading clk pid

/-- An arrival test at or after the arrival time of process `i` admits it. -/
def AdmitsDue (c : Creation) : CreationEvent → Prop
  | .proceed reading clk pid =>
      c.statement = .arrivalTest →
        ∀ process, c.processList[c.i]? = some process →
          process.arrivalTime ≤ reading → c.Admits reading clk pid
  | _ => True

/-- The clock does not go back between two arrival tests. -/
def ClockAdvances (c : Creation) : CreationEvent → Prop
  | .proceed reading _ _ => c.statement = .arrivalTest → c.clock ≤ reading
  | _ => True

/-- The arrival test does not come too late for process `i`, nor, when it admits
that one, for the process behind it. -/
def Timely (c : Creation) : CreationEvent → Prop
  | .proceed reading _ _ =>
      c.statement = .arrivalTest → ∀ process ∈ c.processList[c.i]?,
        reading ≤ process.arrivalTime ∧
          (reading = process.arrivalTime →
            ∀ following ∈ c.processList[c.i + 1]?,
              reading ≤ following.arrivalTime)
  | _ => True

instance (c : Creation) : ∀ event, Decidable (c.ClockAdvances event)
  | .exit _ _ => inferInstanceAs (Decidable True)
  | .interrupt => inferInstanceAs (Decidable True)
  | .proceed _ _ _ => inferInstanceAs (Decidable (_ → _))

instance (c : Creation) : ∀ event, Decidable (c.Timely event)
  | .exit _ _ => inferInstanceAs (Decidable True)
  | .interrupt => inferInstanceAs (Decidable True)
  | .proceed _ _ _ => inferInstanceAs (Decidable (_ → _))

/-- The clock has not passed the arrival time of process `i`. -/
def OnTime (c : Creation) : Prop :=
  c.statement ≠ .exited → ∀ process, c.processList[c.i]? = some process →
    c.clock ≤ process.arrivalTime

/-- An event that neither reads the clock nor goes on to another process leaves
the process on time. -/
theorem OnTime.congr {c next : Creation} (onTime : c.OnTime)
    (runs : c.statement ≠ .exited) (list : next.processList = c.processList)
    (i : next.i = c.i) (clock : next.clock = c.clock) : next.OnTime := by
  intro _ process read
  rw [list, i] at read
  rw [clock]
  exact onTime runs process read

end Creation

namespace InOrder

variable {c next : Creation} {chains : Chains}

/-- The arrival test admits process `i` at its arrival time and at no other
reading. -/
theorem admits_iff (inOrder : InOrder c chains) {process : Process}
    (read : c.processList[c.i]? = some process) {reading clk pid : Int} :
    c.Admits reading clk pid ↔ reading = process.arrivalTime := by
  constructor
  · rintro ⟨_, after, _, run, advanced, _⟩
    rcases inOrder.arrivalTest reading clk pid with
      ⟨none, _⟩ | ⟨process', read', ⟨_, run'⟩ | ⟨due, _⟩⟩
    · rw [read] at none
      cases none
    · rw [run', Except.ok.injEq] at run
      rw [← run] at advanced
      have same : c.i = c.i + 1 := advanced
      omega
    · rw [read, Option.some.injEq] at read'
      rw [due, read']
  · intro due
    rcases inOrder.arrivalTest reading clk pid with
      ⟨none, _⟩ | ⟨process', read', ⟨other, _⟩ | ⟨_, rest⟩⟩
    · rw [read] at none
      cases none
    · rw [read, Option.some.injEq] at read'
      exact absurd (read' ▸ due) other
    · rw [read, Option.some.injEq] at read'
      subst read'
      rcases rest with
        ⟨_, pointers, a, run, listAt⟩ | ⟨_, _, manager, _, posted, _, _, _,
          posts, run⟩
      · refine ⟨process, _, read, run, rfl, Or.inr ⟨rfl, rfl, _,
          pointers_eq inOrder.listAt, ?_⟩⟩
        have waits := pointers_eq listAt
        rw [List.map_append] at waits
        exact waits
      · exact ⟨process, _, read, run, rfl,
          Or.inl ⟨rfl, rfl, posted, posts, rfl⟩⟩

/-- A pending process has been missed once the clock is past its arrival time. -/
theorem noneMissed_iff (inOrder : InOrder c chains) :
    c.NoneMissed ↔ c.OnTime := by
  constructor
  · intro kept runs process read
    obtain ⟨reading, later, admits⟩ := kept runs process read
    rw [← (inOrder.admits_iff read).mp (admits 0 0)]
    exact later
  · intro onTime runs process read
    exact ⟨process.arrivalTime, onTime runs process read,
      fun _ _ => (inOrder.admits_iff read).mpr rfl⟩

/-- An arrival test at the arrival time leads to the next process. -/
theorem step_due (inOrder : InOrder c chains)
    (statement : c.statement = .arrivalTest) {process : Process}
    (read : c.processList[c.i]? = some process) {reading : Int}
    (due : reading = process.arrivalTime) (clk pid : Int) :
    ∃ next, c.step (.proceed reading clk pid) = .ok next ∧
      next.statement = .loopTest ∧ next.processList = c.processList ∧
      next.i = c.i + 1 ∧ next.clock = reading := by
  obtain ⟨next, chains', run, move, _⟩ :=
    inOrder.arrival_move statement reading clk pid
  have stepped : c.step (.proceed reading clk pid) = .ok next := by
    rw [← run, Creation.step.eq_def, if_neg (by simp [statement])]
  refine ⟨next, stepped, ?_⟩
  cases move with
  | queued => exact ⟨rfl, rfl, rfl, rfl⟩
  | admitted => exact ⟨rfl, rfl, rfl, rfl⟩
  | passed _ read' other =>
      rw [read, Option.some.injEq] at read'
      exact absurd (read' ▸ due) other
  | noneLeft _ none =>
      rw [read] at none
      cases none
  | _ => simp_all

/-- An event admits what is due, and leaves the next process on time, exactly
when it is timely. -/
theorem timely_iff (inOrder : InOrder c chains) (onTime : c.OnTime)
    (event : CreationEvent) :
    (c.AdmitsDue event ∧
        ∀ next, c.step event = .ok next → next.OnTime) ↔ c.Timely event := by
  constructor
  · rintro ⟨due, kept⟩
    cases event with
    | exit clk pid => trivial
    | interrupt => trivial
    | proceed reading clk pid =>
        intro statement process read
        have early : reading ≤ process.arrivalTime := by
          by_contra late
          have admits := due statement process read (by omega)
          have same := (inOrder.admits_iff read).mp admits
          omega
        refine ⟨early, ?_⟩
        intro same following readNext
        obtain ⟨next, stepped, loops, list, i, clock⟩ :=
          inOrder.step_due statement read same clk pid
        rw [← clock]
        apply kept next stepped (by simp [loops])
        rw [list, i]
        exact readNext
  · intro timely
    refine ⟨?_, ?_⟩
    · cases event with
      | exit clk pid => trivial
      | interrupt => trivial
      | proceed reading clk pid =>
          intro statement process read past
          have early := (timely statement process read).1
          exact (inOrder.admits_iff read).mpr (by omega)
    · intro next run
      obtain ⟨chains', move, _⟩ := inOrder.move run
      cases move with
      | ended exited => exact onTime
      | reaped runs => exact onTime.congr runs rfl rfl rfl
      | interrupted => exact fun runs => absurd rfl runs
      | rested => exact onTime
      | passed statement read other =>
          intro _ process read'
          exact (timely statement process read').1
      | queued statement read due =>
          intro _ following readNext
          exact (timely statement _ read).2 due following readNext
      | admitted statement read due =>
          intro _ following readNext
          exact (timely statement _ read).2 due following readNext
      | _ => exact onTime.congr (by simp [*]) rfl rfl rfl

/-- The run lemma behind the result: what is asked of the states and of the
steps comes down to the clock readings. -/
theorem missed_iff (inOrder : InOrder c chains) (events : List CreationEvent) :
    (Throughout Creation.step Creation.NoneMissed c events ∧
        Along Creation.step Creation.AdmitsDue c events) ↔
      c.OnTime ∧ Along Creation.step Creation.Timely c events := by
  induction events generalizing c chains with
  | nil => simp [throughout_nil, inOrder.noneMissed_iff]
  | cons event events ih =>
      have later : ∀ next, c.step event = .ok next →
          ((Throughout Creation.step Creation.NoneMissed next events ∧
              Along Creation.step Creation.AdmitsDue next events) ↔
            next.OnTime ∧ Along Creation.step Creation.Timely next events) := by
        intro next stepped
        obtain ⟨chains', _, kept⟩ := inOrder.move stepped
        exact ih kept
      simp only [throughout_cons, along_cons]
      constructor
      · rintro ⟨⟨first, states⟩, due, steps⟩
        have onTime := inOrder.noneMissed_iff.mp first
        refine ⟨onTime, (inOrder.timely_iff onTime event).mp ⟨due, ?_⟩, ?_⟩
        · intro next stepped
          exact ((later next stepped).mp
            ⟨states next stepped, steps next stepped⟩).1
        · intro next stepped
          exact ((later next stepped).mp
            ⟨states next stepped, steps next stepped⟩).2
      · rintro ⟨onTime, timely, steps⟩
        obtain ⟨due, kept⟩ := (inOrder.timely_iff onTime event).mpr timely
        refine ⟨⟨inOrder.noneMissed_iff.mpr onTime, ?_⟩, due, ?_⟩
        · intro next stepped
          exact ((later next stepped).mpr
            ⟨kept next stepped, steps next stepped⟩).1
        · intro next stepped
          exact ((later next stepped).mpr
            ⟨kept next stepped, steps next stepped⟩).2

end InOrder

/-- No arrival is missed in a run, whatever its clock readings, exactly when the
clock starts no later than the first arrival and every arrival test comes in
time. -/
theorem no_arrival_missed_iff (processList : List Process)
    (clock clkPid schPid : Int) (events : List CreationEvent) :
    (Throughout Creation.step Creation.NoneMissed
          (.start processList clock clkPid schPid) events ∧
        Along Creation.step Creation.AdmitsDue
          (.start processList clock clkPid schPid) events) ↔
      (∀ first ∈ processList[0]?, clock ≤ first.arrivalTime) ∧
        Along Creation.step Creation.Timely
          (.start processList clock clkPid schPid) events := by
  rw [(InOrder.start processList clock clkPid schPid).missed_iff]
  have starts : (Creation.start processList clock clkPid schPid).OnTime ↔
      ∀ first ∈ processList[0]?, clock ≤ first.arrivalTime := by
    constructor
    · intro onTime first read
      exact onTime (by simp [Creation.start]) first read
    · intro early _ first read
      exact early first read
  rw [starts]

private def late : Process :=
  { id := 1, arrivalTime := 1, runtime := 1, priority := 0, memorySize := 1 }

/-- Two rounds of the outer loop: the clock goes from 0 to 2 between their
arrival tests. -/
private def skipping : List CreationEvent :=
  [.proceed 0 0 5, .proceed 0 0 5, .proceed 0 0 5,
    .proceed 2 2 5, .proceed 2 2 5, .proceed 2 2 5]

/-- A clock that passes the arrival time between two polls: the process is never
admitted. -/
theorem arrival_missed :
    ¬ ∀ (processList : List Process) (clock clkPid schPid : Int)
      (events : List CreationEvent),
      Along Creation.step Creation.ClockAdvances
        (.start processList clock clkPid schPid) events →
      Throughout Creation.step Creation.NoneMissed
          (.start processList clock clkPid schPid) events ∧
        Along Creation.step Creation.AdmitsDue
          (.start processList clock clkPid schPid) events := by
  intro always
  have kept := always [late] 0 2 3 skipping (by decide +kernel)
  rw [(InOrder.start [late] 0 2 3).missed_iff] at kept
  have missed : ¬ Along Creation.step Creation.Timely (.start [late] 0 2 3)
      skipping := by
    decide +kernel
  exact missed kept.2

end OsSim
