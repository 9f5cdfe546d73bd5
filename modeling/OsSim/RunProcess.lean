/-
Module: OsSim.RunProcess
Purpose: A child in `run_process`: polls of the clock between clock advances and
  the SIGSTOP and SIGCONT of the scheduler, and when it counts every clock unit
  in which it ran.
Trusted boundary: human-reviewed translation
Main exports:
  ChildStatus, ChildRun, ChildEvent, ChildRun.init, ChildRun.step,
  ChildRun.Legal, ChildRun.Accounted, ChildRun.Polled, UnitsKept,
  units_counted_iff
-/
import OsSim.Library.PointerMemory
import OsSim.Library.Trace

namespace OsSim

open PointerMemory
open Trace

/-- Whether the child is stopped, in its loop, or past it. -/
inductive ChildStatus where
  | stopped
  | running
  | exited
deriving Repr, DecidableEq

/-- The signals a child sends to the scheduler. -/
inductive ChildSignal where
  | sigusr1
  | sigusr2
deriving Repr, DecidableEq

/-- A child in `run_process`, its variables `runtime` and `last_clk`, the clock,
and the signals sent so far.  Beside it: how many units it has counted, in how
many clock advances it was running, and whether one of these has come since the
last poll or SIGCONT. -/
structure ChildRun where
  status : ChildStatus
  runtime : Int
  lastClk : Int
  clk : Int
  sent : List ChildSignal
  counted : Nat
  ran : Nat
  unpolled : Bool
deriving Repr, DecidableEq

/-- The child wakes up in its loop, the clock advances by one, or the scheduler
stops or continues the child. -/
inductive ChildEvent where
  | poll
  | advance
  | sigstop
  | sigcont
deriving Repr, DecidableEq

namespace ChildRun

/-- The child after its first `raise(SIGSTOP)`, with `last_clk = 0`. -/
def init (runtime clk : Int) : ChildRun :=
  { status := .stopped, runtime := runtime, lastClk := 0, clk := clk, sent := []
    counted := 0, ran := 0, unpolled := false }

/-- The loop test of `run_process`, and the loop body up to its `usleep`. -/
def poll (child : ChildRun) : ChildRun :=
  if child.runtime > 0 then
    if child.clk ≠ child.lastClk then
      { child with
        runtime := child.runtime - 1
        lastClk := child.clk
        sent := child.sent ++
          [if child.runtime - 1 ≤ 0 then .sigusr1 else .sigusr2]
        counted := child.counted + 1
        unpolled := false }
    else
      { child with unpolled := false }
  else
    { child with status := .exited, unpolled := false }

/-- `handle_sigcont`, for a child that was stopped. -/
def handleSigcont (child : ChildRun) : ChildRun :=
  { child with status := .running, lastClk := child.clk, unpolled := false }

def step (child : ChildRun) : ChildEvent → Except Fault ChildRun
  | .poll => .ok (if child.status = .running then child.poll else child)
  | .advance => .ok { child with
      clk := child.clk + 1
      ran := if child.status = .running then child.ran + 1 else child.ran
      unpolled := child.unpolled || child.status = .running }
  | .sigstop => .ok
      (if child.status = .running then { child with status := .stopped }
        else child)
  | .sigcont => .ok
      (if child.status = .stopped then child.handleSigcont else child)

/-- While the child is running it polls at least once between two clock
advances, and SIGSTOP and SIGCONT come in pairs. -/
def Legal (child : ChildRun) : ChildEvent → Prop
  | .poll => child.status = .running
  | .advance => child.status = .running → child.unpolled = false
  | .sigstop => child.status = .running
  | .sigcont => child.status = .stopped

instance (child : ChildRun) (event : ChildEvent) :
    Decidable (child.Legal event) :=
  match event with
  | .poll => inferInstanceAs (Decidable (_ = _))
  | .advance => inferInstanceAs (Decidable (_ → _))
  | .sigstop => inferInstanceAs (Decidable (_ = _))
  | .sigcont => inferInstanceAs (Decidable (_ = _))

/-- While the child is running, the units it has counted, and one more if it has
not polled the current clock value, are the clock advances in which it was
running. -/
def Accounted (child : ChildRun) : Prop :=
  child.status = .running →
    child.counted + (if child.clk ≠ child.lastClk then 1 else 0) = child.ran

/-- The state after the event accounts for every unit. -/
def KeepsAccounted (child : ChildRun) (event : ChildEvent) : Prop :=
  ∃ next, child.step event = .ok next ∧ next.Accounted

/-- At a SIGCONT the child has polled since the last clock advance in which it
was running. -/
def Polled (child : ChildRun) (event : ChildEvent) : Prop :=
  event = .sigcont → child.unpolled = false

instance (child : ChildRun) (event : ChildEvent) :
    Decidable (child.Polled event) := inferInstanceAs (Decidable (_ → _))

end ChildRun

/-! ### The invariant

A child notices an advance of the clock by comparing it with `last_clk` at its next
poll.  The handler of SIGCONT sets `last_clk` to the clock, so that the time in
which the child was stopped does not count.  It thereby forgets an advance that
came before the stop and has not been polled yet, and this is the only way in
which a unit is lost.
-/

/-- The units counted, and one more for an advance that has not been polled, are
the advances in which the child was running; a running child has such an advance
before it exactly when the clock differs from `last_clk`. -/
structure UnitsKept (child : ChildRun) : Prop where
  units : child.status ≠ .exited →
    child.counted + (if child.unpolled then 1 else 0) = child.ran
  fresh : child.status = .running →
    (child.clk ≠ child.lastClk ↔ child.unpolled = true)

namespace UnitsKept

variable {child : ChildRun}

theorem initial (runtime clk : Int) : UnitsKept (ChildRun.init runtime clk) where
  units := fun _ => rfl
  fresh := fun running => by cases running

theorem accounted (kept : UnitsKept child) : child.Accounted := by
  intro running
  have units := kept.units (by rw [running]; decide)
  simpa only [kept.fresh running] using units

/-- A poll counts a unit exactly when an advance has not been polled. -/
theorem poll (kept : UnitsKept child) (running : child.status = .running) :
    UnitsKept child.poll := by
  have units := kept.units (by rw [running]; decide)
  have fresh := kept.fresh running
  rw [ChildRun.poll]
  by_cases left : child.runtime > 0
  · rw [if_pos left]
    by_cases moved : child.clk ≠ child.lastClk
    · rw [fresh.mp moved] at units
      rw [if_pos moved]
      exact ⟨fun _ => units, fun _ => by simp⟩
    · have polled : child.unpolled = false := by
        rw [fresh] at moved
        exact Bool.eq_false_iff.mpr moved
      rw [polled] at units
      rw [if_neg moved]
      exact ⟨fun _ => units, fun _ => by simpa using moved⟩
  · rw [if_neg left]
    exact ⟨fun stays => absurd rfl stays, fun runs => by cases runs⟩

/-- A clock advance is one more unit to poll if the child is running. -/
theorem advance (kept : UnitsKept child)
    (polled : child.status = .running → child.unpolled = false) {next : ChildRun}
    (stepped : child.step .advance = .ok next) : UnitsKept next := by
  rw [ChildRun.step, Except.ok.injEq] at stepped
  subst stepped
  by_cases running : child.status = .running
  · have units := kept.units (by rw [running]; decide)
    have same := kept.fresh running
    rw [polled running] at units same
    constructor
    · intro _
      simp only [running, if_true, decide_true, Bool.or_true]
      rw [← units]
      rfl
    · intro _
      have equal : child.clk = child.lastClk := by simpa using same
      simp only [running, decide_true, Bool.or_true, iff_true]
      omega
  · constructor
    · intro stays
      have units := kept.units stays
      simpa [running] using units
    · intro runs
      exact absurd runs running

theorem sigstop (kept : UnitsKept child) (running : child.status = .running) :
    UnitsKept { child with status := .stopped } :=
  ⟨fun _ => kept.units (by rw [running]; decide), fun runs => by cases runs⟩

/-- The handler of SIGCONT forgets no unit where none is left to poll. -/
theorem sigcont (kept : UnitsKept child) (stopped : child.status = .stopped)
    (polled : child.unpolled = false) : UnitsKept child.handleSigcont := by
  have units := kept.units (by rw [stopped]; decide)
  rw [polled] at units
  exact ⟨fun _ => units, fun _ => by simp [ChildRun.handleSigcont]⟩

theorem step (kept : UnitsKept child) {event : ChildEvent} {next : ChildRun}
    (legal : child.Legal event) (polled : child.Polled event)
    (stepped : child.step event = .ok next) : UnitsKept next := by
  cases event with
  | poll =>
      have running : child.status = .running := legal
      rw [ChildRun.step, if_pos running, Except.ok.injEq] at stepped
      exact stepped ▸ kept.poll running
  | advance => exact kept.advance legal stepped
  | sigstop =>
      have running : child.status = .running := legal
      rw [ChildRun.step, if_pos running, Except.ok.injEq] at stepped
      exact stepped ▸ kept.sigstop running
  | sigcont =>
      have stopped : child.status = .stopped := legal
      rw [ChildRun.step, if_pos stopped, Except.ok.injEq] at stepped
      exact stepped ▸ kept.sigcont stopped (polled rfl)

/-- An event keeps the account exactly when it is not a SIGCONT that makes the
child forget a unit. -/
theorem keepsAccounted_iff (kept : UnitsKept child) {event : ChildEvent}
    (legal : child.Legal event) :
    child.Polled event ↔ child.KeepsAccounted event := by
  constructor
  · intro polled
    cases stepped : child.step event with
    | error fault => cases event <;> simp [ChildRun.step] at stepped
    | ok next => exact ⟨next, stepped, (kept.step legal polled stepped).accounted⟩
  · rintro ⟨next, stepped, accounted⟩ rfl
    have stopped : child.status = .stopped := legal
    rw [ChildRun.step, if_pos stopped, Except.ok.injEq] at stepped
    subst stepped
    have now : child.counted = child.ran := by
      simpa [ChildRun.handleSigcont] using accounted rfl
    have units := kept.units (by rw [stopped]; decide)
    by_contra pending
    rw [Bool.not_eq_false] at pending
    rw [pending, if_pos rfl] at units
    omega

end UnitsKept

/-- A running child accounts for every clock advance in which it was running,
exactly as long as at each SIGCONT it has polled the last such advance. -/
theorem units_counted_iff (runtime clk : Int) (events : List ChildEvent)
    (legal : Along ChildRun.step ChildRun.Legal (ChildRun.init runtime clk)
      events) :
    (ChildRun.init runtime clk).Accounted ∧
      (Along ChildRun.step ChildRun.KeepsAccounted
          (ChildRun.init runtime clk) events ↔
        Along ChildRun.step ChildRun.Polled (ChildRun.init runtime clk)
          events) := by
  have initial := UnitsKept.initial runtime clk
  refine ⟨initial.accounted, Iff.symm ?_⟩
  apply along_congr_of_allowed (P := UnitsKept) ?_ ?_ initial legal
  · intro child event next kept allowed polled stepped
    exact kept.step allowed polled stepped
  · intro child event kept allowed
    exact kept.keepsAccounted_iff allowed

/-- A child that is preempted twice, each time after a poll. -/
private def preemptedChild : List ChildEvent :=
  [.sigcont, .poll, .advance, .poll, .sigstop, .advance, .sigcont, .advance,
   .poll, .sigstop, .advance, .sigcont, .poll, .advance, .poll, .poll]

theorem units_counted_sample :
    Along ChildRun.step ChildRun.KeepsAccounted (ChildRun.init 3 7)
      preemptedChild :=
  (units_counted_iff 3 7 preemptedChild (by decide)).2.mpr (by decide)

/-- A child that is stopped between a clock advance and its next poll loses that
unit. -/
theorem units_counted_preempted_early :
    ¬ ∀ (runtime clk : Int) (events : List ChildEvent), 1 ≤ runtime →
      Along ChildRun.step ChildRun.Legal (ChildRun.init runtime clk) events →
      Along ChildRun.step ChildRun.KeepsAccounted (ChildRun.init runtime clk)
        events := by
  intro always
  have kept := always 2 0 [.sigcont, .advance, .sigstop, .sigcont] (by decide)
    (by decide)
  rw [along_cons] at kept
  have kept := (along_cons.mp (kept.2 _ rfl)).2 _ rfl
  have kept := (along_cons.mp ((along_cons.mp kept).2 _ rfl)).1
  obtain ⟨next, stepped, accounted⟩ := kept
  rw [ChildRun.step, if_pos (by rfl), Except.ok.injEq] at stepped
  subst stepped
  exact absurd (accounted rfl) (by decide)

end OsSim
