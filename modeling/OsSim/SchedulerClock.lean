/-
Module: OsSim.SchedulerClock
Purpose: The scheduler's world beside the clock.  A phase and a signal handler
  read one clock value; the clock advances by one between them.
Trusted boundary: human-reviewed translation
Main exports:
  ClockedWorld, ClockEvent, ClockedWorld.init, ClockedWorld.step,
  ClockedWorld.SleepOnly, ClockedWorld.busyUnits, ClockedWorld.step_inv,
  ClockedWorld.balanced_step, Event.reads
-/
import OsSim.SchedulerMoves

namespace OsSim

open PointerMemory
open Trace

/-- The scheduler's world and the clock.  Beside them: the clock units that have
passed, newest first, each as the value at which it began and the process that
was current in it; whether the clock has advanced in this sleep; and whether the
signal for that unit is still to come. -/
structure ClockedWorld where
  world : World
  clk : Int
  units : List (Int × Option Addr)
  ticked : Bool
  owed : Bool
deriving Repr, DecidableEq

/-- A message is sent, the scheduler performs its next phase, the child of the
current process sends its signal, or the clock advances by one. -/
inductive ClockEvent where
  | send
  | proceed
  | signal
  | tick
deriving Repr, DecidableEq

namespace ClockedWorld

/-- The scheduler started at a clock value. -/
def init (algorithm : SchedulingAlgorithm) (quantum clk : Int)
    (toSend : List PCB) : ClockedWorld :=
  { world := World.init algorithm quantum clk toSend
    clk := clk
    units := []
    ticked := false
    owed := false }

/-- Every call of `get_clk` in a phase reads the same value. -/
def reading (c : ClockedWorld) : Readings :=
  { idle := c.clk, now := c.clk, log := c.clk }

/-- The clock advances by one. -/
def tick (c : ClockedWorld) : ClockedWorld :=
  { c with
    clk := c.clk + 1
    units := (c.clk, c.world.sched.currentPcb) :: c.units
    ticked := true
    owed := c.world.sched.currentPcb.isSome }

def step (c : ClockedWorld) : ClockEvent → Except Fault ClockedWorld
  | .send => do
      let world ← c.world.step .send
      pure { c with world := world }
  | .proceed => do
      let world ← c.world.step (.proceed c.reading)
      pure { c with
        world := world
        ticked := if c.world.phase = .sleep then false else c.ticked }
  | .signal => do
      let world ← c.world.step (.signal c.reading)
      pure { c with world := world, owed := false }
  | .tick => .ok c.tick

/-- The clock advances, and signals come, in the sleep at the end of an
iteration only. -/
def SleepOnly (c : ClockedWorld) : ClockEvent → Prop
  | .tick | .signal => c.world.phase = .sleep
  | .send | .proceed => True

instance (c : ClockedWorld) : ∀ event, Decidable (c.SleepOnly event)
  | .tick | .signal => inferInstanceAs (Decidable (_ = _))
  | .send | .proceed => inferInstanceAs (Decidable True)

/-- The clock units in which some process was current. -/
def busyUnits (c : ClockedWorld) : Nat :=
  c.units.countP fun unit => unit.2.isSome

/-- The event of the scheduler's world that a clocked event is. -/
def worldEvent (c : ClockedWorld) : ClockEvent → Option Event
  | .send => some .send
  | .proceed => some (.proceed c.reading)
  | .signal => some (.signal c.reading)
  | .tick => none

/-- The clock advances, or the scheduler's world performs an event at the
clock's value. -/
theorem step_inv {c c' : ClockedWorld} {event : ClockEvent}
    (stepped : c.step event = .ok c') :
    (event = .tick ∧ c' = c.tick) ∨
    ∃ worldEvent world ticked owed, c.worldEvent event = some worldEvent ∧
      c.world.step worldEvent = .ok world ∧
      c' = { c with world := world, ticked := ticked, owed := owed } := by
  cases event with
  | tick =>
      cases stepped
      exact Or.inl ⟨rfl, rfl⟩
  | send =>
      obtain ⟨world, run, ends⟩ := bind_eq_ok.mp stepped
      cases ends
      exact Or.inr ⟨_, world, _, _, rfl, run, rfl⟩
  | proceed =>
      obtain ⟨world, run, ends⟩ := bind_eq_ok.mp stepped
      cases ends
      exact Or.inr ⟨_, world, _, _, rfl, run, rfl⟩
  | signal =>
      obtain ⟨world, run, ends⟩ := bind_eq_ok.mp stepped
      cases ends
      exact Or.inr ⟨_, world, _, _, rfl, run, rfl⟩

/-- A step keeps the accounts of the scheduler's world. -/
theorem balanced_step {c c' : ClockedWorld} {event : ClockEvent}
    (balanced : ∃ items, Balanced c.world items)
    (stepped : c.step event = .ok c') : ∃ items, Balanced c'.world items := by
  obtain ⟨items, balanced⟩ := balanced
  rcases step_inv stepped with ⟨_, rfl⟩ | ⟨_, world, _, _, _, run, rfl⟩
  · exact ⟨items, balanced⟩
  · obtain ⟨items', balanced', _⟩ := balanced.of_step run
    exact ⟨items', balanced'⟩

/-- Every step returns. -/
theorem step_total {c : ClockedWorld}
    (balanced : ∃ items, Balanced c.world items) (event : ClockEvent) :
    ∃ c', c.step event = .ok c' := by
  obtain ⟨items, balanced⟩ := balanced
  cases event with
  | tick => exact ⟨c.tick, rfl⟩
  | send =>
      obtain ⟨world, _, run, _⟩ := balanced.step .send
      exact ⟨_, bind_eq_ok.mpr ⟨world, run, rfl⟩⟩
  | proceed =>
      obtain ⟨world, _, run, _⟩ := balanced.step (.proceed c.reading)
      exact ⟨_, bind_eq_ok.mpr ⟨world, run, rfl⟩⟩
  | signal =>
      obtain ⟨world, _, run, _⟩ := balanced.step (.signal c.reading)
      exact ⟨_, bind_eq_ok.mpr ⟨world, run, rfl⟩⟩

end ClockedWorld

/-- The readings of the event all show this clock value. -/
def Event.reads (clk : Int) : Event → Prop
  | .send => True
  | .proceed readings | .signal readings =>
      readings = { idle := clk, now := clk, log := clk }

theorem ClockedWorld.worldEvent_reads {c : ClockedWorld} {event : ClockEvent}
    {worldEvent : Event} (same : c.worldEvent event = some worldEvent) :
    worldEvent.reads c.clk := by
  cases event with
  | send => cases same; trivial
  | proceed => cases same; rfl
  | signal => cases same; rfl
  | tick => cases same

end OsSim
