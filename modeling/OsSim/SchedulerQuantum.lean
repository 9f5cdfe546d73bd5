/-
Module: OsSim.SchedulerQuantum
Purpose: The length of a stint under RR: how many signals the current process
  has sent between its dispatch and the stop or termination that follows.
Trusted boundary: human-reviewed translation
Main exports:
  Stint, StintEnd, Metering, Metering.step, Metering.OneSignal, StintRight,
  QuantumKept, quantum_length
-/
import OsSim.SchedulerRemaining

namespace OsSim

open PointerMemory
open Trace

/-- A process from its dispatch on, with its remaining time then and the signals
it has sent since. -/
structure Stint where
  process : Addr
  granted : Int
  signals : Int
deriving Repr, DecidableEq

/-- What a stint ends in: `handle_process_termination` or
`handle_quantum_expiration`. -/
inductive StintEnd where
  | termination
  | expiration
deriving Repr, DecidableEq

/-- The world, with the stint of the current process, the stints that have ended,
and whether a signal of the current process has been handled since the last
iteration. -/
structure Metering where
  world : World
  stint : Option Stint
  ended : List (Stint × StintEnd)
  handled : Bool
deriving Repr, DecidableEq

namespace Metering

def init (quantum clk : Int) (toSend : List PCB) : Metering :=
  { world := World.init .rr quantum clk toSend
    stint := none
    ended := []
    handled := false }

/-- The stint that the scheduler has begun, if it has made a process current. -/
def begun (before after : Scheduler) : Option Stint :=
  after.currentPcb.map fun a =>
    { process := a, granted := (before.remaining a).getD 0, signals := 0 }

/-- The stint of the current process has ended, if there is no current process
any more. -/
def close (m : Metering) (stint : Stint) (how : StintEnd) : Metering :=
  if m.world.sched.currentPcb = none then
    { m with stint := none, ended := m.ended ++ [(stint, how)] }
  else
    { m with stint := some stint }

def step (m : Metering) (event : Event) : Except Fault Metering := do
  let world ← m.world.step event
  match event with
  | .send => pure { m with world := world }
  | .proceed _ =>
      -- The end of the sleep is the end of the iteration.
      let next : Metering := { m with
        world := world
        handled := if m.world.phase = .sleep then false else m.handled }
      match m.stint with
      | none => pure { next with stint := begun m.world.sched world.sched }
      -- Only `handle_quantum_expiration` leaves no process current here.
      | some stint => pure (next.close stint .expiration)
  | .signal _ =>
      match m.stint with
      | none => pure { m with world := world }
      | some stint =>
          -- A tick leaves the process current, the termination does not.
          let next : Metering := { m with world := world, handled := true }
          pure (next.close { stint with signals := stint.signals + 1 }
            .termination)

/-- Signals of the current process are handled in the sleep at the end of an
iteration only, and at most one in each. -/
def OneSignal (m : Metering) : Event → Prop
  | .signal _ => m.world.sched.currentPcb ≠ none →
      m.world.phase = .sleep ∧ m.handled = false
  | .send | .proceed _ => True

instance (m : Metering) : ∀ event, Decidable (m.OneSignal event)
  | .signal _ => inferInstanceAs (Decidable (_ → _ ∧ _))
  | .send | .proceed _ => inferInstanceAs (Decidable True)

end Metering

/-- The stint had as many signals as the quantum and the time it was granted allow:
it ended with the process if the time was no more than the quantum, and with the
quantum if it was. -/
def StintRight (quantum : Int) (stint : Stint) (how : StintEnd) : Prop :=
  stint.signals = min quantum stint.granted ∧
    (how = .termination ↔ stint.granted ≤ quantum) ∧
    (how = .expiration ↔ quantum < stint.granted)

/-- The stint is that of the current process, `last_remain_time` is what it was
granted, and every stint that has ended had the right length and the right
end. -/
structure QuantumKept (quantum : Int) (m : Metering) : Prop where
  current : m.stint.map Stint.process = m.world.sched.currentPcb
  steady : ∀ stint, m.stint = some stint →
    m.world.sched.lastRemainTime = stint.granted ∧
      stint.signals ≤ min quantum stint.granted
  exact : ∀ stint how, (stint, how) ∈ m.ended → StintRight quantum stint how

/-! ### The world under RR -/

/-- What the world keeps under RR as long as no quantum check finds too many
ticks. -/
structure UnderRr (quantum : Int) (w : World) (items : List Addr) : Prop where
  rr : w.sched.selectedAlgorithm = .rr
  quantum : w.sched.quantum = quantum
  balanced : Balanced w items
  charged : Charged w items
  inStep : InStep w.sched w.children

/-- Under RR no phase runs into a stop of the current process by itself, and the
end of the input is reached with time left in the quantum. -/
theorem World.Follows.under_rr {w : World} {next : Phase}
    (follows : w.Follows next) (rr : w.sched.selectedAlgorithm = .rr)
    {a : Addr} {pcb : PCB} (runs : w.sched.currentPcb = some a)
    (live : w.sched.pcbs.load a = some pcb) :
    next ≠ .expire ∧ next ≠ .sleep ∧ (next = .endOfInput →
      w.sched.lastRemainTime - w.sched.quantum < pcb.remainingTime) := by
  rw [World.Follows] at follows
  split at follows
  next =>
    subst follows
    split <;> simp
  next => simp [follows.2]
  next => simp [follows.2]
  next =>
    rcases follows with ⟨stays, rfl⟩ | ⟨srtn, _⟩
    · exact ⟨by simp, by simp, fun _ => stays.rr rr a pcb runs live⟩
    · rw [rr] at srtn
      cases srtn
  next =>
    rw [runs] at follows
    cases follows.1
  next => exact follows.elim
  next => simp [follows]
  next => simp [follows]

namespace UnderRr

variable {quantum : Int} {w w' : World} {items : List Addr} {event : Event}

theorem initial (quantum clk : Int) {toSend : List PCB}
    (sent : ∀ pcb ∈ toSend, Sent pcb) :
    UnderRr quantum (World.init .rr quantum clk toSend) [] := by
  obtain ⟨balanced, charged⟩ := balanced_init .rr quantum clk sent
  refine ⟨rfl, rfl, balanced, charged, ?_, ?_⟩
  · intro a inside
    cases inside
  · intro line member
    cases member

theorem step (underRr : UnderRr quantum w items) (run : w.step event = .ok w')
    (within : WithinQuantum w event) : ∃ items', UnderRr quantum w' items' := by
  obtain ⟨rr, same, balanced, charged, inStep⟩ := underRr
  obtain ⟨items', balanced', kept⟩ := balanced.of_step run
  have move := balanced.move run
  have settled : Settled w.sched items :=
    charged.settled_of_noShorterWaiting (by simp [rr])
  exact ⟨items', (balanced.algorithm_step run).trans rr,
    move.settings.1.trans same, balanced', kept (fun _ _ => settled) charged,
    move.inStep balanced inStep (fun _ => charged) within⟩

/-- The current process has time left, as much as its child. -/
theorem current (underRr : UnderRr quantum w items) {a : Addr}
    (runs : w.sched.currentPcb = some a) :
    ∃ pcb n, w.sched.pcbs.load a = some pcb ∧ w.children[a]? = some n ∧
      1 ≤ n ∧ pcb.remainingTime = n := by
  have tally := underRr.balanced.tally
  obtain ⟨pcb, live⟩ := tally.wired.running a runs
  have inside := Scheduler.lt_received live
  have alive := underRr.charged.roster.alive runs
  have counted : a < w.children.length := tally.counted ▸ inside
  have child := List.getElem?_eq_getElem counted
  have remaining := underRr.inStep.remaining a inside alive
  rw [Scheduler.remaining_of_load live, child, Option.some.injEq] at remaining
  have bound := (tally.bounds w.children[a] (List.getElem_mem counted)).1
  have nonzero : w.children[a] ≠ 0 := by
    intro zero
    exact alive ((tally.ended a _ child).mp zero)
  exact ⟨pcb, w.children[a], live, child, by omega, remaining⟩

end UnderRr

/-! ### Stints

The world says who is current but not how the process came to be.  A metering
runs beside it and keeps that history: it opens a stint when a process becomes
current, counts its signals, and closes it when the process stops being current.
The invariant of an open stint ties it to the state.  Its child has counted down
by the signals sent, and these are no more than the quantum: exactly the quantum
where the stop is about to be performed, and less wherever a signal may still
come before the next check.  A stint that ends therefore ends with the right
number of signals, whichever of the two ends it has.
-/

/-- What an open stint keeps: its process is current, the child has counted down
by the signals sent, and no check has come too late to see the quantum used up. -/
structure Stands (quantum : Int) (m : Metering) (stint : Stint) : Prop where
  runs : m.world.sched.currentPcb = some stint.process
  granted : m.world.sched.lastRemainTime = stint.granted
  left : m.world.children[stint.process]? = some (stint.granted - stint.signals)
  within : stint.signals ≤ quantum
  due : m.world.phase = .expire → stint.signals = quantum
  fresh : m.world.phase = .endOfInput ∨
    (m.world.phase = .sleep ∧ m.handled = false) → stint.signals < quantum

/-- What the runs keep. -/
structure Metered (quantum : Int) (m : Metering) (items : List Addr) : Prop where
  underRr : UnderRr quantum m.world items
  idle : m.stint = none → m.world.sched.currentPcb = none
  stands : ∀ stint, m.stint = some stint → Stands quantum m stint
  asleep : m.handled = true → m.world.phase = .sleep
  exact : ∀ stint how, (stint, how) ∈ m.ended → StintRight quantum stint how

namespace Metering

variable {m : Metering} {w' : World} {clk : Readings} {stint : Stint}

theorem step_send (run : m.world.step .send = .ok w') :
    m.step .send = .ok { m with world := w' } := by
  rw [step, run]
  rfl

/-- The metering after a phase, without what becomes of the stint. -/
def proceeded (m : Metering) (w' : World) : Metering :=
  { m with
    world := w'
    handled := if m.world.phase = .sleep then false else m.handled }

theorem step_proceed_none (run : m.world.step (.proceed clk) = .ok w')
    (none : m.stint = none) : m.step (.proceed clk) =
      .ok { m.proceeded w' with stint := begun m.world.sched w'.sched } := by
  rw [step, run]
  simp only [ok_bind, none]
  rfl

theorem step_proceed_some (run : m.world.step (.proceed clk) = .ok w')
    (opened : m.stint = some stint) : m.step (.proceed clk) =
      .ok ((m.proceeded w').close stint .expiration) := by
  rw [step, run]
  simp only [ok_bind, opened]
  rfl

theorem step_signal_none (run : m.world.step (.signal clk) = .ok w')
    (none : m.stint = none) :
    m.step (.signal clk) = .ok { m with world := w' } := by
  rw [step, run]
  simp only [ok_bind, none]
  rfl

theorem step_signal_some (run : m.world.step (.signal clk) = .ok w')
    (opened : m.stint = some stint) : m.step (.signal clk) =
      .ok (({ m with world := w', handled := true } : Metering).close
        { stint with signals := stint.signals + 1 } .termination) := by
  rw [step, run]
  simp only [ok_bind, opened]
  rfl

theorem close_running {how : StintEnd} {a : Addr}
    (runs : m.world.sched.currentPcb = some a) :
    m.close stint how = { m with stint := some stint } := by
  rw [close, if_neg (by simp [runs])]

theorem close_idle {how : StintEnd} (idle : m.world.sched.currentPcb = none) :
    m.close stint how =
      { m with stint := none, ended := m.ended ++ [(stint, how)] } := by
  rw [close, if_pos idle]

end Metering

namespace Metered

variable {quantum : Int} {m : Metering} {items items' : List Addr} {w' : World}
  {stint : Stint} {clk : Readings}

theorem initial (quantum clk : Int) {toSend : List PCB}
    (sent : ∀ pcb ∈ toSend, Sent pcb) :
    Metered quantum (Metering.init quantum clk toSend) [] := by
  refine ⟨UnderRr.initial quantum clk sent, fun _ => rfl, ?_, ?_, ?_⟩
  · intro stint impossible
    cases impossible
  · intro impossible
    cases impossible
  · intro stint how member
    cases member

/-- The control block of the current process shows what the stint has left. -/
theorem current (metered : Metered quantum m items)
    (opened : m.stint = some stint) :
    ∃ pcb, m.world.sched.pcbs.load stint.process = some pcb ∧
      pcb.remainingTime = stint.granted - stint.signals ∧
      1 ≤ stint.granted - stint.signals := by
  have stands := metered.stands stint opened
  obtain ⟨pcb, n, live, child, positive, same⟩ :=
    metered.underRr.current stands.runs
  rw [stands.left, Option.some.injEq] at child
  exact ⟨pcb, live, same.trans child.symm, child ▸ positive⟩

/-- The stint is that of the current process. -/
theorem process_eq (metered : Metered quantum m items)
    (opened : m.stint = some stint) {a : Addr}
    (runs : m.world.sched.currentPcb = some a) : stint.process = a := by
  have same := (metered.stands stint opened).runs
  rw [runs, Option.some.injEq] at same
  exact same.symm

theorem kept (metered : Metered quantum m items) : QuantumKept quantum m := by
  refine ⟨?_, ?_, metered.exact⟩
  · cases opened : m.stint with
    | none => exact (metered.idle opened).symm
    | some stint => exact (metered.stands stint opened).runs.symm
  · intro stint opened
    have stands := metered.stands stint opened
    obtain ⟨_, _, _, positive⟩ := metered.current opened
    have within := stands.within
    exact ⟨stands.granted, le_min within (by omega)⟩

/-- No check finds more than a quantum of signals. -/
theorem withinQuantum (metered : Metered quantum m items) (event : Event) :
    WithinQuantum m.world event := by
  cases event with
  | send => trivial
  | signal clk => trivial
  | proceed clk =>
      intro _ _ n rest
      cases opened : m.stint with
      | none =>
          rw [Scheduler.currentRemaining, metered.idle opened] at rest
          cases rest
      | some stint =>
          have stands := metered.stands stint opened
          obtain ⟨pcb, live, left, _⟩ := metered.current opened
          rw [Scheduler.currentRemaining_eq stands.runs live,
            Option.mem_some_iff] at rest
          rw [stands.granted, metered.underRr.quantum]
          have within := stands.within
          omega

/-- A signal is handled in the sleep, so none has been when a phase is over. -/
theorem asleep_proceeded (metered : Metered quantum m items) (w' : World)
    (handled : (m.proceeded w').handled = true) : w'.phase = .sleep := by
  have later : (if m.world.phase = .sleep then false else m.handled) = true :=
    handled
  split at later
  next => cases later
  next awake => exact absurd (metered.asleep later) awake

/-- A phase that leaves the current process and its child alone leaves the stint
open. -/
theorem stay (metered : Metered quantum m items)
    (underRr : UnderRr quantum w' items') (opened : m.stint = some stint)
    (run : m.world.step (.proceed clk) = .ok w')
    (runs : w'.sched.currentPcb = m.world.sched.currentPcb)
    (granted : w'.sched.lastRemainTime = m.world.sched.lastRemainTime)
    (left : w'.children[stint.process]? = m.world.children[stint.process]?)
    (due : w'.phase = .expire → stint.signals = quantum)
    (fresh : w'.phase = .endOfInput ∨ w'.phase = .sleep →
      stint.signals < quantum) :
    ∃ m', m.step (.proceed clk) = .ok m' ∧ Metered quantum m' items' := by
  have stands := metered.stands stint opened
  have runs' := runs.trans stands.runs
  refine ⟨_, Metering.step_proceed_some run opened, ?_⟩
  rw [Metering.close_running (m := m.proceeded w') runs']
  constructor
  case underRr => exact underRr
  case idle =>
    intro impossible
    cases impossible
  case stands =>
    intro other same
    cases same
    exact ⟨runs', granted.trans stands.granted, left.trans stands.left,
      stands.within, due, fun phase => fresh (phase.imp_right And.left)⟩
  case asleep => exact metered.asleep_proceeded w'
  case exact => exact metered.exact

/-- A phase that finds no process current and dispatches none. -/
theorem wait (metered : Metered quantum m items)
    (underRr : UnderRr quantum w' items') (none : m.stint = none)
    (run : m.world.step (.proceed clk) = .ok w')
    (idle : w'.sched.currentPcb = m.world.sched.currentPcb) :
    ∃ m', m.step (.proceed clk) = .ok m' ∧ Metered quantum m' items' := by
  have idle' := idle.trans (metered.idle none)
  have stint : Metering.begun m.world.sched w'.sched = .none := by
    rw [Metering.begun, idle', Option.map_none]
  refine ⟨_, Metering.step_proceed_none run none, ?_⟩
  rw [stint]
  constructor
  case underRr => exact underRr
  case idle => exact fun _ => idle'
  case stands =>
    intro other impossible
    cases impossible
  case asleep => exact metered.asleep_proceeded w'
  case exact => exact metered.exact

/-- What a dispatch begins. -/
theorem begin (metered : Metered quantum m items) (positive : 1 ≤ quantum)
    (underRr : UnderRr quantum w' items') (none : m.stint = none)
    (run : m.world.step (.proceed clk) = .ok w')
    {first : Addr} {pcb pcb' : PCB} (phase : w'.phase = .running)
    (runs : w'.sched.currentPcb = some first)
    (live : m.world.sched.pcbs.load first = some pcb)
    (live' : w'.sched.pcbs.load first = some pcb')
    (same : pcb'.remainingTime = pcb.remainingTime)
    (granted : w'.sched.lastRemainTime = pcb.remainingTime) :
    ∃ m', m.step (.proceed clk) = .ok m' ∧ Metered quantum m' items' := by
  have stint : Metering.begun m.world.sched w'.sched = some
      { process := first, granted := pcb.remainingTime, signals := 0 } := by
    rw [Metering.begun, runs, Option.map_some,
      Scheduler.remaining_of_load live, Option.getD_some]
  obtain ⟨found, n, load, child, _, rest⟩ := underRr.current runs
  rw [live', Option.some.injEq] at load
  subst load
  refine ⟨_, Metering.step_proceed_none run none, ?_⟩
  rw [stint]
  constructor
  case underRr => exact underRr
  case idle =>
    intro impossible
    cases impossible
  case stands =>
    intro other opened
    cases opened
    refine ⟨runs, granted, ?_, ?_, ?_, ?_⟩
    · show w'.children[first]? = some (pcb.remainingTime - 0)
      rw [child, ← rest, same, Int.sub_zero]
    · show (0 : Int) ≤ quantum
      omega
    · intro expire
      rw [show w'.phase = .expire from expire] at phase
      cases phase
    · intro _
      show (0 : Int) < quantum
      omega
  case asleep => exact metered.asleep_proceeded w'
  case exact => exact metered.exact

/-- The end of a stint that used up what it was allowed. -/
theorem finish (metered : Metered quantum m items)
    (underRr : UnderRr quantum w' items') (idle : w'.sched.currentPcb = none)
    {how : StintEnd} {handled : Bool}
    (asleep : handled = true → w'.phase = .sleep)
    (exact : StintRight quantum stint how) :
    Metered quantum (({ m with world := w', handled := handled } :
      Metering).close stint how) items' := by
  rw [Metering.close_idle idle]
  constructor
  case underRr => exact underRr
  case idle => exact fun _ => idle
  case stands =>
    intro other impossible
    cases impossible
  case asleep => exact asleep
  case exact =>
    intro other how' member
    rcases List.mem_append.mp member with old | new
    · exact metered.exact other how' old
    · cases List.mem_singleton.mp new
      exact exact

theorem send (metered : Metered quantum m items)
    (underRr : UnderRr quantum w' items') (run : m.world.step .send = .ok w') :
    ∃ m', m.step .send = .ok m' ∧ Metered quantum m' items' := by
  refine ⟨_, Metering.step_send run, ?_⟩
  obtain rfl : m.world.send = w' := Except.ok.inj run
  obtain ⟨sched, children, phase⟩ := m.world.send_sched
  constructor
  case underRr => exact underRr
  case idle =>
    intro none
    show m.world.send.sched.currentPcb = .none
    rw [sched]
    exact metered.idle none
  case stands =>
    intro stint opened
    have stands := metered.stands stint opened
    refine ⟨?_, ?_, ?_, stands.within, ?_, ?_⟩
    · exact (congrArg Scheduler.currentPcb sched).trans stands.runs
    · exact (congrArg Scheduler.lastRemainTime sched).trans stands.granted
    · exact (congrArg (·[stint.process]?) children).trans stands.left
    · exact fun expire => stands.due (phase.symm.trans expire)
    · exact fun rested => stands.fresh (rested.imp phase.symm.trans
        fun both => ⟨phase.symm.trans both.1, both.2⟩)
  case asleep => exact fun handled => phase.trans (metered.asleep handled)
  case exact => exact metered.exact

/-- A phase, while a process is current. -/
theorem proceed_open (metered : Metered quantum m items)
    (underRr : UnderRr quantum w' items') (opened : m.stint = some stint)
    (run : m.world.step (.proceed clk) = .ok w') :
    ∃ m', m.step (.proceed clk) = .ok m' ∧ Metered quantum m' items' := by
  have stands := metered.stands stint opened
  obtain ⟨own, live, rest, positive⟩ := metered.current opened
  have rr := metered.underRr.rr
  have quantum_eq := metered.underRr.quantum
  have within := stands.within
  have granted := stands.granted
  cases metered.underRr.balanced.move run with
  | turned follows =>
      obtain ⟨notExpire, notSleep, unused⟩ :=
        follows.under_rr rr stands.runs live
      refine metered.stay underRr opened run rfl rfl rfl
        (fun expire => absurd expire notExpire) ?_
      rintro (last | sleep)
      · have more := unused last
        omega
      · exact absurd sleep notSleep
  | rejected phase messages invalid =>
      refine metered.stay underRr opened run rfl rfl rfl ?_ ?_
      all_goals simp
  | received phase messages valid entered =>
      refine metered.stay underRr opened run rfl rfl ?_ ?_ ?_
      · obtain ⟨counted, _⟩ := List.getElem?_eq_some_iff.mp stands.left
        exact List.getElem?_append_left counted
      all_goals simp [phase]
  | dispatched phase idle live took =>
      rw [stands.runs] at idle
      cases idle
  | redispatched phase hpf idle live took =>
      rw [stands.runs] at idle
      cases idle
  | @clipped _ a pcb phase rr runs live' used =>
      refine metered.stay underRr opened run rfl rfl rfl ?_ (by simp)
      intro _
      rw [← metered.process_eq opened runs, live, Option.some.injEq] at live'
      subst live'
      omega
  | expired phase runs live' rotated kept =>
      have used := stands.due phase
      refine ⟨_, Metering.step_proceed_some run opened, ?_⟩
      refine metered.finish underRr rfl (metered.asleep_proceeded _) ?_
      exact ⟨by omega, iff_of_false (by simp) (by omega),
        iff_of_true rfl (by omega)⟩
  | checked phase =>
      exact metered.stay underRr opened run (by simp) (by simp) rfl (by simp)
        fun _ => stands.fresh (Or.inl phase)

/-- A phase, while no process is current. -/
theorem proceed_idle (metered : Metered quantum m items) (positive : 1 ≤ quantum)
    (underRr : UnderRr quantum w' items') (none : m.stint = none)
    (run : m.world.step (.proceed clk) = .ok w') :
    ∃ m', m.step (.proceed clk) = .ok m' ∧ Metered quantum m' items' := by
  have idle := metered.idle none
  cases metered.underRr.balanced.move run with
  | turned follows => exact metered.wait underRr none run rfl
  | rejected phase messages invalid => exact metered.wait underRr none run rfl
  | received phase messages valid entered =>
      exact metered.wait underRr none run rfl
  | @dispatched clk first pcb queue phase idle live took =>
      obtain ⟨_, _, same, _⟩ := Scheduler.dispatchedPcb_kept pcb clk.now
      refine metered.begin positive underRr none run rfl rfl live ?_ same rfl
      rw [Scheduler.afterDispatch_pcbs, Scheduler.accountIdle_pcbs]
      exact Mem.load_put_self live _
  | redispatched phase hpf idle live took =>
      rw [metered.underRr.rr] at hpf
      cases hpf
  | clipped phase rr runs live used =>
      rw [idle] at runs
      cases runs
  | expired phase runs live rotated kept =>
      rw [idle] at runs
      cases runs
  | checked phase =>
      exact metered.wait underRr none run (by simp)

/-- A signal that leaves its process current. -/
theorem tick (metered : Metered quantum m items)
    (underRr : UnderRr quantum w' items') (phase : w'.phase = .sleep)
    (fresh : stint.signals < quantum)
    (runs : w'.sched.currentPcb = some stint.process)
    (granted : w'.sched.lastRemainTime = stint.granted)
    (left : w'.children[stint.process]? =
      some (stint.granted - (stint.signals + 1))) :
    Metered quantum (({ m with world := w', handled := true } :
      Metering).close { stint with signals := stint.signals + 1 }
        .termination) items' := by
  rw [Metering.close_running (m := { m with world := w', handled := true }) runs]
  constructor
  case underRr => exact underRr
  case idle =>
    intro impossible
    cases impossible
  case stands =>
    intro other same
    cases same
    refine ⟨runs, granted, left, ?_, ?_, ?_⟩
    · show stint.signals + 1 ≤ quantum
      omega
    · intro expire
      rw [show w'.phase = .expire from expire] at phase
      cases phase
    · rintro (last | ⟨_, impossible⟩)
      · rw [show w'.phase = .endOfInput from last] at phase
        cases phase
      · cases impossible
  case asleep => exact fun _ => phase
  case exact => exact metered.exact

/-- A signal of the current process. -/
theorem signal_open (metered : Metered quantum m items)
    (underRr : UnderRr quantum w' items') (opened : m.stint = some stint)
    (phase : m.world.phase = .sleep) (first : m.handled = false)
    (run : m.world.step (.signal clk) = .ok w') :
    ∃ m', m.step (.signal clk) = .ok m' ∧ Metered quantum m' items' := by
  have stands := metered.stands stint opened
  have fresh := stands.fresh (Or.inr ⟨phase, first⟩)
  obtain ⟨_, _, _, positive⟩ := metered.current opened
  refine ⟨_, Metering.step_signal_some run opened, ?_⟩
  cases metered.underRr.balanced.move run with
  | silent none =>
      have ended := none _ _ stands.runs stands.left
      omega
  | @ticked clk a pcb n queue runs live child more kept rekeyed =>
      have process := metered.process_eq opened runs
      obtain ⟨counted, _⟩ := List.getElem?_eq_some_iff.mp child
      rw [← process, stands.left, Option.some.injEq] at child
      refine metered.tick underRr phase fresh
        (runs.trans (congrArg some process.symm)) stands.granted ?_
      show (m.world.children.set a (n - 1))[stint.process]? = _
      rw [process, List.getElem?_set_self counted, ← child, sub_sub]
  | finished runs live child kept removed =>
      rw [← metered.process_eq opened runs, stands.left,
        Option.some.injEq] at child
      refine metered.finish underRr rfl (fun _ => phase) ?_
      show stint.signals + 1 = min quantum stint.granted ∧ _ ∧ _
      exact ⟨by omega, iff_of_true rfl (by show stint.granted ≤ quantum; omega),
        iff_of_false (by simp) (by show ¬ quantum < stint.granted; omega)⟩

/-- A signal when no process is current. -/
theorem signal_idle (metered : Metered quantum m items)
    (underRr : UnderRr quantum w' items') (none : m.stint = none)
    (run : m.world.step (.signal clk) = .ok w') :
    ∃ m', m.step (.signal clk) = .ok m' ∧ Metered quantum m' items' := by
  have idle := metered.idle none
  refine ⟨_, Metering.step_signal_none run none, ?_⟩
  obtain rfl : m.world = w' := by
    have nothing : m.world.signal clk = .ok m.world := by
      rw [World.signal, idle]
    exact Except.ok.inj (nothing.symm.trans run)
  exact ⟨underRr, fun _ => idle, metered.stands, metered.asleep, metered.exact⟩

/-- One event. -/
theorem step (metered : Metered quantum m items) (positive : 1 ≤ quantum)
    (event : Event) (oneSignal : m.OneSignal event) :
    ∃ m' items', m.step event = .ok m' ∧ Metered quantum m' items' := by
  obtain ⟨w', _, run, _⟩ := metered.underRr.balanced.step event
  obtain ⟨items', underRr⟩ :=
    metered.underRr.step run (metered.withinQuantum event)
  have stepped : ∃ m', m.step event = .ok m' ∧ Metered quantum m' items' := by
    cases event with
    | send => exact metered.send underRr run
    | proceed clk =>
        cases opened : m.stint with
        | none => exact metered.proceed_idle positive underRr opened run
        | some stint => exact metered.proceed_open underRr opened run
    | signal clk =>
        cases opened : m.stint with
        | none => exact metered.signal_idle underRr opened run
        | some stint =>
            have runs := (metered.stands stint opened).runs
            obtain ⟨phase, first⟩ := oneSignal (by simp [runs])
            exact metered.signal_open underRr opened phase first run
  obtain ⟨m', run', kept⟩ := stepped
  exact ⟨m', items', run', kept⟩

end Metered

/-- Under RR with a quantum of one or more, and at most one signal of the current
process in each sleep, every run succeeds; `last_remain_time` is what the current
process had left at its dispatch, every stint has as many signals as the quantum
and the time left allow, and it ends in a termination exactly if the time left
was within the quantum. -/
theorem quantum_length (quantum clk : Int) (positive : 1 ≤ quantum)
    (toSend : List PCB) (sent : ∀ pcb ∈ toSend, Sent pcb) (events : List Event)
    (oneSignal : Along Metering.step Metering.OneSignal
      (Metering.init quantum clk toSend) events) :
    (∃ last, runs Metering.step (Metering.init quantum clk toSend) events =
      .ok last) ∧
    Throughout Metering.step (QuantumKept quantum)
      (Metering.init quantum clk toSend) events := by
  have total : ∀ m event, (∃ items, Metered quantum m items) →
      m.OneSignal event →
      ∃ m', m.step event = .ok m' ∧ ∃ items, Metered quantum m' items := by
    rintro m event ⟨items, metered⟩ allowed
    obtain ⟨m', items', run, metered'⟩ := metered.step positive event allowed
    exact ⟨m', run, items', metered'⟩
  have start : ∃ items, Metered quantum (Metering.init quantum clk toSend)
      items := ⟨[], Metered.initial quantum clk sent⟩
  constructor
  · obtain ⟨last, run, _⟩ := total_of_runs total start oneSignal
    exact ⟨last, run⟩
  · refine throughout_of_invariant
      (P := fun m => ∃ items, Metered quantum m items) ?_ ?_ start oneSignal
    · intro m event m' metered allowed run
      obtain ⟨found, run', metered'⟩ := total m event metered allowed
      rw [run, Except.ok.injEq] at run'
      exact run' ▸ metered'
    · rintro m ⟨items, metered⟩
      exact metered.kept

/-- The process is received and dispatched, and the quantum runs out after its
first signal; it is dispatched again and its second signal ends it. -/
private def twoStints : List Event :=
  [.send] ++ List.replicate 6 (.proceed ⟨0, 0, 0⟩) ++ [.signal ⟨1, 1, 1⟩] ++
    List.replicate 13 (.proceed ⟨1, 1, 1⟩) ++ [.signal ⟨2, 2, 2⟩]

/-- A process with two units, under a quantum of one: it is stopped after the
first and ends with the second. -/
theorem quantum_length_sample :
    Throughout Metering.step (QuantumKept 1) (Metering.init 1 0 [sampleJob 1 2 0])
      twoStints ∧
    (runs Metering.step (Metering.init 1 0 [sampleJob 1 2 0]) twoStints).map
      Metering.ended = .ok [
        ({ process := 0, granted := 2, signals := 1 }, .expiration),
        ({ process := 0, granted := 1, signals := 1 }, .termination)] := by
  have oneSignal : Along Metering.step Metering.OneSignal
      (Metering.init 1 0 [sampleJob 1 2 0]) twoStints := by decide +kernel
  exact ⟨(quantum_length 1 0 (by decide) [sampleJob 1 2 0] (by decide) twoStints
    oneSignal).2, by decide +kernel⟩

end OsSim
