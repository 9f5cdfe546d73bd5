/-
Module: OsSim.SchedulerProgress
Purpose: How often the body of `scheduler_loop` can be performed.  Apart from the
  bodies in which a process runs without using up a unit, and those in which
  there is nothing to run before the end of input, every body makes progress.
Trusted boundary: human-reviewed translation
Main exports:
  World.units, World.unread, World.potential, Pace, Pace.step, Pace.Stalled,
  Pace.Idles, Bounded, scheduler_loop_bounded
-/
import OsSim.SchedulerMoves

namespace OsSim

open PointerMemory
open Trace

namespace World

/-- The units of runtime that the children, and the processes that have not been
received, have left. -/
def units (w : World) : Nat :=
  (w.children.map Int.toNat).sum +
    ((w.pcbMessages ++ w.toSend).map fun pcb => pcb.pdata.runtime.toNat).sum

/-- The messages that have not been received, the end of input among them. -/
def unread (w : World) : Nat :=
  (w.pcbMessages ++ w.toSend).length + w.endMessages.length +
    if w.endSent then 0 else 1

/-- What is left to be done: two bodies for each unit, one for each message, and
one for a process that can be preempted. -/
def potential (w : World) : Nat :=
  2 * w.units + w.unread + if w.sched.currentPcb = none then 0 else 1

end World

/-- A run of the scheduler's world, with the state in which the present loop body
began, the number of bodies that have been completed, and how many of these have
been stalled or idle. -/
structure Pace where
  world : World
  begun : World
  bodies : Nat
  stalled : Nat
  idle : Nat
deriving Repr, DecidableEq

namespace Pace

/-- Before the first loop test. -/
def init (algorithm : SchedulingAlgorithm) (quantum clk : Int)
    (toSend : List PCB) : Pace :=
  { world := World.init algorithm quantum clk toSend
    begun := World.init algorithm quantum clk toSend
    bodies := 0
    stalled := 0
    idle := 0 }

/-- A process is current, and no child has used up a unit since the body began. -/
def Stalled (p : Pace) : Prop :=
  p.world.sched.currentPcb ≠ none ∧ p.world.units = p.begun.units

/-- There is nothing to run, and the end of input has not been read. -/
def Idles (p : Pace) : Prop :=
  p.world.sched.currentPcb = none ∧ p.world.sched.readyQueue.isEmpty = true ∧
    p.world.sched.noMoreProcesses = false

instance (p : Pace) : Decidable p.Stalled :=
  inferInstanceAs (Decidable (_ ∧ _))

instance (p : Pace) : Decidable p.Idles :=
  inferInstanceAs (Decidable (_ ∧ _ ∧ _))

/-- The sleep is over, and with it the body. -/
def complete (p : Pace) (world : World) : Pace :=
  { p with
    world := world
    bodies := p.bodies + 1
    stalled := if p.Stalled then p.stalled + 1 else p.stalled
    idle := if p.Idles then p.idle + 1 else p.idle }

/-- One event.  A body begins with the loop test and ends with the sleep. -/
def step (p : Pace) (event : Event) : Except Fault Pace := do
  let world ← p.world.step event
  match event with
  | .proceed _ =>
      if p.world.phase = .loopTest then
        pure { p with world := world, begun := world }
      else if p.world.phase = .sleep then
        pure (p.complete world)
      else
        pure { p with world := world }
  | _ => pure { p with world := world }

end Pace

/-! ### A body that has consumed nothing

A body that receives no message and uses up no unit need not be idle: it may
dispatch a process, or stop one.  What has to be excluded is that it stops a
process it has just dispatched, for then bodies could follow each other for
ever.  `Phase.Unmoved` says, phase by phase, where a body stands that began
without a current process and has consumed nothing.  A process it has dispatched
still has all the time it was granted and, under SRTN, is still in front, so
that neither reason for a preemption is there.
-/

namespace Scheduler

/-- Nothing runs, nothing waits, and the end of input has not been read. -/
def Waits (s : Scheduler) : Prop :=
  s.currentPcb = none ∧ s.readyQueue.isEmpty = true ∧ s.noMoreProcesses = false

/-- A process has just been dispatched: it has all the time it was given, and
under SRTN it is in front of the ready queue. -/
def Dispatched (s : Scheduler) : Prop :=
  ∃ a pcb, s.currentPcb = some a ∧ s.pcbs.load a = some pcb ∧
    pcb.remainingTime = s.lastRemainTime ∧
    (s.selectedAlgorithm = .srtn → s.readyQueue.front = .ok (some a))

end Scheduler

/-- Where a body stands that began without a current process, and in which no
message has been received and no unit used up. -/
def Phase.Unmoved (phase : Phase) (s : Scheduler) : Prop :=
  match phase with
  | .receive | .dispatch => s.currentPcb = none ∧
      (s.noMoreProcesses = false ∨ s.readyQueue.isEmpty = false)
  | .running => s.Waits ∨ s.Dispatched
  | .expire => False
  | .endOfInput | .sleep => s.Waits ∨ s.currentPcb ≠ none
  | .loopTest | .exited => True

namespace World

variable {w w' : World} {items : List Addr}

/-- Sending a message uses nothing up. -/
theorem send_counts (w : World) :
    w.send.units = w.units ∧ w.send.unread = w.unread := by
  have children := w.send_sched.2.1
  have messages := w.send_messages
  refine ⟨by rw [units, units, children, messages], ?_⟩
  rw [unread, unread, messages, send]
  split
  next => rfl
  next =>
    split
    next => rfl
    next =>
      have grown : (w.endMessages ++ ["no_more_processes"]).length =
          w.endMessages.length + 1 := by simp
      show (w.pcbMessages ++ w.toSend).length +
        (w.endMessages ++ ["no_more_processes"]).length + 0 = _
      rw [grown]
      omega

/-- A child that counts down has one unit less. -/
theorem units_countDown {a : Addr} {n : Int}
    (child : w.children[a]? = some n) (positive : 1 ≤ n) (sched : Scheduler) :
    units { w with sched := sched, children := w.children.set a (n - 1) } + 1 =
      w.units := by
  obtain ⟨inside, here⟩ := List.getElem?_eq_some_iff.mp child
  have split : w.children = w.children.take a ++ n :: w.children.drop (a + 1) := by
    rw [← here, List.getElem_cons_drop, List.take_append_drop]
  have counted : (w.children.set a (n - 1)).map Int.toNat =
      (w.children.take a).map Int.toNat ++
        (n - 1).toNat :: (w.children.drop (a + 1)).map Int.toNat := by
    rw [List.set_eq_take_append_cons_drop, if_pos inside, List.map_append,
      List.map_cons]
  have before : (w.children.map Int.toNat).sum =
      ((w.children.take a).map Int.toNat).sum +
        (n.toNat + ((w.children.drop (a + 1)).map Int.toNat).sum) := by
    conv_lhs => rw [split]
    rw [List.map_append, List.map_cons, List.sum_append, List.sum_cons]
  rw [units, units]
  dsimp only
  rw [counted, before, List.sum_append, List.sum_cons]
  omega

end World

/-! ### What an event consumes -/

/-- An event consumes no less than nothing; and if it consumes nothing, a body
that has not moved stays so. -/
structure Consumes (w w' : World) : Prop where
  units : w'.units ≤ w.units
  unread : w'.unread ≤ w.unread
  unmoved : w'.units = w.units → w'.unread = w.unread → w.phase ≠ .loopTest →
    (w.sched.selectedAlgorithm = .rr → 1 ≤ w.sched.quantum) →
    w.phase.Unmoved w.sched → w'.phase.Unmoved w'.sched

namespace Consumes

variable {w w' : World} {event : Event}

/-- The phase changes, and nothing else. -/
theorem turned {phase : Phase} (follows : w.Follows phase) :
    Consumes w { w with phase := phase } := by
  refine ⟨le_refl _, le_refl _, fun _ _ inside _ unmoved => ?_⟩
  show phase.Unmoved w.sched
  rw [World.Follows] at follows
  rw [Phase.Unmoved.eq_def] at unmoved
  cases here : w.phase with
  | loopTest => exact absurd here inside
  | receive =>
      simp only [here] at follows unmoved
      rw [follows.2]
      exact unmoved
  | dispatch =>
      simp only [here] at follows unmoved
      have empty := follows.1.resolve_left fun runs => runs unmoved.1
      have reading := unmoved.2.resolve_right (by simp [empty])
      rw [follows.2]
      exact Or.inl ⟨unmoved.1, empty, reading⟩
  | running =>
      simp only [here] at follows unmoved
      rcases follows with ⟨_, rfl⟩ | ⟨srtn, rfl, a, b, runs, front, apart⟩
      · refine unmoved.imp_right ?_
        rintro ⟨a, _, runs, _⟩
        rw [runs]
        exact Option.some_ne_none a
      · rcases unmoved with waits | ⟨c, _, runs', _, _, first⟩
        · rw [waits.1] at runs
          cases runs
        · rw [front, Except.ok.injEq, Option.some.injEq] at first
          rw [runs, Option.some.injEq] at runs'
          exact absurd ((first srtn).trans runs'.symm) apart
  | expire => simp only [here] at unmoved
  | endOfInput => simp only [here] at follows
  | sleep =>
      simp only [here] at follows
      rw [follows]
      trivial
  | exited =>
      simp only [here] at follows
      rw [follows]
      trivial

/-- A process is dispatched. -/
theorem dispatched {sched : Scheduler} {phase : Phase}
    (starts : phase = .running → sched.Dispatched)
    (runs : phase ≠ .running → phase = .endOfInput ∧ sched.currentPcb ≠ none) :
    Consumes w { w with sched := sched, phase := phase } := by
  refine ⟨le_refl _, le_refl _, fun _ _ _ _ _ => ?_⟩
  show phase.Unmoved sched
  by_cases here : phase = .running
  · rw [here]
    exact Or.inr (starts here)
  · obtain ⟨ends, current⟩ := runs here
    rw [ends]
    exact Or.inr current

/-- What is in a message is in it no longer. -/
theorem read {pcb : PCB} {rest : List PCB} (messages : w.pcbMessages = pcb :: rest)
    {sched : Scheduler} {children : List Int} {phase : Phase}
    (units : (children.map Int.toNat).sum ≤
      (w.children.map Int.toNat).sum + pcb.pdata.runtime.toNat) :
    Consumes w { w with
      sched := sched, pcbMessages := rest, children := children
      phase := phase } := by
  have fewer : (rest ++ w.toSend).length + 1 = (w.pcbMessages ++ w.toSend).length := by
    rw [messages, List.cons_append, List.length_cons]
  refine ⟨?_, ?_, fun _ same => ?_⟩
  · rw [World.units, World.units, messages, List.cons_append, List.map_cons,
      List.sum_cons]
    dsimp only
    omega
  · rw [World.unread, World.unread]
    dsimp only
    omega
  · rw [World.unread, World.unread] at same
    dsimp only at same
    omega

/-- A child uses a unit up. -/
theorem used {a : Addr} {n : Int} (child : w.children[a]? = some n)
    (positive : 1 ≤ n) (sched : Scheduler) :
    Consumes w { w with sched := sched, children := w.children.set a (n - 1) } := by
  have fewer := World.units_countDown child positive sched
  refine ⟨by omega, le_refl _, fun same => ?_⟩
  omega

/-- The end of input is read, if it is there. -/
theorem checked (phase : w.phase = .endOfInput) :
    Consumes w { w with
      sched := checkNoMoreProcesses w.sched w.endMessages.head?
      endMessages := w.endMessages.tail
      phase := .sleep } := by
  cases messages : w.endMessages with
  | nil =>
      refine ⟨le_refl _, ?_, fun _ _ _ _ unmoved => ?_⟩
      · rw [World.unread, World.unread, messages]
        exact le_refl _
      · rw [phase] at unmoved
        exact unmoved
  | cons msg rest =>
      refine ⟨le_refl _, ?_, fun _ same => ?_⟩
      · rw [World.unread, World.unread, messages, List.tail_cons,
          List.length_cons]
        dsimp only
        omega
      · rw [World.unread, World.unread, messages, List.tail_cons,
          List.length_cons] at same
        dsimp only at same
        omega

/-- A process that has just been dispatched is not stopped. -/
theorem of_dispatched {a : Addr} (phase : w.phase = .running)
    (runs : w.sched.currentPcb = some a)
    (stopped : ∀ pcb, w.sched.pcbs.load a = some pcb →
      (w.sched.selectedAlgorithm = .rr → 1 ≤ w.sched.quantum) →
      pcb.remainingTime ≠ w.sched.lastRemainTime)
    (sched : Scheduler) (next : Phase) :
    Consumes w { w with sched := sched, phase := next } := by
  refine ⟨le_refl _, le_refl _, fun _ _ _ quantum unmoved => ?_⟩
  rw [phase] at unmoved
  rcases unmoved with waits | ⟨b, pcb, runs', live, fresh, _⟩
  · rw [waits.1] at runs
    cases runs
  · rw [runs, Option.some.injEq] at runs'
    exact absurd fresh (stopped pcb (runs' ▸ live) quantum)

/-- Every event consumes what one of the cases says. -/
theorem of_move (move : Move w event w') : Consumes w w' := by
  cases move with
  | sent =>
      obtain ⟨units, unread⟩ := w.send_counts
      obtain ⟨sched, _, phase⟩ := w.send_sched
      refine ⟨le_of_eq units, le_of_eq unread, fun _ _ _ _ unmoved => ?_⟩
      rw [sched, phase]
      exact unmoved
  | turned follows => exact turned follows
  | rejected phase messages invalid =>
      exact read messages (Nat.le_add_right _ _)
  | received phase messages valid entered =>
      apply read messages
      rw [List.map_append, List.sum_append, List.map_singleton,
        List.sum_singleton]
  | @dispatched clk first pcb queue phase idle live took =>
      refine dispatched (fun _ => ?_) fun other => absurd rfl other
      refine ⟨first, Scheduler.dispatchedPcb pcb clk.now, rfl, ?_,
        (Scheduler.dispatchedPcb_kept pcb _).2.2.1, fun srtn => ?_⟩
      · rw [Scheduler.afterDispatch_pcbs, Scheduler.accountIdle_pcbs]
        exact Mem.load_put_self live _
      have algorithm : w.sched.selectedAlgorithm = .srtn := by simpa using srtn
      have same : queue = w.sched.readyQueue := took.2.2 (by simp [algorithm])
      show queue.front = _
      rw [same]
      exact took.1
  | @redispatched clk first pcb queue phase hpf idle live took =>
      exact dispatched (fun other => by cases other)
        fun _ => ⟨rfl, Option.some_ne_none first⟩
  | @clipped clk a pcb phase rr runs live used =>
      refine of_dispatched phase runs (fun pcb' live' quantum fresh => ?_) _ _
      rw [live, Option.some.injEq] at live'
      subst live'
      have least := quantum rr
      omega
  | @expired clk a pcb queue phase runs live rotated kept =>
      refine ⟨le_refl _, le_refl _, fun _ _ _ _ unmoved => ?_⟩
      rw [phase] at unmoved
      exact unmoved.elim
  | checked phase => exact checked phase
  | silent none =>
      exact ⟨le_refl _, le_refl _, fun _ _ _ _ unmoved => unmoved⟩
  | @ticked clk a pcb n queue runs live child more kept rekeyed =>
      exact used child (by omega) _
  | @finished clk a pcb queue runs live child kept removed =>
      exact used child (le_refl 1) _

end Consumes

/-- A quantum that is positive under RR stays so. -/
theorem Move.positive {w w' : World} {event : Event} (move : Move w event w')
    (positive : w.sched.selectedAlgorithm = .rr → 1 ≤ w.sched.quantum) :
    w'.sched.selectedAlgorithm = .rr → 1 ≤ w'.sched.quantum := by
  rw [move.settings.1, move.settings.2]
  exact positive

/-! ### Loop bodies

The potential pays for the bodies.  A unit used up lowers it by two and a message
by one.  The one that is left, for a current process, pays for the body that
preempts a process and consumes nothing else: the next dispatch raises the
potential by one again, but the body that ends with the process current either
has used a unit up, which pays for both, or is counted as stalled.  A body that
consumes nothing, with no current process at its beginning or its end, can only
be one with nothing to run before the end of input, which is counted as idle.  So
each body lowers the potential by one, or is counted.  `WithinBody` carries what
is known of the body so far from one phase to the next, and `Bounded` adds the
bodies up.
-/

/-- The body has consumed no more than it was given; and if it began without a
current process and has consumed nothing, it has not moved. -/
structure WithinBody (p : Pace) : Prop where
  units : p.world.units ≤ p.begun.units
  unread : p.world.unread ≤ p.begun.unread
  unmoved : p.world.units = p.begun.units → p.world.unread = p.begun.unread →
    p.begun.sched.currentPcb = none → p.world.phase.Unmoved p.world.sched

/-- The bodies so far are paid for by what has been consumed since the start,
and by those that were stalled or idle; between two bodies by what is left now,
and within a body by what was left at its beginning. -/
structure Bounded (bound : Nat) (p : Pace) : Prop where
  balanced : ∃ items, Balanced p.world items
  quantum : p.world.sched.selectedAlgorithm = .rr → 1 ≤ p.world.sched.quantum
  between : p.world.phase = .loopTest ∨ p.world.phase = .exited →
    p.bodies + p.world.potential ≤ bound + 2 * p.stalled + p.idle
  within : p.world.phase ≠ .loopTest → p.world.phase ≠ .exited →
    p.bodies + p.begun.potential ≤ bound + 2 * p.stalled + p.idle ∧ WithinBody p

namespace World

/-- Whether a process can be preempted counts for at most one. -/
theorem potential_bounds (w : World) :
    2 * w.units + w.unread ≤ w.potential ∧
      w.potential ≤ 2 * w.units + w.unread + 1 := by
  rw [potential]
  split <;> omega

theorem potential_idle {w : World} (idle : w.sched.currentPcb = none) :
    w.potential = 2 * w.units + w.unread := by
  rw [potential, if_pos idle]
  rfl

theorem potential_runs {w : World} (runs : w.sched.currentPcb ≠ none) :
    w.potential = 2 * w.units + w.unread + 1 := by
  rw [potential, if_neg runs]

end World

/-- A body that is over has made progress, unless it was stalled or idle. -/
theorem WithinBody.completed {p : Pace} (underway : WithinBody p)
    (asleep : p.world.phase = .sleep) :
    p.world.potential + 1 ≤ p.begun.potential +
      (if p.Stalled then 2 else 0) + if p.Idles then 1 else 0 := by
  have units := underway.units
  have unread := underway.unread
  obtain ⟨_, above⟩ := p.world.potential_bounds
  obtain ⟨below, _⟩ := p.begun.potential_bounds
  by_cases used : p.world.units = p.begun.units
  · by_cases runs : p.world.sched.currentPcb = none
    · have now := World.potential_idle runs
      by_cases received : p.world.unread = p.begun.unread
      · by_cases idle : p.begun.sched.currentPcb = none
        · -- Nothing has been consumed, so there was nothing to run.
          have unmoved := underway.unmoved used received idle
          rw [asleep] at unmoved
          have waits : p.Idles := unmoved.resolve_right fun other => other runs
          rw [if_pos waits]
          omega
        · have before := World.potential_runs idle
          omega
      · omega
    · rw [if_pos (show p.Stalled from ⟨runs, used⟩)]
      omega
  · omega

/-- Where no process becomes current the potential does not rise. -/
theorem Consumes.potential_le {w w' : World} (consumes : Consumes w w')
    (current : w.sched.currentPcb = none → w'.sched.currentPcb = none) :
    w'.potential ≤ w.potential := by
  have units := consumes.units
  have unread := consumes.unread
  by_cases idle : w.sched.currentPcb = none
  · rw [World.potential_idle idle, World.potential_idle (current idle)]
    omega
  · obtain ⟨_, above⟩ := w'.potential_bounds
    rw [World.potential_runs idle]
    omega

/-- What a message that is sent, or a signal, leaves as it is. -/
theorem Move.aside {w w' : World} {event : Event} (move : Move w event w')
    (aside : ∀ clk, event ≠ .proceed clk) :
    w'.phase = w.phase ∧
      (w.sched.currentPcb = none → w'.sched.currentPcb = none) := by
  cases move with
  | sent =>
      obtain ⟨sched, _, phase⟩ := w.send_sched
      exact ⟨phase, fun idle => sched ▸ idle⟩
  | silent none => exact ⟨rfl, fun idle => idle⟩
  | ticked runs live child more kept rekeyed =>
      refine ⟨rfl, fun idle => ?_⟩
      rw [idle] at runs
      cases runs
  | finished runs live child kept removed => exact ⟨rfl, fun _ => rfl⟩
  | _ => exact absurd rfl (aside _)

/-- Before the sleep the next phase is one of the same body. -/
theorem Move.inside {w w' : World} {clk : Readings}
    (move : Move w (.proceed clk) w') (test : w.phase ≠ .loopTest)
    (asleep : w.phase ≠ .sleep) (runs : w.phase ≠ .exited) :
    w'.phase ≠ .loopTest ∧ w'.phase ≠ .exited := by
  cases move with
  | turned follows =>
      rw [World.Follows] at follows
      cases here : w.phase with
      | loopTest => exact absurd here test
      | sleep => exact absurd here asleep
      | exited => exact absurd here runs
      | receive =>
          simp only [here] at follows
          simp [follows.2]
      | dispatch =>
          simp only [here] at follows
          simp [follows.2]
      | running =>
          simp only [here] at follows
          rcases follows with ⟨_, ends⟩ | ⟨_, ends, _⟩ <;> simp [ends]
      | expire =>
          simp only [here] at follows
          simp [follows.2]
      | endOfInput => simp only [here] at follows
  | received phase messages valid entered => exact ⟨test, runs⟩
  | _ => simp

/-- An event within a body leaves it within what it was given. -/
theorem WithinBody.step {p : Pace} {world : World} (underway : WithinBody p)
    (consumes : Consumes p.world world) (test : p.world.phase ≠ .loopTest)
    (quantum : p.world.sched.selectedAlgorithm = .rr →
      1 ≤ p.world.sched.quantum) :
    WithinBody { p with world := world } := by
  refine ⟨consumes.units.trans underway.units,
    consumes.unread.trans underway.unread, fun units unread idle => ?_⟩
  dsimp only at units unread idle ⊢
  have units' : p.world.units = p.begun.units :=
    le_antisymm underway.units (units ▸ consumes.units)
  have unread' : p.world.unread = p.begun.unread :=
    le_antisymm underway.unread (unread ▸ consumes.unread)
  exact consumes.unmoved (units.trans units'.symm) (unread.trans unread'.symm)
    test quantum (underway.unmoved units' unread' idle)

namespace Bounded

variable {bound : Nat} {p : Pace} {world : World} {event : Event}

/-- A message that is sent, or a signal. -/
theorem aside (bounded : Bounded bound p) (move : Move p.world event world)
    (balanced : ∃ items, Balanced world items)
    (aside : ∀ clk, event ≠ .proceed clk) :
    Bounded bound { p with world := world } := by
  obtain ⟨phase, current⟩ := move.aside aside
  have consumes := Consumes.of_move move
  refine ⟨balanced, move.positive bounded.quantum, fun outside => ?_,
    fun test runs => ?_⟩
  · have paid := bounded.between (phase ▸ outside)
    have less := consumes.potential_le current
    dsimp only
    omega
  · have test' : p.world.phase ≠ .loopTest := phase ▸ test
    obtain ⟨paid, underway⟩ := bounded.within test' (phase ▸ runs)
    exact ⟨paid, underway.step consumes test' bounded.quantum⟩

/-- A phase between the loop test and the sleep. -/
theorem inside (bounded : Bounded bound p) {clk : Readings}
    (move : Move p.world (.proceed clk) world)
    (balanced : ∃ items, Balanced world items)
    (test : p.world.phase ≠ .loopTest) (asleep : p.world.phase ≠ .sleep)
    (runs : p.world.phase ≠ .exited) :
    Bounded bound { p with world := world } := by
  obtain ⟨test', runs'⟩ := move.inside test asleep runs
  refine ⟨balanced, move.positive bounded.quantum, ?_, fun _ _ => ?_⟩
  · rintro (outside | outside)
    · exact absurd outside test'
    · exact absurd outside runs'
  · obtain ⟨paid, underway⟩ := bounded.within test runs
    exact ⟨paid, underway.step (Consumes.of_move move) test bounded.quantum⟩

/-- The loop test begins a body, or ends the loop. -/
theorem test (bounded : Bounded bound p) (test : p.world.phase = .loopTest)
    (balanced : ∃ items, Balanced world items)
    (next : world = { p.world with
      phase := if p.world.sched.loopContinues then .receive else .exited }) :
    Bounded bound { p with world := world, begun := world } := by
  have paid := bounded.between (Or.inl test)
  subst next
  refine ⟨balanced, bounded.quantum, fun _ => paid, fun _ runs => ⟨paid, ?_⟩⟩
  refine ⟨le_refl _, le_refl _, fun _ _ idle => ?_⟩
  cases continues : p.world.sched.loopContinues with
  | false =>
      rw [continues] at runs
      exact absurd rfl runs
  | true =>
      rw [Scheduler.loopContinues, decide_eq_true_iff] at continues
      refine ⟨idle, ?_⟩
      rcases continues with reading | waiting | current
      · exact Or.inl reading
      · exact Or.inr waiting
      · exact absurd idle current

/-- The sleep ends a body. -/
theorem completes (bounded : Bounded bound p) (asleep : p.world.phase = .sleep)
    (balanced : ∃ items, Balanced world items)
    (next : world = { p.world with phase := .loopTest }) :
    Bounded bound (p.complete world) := by
  obtain ⟨paid, underway⟩ := bounded.within (by simp [asleep]) (by simp [asleep])
  have progress := underway.completed asleep
  subst next
  refine ⟨balanced, bounded.quantum, fun _ => ?_, fun outside => absurd rfl outside⟩
  show p.bodies + 1 + p.world.potential ≤ bound +
    2 * (if p.Stalled then p.stalled + 1 else p.stalled) +
      if p.Idles then p.idle + 1 else p.idle
  split at progress <;> split at progress <;> simp_all <;> omega

/-- Every event is paid for. -/
theorem step (bounded : Bounded bound p) (event : Event) :
    ∃ p', p.step event = .ok p' ∧ Bounded bound p' := by
  obtain ⟨items, balanced⟩ := bounded.balanced
  obtain ⟨world, items', run, balanced', _⟩ := balanced.step event
  have move := balanced.move run
  have kept : ∃ items, Balanced world items := ⟨items', balanced'⟩
  rw [Pace.step, run, ok_bind]
  cases event with
  | send => exact ⟨_, rfl, bounded.aside move kept nofun⟩
  | signal clk => exact ⟨_, rfl, bounded.aside move kept nofun⟩
  | proceed clk =>
      dsimp only
      rw [World.step, World.proceed] at run
      by_cases test : p.world.phase = .loopTest
      · simp only [test, Except.ok.injEq] at run
        rw [if_pos test]
        exact ⟨_, rfl, bounded.test test kept run.symm⟩
      · rw [if_neg test]
        by_cases asleep : p.world.phase = .sleep
        · simp only [asleep, Except.ok.injEq] at run
          rw [if_pos asleep]
          exact ⟨_, rfl, bounded.completes asleep kept run.symm⟩
        · rw [if_neg asleep]
          refine ⟨_, rfl, ?_⟩
          by_cases runs : p.world.phase = .exited
          · simp only [runs, Except.ok.injEq] at run
            exact run ▸ bounded
          · exact bounded.inside move kept test asleep runs

end Bounded

/-- In every run, whatever signals arrive and whenever they do, the bodies of
`scheduler_loop` that have been completed are at most two for each unit of
runtime and one for each message, but for those at whose end a process was
current while no unit had been used up, which count twice, and those at whose end
there was nothing to run before the end of input. -/
theorem scheduler_loop_bounded (algorithm : SchedulingAlgorithm)
    (quantum clk : Int) (positive : algorithm = .rr → 1 ≤ quantum)
    (toSend : List PCB) (sent : ∀ pcb ∈ toSend, Sent pcb) (events : List Event) :
    ∃ p, runs Pace.step (Pace.init algorithm quantum clk toSend) events = .ok p ∧
      p.bodies ≤ 2 * (toSend.map fun pcb => pcb.pdata.runtime.toNat).sum +
        toSend.length + 1 + 2 * p.stalled + p.idle := by
  have start : Bounded
      (2 * (toSend.map fun pcb => pcb.pdata.runtime.toNat).sum +
        toSend.length + 1) (Pace.init algorithm quantum clk toSend) := by
    refine ⟨⟨[], (balanced_init algorithm quantum clk sent).1⟩, positive,
      fun _ => ?_, fun outside => absurd rfl outside⟩
    show 0 + World.potential (World.init algorithm quantum clk toSend) ≤ _
    rw [World.potential_idle rfl, World.units, World.unread]
    simp [Pace.init, World.init, Nat.add_assoc]
  obtain ⟨p, run, bounded⟩ := total_of_steps
    (fun _ event bounded => Bounded.step bounded event) start events
  refine ⟨p, run, ?_⟩
  by_cases outside : p.world.phase = .loopTest ∨ p.world.phase = .exited
  · have paid := bounded.between outside
    omega
  · rw [not_or] at outside
    obtain ⟨paid, _⟩ := bounded.within outside.1 outside.2
    omega

/-- Two loop bodies before the processes are sent; then a signal in each body. -/
private def lockstep : List Event :=
  [List.replicate 12 (.proceed ⟨0, 0, 0⟩), [.send, .send, .send],
    List.replicate 8 (.proceed ⟨0, 0, 0⟩),
    (List.replicate 8 (.signal ⟨1, 1, 1⟩ ::
      List.replicate 7 (.proceed ⟨1, 1, 1⟩))).flatten].flatten

theorem scheduler_loop_bounded_lockstep :
    ∃ p, runs Pace.step
        (Pace.init .rr 1 0 [sampleJob 1 2 0, sampleJob 2 2 0]) lockstep = .ok p ∧
      p.bodies ≤ 2 * 4 + 2 + 1 + 2 * p.stalled + p.idle :=
  scheduler_loop_bounded .rr 1 0 (fun _ => by decide)
    [sampleJob 1 2 0, sampleJob 2 2 0] (by decide) lockstep

/-- That run, in which the loop ends. -/
example : (do
    let p ← runs Pace.step
      (Pace.init .rr 1 0 [sampleJob 1 2 0, sampleJob 2 2 0]) lockstep
    pure (p.world.phase, p.bodies, p.stalled, p.idle)) =
    Except.ok (.exited, 9, 3, 2) := by
  decide +kernel

end OsSim
