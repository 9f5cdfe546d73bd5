/-
Module: OsSim.SchedulerRemaining
Purpose: The remaining times in the control blocks against the counters of the
  children.  They agree until a quantum check finds more ticks than a quantum
  has, and gives the surplus back.
Trusted boundary: none
Main exports:
  InStep, KeepsInStep, WithinQuantum, inStep_iff, remaining_out_of_step
-/
import OsSim.SchedulerMoves
import OsSim.SchedulerSignals

namespace OsSim

open PointerMemory
open Trace

/-- The remaining time of every unfinished process is the counter of its child,
and every line about a finished process shows no remaining time. -/
structure InStep (s : Scheduler) (children : List Int) : Prop where
  remaining : ∀ a, a < s.received → a ∉ s.finished → s.remaining a = children[a]?
  logged : ∀ line ∈ s.schedulerLog, line.snapshot.state = some .finished →
    line.snapshot.remainingTime = 0

/-- After the event the scheduler and the children are in step. -/
def KeepsInStep (w : World) (event : Event) : Prop :=
  ∀ w', w.step event = .ok w' → InStep w'.sched w'.children

/-- The remaining time of the current process, where it has one. -/
def Scheduler.currentRemaining (s : Scheduler) : Option Int :=
  s.currentPcb.bind s.remaining

/-- Under RR, when `handle_current_running_process` is called, the current
process has used no more than the quantum since its dispatch. -/
def WithinQuantum (w : World) : Event → Prop
  | .proceed _ => w.phase = .running → w.sched.selectedAlgorithm = .rr →
      ∀ n ∈ w.sched.currentRemaining, w.sched.lastRemainTime - w.sched.quantum ≤ n
  | _ => True

instance (w : World) : ∀ event, Decidable (WithinQuantum w event)
  | .proceed _ => inferInstanceAs (Decidable (_ → _ → ∀ n ∈ _, _ ≤ n))
  | .send | .signal _ => inferInstanceAs (Decidable True)

namespace Scheduler

variable {s : Scheduler} {a b : Addr} {pcb pcb' : PCB}

theorem remaining_of_load (live : s.pcbs.load a = some pcb) :
    s.remaining a = some pcb.remainingTime := by
  rw [remaining, live, Option.map_some]

/-- The remaining times after one control block has been overwritten. -/
theorem remaining_put {s' : Scheduler} (live : s.pcbs.load a = some pcb)
    (pcbs : s'.pcbs = s.pcbs.put a pcb') (b : Addr) :
    s'.remaining b =
      if b = a then some pcb'.remainingTime else s.remaining b := by
  split
  next same =>
    rw [same]
    exact remaining_of_load (pcbs ▸ Mem.load_put_self live pcb')
  next other =>
    rw [remaining, pcbs, Mem.load_put_of_ne _ other, remaining]

end Scheduler

namespace InStep

variable {s s' : Scheduler} {children : List Int} {items : List Addr} {a : Addr}
  {pcb : PCB}

/-- One more line, about a process that has not finished, and no change to the
remaining times. -/
theorem keep (inStep : InStep s children) (lines : List LogLine)
    (received : s'.received = s.received)
    (remaining : ∀ b, s'.remaining b = s.remaining b)
    (log : s'.schedulerLog = s.schedulerLog ++ lines)
    (unfinished : ∀ line ∈ lines, line.snapshot.state ≠ some .finished) :
    InStep s' children := by
  have finished : s'.finished = s.finished := by
    have none : lines.filter (fun line =>
        line.snapshot.state = some .finished) = [] :=
      List.filter_eq_nil_iff.mpr fun line member => by
        simpa using unfinished line member
    rw [Scheduler.finished, Scheduler.finished, log, List.filter_append, none,
      List.append_nil]
  constructor
  · intro b inside alive
    rw [received] at inside
    rw [finished] at alive
    rw [remaining]
    exact inStep.remaining b inside alive
  · intro line member done
    rw [log] at member
    rcases List.mem_append.mp member with old | new
    · exact inStep.logged line old done
    · exact absurd done (unfinished line new)

/-- Nothing but the control blocks and `scheduler.log` matters. -/
theorem congr (inStep : InStep s children) (pcbs : s'.pcbs = s.pcbs)
    (log : s'.schedulerLog = s.schedulerLog) : InStep s' children := by
  refine inStep.keep [] ?_ (fun b => ?_) ?_ fun line none => ?_
  · rw [Scheduler.received, pcbs, Scheduler.received]
  · rw [Scheduler.remaining, pcbs, Scheduler.remaining]
  · rw [log, List.append_nil]
  · cases none

theorem dispatch (inStep : InStep s children)
    (live : s.pcbs.load a = some pcb) (queue : IQueue Addr) (clk log : Int) :
    InStep (s.afterDispatch queue a pcb clk log) children := by
  obtain ⟨_, _, remaining, unfinished⟩ := Scheduler.dispatchedPcb_kept pcb clk
  refine inStep.keep
    [{ clk := log, pcb := a, snapshot := Scheduler.dispatchedPcb pcb clk }]
    (Scheduler.received_put rfl) ?_ rfl ?_
  · exact Mem.map_load_put live remaining
  · intro line member
    rw [List.mem_singleton.mp member]
    exact unfinished

theorem receive (inStep : InStep s children)
    (counted : children.length = s.received) {pcb : PCB}
    (fresh : pcb.remainingTime = pcb.pdata.runtime) (queue : IQueue Addr) :
    InStep { s with pcbs := (s.pcbs.malloc pcb).1, readyQueue := queue }
      (children ++ [pcb.pdata.runtime]) := by
  constructor
  · intro b inside alive
    have bound : b < s.received + 1 := by
      have grown : (s.pcbs.malloc pcb).1.cells.length = s.received + 1 :=
        Mem.length_malloc s.pcbs pcb
      exact grown ▸ inside
    rcases Nat.lt_succ_iff_lt_or_eq.mp bound with before | last
    · rw [List.getElem?_append_left (counted.symm ▸ before),
        ← inStep.remaining b before alive]
      have apart : b ≠ (s.pcbs.malloc pcb).2 := Nat.ne_of_lt before
      exact congrArg (Option.map PCB.remainingTime)
        (Mem.load_malloc_of_ne s.pcbs pcb apart)
    · rw [last, ← counted, List.getElem?_concat_length, ← fresh, counted]
      exact Tally.remaining_malloc_new rfl
  · exact inStep.logged

theorem tick (inStep : InStep s children) {n : Int}
    (live : s.pcbs.load a = some pcb) (child : children[a]? = some n)
    (alive : a ∉ s.finished) (queue : IQueue Addr) :
    InStep (s.afterTick queue a pcb) (children.set a (n - 1)) := by
  have own := inStep.remaining a (Scheduler.lt_received live) alive
  rw [Scheduler.remaining_of_load live, child, Option.some.injEq] at own
  obtain ⟨bound, _⟩ := List.getElem?_eq_some_iff.mp child
  constructor
  · intro b inside unfinished
    rw [Scheduler.remaining_put live rfl]
    split
    next same =>
      subst same
      rw [List.getElem?_set_self bound, ← own]
    next other =>
      rw [List.getElem?_set_ne (Ne.symm other)]
      rw [Scheduler.received_put (s := s) rfl] at inside
      exact inStep.remaining b inside unfinished
  · exact inStep.logged

theorem terminate (inStep : InStep s children)
    (live : s.pcbs.load a = some pcb) (child : children[a]? = some 1)
    (alive : a ∉ s.finished) (queue : IQueue Addr) (clk log : Int) :
    InStep (s.afterTermination queue a pcb clk log) (children.set a 0) := by
  have own := inStep.remaining a (Scheduler.lt_received live) alive
  rw [Scheduler.remaining_of_load live, child, Option.some.injEq] at own
  have finished : (s.afterTermination queue a pcb clk log).finished =
      s.finished ++ [a] := Scheduler.finished_of_log_finished
    { clk := log, pcb := a, snapshot := Scheduler.finishedPcb pcb } rfl rfl
  constructor
  · intro b inside unfinished
    rw [finished, List.mem_append, List.mem_singleton, not_or] at unfinished
    rw [Scheduler.received_put (s := s) rfl] at inside
    rw [Scheduler.remaining_put live rfl, if_neg unfinished.2,
      List.getElem?_set_ne (Ne.symm unfinished.2)]
    exact inStep.remaining b inside unfinished.1
  · intro line member done
    rcases List.mem_append.mp member with old | new
    · exact inStep.logged line old done
    · rw [List.mem_singleton.mp new]
      show pcb.remainingTime - 1 = 0
      omega

/-- A quantum check that does not find too many ticks changes nothing. -/
theorem clip_iff (inStep : InStep s children)
    (live : s.pcbs.load a = some pcb) (alive : a ∉ s.finished) (rest : Int) :
    InStep { s with
      pcbs := s.pcbs.put a { pcb with remainingTime := rest } } children ↔
      pcb.remainingTime = rest := by
  have own := inStep.remaining a (Scheduler.lt_received live) alive
  rw [Scheduler.remaining_of_load live] at own
  constructor
  · intro clipped
    have inside : a < (s.pcbs.put a
        { pcb with remainingTime := rest }).cells.length := by
      rw [Mem.length_put]
      exact Scheduler.lt_received live
    have after := clipped.remaining a inside alive
    rw [Scheduler.remaining_put live rfl, if_pos rfl, ← own,
      Option.some.injEq] at after
    exact after.symm
  · intro same
    refine inStep.keep [] (Scheduler.received_put rfl) (fun b => ?_)
      (List.append_nil _).symm (fun line member => by cases member)
    rw [Scheduler.remaining_put live rfl]
    split
    next here =>
      rw [here, Scheduler.remaining_of_load live, same]
    next => rfl

end InStep

/-! ### Runs

The equivalence is proved step by step.  Where scheduler and children are in
step, only the quantum check of RR can take them out of it, and it does so
exactly when it finds the process past its quantum, since it then gives the
surplus back to the control block and not to the child.  So on the states of the
invariant an event keeps the agreement exactly if it meets the condition, and
`throughout_iff_along` carries that over to runs.
-/

/-- What the runs keep: the accounts, the agreement, and under RR that no
finished process is current. -/
private def Agreed (w : World) : Prop :=
  ∃ items, Balanced w items ∧ InStep w.sched w.children ∧
    (w.sched.selectedAlgorithm = .rr → Charged w items)

/-- A child that still counts belongs to an unfinished process. -/
theorem Tally.alive {s : Scheduler} {children : List Int} {items : List Addr}
    (tally : Tally s children items) {a : Addr} {n : Int}
    (child : children[a]? = some n) (positive : 0 < n) : a ∉ s.finished := by
  intro done
  have zero := (tally.ended a n child).mpr done
  omega

/-- The remaining time of the current process. -/
theorem Scheduler.currentRemaining_eq {s : Scheduler} {a : Addr} {pcb : PCB}
    (runs : s.currentPcb = some a) (live : s.pcbs.load a = some pcb) :
    s.currentRemaining = some pcb.remainingTime := by
  rw [Scheduler.currentRemaining, runs, Option.bind_some,
    Scheduler.remaining_of_load live]

/-- Within the quantum every event keeps the agreement. -/
theorem Move.inStep {w w' : World} {event : Event} {items : List Addr}
    (move : Move w event w') (balanced : Balanced w items)
    (inStep : InStep w.sched w.children)
    (charged : w.sched.selectedAlgorithm = .rr → Charged w items)
    (within : WithinQuantum w event) : InStep w'.sched w'.children := by
  have tally := balanced.tally
  cases move with
  | sent =>
      obtain ⟨sched, children, _⟩ := w.send_sched
      rw [sched, children]
      exact inStep
  | turned follows => exact inStep
  | rejected phase messages invalid => exact inStep
  | received phase messages valid entered =>
      have sent := balanced.sent _ (List.mem_append_left _
        (messages ▸ List.mem_cons_self))
      exact inStep.receive tally.counted sent.fresh _
  | @dispatched clk first pcb queue phase idle live took =>
      have kept : InStep (w.sched.accountIdle clk.idle) w.children :=
        inStep.congr (by simp) (by simp)
      apply kept.dispatch _ queue clk.now clk.log
      rw [Scheduler.accountIdle_pcbs, live]
  | redispatched phase hpf idle live took => exact inStep.dispatch live _ _ _
  | clipped phase rr runs live used =>
      have alive := (charged rr).roster.alive runs
      have enough := within phase rr _ (Scheduler.currentRemaining_eq runs live)
      exact (inStep.clip_iff live alive _).mpr (Int.le_antisymm used enough)
  | @expired clk a pcb queue phase runs live rotated kept =>
      refine inStep.keep [{
        clk := clk.log, pcb := a, snapshot := { pcb with state := some .stopped } }]
        (Scheduler.received_put rfl) (Mem.map_load_put live rfl) rfl ?_
      intro line member
      rw [List.mem_singleton.mp member]
      simp
  | checked phase =>
      exact inStep.congr (by simp) (by simp)
  | silent none => exact inStep
  | ticked runs live child more kept rekeyed =>
      exact inStep.tick live child (tally.alive child (by omega)) _
  | finished runs live child kept removed =>
      exact inStep.terminate live child (tally.alive child (by omega)) _ _ _

/-- Only within the quantum the check of `handle_current_running_process` keeps
the agreement. -/
private theorem Move.withinQuantum {w w' : World} {event : Event}
    {items : List Addr} (move : Move w event w')
    (inStep : InStep w.sched w.children)
    (charged : w.sched.selectedAlgorithm = .rr → Charged w items)
    (kept : InStep w'.sched w'.children) : WithinQuantum w event := by
  cases move with
  | sent => trivial
  | silent none => trivial
  | ticked runs live child more kept rekeyed => trivial
  | finished runs live child kept removed => trivial
  | turned follows =>
      intro phase rr n rest
      rw [World.Follows, phase] at follows
      rcases follows with ⟨stays, _⟩ | ⟨srtn, _⟩
      · obtain ⟨a, runs, own⟩ := Option.bind_eq_some_iff.mp rest
        obtain ⟨pcb, live, same⟩ := Option.map_eq_some_iff.mp own
        have less := stays.rr rr a pcb runs live
        omega
      · rw [rr] at srtn
        cases srtn
  | redispatched phase hpf idle live took =>
      intro _ rr
      rw [rr] at hpf
      cases hpf
  | clipped phase rr runs live used =>
      intro _ _ n rest
      have alive := (charged rr).roster.alive runs
      rw [Scheduler.currentRemaining_eq runs live, Option.mem_some_iff] at rest
      rw [← rest, (inStep.clip_iff live alive _).mp kept]
  | rejected phase messages invalid =>
      intro running
      rw [phase] at running
      cases running
  | received phase messages valid entered =>
      intro running
      rw [phase] at running
      cases running
  | dispatched phase idle live took =>
      intro running
      rw [phase] at running
      cases running
  | expired phase runs live rotated kept =>
      intro running
      rw [phase] at running
      cases running
  | checked phase =>
      intro running
      rw [phase] at running
      cases running

private theorem agreed_init (algorithm : SchedulingAlgorithm)
    (quantum clk : Int) {toSend : List PCB} (sent : ∀ pcb ∈ toSend, Sent pcb) :
    Agreed (World.init algorithm quantum clk toSend) := by
  obtain ⟨balanced, charged⟩ := balanced_init algorithm quantum clk sent
  refine ⟨[], balanced, ⟨?_, ?_⟩, fun _ => charged⟩
  · intro a inside
    cases inside
  · intro line member
    cases member

/-- Every event succeeds, and within the quantum it keeps the agreement. -/
private theorem Agreed.step {w : World} (agreed : Agreed w) (event : Event)
    (within : WithinQuantum w event) :
    ∃ w', w.step event = .ok w' ∧ Agreed w' := by
  obtain ⟨items, balanced, inStep, charged⟩ := agreed
  obtain ⟨w', items', run, balanced', kept⟩ := balanced.step event
  have move := balanced.move run
  refine ⟨w', run, items', balanced', move.inStep balanced inStep charged within,
    fun rr => ?_⟩
  have before : w.sched.selectedAlgorithm = .rr := by
    rw [← balanced.algorithm_step run]
    exact rr
  have front := charged before
  exact kept (fun _ _ => front.settled_of_noShorterWaiting
    (by simp [before])) front

/-- In every run, the remaining times agree with the children after every event,
and finished processes are logged without remaining time, exactly if every
quantum check finds no more ticks than a quantum has. -/
theorem inStep_iff (algorithm : SchedulingAlgorithm) (quantum clk : Int)
    (toSend : List PCB) (sent : ∀ pcb ∈ toSend, Sent pcb) (events : List Event) :
    Along World.step KeepsInStep (World.init algorithm quantum clk toSend)
        events ↔
      Along World.step WithinQuantum (World.init algorithm quantum clk toSend)
        events := by
  refine (along_congr (P := Agreed) ?_ ?_
    (agreed_init algorithm quantum clk sent)).symm
  · intro w event w' agreed within run
    obtain ⟨w'', run', agreed'⟩ := agreed.step event within
    rw [run, Except.ok.injEq] at run'
    exact run' ▸ agreed'
  · intro w event agreed
    obtain ⟨items, balanced, inStep, charged⟩ := agreed
    constructor
    · intro within w' run
      exact (balanced.move run).inStep balanced inStep charged within
    · intro keeps
      obtain ⟨w', _, run, _⟩ := balanced.step event
      exact (balanced.move run).withinQuantum inStep charged (keeps w' run)

/-- The process is received and dispatched; its child then sends a number of
ticks in the sleep at the end of the iteration. -/
private def ticking (ticks : Nat) : List Event :=
  [.send] ++ List.replicate 6 (.proceed ⟨0, 0, 0⟩) ++
    List.replicate ticks (.signal ⟨1, 1, 1⟩) ++
      List.replicate 4 (.proceed ⟨1, 1, 1⟩)

/-- One tick in each sleep, with a quantum of one. -/
theorem inStep_iff_sample :
    Along World.step KeepsInStep (World.init .rr 1 0 [sampleJob 1 3 0])
        (ticking 1 ++ [.proceed ⟨1, 1, 1⟩]) ↔
      Along World.step WithinQuantum (World.init .rr 1 0 [sampleJob 1 3 0])
        (ticking 1 ++ [.proceed ⟨1, 1, 1⟩]) :=
  inStep_iff .rr 1 0 [sampleJob 1 3 0] (by decide) _

/-- What the quantum check after two ticks leaves: the remaining time of the
process and the counter of its child, with the processes received and
finished. -/
private def overrun : Except Fault
    (Option Int × Option Int × Nat × List Addr) := do
  let w ← runs World.step (World.init .rr 1 0 [sampleJob 1 3 0]) (ticking 2)
  let w ← w.step (.proceed ⟨1, 1, 1⟩)
  pure (w.sched.remaining 0, w.children[0]?, w.sched.received,
    w.sched.finished)

/-- With a quantum of one, two ticks between two checks leave the remaining time
at two where the child has one unit left. -/
theorem remaining_out_of_step :
    ¬ ∀ (algorithm : SchedulingAlgorithm) (quantum clk : Int)
      (toSend : List PCB), 1 ≤ quantum → (∀ pcb ∈ toSend, Sent pcb) →
        ∀ events : List Event, Along World.step KeepsInStep
          (World.init algorithm quantum clk toSend) events := by
  intro always
  have replay : overrun = .ok (some 2, some 1, 1, []) := by decide +kernel
  obtain ⟨w, run, rest⟩ := bind_eq_ok.mp replay
  obtain ⟨w', last, ends⟩ := bind_eq_ok.mp rest
  simp only [pure_eq_ok, Except.ok.injEq, Prod.mk.injEq] at ends
  obtain ⟨remaining, child, received, finished⟩ := ends
  have kept := always .rr 1 0 [sampleJob 1 3 0] (by decide) (by decide)
    (ticking 2 ++ [.proceed ⟨1, 1, 1⟩])
  have inStep := (along_cons.mp ((along_append.mp kept).2 w run)).1 w' last
  have same := inStep.remaining 0 (by rw [received]; decide)
    (by rw [finished]; simp)
  rw [remaining, child] at same
  cases same

end OsSim
