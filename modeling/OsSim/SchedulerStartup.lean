/-
Module: OsSim.SchedulerStartup
Purpose: The start of a process.  The generator forks the child and sends its
  control block at once, the child stops itself, and the scheduler continues it
  when it is dispatched; nothing makes the last two happen in this order.
Trusted boundary: human-reviewed translation
Main exports:
  Startup, Stopper, Forked, Launch, LaunchEvent, Launch.step, Awake,
  StopsBeforeDispatch, wakeup_kept_iff, wakeup_lost
-/
import OsSim.SchedulerMoves

namespace OsSim

open PointerMemory
open Trace

/-- The next statement of `run_process`: `signal(SIGCONT, ..)`,
`raise(SIGSTOP)`, or those of the loop. -/
inductive Startup where
  | installHandler
  | raiseStop
  | loop
deriving Repr, DecidableEq

/-- Who has stopped a child: its own `raise`, or the scheduler. -/
inductive Stopper where
  | itself
  | scheduler
deriving Repr, DecidableEq

/-- A child that has been forked. -/
structure Forked where
  pid : Int
  next : Startup
  stopped : Option Stopper
deriving Repr, DecidableEq

/-- The scheduler and its messages, the processes that the generator has still
to fork, and the children. -/
structure Launch where
  world : World
  toFork : List Process
  forked : List Forked
deriving Repr, DecidableEq

/-- What happens next: the generator forks the next process, for which `fork`
returns a pid, or sends a message; a child performs its next statement, by the
order of the forks; the scheduler performs its next phase; or the child of the
current process uses up a unit of its runtime and its signal is handled. -/
inductive LaunchEvent where
  | fork (pid : Int)
  | send
  | child (index : Nat)
  | proceed (clk : Readings)
  | signal (clk : Readings)
deriving Repr, DecidableEq

/-- The effect of a signal from the scheduler.  SIGCONT has none on a child that
is not stopped, whether it has its handler already or not. -/
def Forked.receive (child : Forked) (kill : Int × ProcessSignal) : Forked :=
  if child.pid = kill.1 then
    match kill.2 with
    | .sigcont => { child with stopped := none }
    | .sigstop => { child with stopped := child.stopped.or (some .scheduler) }
  else
    child

/-- `run_process` up to its loop: nothing is performed while stopped. -/
def Forked.perform (child : Forked) : Forked :=
  if child.stopped ≠ none then child
  else
    match child.next with
    | .installHandler => { child with next := .raiseStop }
    | .raiseStop => { child with next := .loop, stopped := some .itself }
    | .loop => child

namespace Launch

/-- The start, with the processes of the input file. -/
def init (algorithm : SchedulingAlgorithm) (quantum clk : Int)
    (processes : List Process) : Launch :=
  { world := World.init algorithm quantum clk []
    toFork := processes
    forked := [] }

/-- The fork in `fork_and_send`, after the control block of the one before has
been sent; where it fails the process is given up. -/
def fork (l : Launch) (pid : Int) : Launch :=
  match l.world.toSend, l.toFork with
  | [], proc :: rest =>
      if pid = -1 then { l with toFork := rest }
      else
        { world := { l.world with toSend := [newPcb pid proc] }
          toFork := rest
          forked := l.forked ++
            [{ pid := pid, next := .installHandler, stopped := none }] }
  | _, _ => l

/-- The message of `fork_and_send`, and "no_more_processes" after the last
one. -/
def send (l : Launch) : Launch :=
  if l.world.toSend = [] ∧ l.toFork ≠ [] then l
  else { l with world := l.world.send }

/-- The children get the signals that the scheduler has sent on its way to a
world. -/
def deliver (l : Launch) (world : World) : Launch :=
  { l with
    world := world
    forked := l.forked.map fun child =>
      (world.sched.kills.drop l.world.sched.kills.length).foldl
        Forked.receive child }

/-- The child of the current process is in its loop and runs. -/
def counting (l : Launch) : Bool :=
  match l.world.sched.current with
  | .ok pcb => l.forked.any fun child =>
      child.pid = pcb.pid ∧ child.next = .loop ∧ child.stopped = none
  | .error _ => false

/-- One event. -/
def step (l : Launch) : LaunchEvent → Except Fault Launch
  | .fork pid => .ok (l.fork pid)
  | .send => .ok l.send
  | .child index =>
      .ok { l with forked := l.forked.modify index Forked.perform }
  | .proceed clk => do
      let world ← l.world.proceed clk
      pure (l.deliver world)
  | .signal clk =>
      if l.counting then do
        let world ← l.world.signal clk
        pure (l.deliver world)
      else
        .ok l

end Launch

/-- The last signal that the scheduler has sent to a pid. -/
def Scheduler.lastKill (s : Scheduler) (pid : Int) : Option ProcessSignal :=
  ((s.kills.filter fun kill => kill.1 = pid).getLast?).map Prod.snd

/-- The current process, once the scheduler has continued it, is not stopped by
its own `raise(SIGSTOP)`.  Signals act at once, so that no SIGCONT is on its
way. -/
def Awake (l : Launch) : Prop :=
  ∀ a pcb, l.world.sched.currentPcb = some a →
    l.world.sched.pcbs.load a = some pcb →
      l.world.sched.lastKill pcb.pid = some .sigcont →
        ∀ child ∈ l.forked, child.pid = pcb.pid → child.stopped ≠ some .itself

/-- The event leads to such a state. -/
def StaysAwake (l : Launch) (event : LaunchEvent) : Prop :=
  ∀ l', l.step event = .ok l' → Awake l'

/-- A child stops itself only while its process is not the current one. -/
def StopsBeforeDispatch (l : Launch) : LaunchEvent → Prop
  | .child index => ∀ child, l.forked[index]? = some child →
      child.next = .raiseStop → child.stopped = none →
        ∀ a pcb, l.world.sched.currentPcb = some a →
          l.world.sched.pcbs.load a = some pcb → child.pid ≠ pcb.pid
  | _ => True

/-! ### The signals of one phase

A current process has always been continued, for the dispatch that makes it
current sends the signal in the same phase.  Whether the child is awake depends
on what it had done by then.  If its own `raise(SIGSTOP)` came first, the SIGCONT
ends that stop.  If it comes later nothing ends it, as the scheduler continues a
process only when it dispatches it.  So among all the statements of all the
children one alone matters: the `raise` of the child whose process is current.
-/

/-- An event leaves no process current, or the same one and sends no signal, or
it makes one current and continues it. -/
theorem Move.kills {w w' : World} {event : Event} (move : Move w event w') :
    w'.sched.currentPcb = none ∨
    (w'.sched.currentPcb = w.sched.currentPcb ∧
      w'.sched.kills = w.sched.kills) ∨
    ∃ first pcb, w'.sched.currentPcb = some first ∧
      w'.sched.pcbs.load first = some pcb ∧
      w'.sched.kills = w.sched.kills ++ [(pcb.pid, .sigcont)] := by
  have dispatched : ∀ {s : Scheduler} {queue : IQueue Addr} {first : Addr}
      {pcb : PCB} (clk log : Int), s.pcbs.load first = some pcb →
      ∃ b new, (s.afterDispatch queue first pcb clk log).currentPcb = some b ∧
        (s.afterDispatch queue first pcb clk log).pcbs.load b = some new ∧
        (s.afterDispatch queue first pcb clk log).kills =
          s.kills ++ [(new.pid, .sigcont)] := by
    intro s queue first pcb clk log live
    have loaded := Mem.load_put_self live (Scheduler.dispatchedPcb pcb clk)
    refine ⟨first, _, rfl, loaded, ?_⟩
    rw [(Scheduler.dispatchedPcb_kept pcb clk).1]
    rfl
  cases move with
  | sent =>
      rw [w.send_sched.1]
      exact Or.inr (Or.inl ⟨rfl, rfl⟩)
  | @dispatched clk first pcb queue phase idle live took =>
      have live' : (w.sched.accountIdle clk.idle).pcbs.load first = some pcb := by
        rw [Scheduler.accountIdle_pcbs, live]
      rw [← w.sched.accountIdle_kills clk.idle]
      exact Or.inr (Or.inr (dispatched clk.now clk.log live'))
  | @redispatched clk first pcb queue phase hpf idle live took =>
      exact Or.inr (Or.inr (dispatched clk.now clk.log live))
  | expired phase runs live rotated kept => exact Or.inl rfl
  | finished runs live child kept removed => exact Or.inl rfl
  | checked phase =>
      exact Or.inr (Or.inl ⟨by simp, by simp⟩)
  | turned follows => exact Or.inr (Or.inl ⟨rfl, rfl⟩)
  | rejected phase messages invalid => exact Or.inr (Or.inl ⟨rfl, rfl⟩)
  | received phase messages valid entered => exact Or.inr (Or.inl ⟨rfl, rfl⟩)
  | clipped phase rr runs live used => exact Or.inr (Or.inl ⟨rfl, rfl⟩)
  | silent none => exact Or.inr (Or.inl ⟨rfl, rfl⟩)
  | ticked runs live child more kept rekeyed => exact Or.inr (Or.inl ⟨rfl, rfl⟩)

/-- The process behind a control block stays the same. -/
theorem Move.pid {w w' : World} {event : Event} (move : Move w event w')
    {a : Addr} {pcb new : PCB} (live : w.sched.pcbs.load a = some pcb)
    (loaded : w'.sched.pcbs.load a = some new) : new.pid = pcb.pid := by
  have same := move.origin (Scheduler.lt_received live)
  rw [Scheduler.origin, Scheduler.origin, live, loaded, Option.map_some,
    Option.map_some, Option.some.injEq, Prod.mk.injEq] at same
  exact same.1

theorem Scheduler.lastKill_append (s : Scheduler) {s' : Scheduler} {pid : Int}
    {signal : ProcessSignal} (sent : s'.kills = s.kills ++ [(pid, signal)]) :
    s'.lastKill pid = some signal := by
  rw [lastKill, sent, List.filter_append]
  simp

namespace Launch

variable {l : Launch} {w : World}

/-- Without a new signal the children stay as they are. -/
theorem deliver_forked (same : w.sched.kills = l.world.sched.kills) :
    (l.deliver w).forked = l.forked := by
  rw [deliver, same, List.drop_length]
  exact List.map_id l.forked

/-- The child that is continued is not stopped. -/
theorem deliver_continued {pid : Int}
    (sent : w.sched.kills = l.world.sched.kills ++ [(pid, .sigcont)])
    {child : Forked} (member : child ∈ (l.deliver w).forked)
    (own : child.pid = pid) : child.stopped = none := by
  rw [deliver, sent, List.drop_left] at member
  obtain ⟨old, _, same⟩ := List.mem_map.mp member
  rw [List.foldl_cons, List.foldl_nil, Forked.receive] at same
  split at same
  next equal =>
    rw [← same]
  next other =>
    rw [← same] at own
    exact absurd own other

end Launch

/-- What every event keeps: the accounts of the scheduler, and that the current
process has been continued. -/
private structure Continued (l : Launch) : Prop where
  balanced : ∃ items, Balanced l.world items
  toFork : ∀ proc ∈ l.toFork, InRange proc.runtime
  continued : ∀ a pcb, l.world.sched.currentPcb = some a →
    l.world.sched.pcbs.load a = some pcb →
      l.world.sched.lastKill pcb.pid = some .sigcont

namespace Continued

variable {l l' : Launch}

/-- An event of the scheduler's world keeps its current process continued, and
awake. -/
private theorem deliver (continued : Continued l) (event : Event) {w : World}
    (run : l.world.step event = .ok w) :
    Continued (l.deliver w) ∧ (Awake l → Awake (l.deliver w)) := by
  obtain ⟨items, balanced⟩ := continued.balanced
  obtain ⟨items', balanced', _⟩ := balanced.of_step run
  have move := balanced.move run
  rcases move.kills with idle | ⟨current, kills⟩ | ⟨first, pcb, current, loaded,
    kills⟩
  · refine ⟨⟨⟨items', balanced'⟩, continued.toFork, ?_⟩, fun _ => ?_⟩
    · intro a pcb runs
      exact absurd (idle.symm.trans runs) (by simp)
    · intro a pcb runs
      exact absurd (idle.symm.trans runs) (by simp)
  · have old : ∀ a pcb, w.sched.currentPcb = some a →
        w.sched.pcbs.load a = some pcb → ∃ before,
          l.world.sched.currentPcb = some a ∧
          l.world.sched.pcbs.load a = some before ∧ before.pid = pcb.pid := by
      intro a pcb runs loaded
      rw [current] at runs
      obtain ⟨before, live⟩ := balanced.tally.wired.running a runs
      exact ⟨before, runs, live, (move.pid live loaded).symm⟩
    have kept : ∀ pid, w.sched.lastKill pid = l.world.sched.lastKill pid := by
      intro pid
      rw [Scheduler.lastKill, Scheduler.lastKill, kills]
    refine ⟨⟨⟨items', balanced'⟩, continued.toFork, ?_⟩, fun awake => ?_⟩
    · intro a pcb runs loaded
      obtain ⟨before, runs', live, same⟩ := old a pcb runs loaded
      show w.sched.lastKill pcb.pid = some .sigcont
      rw [kept, ← same]
      exact continued.continued a before runs' live
    · intro a pcb runs loaded last child member own
      obtain ⟨before, runs', live, same⟩ := old a pcb runs loaded
      have last' : w.sched.lastKill pcb.pid = some .sigcont := last
      rw [kept, ← same] at last'
      rw [Launch.deliver_forked kills] at member
      exact awake a before runs' live last' child member (own.trans same.symm)
  · have own : ∀ a new, w.sched.currentPcb = some a →
        w.sched.pcbs.load a = some new → new = pcb := by
      intro a new runs loaded'
      rw [current, Option.some.injEq] at runs
      subst runs
      rw [loaded, Option.some.injEq] at loaded'
      exact loaded'.symm
    refine ⟨⟨⟨items', balanced'⟩, continued.toFork, ?_⟩, fun _ => ?_⟩
    · intro a new runs loaded'
      rw [own a new runs loaded']
      exact Scheduler.lastKill_append l.world.sched kills
    · intro a new runs loaded' _ child member same
      rw [own a new runs loaded'] at same
      rw [Launch.deliver_continued kills member same]
      simp

private theorem fork (continued : Continued l) (pid : Int) :
    Continued (l.fork pid) ∧ (Awake l → Awake (l.fork pid)) := by
  obtain ⟨⟨items, balanced⟩, toFork, last⟩ := continued
  have same : Continued l ∧ (Awake l → Awake l) :=
    ⟨⟨⟨items, balanced⟩, toFork, last⟩, fun awake => awake⟩
  rw [Launch.fork]
  split
  next proc rest empty left =>
    have later : ∀ proc ∈ rest, InRange proc.runtime := fun other member =>
      toFork other (by rw [left]; exact List.mem_cons_of_mem proc member)
    split
    next failed => exact ⟨⟨⟨items, balanced⟩, later, last⟩, fun awake => awake⟩
    next forked =>
      have inRange := toFork proc (by rw [left]; exact List.mem_cons_self)
      refine ⟨⟨⟨items, balanced.tally, ?_, balanced.preemptive⟩, later, last⟩,
        fun awake a pcb runs live kill child member own => ?_⟩
      · intro pcb member
        rcases List.mem_append.mp member with sent | new
        · exact balanced.sent pcb (List.mem_append_left _ sent)
        · rw [List.mem_singleton.mp new]
          exact sent_newPcb pid inRange
      · rcases List.mem_append.mp member with old | new
        · exact awake a pcb runs live kill child old own
        · rw [List.mem_singleton.mp new]
          simp
  next => exact same

private theorem send (continued : Continued l) :
    Continued l.send ∧ (Awake l → Awake l.send) := by
  obtain ⟨⟨items, balanced⟩, toFork, last⟩ := continued
  rw [Launch.send]
  split
  next => exact ⟨⟨⟨items, balanced⟩, toFork, last⟩, fun awake => awake⟩
  next =>
    obtain ⟨balanced', _⟩ := balanced.send
    have same := l.world.send_sched.1
    refine ⟨⟨⟨items, balanced'⟩, toFork, ?_⟩, fun awake => ?_⟩
    · show ∀ a pcb, l.world.send.sched.currentPcb = some a → _
      rw [same]
      exact last
    · show ∀ a pcb, l.world.send.sched.currentPcb = some a → _
      rw [same]
      exact awake

/-- No other event puts a child that runs to sleep. -/
private theorem others (continued : Continued l) {event : LaunchEvent}
    (run : l.step event = .ok l') (other : ∀ index, event ≠ .child index) :
    Continued l' ∧ (Awake l → Awake l') := by
  cases event with
  | fork pid =>
      cases run
      exact continued.fork pid
  | send =>
      cases run
      exact continued.send
  | child index => exact absurd rfl (other index)
  | proceed clk =>
      obtain ⟨w, moved, rest⟩ := bind_eq_ok.mp run
      cases rest
      exact continued.deliver (.proceed clk) moved
  | signal clk =>
      rw [Launch.step] at run
      split at run
      next =>
        obtain ⟨w, moved, rest⟩ := bind_eq_ok.mp run
        cases rest
        exact continued.deliver (.signal clk) moved
      next =>
        cases run
        exact ⟨continued, fun awake => awake⟩

private theorem step (continued : Continued l) {event : LaunchEvent}
    (run : l.step event = .ok l') : Continued l' := by
  cases event with
  | child index =>
      cases run
      exact ⟨continued.balanced, continued.toFork, continued.continued⟩
  | fork pid => exact (continued.others run (by simp)).1
  | send => exact (continued.others run (by simp)).1
  | proceed clk => exact (continued.others run (by simp)).1
  | signal clk => exact (continued.others run (by simp)).1

/-- A child that stops itself while its process is current is not continued. -/
private theorem staysAwake_iff (continued : Continued l) (awake : Awake l)
    (event : LaunchEvent) :
    StaysAwake l event ↔ StopsBeforeDispatch l event := by
  have quiet : (∀ index, event ≠ .child index) →
      StaysAwake l event := fun other l' run =>
    (continued.others run other).2 awake
  cases event with
  | fork pid => exact iff_of_true (quiet (by simp)) trivial
  | send => exact iff_of_true (quiet (by simp)) trivial
  | proceed clk => exact iff_of_true (quiet (by simp)) trivial
  | signal clk => exact iff_of_true (quiet (by simp)) trivial
  | child index =>
      constructor
      · intro stays child found next running a pcb runs live own
        have after := stays _ rfl
        have stopped : child.perform =
            { child with next := .loop, stopped := some .itself } := by
          rw [Forked.perform, if_neg (by simp [running]), next]
        have member : child.perform ∈
            l.forked.modify index Forked.perform := by
          apply List.mem_of_getElem? (i := index)
          rw [List.getElem?_modify_eq, found]
          rfl
        rw [stopped] at member
        exact after a pcb runs live (continued.continued a pcb runs live) _
          member own rfl
      · intro allowed l' run
        cases run
        intro a pcb runs live last child member own
        obtain ⟨place, found⟩ := List.mem_iff_getElem?.mp member
        rw [List.getElem?_modify] at found
        obtain ⟨old, before, same⟩ := Option.map_eq_some_iff.mp found
        have kept := awake a pcb runs live last old
          (List.mem_of_getElem? before)
        split at same
        next here =>
          subst here
          subst same
          rw [Forked.perform] at own ⊢
          split at own
          next asleep =>
            rw [if_pos asleep]
            exact kept own
          next awake' =>
            rw [not_not] at awake'
            rw [if_neg (by simp [awake'])]
            cases next : old.next with
            | installHandler => simp [awake']
            | raiseStop =>
                simp only [next] at own
                exact absurd own
                  (allowed old before next awake' a pcb runs live)
            | loop =>
                simp only [next] at own
                exact kept own
        next =>
          subst same
          exact kept own

end Continued

private theorem continued_init (algorithm : SchedulingAlgorithm)
    (quantum clk : Int) {processes : List Process}
    (inRange : ∀ proc ∈ processes, InRange proc.runtime) :
    Continued (Launch.init algorithm quantum clk processes) := by
  obtain ⟨balanced, _⟩ :=
    balanced_init algorithm quantum clk (List.forall_mem_nil Sent)
  refine ⟨⟨[], balanced⟩, inRange, ?_⟩
  intro a pcb impossible
  cases impossible

/-- In every run, under every algorithm, the current process is awake once it
has been continued exactly when every child performs its `raise(SIGSTOP)` while
its process is not the current one. -/
theorem wakeup_kept_iff (algorithm : SchedulingAlgorithm) (quantum clk : Int)
    (processes : List Process)
    (inRange : ∀ proc ∈ processes, InRange proc.runtime)
    (events : List LaunchEvent) :
    Along Launch.step StaysAwake (Launch.init algorithm quantum clk processes)
        events ↔
      Along Launch.step StopsBeforeDispatch
        (Launch.init algorithm quantum clk processes) events := by
  have start := continued_init algorithm quantum clk inRange
  have awake : Awake (Launch.init algorithm quantum clk processes) := by
    intro a pcb impossible
    cases impossible
  exact along_congr (P := fun l => Continued l ∧ Awake l)
    (fun _ _ _ both stays run => ⟨both.1.step run, stays _ run⟩)
    (fun _ event both => both.1.staysAwake_iff both.2 event) ⟨start, awake⟩

private def onlyProcess : Process :=
  { id := 1, arrivalTime := 0, runtime := 2, priority := 0, memorySize := 1 }

private theorem onlyProcess_inRange :
    ∀ proc ∈ [onlyProcess], InRange proc.runtime := by
  intro proc member
  rw [List.mem_singleton.mp member]
  exact (by decide : InRange 2)

/-- The child has stopped itself before its control block is sent. -/
private def promptChild : List LaunchEvent :=
  [.fork 101, .child 0, .child 0, .send] ++
    List.replicate 4 (.proceed ⟨0, 0, 0⟩) ++ [.signal ⟨1, 1, 1⟩]

theorem wakeup_kept_iff_sample :
    Along Launch.step StaysAwake (Launch.init .rr 1 0 [onlyProcess]) promptChild ↔
      Along Launch.step StopsBeforeDispatch (Launch.init .rr 1 0 [onlyProcess])
        promptChild :=
  wakeup_kept_iff .rr 1 0 [onlyProcess] onlyProcess_inRange promptChild

/-! ### A run that hangs

Under HPF the failure is for good.  The scheduler takes the processor from nobody,
the child that sleeps sends no signal, and no other event gives up the current
process, so that all of this stays as it is.
-/

/-- Under HPF the scheduler never takes the processor from a process. -/
theorem Move.hpf_stays {w w' : World} {clk : Readings}
    (move : Move w (.proceed clk) w') (hpf : w.sched.selectedAlgorithm = .hpf)
    (preemptive : w.phase = .expire → w.sched.selectedAlgorithm ≠ .hpf)
    (busy : w.sched.currentPcb ≠ none) :
    w'.sched.currentPcb = w.sched.currentPcb ∧
      w'.sched.kills = w.sched.kills := by
  cases move with
  | dispatched phase idle live took => exact absurd idle busy
  | redispatched phase algorithm idle live took => exact absurd idle busy
  | clipped phase rr runs live used =>
      rw [hpf] at rr
      cases rr
  | expired phase runs live rotated kept => exact absurd hpf (preemptive phase)
  | checked phase =>
      exact ⟨by simp, by simp⟩
  | turned follows => exact ⟨rfl, rfl⟩
  | rejected phase messages invalid => exact ⟨rfl, rfl⟩
  | received phase messages valid entered => exact ⟨rfl, rfl⟩

/-- A process is current under HPF, there are no others to come, and every child
has stopped itself. -/
private structure Hanging (l : Launch) : Prop where
  hpf : l.world.sched.selectedAlgorithm = .hpf
  balanced : ∃ items, Balanced l.world items
  last : l.toFork = []
  busy : l.world.sched.currentPcb ≠ none
  asleep : ∀ child ∈ l.forked, child.stopped = some .itself

private theorem Hanging.step {l l' : Launch} (hanging : Hanging l)
    {event : LaunchEvent} (run : l.step event = .ok l') :
    Hanging l' ∧ l'.world.sched.kills = l.world.sched.kills := by
  obtain ⟨hpf, ⟨items, balanced⟩, last, busy, asleep⟩ := hanging
  have same : Hanging l := ⟨hpf, ⟨items, balanced⟩, last, busy, asleep⟩
  cases event with
  | fork pid =>
      cases run
      have none : l.fork pid = l := by
        rw [Launch.fork, last]
        cases l.world.toSend <;> rfl
      rw [none]
      exact ⟨same, rfl⟩
  | send =>
      cases run
      rw [Launch.send]
      split
      next => exact ⟨same, rfl⟩
      next =>
        have sched := l.world.send_sched.1
        refine ⟨⟨?_, ⟨items, balanced.send.1⟩, last, ?_, asleep⟩, ?_⟩
        · rw [sched]
          exact hpf
        · rw [sched]
          exact busy
        · rw [sched]
  | child index =>
      cases run
      refine ⟨⟨hpf, ⟨items, balanced⟩, last, busy, ?_⟩, rfl⟩
      intro child member
      obtain ⟨place, found⟩ := List.mem_iff_getElem?.mp member
      rw [List.getElem?_modify] at found
      obtain ⟨old, before, equal⟩ := Option.map_eq_some_iff.mp found
      have stopped := asleep old (List.mem_of_getElem? before)
      have still : old.perform = old := by
        rw [Forked.perform, if_pos (by simp [stopped])]
      rw [still, ite_self] at equal
      rw [← equal]
      exact stopped
  | proceed clk =>
      obtain ⟨w, performed, rest⟩ := bind_eq_ok.mp run
      cases rest
      have moved : l.world.step (.proceed clk) = .ok w := performed
      obtain ⟨items', balanced', _⟩ := balanced.of_step moved
      obtain ⟨current, kills⟩ :=
        (balanced.move moved).hpf_stays hpf balanced.preemptive busy
      refine ⟨⟨(balanced.algorithm_step moved).trans hpf, ⟨items', balanced'⟩,
        last, ?_, ?_⟩, kills⟩
      · show w.sched.currentPcb ≠ none
        rw [current]
        exact busy
      · rw [Launch.deliver_forked kills]
        exact asleep
  | signal clk =>
      have silent : l.counting = false := by
        rw [Launch.counting]
        split
        next pcb _ =>
          rw [List.any_eq_false]
          intro child member
          simp [asleep child member]
        next => rfl
      rw [Launch.step, if_neg (by simp [silent])] at run
      cases run
      exact ⟨same, rfl⟩

private theorem Hanging.runs {l l' : Launch} (hanging : Hanging l)
    {events : List LaunchEvent} (run : runs Launch.step l events = .ok l') :
    l'.world.sched.kills = l.world.sched.kills := by
  induction events generalizing l with
  | nil =>
      cases run
      rfl
  | cons event events ih =>
      obtain ⟨next, stepped, rest⟩ := runs_cons_ok.mp run
      obtain ⟨hanging', kills⟩ := hanging.step stepped
      exact (ih hanging' rest).trans kills

/-- The control block is sent, received and dispatched before the child comes to
its `raise(SIGSTOP)`. -/
private def slowChild : List LaunchEvent :=
  [.fork 101, .send] ++ List.replicate 4 (.proceed ⟨0, 0, 0⟩) ++
    [.child 0, .child 0]

private def hung : Launch :=
  match runs Launch.step (Launch.init .hpf 1 0 [onlyProcess]) slowChild with
  | .ok l => l
  | .error _ => Launch.init .hpf 1 0 [onlyProcess]

theorem wakeup_lost : ∃ l,
    runs Launch.step (Launch.init .hpf 1 0 [onlyProcess]) slowChild = .ok l ∧
    l.world.sched.currentPcb = some 0 ∧
    l.world.sched.lastKill 101 = some .sigcont ∧
    l.forked = [{ pid := 101, next := .loop, stopped := some .itself }] ∧
    ∀ more l', runs Launch.step l more = .ok l' →
      l'.world.sched.kills = l.world.sched.kills := by
  have run : runs Launch.step (Launch.init .hpf 1 0 [onlyProcess]) slowChild =
      .ok hung := by
    decide +kernel
  have forked : hung.forked =
      [{ pid := 101, next := .loop, stopped := some .itself }] := by
    decide +kernel
  have continued : Continued hung :=
    invariant_of_steps (fun _ _ _ before stepped => before.step stepped)
      (continued_init .hpf 1 0 onlyProcess_inRange) run
  have hanging : Hanging hung :=
    ⟨by decide +kernel, continued.balanced, by decide +kernel,
      by decide +kernel, by simp [forked]⟩
  exact ⟨hung, run, by decide +kernel, by decide +kernel, forked,
    fun _ _ more => hanging.runs more⟩

end OsSim
