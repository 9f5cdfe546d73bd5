/-
Module: OsSim.Orphans
Purpose: The generator and the scheduler together, from the input list on, and
  when every child that holds a block is known to the scheduler or on its way
  there.
Trusted boundary: human-reviewed translation
Main exports:
  System, SystemEvent, System.step, System.HoldsBlock, System.Reaches,
  System.NoOrphan, System.Handles, no_orphan, orphan_of_rejected
-/
import OsSim.CreationMoves
import OsSim.SchedulerMoves
import OsSim.SchedulerSignals

namespace OsSim

open PointerMemory
open DoublyLinked
open Trace

/-- The process generator, the scheduler, and the pids of the children that have
exited and have not been reaped. -/
structure System where
  creation : Creation
  world : World
  exited : List Int
deriving Repr, DecidableEq

/-- What happens next: a signal or a statement of the generator, a phase of the
scheduler's loop, or a signal of the child that runs. -/
inductive SystemEvent where
  | generator (event : CreationEvent)
  | phase (clk : Readings)
  | signal (clk : Readings)
deriving Repr, DecidableEq

/-- The pid in a control block. -/
def Scheduler.pidAt (s : Scheduler) (a : Addr) : Option Int :=
  (s.origin a).map Prod.fst

/-- The current process when its child has one unit of its runtime left. -/
def World.ending (w : World) : Option Addr :=
  w.sched.currentPcb.filter fun a => w.children[a]? = some 1

namespace System

/-- Before the first statement of either process. -/
def start (processList : List Process) (clock clkPid schPid : Int)
    (algorithm : SchedulingAlgorithm) (quantum : Int) : System :=
  { creation := .start processList clock clkPid schPid
    world := World.init algorithm quantum clock []
    exited := [] }

/-- What the generator has sent since it was in this state arrives in the
message queue. -/
def deliver (s : System) (creation : Creation) : World :=
  { s.world with
    pcbMessages := s.world.pcbMessages ++
      creation.messages.drop s.creation.messages.length
    endSent := creation.endSent
    endMessages := s.world.endMessages ++
      if creation.endSent ∧ ¬ s.creation.endSent then ["no_more_processes"]
      else [] }

/-- The pid that a generator event reaps. -/
def reaped : CreationEvent → List Int
  | .exit _ pid => [pid]
  | _ => []

/-- One event.  A child exits with the signal for its last unit. -/
def step (s : System) : SystemEvent → Except Fault System
  | .generator event => do
      let creation ← s.creation.step event
      pure { s with
        creation := creation
        world := s.deliver creation
        exited := s.exited.diff (reaped event) }
  | .phase clk => do
      let world ← s.world.proceed clk
      pure { s with world := world }
  | .signal clk => do
      let world ← s.world.signal clk
      pure { s with
        world := world
        exited := s.exited ++
          (s.world.ending.bind s.world.sched.pidAt).toList }

/-- The memory map records a block for the pid that is allocated. -/
def HoldsBlock (s : System) (pid : Int) : Prop :=
  ∃ record, hashmapGet s.creation.manager.memoryMap pid = .ok (some record) ∧
    s.creation.manager.buddy.isAllocated record.memory = true

/-- A control block for the pid is in flight, in the ready queue, or the current
one. -/
def Reaches (s : System) (pid : Int) : Prop :=
  (∃ pcb ∈ s.world.pcbMessages, pcb.pid = pid) ∨
    (∃ items, s.world.sched.readyQueue.items = .ok items ∧
      ∃ a ∈ items, s.world.sched.pidAt a = some pid) ∨
    ∃ a, s.world.sched.currentPcb = some a ∧ s.world.sched.pidAt a = some pid

/-- No child that holds a block is out of reach of the scheduler before it has
exited.  With `clear_and_exit` all children are killed. -/
def NoOrphan (s : System) : Prop :=
  s.creation.statement ≠ .exited → ∀ pid ∈ s.creation.children,
    pid ∉ s.exited → s.HoldsBlock pid → s.Reaches pid

/-- Forks succeed, with the pid of no child that has not been reaped. -/
def Forks (s : System) : SystemEvent → Prop
  | .generator (.proceed _ _ pid) => pid ≠ -1 ∧ pid ∉ s.creation.children
  | _ => True

/-- The next message passes the check of `check_for_new_processes`, and under
SRTN the last signal of a child is handled while its process is in front of the
ready queue. -/
def Handles (s : System) : SystemEvent → Prop
  | .generator _ => True
  | .phase _ => s.world.phase = .receive →
      ∀ pcb ∈ s.world.pcbMessages.head?, validPcb pcb = true
  | .signal _ => s.world.sched.selectedAlgorithm = .srtn →
      ∀ a ∈ s.world.ending, s.world.sched.readyQueue.front = .ok (some a)

instance (s : System) : ∀ event, Decidable (s.Forks event)
  | .generator (.proceed _ _ _) => inferInstanceAs (Decidable (_ ∧ _))
  | .generator (.exit _ _) => inferInstanceAs (Decidable True)
  | .generator .interrupt => inferInstanceAs (Decidable True)
  | .phase _ => inferInstanceAs (Decidable True)
  | .signal _ => inferInstanceAs (Decidable True)

instance (s : System) : ∀ event, Decidable (s.Handles event)
  | .generator _ => inferInstanceAs (Decidable True)
  | .phase _ => inferInstanceAs (Decidable (_ → _))
  | .signal _ => inferInstanceAs (Decidable (_ → _))

end System

/-! ### The scheduler keeps the processes it has received -/

section

variable {w w' : World} {items items' : List Addr}

/-- A queue with the same items shows them. -/
private theorem mem_of_perm {queue : IQueue Addr} {other : List Addr}
    (shows : Shows queue items') (shows' : Shows queue other)
    (perm : other.Perm items) {a : Addr} (place : a ∈ items) : a ∈ items' := by
  rw [← shows.unique shows']
  exact perm.mem_iff.mpr place

/-- What stands behind the front stays when the front is removed. -/
private theorem mem_of_removed {q queue : IQueue Addr} {first : Addr}
    {rest : List Addr} {next : Option Addr} (shows : Shows q (first :: rest))
    (taken : q.dequeue true = .ok (queue, next)) (shows' : Shows queue items')
    {a : Addr} (behind : a ∈ rest) : a ∈ items' := by
  obtain ⟨queue', items'', run, _, shows'', perm, _⟩ := shows.dequeue_remove
  rw [taken, Except.ok.injEq, Prod.mk.injEq] at run
  rw [← run.1] at shows''
  exact mem_of_perm shows' shows'' perm behind

/-- A rotation of the queue loses nothing. -/
private theorem mem_of_rotated {s : Scheduler} {queue : IQueue Addr}
    {next : Option Addr} (wired : s.Wired items)
    (rr : s.selectedAlgorithm = .rr)
    (turned : s.readyQueue.dequeue false = .ok (queue, next))
    (shows' : Shows queue items') {a : Addr} (place : a ∈ items) :
    a ∈ items' := by
  have ring : s.readyQueue.type = .circularQueue := by
    rw [wired.type, rr]
    rfl
  cases items with
  | nil => cases place
  | cons first rest =>
      obtain ⟨queue', run, _, shows''⟩ := wired.shows.dequeue_rotate ring
      rw [turned, Except.ok.injEq, Prod.mk.injEq] at run
      rw [← run.1] at shows''
      exact mem_of_perm shows' shows'' (List.perm_append_singleton first rest)
        place

/-- Taking the front to be dispatched leaves it in hand or in the queue. -/
private theorem mem_of_took {s s' : Scheduler} {first : Addr}
    {queue : IQueue Addr} (shows : Shows s.readyQueue items)
    (took : s.Took first queue) (shows' : Shows queue items')
    (algorithm : s'.selectedAlgorithm = s.selectedAlgorithm)
    (current : s'.currentPcb = some first) {a : Addr} (place : a ∈ items) :
    a ∈ items' ++ s'.inHand := by
  obtain ⟨front, taken, same⟩ := took
  by_cases hpf : s.selectedAlgorithm = .hpf
  · obtain ⟨rest, rfl⟩ := shows.front_inv front
    rcases List.mem_cons.mp place with here | behind
    · exact List.mem_append_right _ (Scheduler.mem_inHand.mpr
        ⟨algorithm.trans hpf, current.trans (congrArg some here.symm)⟩)
    · exact List.mem_append_left _
        (mem_of_removed shows (taken hpf) shows' behind)
  · rw [same hpf] at shows'
    exact List.mem_append_left _
      (mem_of_perm shows' shows (List.Perm.refl _) place)

/-- A process of the queue, or in hand, stays there, except for the current one
with its last signal; under RR and SRTN that one has to be in front. -/
theorem Move.stays {event : Event} (move : Move w event w')
    (balanced : Balanced w items) (balanced' : Balanced w' items')
    (front : (∃ clk, event = .signal clk) →
      w.sched.selectedAlgorithm ≠ .hpf → ∀ a ∈ w.ending,
        items.head? = some a) {a : Addr}
    (place : a ∈ items ++ w.sched.inHand) :
    a ∈ items' ++ w'.sched.inHand ∨
      ((∃ clk, event = .signal clk) ∧ w.ending = some a) := by
  have shows := balanced.tally.wired.shows
  have shows' := balanced'.tally.wired.shows
  -- The queue and the process in hand are the ones from before.
  have same : w'.sched.readyQueue = w.sched.readyQueue →
      w'.sched.selectedAlgorithm = w.sched.selectedAlgorithm →
      w'.sched.currentPcb = w.sched.currentPcb →
      a ∈ items' ++ w'.sched.inHand := by
    intro queue algorithm current
    rw [queue] at shows'
    rw [shows.unique shows', Scheduler.inHand_congr algorithm current]
    exact place
  cases move with
  | sent =>
      left
      apply same <;> rw [w.send_sched.1]
  | checked phase =>
      left
      apply same <;> simp
  | turned follows => exact Or.inl (same rfl rfl rfl)
  | rejected phase messages invalid => exact Or.inl (same rfl rfl rfl)
  | silent none => exact Or.inl (same rfl rfl rfl)
  | clipped phase rr runs live used => exact Or.inl (same rfl rfl rfl)
  | received phase messages valid entered =>
      obtain ⟨queue', items'', run, _, shows'', perm, _⟩ := shows.enqueue _ _
      rw [entered, Except.ok.injEq] at run
      subst run
      left
      rcases List.mem_append.mp place with waits | held
      · exact List.mem_append_left _ (mem_of_perm shows' shows''
          (List.Perm.refl _) (perm.mem_iff.mpr (List.mem_cons_of_mem _ waits)))
      · exact List.mem_append_right _ held
  | @dispatched clk first pcb queue phase idle live took =>
      rw [Scheduler.inHand_none idle, List.append_nil] at place
      left
      refine mem_of_took shows took shows' ?_ ?_ place
      · simp
      · rfl
  | redispatched phase hpf idle live took =>
      rw [Scheduler.inHand_none idle, List.append_nil] at place
      left
      refine mem_of_took shows took shows' ?_ ?_ place
      · rfl
      · rfl
  | expired phase runs live rotated kept =>
      have preemptive := balanced.preemptive phase
      rw [Scheduler.inHand, if_neg preemptive, List.append_nil] at place
      left
      apply List.mem_append_left
      by_cases rr : w.sched.selectedAlgorithm = .rr
      · obtain ⟨next, turned⟩ := rotated rr
        exact mem_of_rotated balanced.tally.wired rr turned shows' place
      · have unchanged := kept rr
        subst unchanged
        exact mem_of_perm shows' shows (List.Perm.refl _) place
  | ticked runs live child more kept rekeyed =>
      left
      rcases List.mem_append.mp place with waits | held
      · apply List.mem_append_left
        by_cases srtn : w.sched.selectedAlgorithm = .srtn
        · have changed := rekeyed srtn
          subst changed
          obtain ⟨_, shows'', _, perm⟩ := shows.changePriority _
          exact mem_of_perm shows' shows'' perm waits
        · have unchanged := kept srtn
          subst unchanged
          exact mem_of_perm shows' shows (List.Perm.refl _) waits
      · exact List.mem_append_right _ held
  | @finished clk current pcb queue runs live child kept removed =>
      have ending : w.ending = some current := by
        rw [World.ending, runs, Option.filter_some, if_pos (by simp [child])]
      by_cases hpf : w.sched.selectedAlgorithm = .hpf
      · rcases List.mem_append.mp place with waits | held
        · have unchanged := kept hpf
          subst unchanged
          exact Or.inl (List.mem_append_left _
            (mem_of_perm shows' shows (List.Perm.refl _) waits))
        · obtain ⟨_, here⟩ := Scheduler.mem_inHand.mp held
          rw [runs, Option.some.injEq] at here
          exact Or.inr ⟨⟨clk, rfl⟩, here ▸ ending⟩
      · rw [Scheduler.inHand, if_neg hpf, List.append_nil] at place
        obtain ⟨rest, rfl⟩ := List.head?_eq_some_iff.mp
          (front ⟨clk, rfl⟩ hpf current ending)
        rcases List.mem_cons.mp place with here | behind
        · exact Or.inr ⟨⟨clk, rfl⟩, here ▸ ending⟩
        · obtain ⟨next, taken⟩ := removed hpf
          exact Or.inl (List.mem_append_left _
            (mem_of_removed shows taken shows' behind))

/-- A control block keeps its pid. -/
theorem Move.pidAt {event : Event} (move : Move w event w') {a : Addr}
    (old : a < w.sched.received) : w'.sched.pidAt a = w.sched.pidAt a := by
  rw [Scheduler.pidAt, move.origin old, Scheduler.pidAt]

/-- When every message passes the check, a message stays in flight or becomes a
control block in the ready queue. -/
theorem Move.arrives {clk : Readings} (move : Move w (.proceed clk) w')
    (balanced : Balanced w items) (balanced' : Balanced w' items')
    (valid : w.phase = .receive →
      ∀ pcb ∈ w.pcbMessages.head?, validPcb pcb = true) {pcb : PCB}
    (member : pcb ∈ w.pcbMessages) :
    pcb ∈ w'.pcbMessages ∨
      ∃ a ∈ items', w'.sched.pidAt a = some pcb.pid := by
  cases move with
  | rejected phase messages invalid =>
      have accepted := valid phase _ (by rw [messages]; rfl)
      rw [invalid] at accepted
      cases accepted
  | @received _ first rest queue phase messages _ entered =>
      rw [messages] at member
      rcases List.mem_cons.mp member with here | later
      · obtain ⟨queue', items'', run, _, shows, perm, _⟩ :=
          balanced.tally.wired.shows.enqueue _ _
        rw [entered, Except.ok.injEq] at run
        subst run
        refine Or.inr ⟨w.sched.received, ?_, ?_⟩
        · exact mem_of_perm balanced'.tally.wired.shows shows
            (List.Perm.refl _) (perm.mem_iff.mpr List.mem_cons_self)
        · have made := Mem.load_malloc_self w.sched.pcbs first
          rw [here, Scheduler.pidAt, Scheduler.origin]
          exact congrArg (fun cell : Option PCB =>
            (cell.map fun pcb => (pcb.pid, pcb.pdata)).map Prod.fst) made
      · exact Or.inl later
  | _ => exact Or.inl member

end

/-! ### The generator keeps the children it has sent -/

/-- The event sends these control blocks, and all children but theirs were there
before and have not been reaped. -/
structure Sends (c : Creation) (event : CreationEvent) (next : Creation)
    (new : List PCB) : Prop where
  messages : next.messages = c.messages ++ new
  sent : ∀ pcb ∈ new, Sent pcb
  nodup : next.children.Nodup
  children : next.statement ≠ .exited → ∀ pid ∈ next.children,
    (c.statement ≠ .exited ∧ pid ∈ c.children ∧
        pid ∉ System.reaped event) ∨
      ∃ pcb ∈ new, pcb.pid = pid

/-- What an event of the generator sends are control blocks of new children. -/
theorem CreationMove.sends {c next : Creation} {chains chains' : Chains}
    {event : CreationEvent} (move : CreationMove c chains event next chains')
    (runtimes : ∀ process ∈ c.processList, InRange process.runtime)
    (forks : ∀ reading clk pid, event = .proceed reading clk pid →
      pid ≠ -1 ∧ pid ∉ c.children) (nodup : c.children.Nodup) :
    ∃ new, Sends c event next new := by
  -- A new child: its control block is what is posted.
  have forked : ∀ {reading clk pid : Int} {p : Nat} {process : Process}
      {new : List PCB}, event = .proceed reading clk pid →
      c.statement ≠ .exited → c.processList[p]? = some process →
      Posted pid process new → next.messages = c.messages ++ new →
      next.children = (if pid = -1 then c.children else pid :: c.children) →
      ∃ new, Sends c event next new := by
    intro reading clk pid p process new same runs read posts messages children
    subst same
    obtain ⟨succeeds, fresh⟩ := forks reading clk pid rfl
    rw [if_neg succeeds] at children
    cases posts with
    | failed failed => exact absurd failed succeeds
    | sent _ found =>
        refine ⟨_, messages, ?_, ?_, ?_⟩
        · intro pcb member
          rw [List.mem_singleton.mp member]
          exact ⟨rfl, (runtimes process (List.mem_of_getElem? read)).2⟩
        · rw [children]
          exact List.nodup_cons.mpr ⟨fresh, nodup⟩
        · intro _ other member
          rw [children] at member
          rcases List.mem_cons.mp member with here | older
          · exact Or.inr ⟨_, List.mem_singleton_self _, here.symm⟩
          · exact Or.inl ⟨runs, older, by simp [System.reaped]⟩
  have quiet : ∀ {statement}, c.statement = statement → statement ≠ .exited →
      System.reaped event = [] → next.messages = c.messages →
      next.children = c.children →
      ∃ new, Sends c event next new := by
    rintro _ rfl runs none messages children
    refine ⟨[], by rw [messages, List.append_nil], by simp, children ▸ nodup, ?_⟩
    intro _ pid member
    rw [children] at member
    exact Or.inl ⟨runs, member, by simp [none]⟩
  cases move with
  | ended exited =>
      exact ⟨[], (List.append_nil _).symm, by simp, nodup,
        fun runs => absurd exited runs⟩
  | @reaped clk pid manager nodes runs run =>
      refine ⟨[], (List.append_nil _).symm, by simp, nodup.erase pid, ?_⟩
      intro _ other member
      obtain ⟨apart, inside⟩ := nodup.mem_erase_iff.mp member
      exact Or.inl ⟨runs, inside, by simpa [System.reaped] using apart⟩
  | interrupted runs =>
      exact ⟨[], (List.append_nil _).symm, by simp, nodup,
        fun runs => absurd rfl runs⟩
  | handedOver statement read posts =>
      exact forked rfl (by simp [statement]) read posts rfl rfl
  | admitted statement read due run assigns posts =>
      exact forked rfl (by simp [statement]) read posts rfl rfl
  | continued statement => exact quiet statement nofun rfl rfl rfl
  | finished statement => exact quiet statement nofun rfl rfl rfl
  | rested statement => exact quiet statement nofun rfl rfl rfl
  | drained statement => exact quiet statement nofun rfl rfl rfl
  | taken statement => exact quiet statement nofun rfl rfl rfl
  | found statement => exact quiet statement nofun rfl rfl rfl
  | gaveUp statement => exact quiet statement nofun rfl rfl rfl
  | allocated statement => exact quiet statement nofun rfl rfl rfl
  | noneLeft statement => exact quiet statement nofun rfl rfl rfl
  | passed statement => exact quiet statement nofun rfl rfl rfl
  | queued statement => exact quiet statement nofun rfl rfl rfl

/-! ### The invariant

A child goes through the hands of both processes: the generator holds its control
block until it is sent, then it is in the message queue, in the ready queue, or
current.  The invariant follows it by its pid.  There are two places where it can
be lost.  A message that fails the check of `check_for_new_processes` is dropped;
and a last signal that finds another process in front takes that one out of the
ready queue.  The two conditions of a run exclude just these.
-/

/-- The scheduler keeps its accounts, and every child that has not exited is in
flight, in the ready queue, or in hand. -/
structure Known (s : System) (items : List Addr) : Prop where
  inOrder : ∃ chains, InOrder s.creation chains
  runtimes : ∀ process ∈ s.creation.processList, InRange process.runtime
  balanced : Balanced s.world items
  charged : s.world.sched.selectedAlgorithm ≠ .srtn → Charged s.world items
  nodup : s.creation.children.Nodup
  known : s.creation.statement ≠ .exited → ∀ pid ∈ s.creation.children,
    pid ∈ s.exited ∨ (∃ pcb ∈ s.world.pcbMessages, pcb.pid = pid) ∨
      ∃ a ∈ items ++ s.world.sched.inHand, s.world.sched.pidAt a = some pid

namespace Known

variable {s next : System} {items : List Addr}

theorem start {processList : List Process}
    (runtimes : ∀ process ∈ processList, InRange process.runtime)
    (clock clkPid schPid : Int) (algorithm : SchedulingAlgorithm)
    (quantum : Int) :
    Known (.start processList clock clkPid schPid algorithm quantum) [] := by
  obtain ⟨balanced, charged⟩ := balanced_init algorithm quantum clock
    (List.forall_mem_nil Sent)
  exact ⟨⟨_, InOrder.start processList clock clkPid schPid⟩, runtimes, balanced,
    fun _ => charged, List.nodup_nil, fun _ _ member => by cases member⟩

/-- A child the scheduler has in hand or in its queue is within its reach. -/
theorem noOrphan (known : Known s items) : s.NoOrphan := by
  intro runs pid child alive _
  rcases known.known runs pid child with gone | inFlight | ⟨a, place, own⟩
  · exact absurd gone alive
  · exact Or.inl inFlight
  · rcases List.mem_append.mp place with waits | held
    · exact Or.inr (Or.inl
        ⟨items, known.balanced.tally.wired.shows.items_eq, a, waits, own⟩)
    · exact Or.inr (Or.inr ⟨a, (Scheduler.mem_inHand.mp held).2, own⟩)

/-- An event of the generator. -/
theorem generator (known : Known s items) {event : CreationEvent}
    (forks : s.Forks (.generator event))
    (run : s.step (.generator event) = .ok next) : Known next items := by
  obtain ⟨chains, inOrder⟩ := known.inOrder
  obtain ⟨creation, stepped, rest⟩ := bind_eq_ok.mp run
  rw [pure_eq_ok, Except.ok.injEq] at rest
  subst rest
  obtain ⟨chains', move, inOrder'⟩ := inOrder.move stepped
  obtain ⟨new, messages, sent, nodup, children⟩ := move.sends known.runtimes
    (by
      rintro reading clk pid rfl
      exact forks) known.nodup
  have arrived : (s.deliver creation).pcbMessages =
      s.world.pcbMessages ++ new := by
    rw [System.deliver, messages, List.drop_left]
  refine ⟨⟨chains', inOrder'⟩, ?_, ⟨known.balanced.tally, ?_,
    known.balanced.preemptive⟩, fun other => ⟨(known.charged other).roster,
      (known.charged other).front⟩, nodup, ?_⟩
  · show ∀ process ∈ creation.processList, InRange process.runtime
    rw [move.processList]
    exact known.runtimes
  · intro pcb member
    rcases List.mem_append.mp member with inFlight | later
    · rw [arrived] at inFlight
      rcases List.mem_append.mp inFlight with before | posted
      · exact known.balanced.sent pcb (List.mem_append_left _ before)
      · exact sent pcb posted
    · exact known.balanced.sent pcb (List.mem_append_right _ later)
  · intro runs pid child
    rcases children runs pid child with
      ⟨ran, older, kept⟩ | ⟨pcb, posted, own⟩
    · rcases known.known ran pid older with gone | ⟨pcb, inFlight, own⟩ | held
      · exact Or.inl (List.mem_diff_of_mem gone kept)
      · refine Or.inr (Or.inl ⟨pcb, ?_, own⟩)
        rw [arrived]
        exact List.mem_append_left _ inFlight
      · exact Or.inr (Or.inr held)
    · refine Or.inr (Or.inl ⟨pcb, ?_, own⟩)
      rw [arrived]
      exact List.mem_append_right _ posted

/-- A process that a phase or a signal finds in the queue or in hand keeps its
pid. -/
theorem pidAt (known : Known s items) {event : Event} {w' : World}
    (move : Move s.world event w') {a : Addr}
    (place : a ∈ items ++ s.world.sched.inHand) :
    w'.sched.pidAt a = s.world.sched.pidAt a := by
  apply move.pidAt
  rcases List.mem_append.mp place with waits | held
  · exact known.balanced.tally.lt_of_mem waits
  · exact known.balanced.tally.lt_of_inHand held

/-- A phase of the scheduler's loop. -/
theorem phase (known : Known s items) {clk : Readings}
    (handles : s.Handles (.phase clk))
    (run : s.step (.phase clk) = .ok next) : ∃ items', Known next items' := by
  obtain ⟨w', stepped, rest⟩ := bind_eq_ok.mp run
  rw [pure_eq_ok, Except.ok.injEq] at rest
  subst rest
  have stepped' : s.world.step (.proceed clk) = .ok w' := stepped
  obtain ⟨items', balanced', charged'⟩ := known.balanced.of_step stepped'
  have move := known.balanced.move stepped'
  have algorithm := known.balanced.algorithm_step stepped'
  refine ⟨items', known.inOrder, known.runtimes, balanced', ?_, known.nodup, ?_⟩
  · intro other
    rw [algorithm] at other
    exact charged' nofun (known.charged other)
  · intro runs pid child
    rcases known.known runs pid child with gone | ⟨pcb, inFlight, own⟩ |
        ⟨a, place, own⟩
    · exact Or.inl gone
    · rcases move.arrives known.balanced balanced' handles inFlight with
        still | ⟨a, waits, pid⟩
      · exact Or.inr (Or.inl ⟨pcb, still, own⟩)
      · exact Or.inr (Or.inr ⟨a, List.mem_append_left _ waits, own ▸ pid⟩)
    · rcases move.stays known.balanced balanced' nofun place with
        still | ⟨⟨_, impossible⟩, _⟩
      · exact Or.inr (Or.inr ⟨a, still, (known.pidAt move place).trans own⟩)
      · cases impossible

/-- A signal of the child that runs. -/
theorem signal (known : Known s items) {clk : Readings}
    (handles : s.Handles (.signal clk))
    (run : s.step (.signal clk) = .ok next) : ∃ items', Known next items' := by
  obtain ⟨w', stepped, rest⟩ := bind_eq_ok.mp run
  rw [pure_eq_ok, Except.ok.injEq] at rest
  subst rest
  have stepped' : s.world.step (.signal clk) = .ok w' := stepped
  obtain ⟨items', balanced', charged'⟩ := known.balanced.of_step stepped'
  have move := known.balanced.move stepped'
  have algorithm := known.balanced.algorithm_step stepped'
  have settled : s.world.sched.selectedAlgorithm ≠ .srtn →
      Settled s.world.sched items := fun other =>
    (known.charged other).settled_of_noShorterWaiting
      fun srtn => absurd srtn other
  have front : (∃ found, Event.signal clk = .signal found) →
      s.world.sched.selectedAlgorithm ≠ .hpf → ∀ a ∈ s.world.ending,
        items.head? = some a := by
    intro _ preemptive a ending
    by_cases srtn : s.world.sched.selectedAlgorithm = .srtn
    · have first := handles srtn a ending
      rw [known.balanced.tally.wired.shows.front_eq, Except.ok.injEq] at first
      exact first
    · apply settled srtn preemptive
      exact (Option.filter_eq_some_iff.mp ending).1
  refine ⟨items', known.inOrder, known.runtimes, balanced', ?_, known.nodup, ?_⟩
  · intro other
    rw [algorithm] at other
    exact charged' (fun _ _ => settled other) (known.charged other)
  · intro runs pid child
    rcases known.known runs pid child with gone | ⟨pcb, inFlight, own⟩ |
        ⟨a, place, own⟩
    · exact Or.inl (List.mem_append_left _ gone)
    · refine Or.inr (Or.inl ⟨pcb, ?_, own⟩)
      cases move with
      | _ => exact inFlight
    · rcases move.stays known.balanced balanced' front place with
        still | ⟨_, ending⟩
      · exact Or.inr (Or.inr ⟨a, still, (known.pidAt move place).trans own⟩)
      · refine Or.inl (List.mem_append_right _ ?_)
        rw [ending, Option.bind_some, own]
        exact List.mem_singleton_self pid

end Known

private def arrival (runtime : Int) : Process :=
  { id := 1, arrivalTime := 0, runtime := runtime, priority := 0,
    memorySize := 1 }

/-- The generator forks a child for the only process and sends its control
block. -/
private def forking : List SystemEvent :=
  List.replicate 3 (.generator (.proceed 0 0 10))

/-- The scheduler receives the control block. -/
private def receiving : List SystemEvent :=
  List.replicate 2 (.phase ⟨0, 0, 0⟩)

end OsSim
