/-
Module: OsSim.SchedulerRr
Purpose: The fairness of RR.  The scheduler is a server that takes the processes
  in turn, and between two dispatches of one process every other one that stays
  in the ready queue is dispatched exactly once.
Trusted boundary: none
Main exports:
  serverOf, Scheduler.waiting, Move.serves, rr_fair
-/
import OsSim.SchedulerMoves
import OsSim.SchedulerSignals
import OsSim.Library.RoundRobin

namespace OsSim

open PointerMemory
open Trace
open RoundRobin

/-- The scheduler as a server: a process is served from its dispatch on, until
it is stopped or ends. -/
def serverOf (s : Scheduler) (items : List Addr) : Server Addr :=
  { queue := items
    serving := s.currentPcb
    turns := s.dispatches
    seen := { a | a < s.received } }

/-- The processes in the ready queue. -/
def Scheduler.waiting (s : Scheduler) : List Addr :=
  match s.readyQueue.items with
  | .ok items => items
  | .error _ => []

section

variable {s s' : Scheduler} {items items' : List Addr}

theorem Scheduler.waiting_eq (shows : Shows s.readyQueue items) :
    s.waiting = items := by
  rw [waiting, shows.items_eq]

/-- Whatever leaves the queue, the current process, the dispatches and the
number of processes alone is nothing to the server. -/
theorem serverOf_congr (shows : Shows s.readyQueue items)
    (shows' : Shows s'.readyQueue items')
    (queue : s'.readyQueue = s.readyQueue)
    (current : s'.currentPcb = s.currentPcb)
    (dispatches : s'.dispatches = s.dispatches)
    (received : s'.received = s.received) :
    Server.Step (serverOf s items) (serverOf s' items') := by
  rw [queue] at shows'
  have same : serverOf s' items' = serverOf s items := by
    rw [serverOf, serverOf, shows.unique shows', current, dispatches, received]
  rw [same]
  exact .same _

end

namespace Move

variable {w w' : World} {items items' : List Addr} {event : Event}

/-- Under RR every event does what the server may do. -/
theorem serves (move : Move w event w') (rr : w.sched.selectedAlgorithm = .rr)
    (shows : Shows w.sched.readyQueue items)
    (type : w.sched.readyQueue.type = .circularQueue)
    (shows' : Shows w'.sched.readyQueue items') (settled : Settled w.sched items) :
    Server.Step (serverOf w.sched items) (serverOf w'.sched items') := by
  have other : w.sched.selectedAlgorithm ≠ .hpf := by simp [rr]
  have running : ∀ {a : Addr}, w.sched.currentPcb = some a →
      ∃ rest, items = a :: rest := settled.split other
  cases move with
  | sent =>
      rw [w.send_sched.1] at shows' ⊢
      exact serverOf_congr shows shows' rfl rfl rfl rfl
  | turned follows => exact serverOf_congr shows shows' rfl rfl rfl rfl
  | rejected phase messages invalid =>
      exact serverOf_congr shows shows' rfl rfl rfl rfl
  | silent none => exact serverOf_congr shows shows' rfl rfl rfl rfl
  | @received clk pcb rest queue phase messages valid entered =>
      obtain ⟨left, right, same, _, shows''⟩ := shows.enqueue_ring type entered
      have seen : { a | a < (w.sched.pcbs.malloc pcb).1.cells.length } =
          insert w.sched.received { a | a < w.sched.received } := by
        ext a
        rw [Mem.length_malloc, Set.mem_ofPred_eq, Set.mem_insert_iff,
          Set.mem_ofPred_eq, Nat.lt_succ_iff_lt_or_eq, or_comm]
        rfl
      have after : serverOf { w.sched with
            pcbs := (w.sched.pcbs.malloc pcb).1, readyQueue := queue } items' =
          ⟨left ++ w.sched.received :: right, w.sched.currentPcb,
            w.sched.dispatches,
            insert w.sched.received { a | a < w.sched.received }⟩ := by
        rw [← seen, shows''.unique shows']
        rfl
      rw [after, serverOf, same]
      exact .arrive w.sched.received (lt_irrefl w.sched.received)
  | @dispatched clk first pcb queue phase idle live took =>
      obtain ⟨rest, same⟩ := shows.front_inv took.1
      have queued := took.2.2 other
      subst queued
      have after : serverOf ((w.sched.accountIdle clk.idle).afterDispatch
              w.sched.readyQueue first pcb clk.now clk.log) items' =
          ⟨items, some first, w.sched.dispatches ++ [first],
            { a | a < w.sched.received }⟩ := by
        rw [serverOf, Scheduler.dispatches_afterDispatch,
          Scheduler.dispatches_accountIdle,
          Scheduler.received_afterDispatch, Scheduler.received_accountIdle,
          ← shows.unique shows']
        rfl
      rw [after, serverOf, idle, same]
      exact .serve first
  | redispatched phase hpf idle live took => exact absurd hpf other
  | clipped phase _ runs live used =>
      exact serverOf_congr shows shows' rfl rfl rfl (Scheduler.received_put rfl)
  | @expired clk a pcb queue phase runs live rotated kept =>
      obtain ⟨next, run⟩ := rotated rr
      obtain ⟨rest, same⟩ := running runs
      rw [same] at shows
      obtain ⟨queue', run', _, shows''⟩ := shows.dequeue_rotate type
      rw [run] at run'
      cases run'
      have after : serverOf (w.sched.afterExpiration queue a pcb clk.now
            clk.log) items' =
          ⟨rest ++ [a], none, w.sched.dispatches,
            { a | a < w.sched.received }⟩ := by
        rw [serverOf, Scheduler.received_put rfl,
          Scheduler.dispatches_afterExpiration, shows''.unique shows']
        rfl
      rw [after, serverOf, runs, same]
      exact .yield a
  | checked phase =>
      exact serverOf_congr shows shows' (by simp) (by simp) (by simp) (by simp)
  | ticked runs live child more kept rekeyed =>
      exact serverOf_congr shows shows' (kept (by simp [rr])) rfl rfl
        (Scheduler.received_put rfl)
  | @finished clk a pcb queue runs live child kept removed =>
      obtain ⟨next, run⟩ := removed other
      obtain ⟨rest, same⟩ := running runs
      rw [same] at shows
      have shows'' := shows.dequeue_ring type run
      have after : serverOf (w.sched.afterTermination queue a pcb clk.now
            clk.log) items' =
          ⟨rest, none, w.sched.dispatches, { a | a < w.sched.received }⟩ := by
        rw [serverOf, Scheduler.received_put rfl,
          Scheduler.dispatches_afterTermination, shows''.unique shows']
        rfl
      rw [after, serverOf, runs, same]
      exact .leave a

end Move

/-! ### Runs

What is fair about RR has nothing to do with control blocks or logs.  It is a
property of a server with one queue, to the end of which a turn that is cut
short leads back, and is proved there.  Here every event of the scheduler is
shown to be a step of that server, most of them one that does nothing.  A process
that is being served stands in front of the ready queue all the while, which is
why the accounts of charged signals are part of the invariant.
-/

/-- What runs under RR keep. -/
private structure InTurn (w : World) (items : List Addr) : Prop where
  rr : w.sched.selectedAlgorithm = .rr
  balanced : Balanced w items
  charged : Charged w items

namespace InTurn

private theorem sound {w : World} {items : List Addr} (inTurn : InTurn w items) :
    (serverOf w.sched items).Sound :=
  ⟨(List.nodup_append.mp (List.nodup_append.mp
      inTurn.charged.roster.apart).1).1,
    fun _ member => inTurn.balanced.tally.lt_of_mem member⟩

private theorem step {w w' : World} {items : List Addr} {event : Event}
    (inTurn : InTurn w items) (run : w.step event = .ok w') :
    ∃ items', InTurn w' items' ∧
      Server.Step (serverOf w.sched items) (serverOf w'.sched items') := by
  obtain ⟨rr, balanced, charged⟩ := inTurn
  obtain ⟨items', balanced', kept⟩ := balanced.of_step run
  have settled : Settled w.sched items :=
    charged.settled_of_noShorterWaiting fun srtn => by
      rw [rr] at srtn
      cases srtn
  have type : w.sched.readyQueue.type = .circularQueue := by
    rw [balanced.tally.wired.type, rr]
    rfl
  exact ⟨items', ⟨(balanced.algorithm_step run).trans rr, balanced',
    kept (fun _ _ => settled) charged⟩, (balanced.move run).serves rr
      balanced.tally.wired.shows type balanced'.tally.wired.shows settled⟩

/-- A run under RR is a run of the server. -/
private theorem run {w w' : World} {items : List Addr} {events : List Event}
    (inTurn : InTurn w items) (run : runs World.step w events = .ok w') :
    ∃ items', InTurn w' items' ∧ Relation.ReflTransGen Server.Step
      (serverOf w.sched items) (serverOf w'.sched items') := by
  refine invariant_of_steps (P := fun v => ∃ items', InTurn v items' ∧
    Relation.ReflTransGen Server.Step (serverOf w.sched items)
      (serverOf v.sched items')) ?_ ⟨items, inTurn, .refl⟩ run
  rintro v event v' ⟨items', inTurn', since⟩ stepped
  obtain ⟨items'', inTurn'', serves⟩ := inTurn'.step stepped
  exact ⟨items'', inTurn'', since.tail serves⟩

private theorem waiting {w : World} {items : List Addr}
    (inTurn : InTurn w items) : w.sched.waiting = items :=
  Scheduler.waiting_eq inTurn.balanced.tally.wired.shows

end InTurn

/-- In every run under RR, between two dispatches of one process that follow
each other every other process that stays in the ready queue is dispatched
exactly once. -/
theorem rr_fair (quantum clk : Int) (toSend : List PCB)
    (sent : ∀ pcb ∈ toSend, Sent pcb) (before middle : List Event)
    (first last : Event) (w₀ w₁ w₂ w₃ : World) (p q : Addr) (turns : List Addr)
    (reached : runs World.step (World.init .rr quantum clk toSend) before =
      .ok w₀)
    (begins : w₀.step first = .ok w₁)
    (dispatched : w₁.sched.dispatches = w₀.sched.dispatches ++ [p])
    (run : runs World.step w₁ middle = .ok w₂)
    (between : w₂.sched.dispatches = w₁.sched.dispatches ++ turns)
    (consecutive : p ∉ turns)
    (ends : w₂.step last = .ok w₃)
    (again : w₃.sched.dispatches = w₂.sched.dispatches ++ [p])
    (other : q ≠ p)
    (waits : Along World.step (fun w _ => q ∈ w.sched.waiting) w₁
      (middle ++ [last])) :
    turns.count q = 1 := by
  obtain ⟨balanced, charged⟩ := balanced_init .rr quantum clk sent
  have start : InTurn (World.init .rr quantum clk toSend) [] :=
    ⟨rfl, balanced, charged⟩
  obtain ⟨items₀, inTurn₀, _⟩ := start.run reached
  obtain ⟨items₁, inTurn₁, step₁⟩ := inTurn₀.step begins
  obtain ⟨items₂, inTurn₂, since⟩ := inTurn₁.run run
  obtain ⟨items₃, _, step₃⟩ := inTurn₂.step ends
  obtain ⟨_, serving, kept, _, head⟩ := step₁.begins dispatched
  obtain ⟨idle, _, _, rest, front⟩ := step₃.begins again
  obtain ⟨waitsFirst, waitsLast⟩ := along_append.mp waits
  have inFront : p ∈ items₁ := by
    show p ∈ (serverOf w₁.sched items₁).queue
    rw [kept, head]
    exact List.mem_cons_self
  have waits₂ : q ∈ items₂ := by
    rw [← inTurn₂.waiting]
    exact (along_cons.mp (waitsLast w₂ run)).1
  have waits₁ : q ∈ items₁ := by
    rw [← inTurn₁.waiting]
    cases middle with
    | nil => exact (along_cons.mp (waitsLast w₁ rfl)).1
    | cons event events => exact (along_cons.mp waitsFirst).1
  exact Server.fair since inTurn₁.sound other serving inFront waits₁ idle front
    waits₂ between consecutive

private def phases (n : Nat) : List Event := List.replicate n (.proceed ⟨0, 0, 0⟩)

/-- Two of the processes are received before the first dispatch. -/
private def opening : List Event := [.send, .send] ++ phases 4

/-- The third one is received in the first turn; every turn ends with a tick. -/
private def round : List Event :=
  phases 2 ++ [.signal ⟨0, 0, 0⟩, .send] ++ phases 14 ++ [.signal ⟨0, 0, 0⟩] ++
    phases 13 ++ [.signal ⟨0, 0, 0⟩] ++ phases 10

private def worldAfter (events : List Event) : World :=
  let start := World.init .rr 1 0 [sampleJob 1 3 0, sampleJob 2 3 0, sampleJob 3 3 0]
  match runs World.step start events with
  | .ok w => w
  | .error _ => start

theorem rr_fair_sample :
    (worldAfter (opening ++ phases 1 ++ round ++ phases 1)).sched.dispatches =
      [0, 1, 2, 0] ∧ List.count 1 [1, 2] = 1 :=
  ⟨by decide +kernel,
    rr_fair 1 0 [sampleJob 1 3 0, sampleJob 2 3 0, sampleJob 3 3 0]
      (by decide) opening round (.proceed ⟨0, 0, 0⟩) (.proceed ⟨0, 0, 0⟩)
      (worldAfter opening) (worldAfter (opening ++ phases 1))
      (worldAfter (opening ++ phases 1 ++ round))
      (worldAfter (opening ++ phases 1 ++ round ++ phases 1)) 0 1 [1, 2]
      (by decide +kernel) (by decide +kernel) (by decide +kernel)
      (by decide +kernel) (by decide +kernel) (by decide) (by decide +kernel)
      (by decide +kernel) (by decide) (by decide +kernel)⟩

end OsSim
