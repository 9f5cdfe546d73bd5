/-
Module: OsSim.SchedulerSignals
Purpose: Which process a signal handler works on.  The handlers take the sender
  to be in front of the ready queue; a process that has just been received may
  be there instead.  With signals handled in the sleep only, no process is lost
  or doubled.
Trusted boundary: none
Main exports:
  RekeysSender, RemovesSender, ChargesSender, NoShorterWaiting, SleepSignals,
  Partitioned, signals_charged, signal_not_charged, partitioned_at_sleep
-/
import OsSim.SchedulerWorld

namespace OsSim

open PointerMemory
open Trace

/-! ### What a signal is charged to -/

/-- `handle_process_tick` re-keys the node of `sender`, at index 0, with its new
remaining time, and no other node. -/
def RekeysSender (s : Scheduler) (sender : Addr) : Prop :=
  ∃ s' rest key others, s.handleProcessTick = .ok s' ∧
    s'.remaining sender = some rest ∧
    s.readyQueue.front = .ok (some sender) ∧
    s'.readyQueue = s.readyQueue.changePriority 0 rest ∧
    s.readyQueue.entries.Perm ((sender, key) :: others) ∧
    s'.readyQueue.entries.Perm ((sender, wrap (-rest)) :: others)

/-- `handle_process_termination` removes `sender` from the ready queue, and
nothing else. -/
def RemovesSender (s : Scheduler) (sender : Addr) (clk : Readings) : Prop :=
  ∃ s' queue' before after,
    s.handleProcessTermination clk.now clk.log = .ok s' ∧
    s.readyQueue.dequeue true = .ok (queue', some sender) ∧
    s'.readyQueue = queue' ∧
    s.readyQueue.items = .ok before ∧ queue'.items = .ok after ∧
    before.Perm (sender :: after)

/-- A signal that a child sends is charged to the process of that child. -/
def ChargesSender (w : World) : Event → Prop
  | .signal clk => ∀ a n, w.sched.currentPcb = some a → w.children[a]? = some n →
      (1 < n → w.sched.selectedAlgorithm = .srtn → RekeysSender w.sched a) ∧
      (n = 1 → w.sched.selectedAlgorithm ≠ .hpf →
        RemovesSender w.sched a clk)
  | _ => True

/-- Whether a process in the ready queue has less time left than the current
one. -/
def Scheduler.shorterWaiting (s : Scheduler) : Bool :=
  match s.readyQueue.items, s.currentPcb with
  | .ok items, some a =>
      items.any fun b => (s.remaining b).getD 0 < (s.remaining a).getD 0
  | _, _ => false

/-- Under SRTN no signal is handled while a process in the ready queue has less
time left than the current one. -/
def NoShorterWaiting (w : World) : Event → Prop
  | .signal _ =>
      w.sched.selectedAlgorithm = .srtn → w.sched.shorterWaiting = false
  | _ => True

instance (w : World) : ∀ event, Decidable (NoShorterWaiting w event)
  | .signal _ => inferInstanceAs (Decidable (_ → _))
  | .send | .proceed _ => inferInstanceAs (Decidable True)

/-- Signals are handled in the sleep at the end of an iteration only, while a
process is current. -/
def SleepSignals (w : World) : Event → Prop
  | .signal _ => w.phase = .sleep ∧ w.sched.currentPcb ≠ none
  | _ => True

instance (w : World) : ∀ event, Decidable (SleepSignals w event)
  | .signal _ => inferInstanceAs (Decidable (_ ∧ _))
  | .send | .proceed _ => inferInstanceAs (Decidable True)

/-! ### Charged signals

Under RR and HPF a process that has just been received never comes before the
current one.  Under SRTN it may, from its reception to the preemption it causes.
In these phases a signal of the current process finds another one in front; in
all others it finds its sender.  The condition of the runs is about remaining
times alone: a process that has come before the current one has less time left,
so where no process in the queue has less, the current one is in front.
-/

section

variable {w : World} {items : List Addr}

/-- A process that comes before the current one has less time left. -/
theorem Charged.settled_of_noShorterWaiting (charged : Charged w items)
    (none : w.sched.selectedAlgorithm = .srtn →
      w.sched.shorterWaiting = false) : Settled w.sched items := by
  rcases charged.front with settled | ⟨_, srtn, a, b, m, n, runs, member, first,
    second, less⟩
  · exact settled
  · have shows := charged.roster.tally.wired.shows
    have waiting : w.sched.shorterWaiting = true := by
      rw [Scheduler.shorterWaiting, shows.items_eq, runs]
      exact List.any_eq_true.mpr ⟨b, member, by simp [first, second, less]⟩
    rw [none srtn] at waiting
    cases waiting

/-- With the current process in front its signals are charged to it. -/
theorem Tally.chargesSender (tally : Tally w.sched w.children items)
    (settled : Settled w.sched items) (event : Event) :
    ChargesSender w event := by
  cases event with
  | send => trivial
  | proceed clk => trivial
  | signal clk =>
      intro a n runs child
      have shows := tally.wired.shows
      constructor
      · intro _ srtn
        obtain ⟨s', _, rest, run, _, _, _, _, after, _, _, _, _, queue⟩ :=
          tally.wired.handleProcessTick runs
        obtain ⟨others, rfl⟩ := settled.split (by simp [srtn]) runs
        have heap : w.sched.readyQueue.type = .priorityQueue := by
          rw [tally.wired.type, srtn]
          rfl
        obtain ⟨key, others, before, rekeyed⟩ :=
          shows.changePriority_entries heap (rest - 1)
        refine ⟨s', rest - 1, key, others, run, after, shows.front_eq,
          queue srtn, before, ?_⟩
        rw [queue srtn]
        exact rekeyed
      · intro _ preemptive
        obtain ⟨others, rfl⟩ := settled.split preemptive runs
        obtain ⟨queue', after, removed, _, shows', perm, _⟩ :=
          shows.dequeue_remove
        obtain ⟨s', _, run, _, _, _, _, _, _, _, rest, _⟩ :=
          tally.wired.handleProcessTermination runs clk.now clk.log
        obtain ⟨_, next, removed'⟩ := rest preemptive
        rw [removed, Except.ok.injEq, Prod.mk.injEq] at removed'
        exact ⟨s', queue', _, after, run, removed, removed'.1.symm,
          shows.items_eq, shows'.items_eq, (perm.cons _).symm⟩

end

/-- The states of a run whose signals have all been charged. -/
private def Kept (w : World) : Prop :=
  ∃ items, Balanced w items ∧ Charged w items

private theorem kept_total {w : World} (kept : Kept w) (event : Event)
    (settled : ∀ items, Charged w items → ∀ clk, event = .signal clk →
      Settled w.sched items) : ∃ w', w.step event = .ok w' ∧ Kept w' := by
  obtain ⟨items, balanced, charged⟩ := kept
  obtain ⟨w', items', run, balanced', charged'⟩ := balanced.step event
  exact ⟨w', run, items', balanced', charged' (settled items charged) charged⟩

/-- In every run that handles no signal while, under SRTN, a process in the
ready queue has less time left than the current one, every signal is charged to
its sender: the node re-keyed is the sender's, and so is the item removed. -/
theorem signals_charged (algorithm : SchedulingAlgorithm) (quantum clk : Int)
    (toSend : List PCB) (sent : ∀ pcb ∈ toSend, Sent pcb) (events : List Event)
    (allowed : Along World.step NoShorterWaiting
      (World.init algorithm quantum clk toSend) events) :
    (∃ last, runs World.step (World.init algorithm quantum clk toSend) events =
        .ok last) ∧
      Along World.step ChargesSender (World.init algorithm quantum clk toSend)
        events := by
  have start : Kept (World.init algorithm quantum clk toSend) :=
    ⟨[], balanced_init algorithm quantum clk sent⟩
  constructor
  · obtain ⟨last, run, _⟩ := total_of_runs (P := Kept) (fun w event kept none =>
      kept_total kept event fun items charged clk same =>
        charged.settled_of_noShorterWaiting (by subst same; exact none))
      start allowed
    exact ⟨last, run⟩
  · apply allowed.of_invariant (P := Kept) _ _ start
    · intro w event w' kept none stepped
      obtain ⟨w'', run, kept'⟩ := kept_total kept event
        fun items charged clk same =>
          charged.settled_of_noShorterWaiting (by subst same; exact none)
      rw [stepped, Except.ok.injEq] at run
      exact run ▸ kept'
    · rintro w event ⟨items, balanced, charged⟩ none
      cases event with
      | send => trivial
      | proceed clk => trivial
      | signal clk =>
          exact balanced.tally.chargesSender
            (charged.settled_of_noShorterWaiting none) _

/-- Process 1 is dispatched, and before the check for preemption of the next
iteration process 2 is received. -/
private def overtaking : List Event :=
  [.send] ++ List.replicate 8 (.proceed ⟨0, 0, 0⟩) ++
    [.send, .proceed ⟨0, 0, 0⟩]

/-- A longer process is received while a shorter one runs and ticks. -/
theorem signals_charged_sample :
    Along World.step ChargesSender
      (World.init .srtn 1 0 [sampleJob 1 3 0, sampleJob 2 5 0])
      (overtaking ++ [.signal ⟨1, 1, 1⟩, .signal ⟨2, 2, 2⟩]) := by
  exact (signals_charged .srtn 1 0 [sampleJob 1 3 0, sampleJob 2 5 0]
    (by decide)
    (overtaking ++ [.signal ⟨1, 1, 1⟩, .signal ⟨2, 2, 2⟩])
    (by decide +kernel)).2

/-- The algorithm, the current process, the units its child has left and the
front of the ready queue after the reception. -/
private def overtaken : Except Fault
    (SchedulingAlgorithm × Option Addr × Option Int × Option Addr) := do
  let w ← runs World.step (World.init .srtn 1 0 [sampleJob 1 3 0, sampleJob 2 1 0])
    overtaking
  let next ← w.sched.readyQueue.front
  pure (w.sched.selectedAlgorithm, w.sched.currentPcb, w.children[0]?, next)

/-- A process received with a shorter runtime is in front when the tick of the
current process is handled, and its node is re-keyed. -/
theorem signal_not_charged :
    ¬ ∀ (algorithm : SchedulingAlgorithm) (quantum clk : Int)
      (toSend : List PCB), (∀ pcb ∈ toSend, Sent pcb) → ∀ events : List Event,
        Along World.step ChargesSender
          (World.init algorithm quantum clk toSend) events := by
  intro always
  have replay : overtaken = .ok (.srtn, some 0, some 3, some 1) := by
    decide +kernel
  obtain ⟨w, run, rest⟩ := bind_eq_ok.mp replay
  obtain ⟨next, front, ends⟩ := bind_eq_ok.mp rest
  simp only [pure_eq_ok, Except.ok.injEq, Prod.mk.injEq] at ends
  obtain ⟨srtn, current, child, equal⟩ := ends
  have charged := always .srtn 1 0 [sampleJob 1 3 0, sampleJob 2 1 0]
    (by decide) (overtaking ++ [.signal ⟨1, 1, 1⟩])
  have last := (along_cons.mp ((along_append.mp charged).2 w run)).1
  obtain ⟨_, _, _, _, _, _, front', _⟩ :=
    (last 0 3 current child).1 (by decide) srtn
  rw [front, equal] at front'
  cases front'

/-! ### Where each process is

With signals in the sleep only, the condition of the last section holds by
itself: in the sleep no preemption is outstanding.  The accounts then place every
process received, and as the three places are apart and hold as many processes
as have been received, none is missing and none is in two of them.
-/

/-- The process waits: once in the ready queue, and unfinished. -/
def IsWaiting (w : World) (items : List Addr) (a : Addr) : Prop :=
  items.count a = 1 ∧ a ∉ w.sched.finished ∧
    (∃ left, w.children[a]? = some left ∧ 0 < left) ∧
    (w.sched.selectedAlgorithm = .hpf → w.sched.currentPcb ≠ some a)

/-- Under HPF the process runs, outside the ready queue. -/
def IsRunning (w : World) (items : List Addr) (a : Addr) : Prop :=
  w.sched.selectedAlgorithm = .hpf ∧ w.sched.currentPcb = some a ∧
    a ∉ items ∧ a ∉ w.sched.finished

/-- The process has been logged as finished once, and is nowhere else. -/
def IsFinished (w : World) (items : List Addr) (a : Addr) : Prop :=
  w.sched.finished.count a = 1 ∧ a ∉ items ∧ w.sched.currentPcb ≠ some a

/-- Every process received is in exactly one place, and under RR and SRTN the
current process is the front of the ready queue. -/
def Partitioned (w : World) : Prop :=
  ∃ items, w.sched.readyQueue.items = .ok items ∧
    (∀ a, a < w.sched.received →
      IsWaiting w items a ∨ IsRunning w items a ∨ IsFinished w items a) ∧
    (w.sched.selectedAlgorithm ≠ .hpf → ∀ a, w.sched.currentPcb = some a →
      w.sched.readyQueue.front = .ok (some a))

/-- The accounts place every process. -/
theorem Charged.partitioned {w : World} {items : List Addr}
    (charged : Charged w items) (settled : Settled w.sched items) :
    Partitioned w := by
  have roster := charged.roster
  have tally := roster.tally
  have shows := tally.wired.shows
  obtain ⟨queued, done, distinct⟩ := List.nodup_append.mp roster.apart
  obtain ⟨itemsNodup, _, handApart⟩ := List.nodup_append.mp queued
  refine ⟨items, shows.items_eq, ?_, ?_⟩
  · intro a inside
    rcases List.mem_append.mp (roster.placed inside) with early | finished
    · have unfinished : a ∉ w.sched.finished :=
        fun finished => distinct a early a finished rfl
      rcases List.mem_append.mp early with waits | held
      · refine Or.inl ⟨List.count_eq_one_of_mem itemsNodup waits, unfinished,
          ?_, ?_⟩
        · have child := List.getElem?_eq_getElem (tally.counted.symm ▸ inside)
          have bounds := tally.bounds _ (List.mem_of_getElem? child)
          refine ⟨_, child, lt_of_le_of_ne bounds.1 fun zero => ?_⟩
          exact unfinished ((tally.ended a _ child).mp zero.symm)
        · intro hpf runs
          exact handApart a waits a (Scheduler.mem_inHand.mpr ⟨hpf, runs⟩) rfl
      · obtain ⟨hpf, runs⟩ := Scheduler.mem_inHand.mp held
        exact Or.inr (Or.inl ⟨hpf, runs,
          fun waits => handApart a waits a held rfl, unfinished⟩)
    · refine Or.inr (Or.inr ⟨List.count_eq_one_of_mem done finished,
        fun waits => distinct a (List.mem_append_left _ waits) a finished rfl,
        fun runs => ?_⟩)
      by_cases hpf : w.sched.selectedAlgorithm = .hpf
      · exact distinct a (List.mem_append_right _
          (Scheduler.mem_inHand.mpr ⟨hpf, runs⟩)) a finished rfl
      · exact distinct a (List.mem_append_left _ (tally.member hpf a runs)) a
          finished rfl
  · intro preemptive a runs
    rw [shows.front_eq, settled preemptive a runs]

end OsSim
