/-
Module: OsSim.SchedulerSrtn
Purpose: The policy of SRTN.  As long as signals are handled in the sleep, the
  heap is ordered by the remaining times, the current process has the shortest,
  and it is preempted for a shorter one only.
Trusted boundary: none
Main exports:
  Shortest, PreemptsForShorter, srtn_policy
-/
import OsSim.SchedulerMoves
import OsSim.SchedulerSignals

namespace OsSim

open PointerMemory
open Trace

/-- Every priority in the heap is the negated remaining time of its process, and
the current process has the least remaining time of all that have been received
and are unfinished. -/
def Shortest (s : Scheduler) : Prop :=
  (∀ entry ∈ s.readyQueue.entries, ∃ n, s.remaining entry.1 = some n ∧
    entry.2 = -n) ∧
  ∀ a, s.currentPcb = some a → ∃ m, s.remaining a = some m ∧
    ∀ b, b < s.received → b ∉ s.finished →
      ∃ n, s.remaining b = some n ∧ m ≤ n

/-- Where the scheduler takes the processor from the current process, a process
that has been received and is unfinished has less time left. -/
def PreemptsForShorter (w : World) : Event → Prop
  | .proceed clk => ∀ w' a, w.step (.proceed clk) = .ok w' →
      w.sched.currentPcb = some a → w'.sched.currentPcb ≠ some a →
        ∃ b m n, b < w.sched.received ∧ b ∉ w.sched.finished ∧
          w.sched.remaining a = some m ∧ w.sched.remaining b = some n ∧ n < m
  | _ => True

section

variable {s : Scheduler} {children : List Int} {items : List Addr}

/-- The key of a waiting process is its remaining time, negated. -/
theorem Roster.sortKey_eq (roster : Roster s children items)
    (other : s.selectedAlgorithm ≠ .rr) {a : Addr} (member : a ∈ items) :
    ∃ n, s.remaining a = some n ∧ s.sortKey a = -n ∧ 0 ≤ n ∧ n < 2 ^ 31 := by
  have tally := roster.tally
  have inside : a < children.length := by
    rw [tally.counted]
    exact tally.lt_of_mem member
  have child := List.getElem?_eq_getElem inside
  have bounds := tally.bounds _ (List.mem_of_getElem? child)
  have own := roster.exact other a _ child
  refine ⟨_, own, ?_, bounds⟩
  rw [Scheduler.sortKey_eq own, wrap_of_inRange]
  constructor <;> omega

/-- Remaining times can be compared by subtraction. -/
theorem Roster.spread (roster : Roster s children items)
    (srtn : s.selectedAlgorithm = .srtn) : Spread s.readyQueue := by
  refine (roster.keyed srtn).spread roster.tally.wired.shows ?_
  intro a left b right
  obtain ⟨m, _, first, _, _⟩ := roster.sortKey_eq (by simp [srtn]) left
  obtain ⟨n, _, second, _, _⟩ := roster.sortKey_eq (by simp [srtn]) right
  rw [first, second]
  constructor <;> omega

/-- With the current process in front of a heap that is in order, it has the
least remaining time. -/
theorem Roster.shortest (roster : Roster s children items)
    (srtn : s.selectedAlgorithm = .srtn) (settled : Settled s items)
    (heaped : Heaped s.readyQueue) : Shortest s := by
  have other : s.selectedAlgorithm ≠ .rr := by simp [srtn]
  have shows := roster.tally.wired.shows
  have keyed := roster.keyed srtn
  have type : s.readyQueue.type = .priorityQueue := by
    rw [roster.tally.wired.type, srtn]
    rfl
  constructor
  · rintro ⟨item, stored⟩ member
    obtain ⟨waits, own⟩ := keyed.entry shows member
    obtain ⟨n, remaining, key, _⟩ := roster.sortKey_eq other waits
    exact ⟨n, remaining, own.trans key⟩
  · intro a runs
    obtain ⟨rest, rfl⟩ := settled.split (by simp [srtn]) runs
    obtain ⟨m, own, first, _⟩ :=
      roster.sortKey_eq other List.mem_cons_self
    refine ⟨m, own, fun b inside alive => ?_⟩
    have waits := roster.waits (by simp [srtn]) inside alive
    obtain ⟨n, remaining, second, _⟩ := roster.sortKey_eq other waits
    have bound := heaped.key_le_front keyed shows type waits
    exact ⟨n, remaining, by omega⟩

end

/-! ### Runs

Three facts together make the current process a shortest one: the heap is in
order, its keys are the remaining times, and the current process is in front.
The first two hold at any time, once remaining times are known to be near enough
to each other to be compared by subtraction.  The third one holds at the end of
an iteration.  In between a shorter process may have come before the current
one, and then the check for preemption finds it and stops the current process.
-/

/-- What runs with signals in the sleep keep: the charged accounts, the order of
the heap, and that a process about to be stopped is not in front. -/
private def Sorted (w : World) : Prop :=
  w.sched.selectedAlgorithm = .srtn ∧ ∃ items, Balanced w items ∧
    Charged w items ∧ Heaped w.sched.readyQueue ∧
    (w.phase = .expire → ∀ a, w.sched.currentPcb = some a →
      items.head? ≠ some a)

/-- The phase that stops the current process is entered from the check that
found another one in front. -/
private theorem Sorted.displaced {w w' : World} {items items' : List Addr}
    {event : Event} (move : Move w event w') (asleep : SleepSignals w event)
    (srtn : w.sched.selectedAlgorithm = .srtn)
    (before : w.phase = .expire → ∀ a, w.sched.currentPcb = some a →
      items.head? ≠ some a)
    (shows : Shows w.sched.readyQueue items)
    (shows' : Shows w'.sched.readyQueue items') (expire : w'.phase = .expire)
    {a : Addr} (runs : w'.sched.currentPcb = some a) :
    items'.head? ≠ some a := by
  cases move with
  | sent =>
      obtain ⟨sched, _, phase⟩ := w.send_sched
      rw [phase] at expire
      rw [sched] at runs shows'
      rw [shows.unique shows']
      exact before expire a runs
  | turned follows =>
      rw [shows.unique shows']
      change _ = _ at expire
      subst expire
      cases phase : w.phase with
      | running =>
          rw [World.Follows, phase] at follows
          rcases follows with ⟨_, impossible⟩ | ⟨_, _, b, c, current, front, other⟩
          · cases impossible
          · rw [shows.front_eq, Except.ok.injEq] at front
            have same : some b = some a := current.symm.trans runs
            rw [front]
            intro equal
            rw [← same] at equal
            exact other (Option.some.inj equal)
      | loopTest =>
          simp only [World.Follows, phase] at follows
          cases continues : w.sched.loopContinues <;> simp [continues] at follows
      | _ =>
          rw [World.Follows, phase] at follows
          simp at follows
  | rejected phase messages invalid => cases expire
  | received phase messages valid entered =>
      rw [phase] at expire
      cases expire
  | dispatched phase idle live took => cases expire
  | redispatched phase hpf idle live took => cases expire
  | clipped phase rr current live used =>
      rw [rr] at srtn
      cases srtn
  | expired phase current live rotated kept => cases expire
  | checked phase => cases expire
  | silent none =>
      rw [shows.unique shows']
      exact before expire a runs
  | ticked current live child more kept rekeyed =>
      have sleeping := asleep.1
      rw [sleeping] at expire
      cases expire
  | finished current live child kept removed => cases runs

private theorem Sorted.step {w : World} (sorted : Sorted w) {event : Event}
    (asleep : SleepSignals w event) :
    ∃ w', w.step event = .ok w' ∧ Sorted w' := by
  obtain ⟨srtn, items, balanced, charged, heaped, displaced⟩ := sorted
  obtain ⟨w', items', run, balanced', kept⟩ := balanced.step event
  have move := balanced.move run
  have srtn' : w'.sched.selectedAlgorithm = .srtn :=
    (balanced.algorithm_step run).trans srtn
  have charged' : Charged w' items' := by
    refine kept (fun clk same => charged.settled ?_) charged
    subst same
    rw [asleep.1]
    rfl
  refine ⟨w', run, srtn', items', balanced', charged',
    move.heaped (by simp [srtn]) (charged.roster.spread srtn)
      (charged'.roster.spread srtn') heaped, fun expire a runs => ?_⟩
  exact Sorted.displaced move asleep srtn displaced balanced.tally.wired.shows
    balanced'.tally.wired.shows expire runs

/-- A process that loses the processor to the scheduler is stopped by an
expiration. -/
theorem Move.stopped {w w' : World} {clk : Readings} {a : Addr}
    (move : Move w (.proceed clk) w') (runs : w.sched.currentPcb = some a)
    (stops : w'.sched.currentPcb ≠ some a) : w.phase = .expire := by
  cases move with
  | expired phase current live rotated kept => exact phase
  | dispatched phase idle live took =>
      rw [idle] at runs
      cases runs
  | redispatched phase hpf idle live took =>
      rw [idle] at runs
      cases runs
  | checked phase =>
      rw [checkNoMoreProcesses_currentPcb] at stops
      exact absurd runs stops
  | turned follows => exact absurd runs stops
  | rejected phase messages invalid => exact absurd runs stops
  | received phase messages valid entered => exact absurd runs stops
  | clipped phase rr current live used => exact absurd runs stops

private theorem Sorted.preempts {w : World} (sorted : Sorted w) (event : Event) :
    PreemptsForShorter w event := by
  cases event with
  | send => trivial
  | signal clk => trivial
  | proceed clk =>
      intro w' a run runs stops
      obtain ⟨srtn, items, balanced, charged, heaped, displaced⟩ := sorted
      have expire := (balanced.move run).stopped runs stops
      have tally := balanced.tally
      rcases charged.front with settled | ⟨_, _, c, b, m, n, current, member,
        first, second, less⟩
      · exact absurd (settled (by simp [srtn]) a runs) (displaced expire a runs)
      · rw [runs, Option.some.injEq] at current
        subst current
        refine ⟨b, n, m, tally.lt_of_mem member, fun done => ?_, first, second,
          less⟩
        exact (List.nodup_append.mp charged.roster.apart).2.2 b
          (List.mem_append_left _ member) b done rfl

/-- In every run under SRTN that handles signals in the sleep only, the current
process is a shortest one at the end of every iteration, and it is preempted for
a shorter one only. -/
theorem srtn_policy (quantum clk : Int) (toSend : List PCB)
    (sent : ∀ pcb ∈ toSend, Sent pcb) (events : List Event)
    (allowed : Along World.step SleepSignals
      (World.init .srtn quantum clk toSend) events) :
    (∃ last, runs World.step (World.init .srtn quantum clk toSend) events =
        .ok last ∧
      (last.phase = .sleep ∨ last.phase = .loopTest → Shortest last.sched)) ∧
    Along World.step PreemptsForShorter (World.init .srtn quantum clk toSend)
      events := by
  obtain ⟨balanced, charged⟩ := balanced_init .srtn quantum clk sent
  have start : Sorted (World.init .srtn quantum clk toSend) :=
    ⟨rfl, [], balanced, charged, initQueue_heaped .srtn,
      fun impossible => by cases impossible⟩
  constructor
  · obtain ⟨last, run, srtn, items, _, charged', heaped, _⟩ := total_of_runs
      (P := Sorted) (fun w event sorted asleep => sorted.step asleep) start
      allowed
    refine ⟨last, run, fun ends =>
      charged'.roster.shortest srtn (charged'.settled ?_) heaped⟩
    rcases ends with asleep | testing
    · rw [asleep]
      rfl
    · rw [testing]
      rfl
  · refine allowed.of_invariant (P := Sorted) ?_
      (fun w event sorted _ => sorted.preempts event) start
    intro w event w' sorted asleep run
    obtain ⟨w'', run', sorted'⟩ := sorted.step asleep
    rw [run, Except.ok.injEq] at run'
    exact run' ▸ sorted'

/-- The long process is dispatched; after a tick the short one is received,
preempts it and finishes. -/
private def preempting : List Event :=
  [.send] ++ List.replicate 6 (.proceed ⟨0, 0, 0⟩) ++
    [.signal ⟨1, 1, 1⟩, .send] ++ List.replicate 14 (.proceed ⟨1, 1, 1⟩) ++
      [.signal ⟨2, 2, 2⟩, .proceed ⟨2, 2, 2⟩]

theorem srtn_policy_sample :
    (∃ last, runs World.step
        (World.init .srtn 1 0 [sampleJob 1 3 0, sampleJob 2 1 0]) preempting = .ok last ∧
      (last.phase = .sleep ∨ last.phase = .loopTest → Shortest last.sched)) ∧
    Along World.step PreemptsForShorter
      (World.init .srtn 1 0 [sampleJob 1 3 0, sampleJob 2 1 0]) preempting :=
  srtn_policy 1 0 [sampleJob 1 3 0, sampleJob 2 1 0] (by decide) preempting
    (by decide +kernel)

end OsSim
