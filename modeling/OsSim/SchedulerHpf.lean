/-
Module: OsSim.SchedulerHpf
Purpose: The policy of HPF.  Whenever signals are handled, a process that is
  dispatched has a least priority number among those not dispatched before, and
  it stays current until its own last signal.
Trusted boundary: none
Main exports:
  Scheduler.priorityOf, DispatchesHighest, KeepsCurrent, hpf_policy
-/
import OsSim.SchedulerMoves

namespace OsSim

open PointerMemory
open Trace

namespace Scheduler

/-- The priority number of a process. -/
def priorityOf (s : Scheduler) (a : Addr) : Option Int :=
  (s.origin a).map fun received => received.2.priority

/-- The key of a process in the heap. -/
def rank (s : Scheduler) (a : Addr) : Int := wrap (-(s.priorityOf a).getD 0)

end Scheduler

/-- The event dispatches no process, or one that was not dispatched before and
whose priority number is minimal among all processes received and not yet
dispatched; that one becomes current. -/
def DispatchesHighest (w : World) (event : Event) : Prop :=
  ∀ w', w.step event = .ok w' → w'.sched.dispatches = w.sched.dispatches ∨
    ∃ first m, w'.sched.dispatches = w.sched.dispatches ++ [first] ∧
      w'.sched.currentPcb = some first ∧ first ∉ w.sched.dispatches ∧
      w.sched.priorityOf first = some m ∧
      ∀ b, b < w.sched.received → b ∉ w.sched.dispatches →
        ∃ n, w.sched.priorityOf b = some n ∧ m ≤ n

/-- The current process stays current, unless the event is its last signal. -/
def KeepsCurrent (w : World) (event : Event) : Prop :=
  ∀ w' a, w.step event = .ok w' → w.sched.currentPcb = some a →
    w'.sched.currentPcb = some a ∨
      ∃ clk, event = .signal clk ∧ w.children[a]? = some 1

/-- A priority number less than `2 ^ 30` in absolute value. -/
def SmallPriority (pcb : PCB) : Prop :=
  -2 ^ 30 < pcb.pdata.priority ∧ pcb.pdata.priority < 2 ^ 30

instance (pcb : PCB) : Decidable (SmallPriority pcb) :=
  inferInstanceAs (Decidable (_ ∧ _))

/-! ### The processes not yet dispatched

Under HPF a process leaves the ready queue with its dispatch and does not come
back.  The processes in the queue are therefore those received and not yet
dispatched, whatever signals are handled in the meantime, since the handlers do
not touch the queue.  With the heap in order its front has a least priority
number among them.
-/

/-- What runs under HPF keep: the heap is in order and keyed by the priorities,
and every process received waits or has been dispatched, once. -/
structure Ranked (w : World) (items : List Addr) : Prop where
  balanced : Balanced w items
  hpf : w.sched.selectedAlgorithm = .hpf
  heaped : Heaped w.sched.readyQueue
  keyed : KeyedBy w.sched.readyQueue w.sched.rank
  apart : (items ++ w.sched.dispatches).Nodup
  places : ∀ a, a ∈ items ++ w.sched.dispatches ↔ a < w.sched.received
  small : ∀ a, a < w.sched.received → ∃ n, w.sched.priorityOf a = some n ∧
    -2 ^ 30 < n ∧ n < 2 ^ 30
  messages : ∀ pcb ∈ w.pcbMessages ++ w.toSend, SmallPriority pcb

namespace Ranked

variable {w w' : World} {items items' : List Addr} {event : Event}

/-- The key of a process is its priority number, negated. -/
theorem rank_eq {s : Scheduler} {a : Addr} {n : Int}
    (own : s.priorityOf a = some n) (small : -2 ^ 30 < n ∧ n < 2 ^ 30) :
    s.rank a = -n := by
  rw [Scheduler.rank, own, Option.getD_some, wrap_of_inRange]
  constructor <;> omega

/-- Small priorities can be compared by subtraction. -/
theorem spread {s : Scheduler} (shows : Shows s.readyQueue items)
    (keyed : KeyedBy s.readyQueue s.rank)
    (inside : ∀ a ∈ items, a < s.received)
    (small : ∀ a, a < s.received → ∃ n, s.priorityOf a = some n ∧
      -2 ^ 30 < n ∧ n < 2 ^ 30) : Spread s.readyQueue := by
  apply keyed.spread shows
  intro a left b right
  obtain ⟨m, first, smallFirst⟩ := small a (inside a left)
  obtain ⟨n, second, smallSecond⟩ := small b (inside b right)
  rw [rank_eq first smallFirst, rank_eq second smallSecond]
  constructor <;> omega

/-- An event that adds no process keeps the ranks, if it takes processes from
the queue only to dispatch them. -/
theorem keep (ranked : Ranked w items) (move : Move w event w')
    (balanced' : Balanced w' items') (hpf : w'.sched.selectedAlgorithm = .hpf)
    (received : w'.sched.received = w.sched.received)
    (keyed : ∀ key, KeyedBy w.sched.readyQueue key →
      KeyedBy w'.sched.readyQueue key)
    (parts : (items' ++ w'.sched.dispatches).Perm
      (items ++ w.sched.dispatches)) : Ranked w' items' := by
  have tally := ranked.balanced.tally
  have tally' := balanced'.tally
  have origin : ∀ a, a < w.sched.received →
      w'.sched.priorityOf a = w.sched.priorityOf a := by
    intro a inside
    rw [Scheduler.priorityOf, move.origin inside, Scheduler.priorityOf]
  have small : ∀ a, a < w'.sched.received →
      ∃ n, w'.sched.priorityOf a = some n ∧ -2 ^ 30 < n ∧ n < 2 ^ 30 := by
    intro a inside
    rw [received] at inside
    rw [origin a inside]
    exact ranked.small a inside
  have keyed' : KeyedBy w'.sched.readyQueue w'.sched.rank := by
    apply (keyed _ ranked.keyed).congr tally'.wired.shows
    intro a member
    have inside := tally'.lt_of_mem member
    rw [received] at inside
    rw [Scheduler.rank, origin a inside, Scheduler.rank]
  have before := spread tally.wired.shows ranked.keyed
    (fun a member => tally.lt_of_mem member) ranked.small
  have after := spread tally'.wired.shows keyed'
    (fun a member => tally'.lt_of_mem member) small
  refine ⟨balanced', hpf,
    move.heaped (by simp [ranked.hpf]) before after ranked.heaped, keyed',
    parts.nodup_iff.mpr ranked.apart, fun a => ?_, small,
    fun pcb member => ranked.messages pcb (move.messages pcb member)⟩
  rw [parts.mem_iff, received]
  exact ranked.places a

/-- The front of the queue moves from the queue to the processes dispatched. -/
theorem taken (ranked : Ranked w items) {first : Addr} {queue : IQueue Addr}
    (took : w.sched.Took first queue) (shows' : Shows queue items') :
    (items' ++ (w.sched.dispatches ++ [first])).Perm
        (items ++ w.sched.dispatches) ∧
      ∀ key, KeyedBy w.sched.readyQueue key → KeyedBy queue key := by
  obtain ⟨front, hpf, _⟩ := took
  have shows := ranked.balanced.tally.wired.shows
  obtain ⟨rest, rfl⟩ := shows.front_inv front
  obtain ⟨queue', items'', run, _, shows'', perm, keyed⟩ :=
    shows.dequeue_remove
  rw [hpf ranked.hpf, Except.ok.injEq, Prod.mk.injEq] at run
  rw [← run.1] at shows'' keyed
  rw [shows'.unique shows''] at perm
  refine ⟨?_, keyed⟩
  rw [← List.append_assoc]
  exact (List.perm_append_singleton _ _).trans
    ((perm.append_right _).cons _)

/-- The front has a least priority number among the processes not yet
dispatched. -/
theorem front_highest (ranked : Ranked w items) {first : Addr}
    (front : w.sched.readyQueue.front = .ok (some first)) :
    first ∉ w.sched.dispatches ∧
      ∃ m, w.sched.priorityOf first = some m ∧
        ∀ b, b < w.sched.received → b ∉ w.sched.dispatches →
          ∃ n, w.sched.priorityOf b = some n ∧ m ≤ n := by
  have tally := ranked.balanced.tally
  have shows := tally.wired.shows
  have type : w.sched.readyQueue.type = .priorityQueue := by
    rw [tally.wired.type, ranked.hpf]
    rfl
  obtain ⟨rest, rfl⟩ := shows.front_inv front
  obtain ⟨m, own, small⟩ :=
    ranked.small first (tally.lt_of_mem List.mem_cons_self)
  refine ⟨fun done => ?_, m, own, fun b inside fresh => ?_⟩
  · exact (List.nodup_append.mp ranked.apart).2.2 first
      List.mem_cons_self first done rfl
  · obtain ⟨n, theirs, small'⟩ := ranked.small b inside
    have waits : b ∈ first :: rest := by
      rcases List.mem_append.mp ((ranked.places b).mpr inside) with
        waits | done
      · exact waits
      · exact absurd done fresh
    have bound := ranked.heaped.key_le_front ranked.keyed shows type waits
    rw [rank_eq own small, rank_eq theirs small'] at bound
    exact ⟨n, theirs, by omega⟩

/-- A message adds a process that waits. -/
theorem received (ranked : Ranked w items) (clk : Readings) {pcb : PCB}
    {rest : List PCB} {queue : IQueue Addr} (phase : w.phase = .receive)
    (messages : w.pcbMessages = pcb :: rest) (valid : validPcb pcb = true)
    (entered : w.sched.readyQueue.enqueue w.sched.received
      (enqueuePriority w.sched.selectedAlgorithm pcb) = .ok queue)
    (w' : World) (same : w' = { w with
      sched := { w.sched with
        pcbs := (w.sched.pcbs.malloc pcb).1
        readyQueue := queue }
      pcbMessages := rest
      children := w.children ++ [pcb.pdata.runtime] })
    (balanced' : Balanced w' items') : Ranked w' items' := by
  have move : Move w (.proceed clk) w' :=
    same ▸ Move.received phase messages valid entered
  have tally := ranked.balanced.tally
  have tally' := balanced'.tally
  have hpf : w'.sched.selectedAlgorithm = .hpf := by
    rw [same]
    exact ranked.hpf
  have grown : w'.sched.received = w.sched.received + 1 := by
    rw [same]
    exact Mem.length_malloc w.sched.pcbs pcb
  have own : w'.sched.priorityOf w.sched.received = some pcb.pdata.priority := by
    have loaded : (w.sched.pcbs.malloc pcb).1.load w.sched.received = some pcb :=
      Mem.load_malloc_self w.sched.pcbs pcb
    rw [same, Scheduler.priorityOf, Scheduler.origin, loaded]
    rfl
  have origin : ∀ a, a < w.sched.received →
      w'.sched.priorityOf a = w.sched.priorityOf a := by
    intro a inside
    rw [Scheduler.priorityOf, move.origin inside, Scheduler.priorityOf]
  have smallPriority := ranked.messages pcb
    (List.mem_append_left _ (messages ▸ List.mem_cons_self))
  have small : ∀ a, a < w'.sched.received →
      ∃ n, w'.sched.priorityOf a = some n ∧ -2 ^ 30 < n ∧ n < 2 ^ 30 := by
    intro a inside
    rw [grown] at inside
    rcases Nat.lt_succ_iff_lt_or_eq.mp inside with old | new
    · rw [origin a old]
      exact ranked.small a old
    · rw [new]
      exact ⟨_, own, smallPriority⟩
  obtain ⟨queue', items'', run, _, shows'', perm, _⟩ :=
    tally.wired.shows.enqueue w.sched.received
      (enqueuePriority w.sched.selectedAlgorithm pcb)
  rw [entered, Except.ok.injEq] at run
  subst run
  have shows' : Shows queue items' := by
    have shows := tally'.wired.shows
    rw [same] at shows
    exact shows
  rw [← shows''.unique shows'] at perm
  have dispatches : w'.sched.dispatches = w.sched.dispatches := by
    rw [same]
    rfl
  have parts : (items' ++ w'.sched.dispatches).Perm
      (w.sched.received :: (items ++ w.sched.dispatches)) := by
    rw [dispatches, ← List.cons_append]
    exact perm.append_right _
  have keyed' : KeyedBy w'.sched.readyQueue w'.sched.rank := by
    have old : KeyedBy w.sched.readyQueue w'.sched.rank := by
      apply ranked.keyed.congr tally.wired.shows
      intro a member
      rw [Scheduler.rank, origin a (tally.lt_of_mem member), Scheduler.rank]
    have run : w.sched.readyQueue.enqueue w.sched.received
        (enqueuePriority w.sched.selectedAlgorithm pcb) =
          .ok w'.sched.readyQueue := by
      rw [entered, same]
    apply old.enqueue _ run
    intro _
    rw [Scheduler.rank, own, ranked.hpf]
    rfl
  have before := spread tally.wired.shows ranked.keyed
    (fun a member => tally.lt_of_mem member) ranked.small
  have after := spread tally'.wired.shows keyed'
    (fun a member => tally'.lt_of_mem member) small
  refine ⟨balanced', hpf,
    move.heaped (by simp [ranked.hpf]) before after ranked.heaped, keyed',
    parts.nodup_iff.mpr (List.nodup_cons.mpr ⟨?_, ranked.apart⟩), fun a => ?_,
    small, fun pcb member => ranked.messages pcb (move.messages pcb member)⟩
  · intro member
    exact Nat.lt_irrefl _ ((ranked.places _).mp member)
  · rw [parts.mem_iff, List.mem_cons, grown, ranked.places a]
    exact or_comm.trans Nat.lt_succ_iff_lt_or_eq.symm

/-- Every event keeps the ranks. -/
theorem step (ranked : Ranked w items) (move : Move w event w')
    (balanced' : Balanced w' items')
    (hpf : w'.sched.selectedAlgorithm = .hpf) : Ranked w' items' := by
  have shows := ranked.balanced.tally.wired.shows
  have shows' := balanced'.tally.wired.shows
  -- Where the queue and the dispatches stay, the items do.
  have quiet : w'.sched.received = w.sched.received →
      w'.sched.readyQueue = w.sched.readyQueue →
      w'.sched.dispatches = w.sched.dispatches → Ranked w' items' := by
    intro received queue dispatches
    refine ranked.keep move balanced' hpf received
      (fun key keyed => queue ▸ keyed) ?_
    rw [queue] at shows'
    rw [dispatches, shows.unique shows']
  cases move with
  | sent =>
      obtain ⟨sched, _⟩ := w.send_sched
      exact quiet (by rw [sched]) (by rw [sched]) (by rw [sched])
  | turned follows => exact quiet rfl rfl rfl
  | rejected phase messages invalid => exact quiet rfl rfl rfl
  | @received clk pcb rest queue phase messages valid entered =>
      exact ranked.received clk phase messages valid entered _ rfl balanced'
  | @dispatched clk first pcb queue phase idle live took =>
      obtain ⟨parts, keyed⟩ := ranked.taken took shows'
      refine ranked.keep (.dispatched phase idle live took) balanced' hpf
        (by simp) keyed ?_
      rw [Scheduler.dispatches_afterDispatch, Scheduler.dispatches_accountIdle]
      exact parts
  | redispatched phase algorithm idle live took =>
      obtain ⟨parts, keyed⟩ := ranked.taken took shows'
      refine ranked.keep (.redispatched phase algorithm idle live took) balanced'
        hpf (Scheduler.received_put rfl) keyed ?_
      rw [Scheduler.dispatches_afterDispatch]
      exact parts
  | clipped phase rr runs live used =>
      have both := ranked.hpf
      rw [rr] at both
      cases both
  | expired phase runs live rotated kept =>
      exact absurd ranked.hpf (ranked.balanced.preemptive phase)
  | checked phase =>
      exact quiet (by simp) (by simp) (by simp)
  | silent none => exact quiet rfl rfl rfl
  | ticked runs live child more kept rekeyed =>
      have other : w.sched.selectedAlgorithm ≠ .srtn := by simp [ranked.hpf]
      exact quiet (Scheduler.received_put rfl) (kept other) rfl
  | @finished clk a pcb queue runs live child kept removed =>
      exact quiet (Scheduler.received_put rfl) (kept ranked.hpf)
        (Scheduler.dispatches_afterTermination ..)

/-- An event dispatches a process of least priority number, or none. -/
theorem dispatches_highest (ranked : Ranked w items) (event : Event) :
    DispatchesHighest w event := by
  intro w' run
  have move := ranked.balanced.move run
  cases move with
  | sent => exact Or.inl (by rw [w.send_sched.1])
  | @dispatched clk first pcb queue phase idle live took =>
      obtain ⟨fresh, m, own, least⟩ := ranked.front_highest took.1
      refine Or.inr ⟨first, m, ?_, rfl, fresh, own, least⟩
      rw [Scheduler.dispatches_afterDispatch, Scheduler.dispatches_accountIdle]
  | @redispatched clk first pcb queue phase algorithm idle live took =>
      obtain ⟨fresh, m, own, least⟩ := ranked.front_highest took.1
      exact Or.inr ⟨first, m, Scheduler.dispatches_afterDispatch .., rfl, fresh,
        own, least⟩
  | expired phase runs live rotated kept =>
      exact absurd ranked.hpf (ranked.balanced.preemptive phase)
  | checked phase =>
      exact Or.inl (by simp)
  | @finished clk a pcb queue runs live child kept removed =>
      exact Or.inl (Scheduler.dispatches_afterTermination ..)
  | _ => exact Or.inl rfl

/-- Only its own last signal ends the time of the current process. -/
theorem keeps_current (ranked : Ranked w items) (event : Event) :
    KeepsCurrent w event := by
  intro w' a run runs
  have move := ranked.balanced.move run
  cases move with
  | sent =>
      rw [w.send_sched.1]
      exact Or.inl runs
  | dispatched phase idle live took =>
      rw [idle] at runs
      cases runs
  | redispatched phase algorithm idle live took =>
      rw [idle] at runs
      cases runs
  | expired phase current live rotated kept =>
      exact absurd ranked.hpf (ranked.balanced.preemptive phase)
  | checked phase =>
      exact Or.inl (by simpa using runs)
  | finished current live child kept removed =>
      rw [runs, Option.some.injEq] at current
      subst current
      exact Or.inr ⟨_, rfl, child⟩
  | _ => exact Or.inl runs

end Ranked

theorem ranked_init (quantum clk : Int) {toSend : List PCB}
    (sent : ∀ pcb ∈ toSend, Sent pcb)
    (small : ∀ pcb ∈ toSend, SmallPriority pcb) :
    Ranked (World.init .hpf quantum clk toSend) [] := by
  refine ⟨(balanced_init .hpf quantum clk sent).1, rfl, initQueue_heaped .hpf,
    initQueue_keyedBy .hpf _, List.nodup_nil, fun a => ?_, fun a inside => ?_,
    small⟩
  · constructor
    · intro impossible
      cases impossible
    · intro impossible
      cases impossible
  · cases inside

/-- In every run under HPF, whenever its signals are handled, the processes
dispatched are pairwise distinct, each had a least priority number among those
received and not yet dispatched, and each stays current until its own last
signal. -/
theorem hpf_policy (quantum clk : Int) (toSend : List PCB)
    (sent : ∀ pcb ∈ toSend, Sent pcb)
    (small : ∀ pcb ∈ toSend, SmallPriority pcb) (events : List Event) :
    (∃ last, runs World.step (World.init .hpf quantum clk toSend) events =
        .ok last ∧ last.sched.dispatches.Nodup) ∧
    Along World.step DispatchesHighest (World.init .hpf quantum clk toSend)
      events ∧
    Along World.step KeepsCurrent (World.init .hpf quantum clk toSend)
      events := by
  let P : World → Prop := fun w => ∃ items, Ranked w items
  have start : P (World.init .hpf quantum clk toSend) :=
    ⟨[], ranked_init quantum clk sent small⟩
  have total : ∀ w event, P w → ∃ w', w.step event = .ok w' ∧ P w' := by
    rintro w event ⟨items, ranked⟩
    obtain ⟨w', items', run, balanced', _⟩ := ranked.balanced.step event
    exact ⟨w', run, items', ranked.step (ranked.balanced.move run) balanced'
      ((ranked.balanced.algorithm_step run).trans ranked.hpf)⟩
  have free : Along World.step (fun _ _ => True)
      (World.init .hpf quantum clk toSend) events :=
    along_of_forall (fun _ _ => trivial) _ _
  have preserved : ∀ w event w', P w → True → w.step event = .ok w' → P w' := by
    intro w event w' holds _ run
    obtain ⟨w'', run', kept⟩ := total w event holds
    rw [run, Except.ok.injEq] at run'
    exact run' ▸ kept
  refine ⟨?_, ?_, ?_⟩
  · obtain ⟨last, run, items, ranked⟩ := total_of_steps total start events
    exact ⟨last, run, (List.nodup_append.mp ranked.apart).2.1⟩
  · refine free.of_invariant preserved ?_ start
    rintro w event ⟨items, ranked⟩ _
    exact ranked.dispatches_highest event
  · refine free.of_invariant preserved ?_ start
    rintro w event ⟨items, ranked⟩ _
    exact ranked.keeps_current event

/-- Two processes are received together and dispatched one after the other. -/
private def takingTurns : List Event :=
  [.send, .send] ++ List.replicate 5 (.proceed ⟨0, 0, 0⟩) ++
    [.signal ⟨1, 1, 1⟩] ++ List.replicate 6 (.proceed ⟨1, 1, 1⟩)

theorem hpf_policy_sample :
    (∃ last, runs World.step
        (World.init .hpf 1 0 [sampleJob 1 1 5, sampleJob 2 1 1]) takingTurns = .ok last ∧
      last.sched.dispatches.Nodup) ∧
    Along World.step DispatchesHighest
      (World.init .hpf 1 0 [sampleJob 1 1 5, sampleJob 2 1 1]) takingTurns ∧
    Along World.step KeepsCurrent
      (World.init .hpf 1 0 [sampleJob 1 1 5, sampleJob 2 1 1]) takingTurns :=
  hpf_policy 1 0 [sampleJob 1 1 5, sampleJob 2 1 1]
    (by decide) (by decide) takingTurns

end OsSim
