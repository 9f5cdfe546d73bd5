/-
Module: OsSim.EndToEnd
Purpose: The whole simulation, from the input list to the finished processes: the
  generator admits every process once, the message queue carries it to the
  scheduler, and when the scheduler's loop ends each of them has finished once.
Trusted boundary: none
Main exports:
  Scheduler.finishedProcesses, System.Served, System.Serves, Serving,
  every_process_served
-/
import OsSim.Orphans
import OsSim.AdmittedOnce
import OsSim.SchedulerShutdown
import OsSim.SchedulerTrace
import Mathlib.Data.List.Perm.Basic

namespace OsSim

open PointerMemory
open Trace

/-- The processes that `scheduler.log` calls finished, one for each such line. -/
def Scheduler.finishedProcesses (s : Scheduler) : List Process :=
  (s.schedulerLog.filter fun line =>
    line.snapshot.state = some .finished).map fun line => line.snapshot.pdata

namespace System

/-- Every process of the input list has been sent once and has finished once, no
message is left, and no child has a unit left. -/
structure Served (processList : List Process) (s : System) : Prop where
  sent : (s.creation.messages.map PCB.pdata).Perm processList
  drained : s.world.pcbMessages = []
  finished : s.world.sched.finishedProcesses.Perm processList
  spent : ∀ left ∈ s.world.children, left = 0

/-- Forks succeed with new pids, and child exits are handled between two rounds;
and around the end of input the scheduler stays busy. -/
def Serves (s : System) : SystemEvent → Prop
  | .generator event => s.creation.BetweenRounds event ∧ s.creation.FreshPids event
  | .phase clk => StaysBusy s.world (.proceed clk)
  | .signal clk => StaysBusy s.world (.signal clk)

instance (s : System) : ∀ event, Decidable (s.Serves event)
  | .generator _ => inferInstanceAs (Decidable (_ ∧ _))
  | .phase clk => inferInstanceAs (Decidable (StaysBusy s.world (.proceed clk)))
  | .signal clk => inferInstanceAs (Decidable (StaysBusy s.world (.signal clk)))

end System

/-! ### The finished lines -/

/-- The finished lines are about the finished control blocks. -/
theorem TrueToOrigin.finished {s : Scheduler} (origins : TrueToOrigin s) :
    s.finished.map (fun a => (s.origin a).map Prod.snd) =
      s.finishedProcesses.map some := by
  rw [Scheduler.finished, Scheduler.finishedProcesses, List.map_map, List.map_map]
  apply List.map_congr_left
  intro line member
  have own := origins line (List.mem_of_mem_filter member)
  simp [own]

/-- When each control block has finished once, the finished processes are those
received. -/
theorem TrueToOrigin.finished_perm {s : Scheduler} (origins : TrueToOrigin s)
    (once : s.finished.Nodup) (old : ∀ a ∈ s.finished, a < s.received)
    (all : ∀ a, a < s.received → a ∈ s.finished) {pcbs : List PCB}
    (received : s.receivedProcesses = pcbs.map fun pcb => some (identity pcb)) :
    s.finishedProcesses.Perm (pcbs.map PCB.pdata) := by
  have places : s.finished.Perm (List.range s.received) := by
    apply (List.perm_ext_iff_of_nodup once List.nodup_range).mpr
    exact fun a => ⟨fun done => List.mem_range.mpr (old a done),
      fun inside => all a (List.mem_range.mp inside)⟩
  have lines := places.map fun a => (s.origin a).map Prod.snd
  rw [origins.finished] at lines
  have processes : (List.range s.received).map
      (fun a => (s.origin a).map Prod.snd) = (pcbs.map PCB.pdata).map some := by
    have each := congrArg (List.map (Option.map Prod.snd)) received
    rw [Scheduler.receivedProcesses, List.map_map, List.map_map] at each
    rw [List.map_map]
    exact each
  rw [processes] at lines
  exact (List.map_perm_map_iff (Option.some_injective Process)).mp lines

/-! ### The messages of the generator -/

/-- Reading a list at all its places gives the list. -/
theorem map_range_getElem? {α : Type*} (items : List α) :
    (List.range items.length).map (fun p => items[p]?) = items.map some := by
  apply List.ext_getElem?
  intro p
  rw [List.getElem?_map, List.getElem?_map]
  by_cases inside : p < items.length
  · rw [List.getElem?_range inside, Option.map_some,
      List.getElem?_eq_getElem inside, Option.map_some]
  · rw [List.getElem?_eq_none (by simpa using inside),
      List.getElem?_eq_none (by simpa using inside)]
    rfl

/-- Once the end of input has been sent, every process of the list has been sent
once. -/
def Creation.Complete (c : Creation) : Prop :=
  c.endSent = true → (c.statement = .finished ∨ c.statement = .exited) ∧
    (c.messages.map PCB.pdata).Perm c.processList

/-- At the end of `create_processes` the messages are about the whole list. -/
theorem Admission.messages_perm {c : Creation} {chains : Chains}
    (admission : Admission c chains) (statement : c.statement = .finished) :
    (c.messages.map PCB.pdata).Perm c.processList := by
  obtain ⟨reached, none⟩ := admission.complete statement
  have handed : c.handed.Perm (List.range c.processList.length) := by
    have partition := admission.partition
    rw [statement, none, reached] at partition
    simpa [CreationStatement.inHand] using partition
  have sent := handed.map fun p => c.processList[p]?
  rw [← admission.posted, map_range_getElem?] at sent
  apply (List.map_perm_map_iff (Option.some_injective Process)).mp
  rw [List.map_map]
  exact sent

/-- What an event of the generator posts: nothing, or the control block of a
process of the list, before the end of input. -/
theorem CreationMove.posts {c next : Creation} {chains chains' : Chains}
    {event : CreationEvent} (move : CreationMove c chains event next chains') :
    (next.messages = c.messages) ∨
      ∃ reading clk pid process posted,
        event = .proceed reading clk pid ∧ process ∈ c.processList ∧
        Posted pid process posted ∧ next.messages = c.messages ++ posted ∧
        c.statement ≠ .finished ∧ c.statement ≠ .exited := by
  cases move with
  | handedOver statement read posts assigns =>
      exact Or.inr ⟨_, _, _, _, _, rfl, List.mem_of_getElem? read, posts, rfl,
        by simp [statement], by simp [statement]⟩
  | admitted statement read due run assigns posts =>
      exact Or.inr ⟨_, _, _, _, _, rfl, List.mem_of_getElem? read, posts, rfl,
        by simp [statement], by simp [statement]⟩
  | _ => exact Or.inl rfl

/-- The end of input is sent at the end of the loop, and behind it nothing is
done any more. -/
theorem CreationMove.endSent {c next : Creation} {chains chains' : Chains}
    {event : CreationEvent} (move : CreationMove c chains event next chains') :
    next.endSent = c.endSent ∧
        (c.statement = .finished ∨ c.statement = .exited →
          next.statement = .finished ∨ next.statement = .exited) ∨
      (c.statement = .loopTest ∧ next.statement = .finished) := by
  have earlier : ∀ {statement}, c.statement = statement → statement ≠ .finished →
      statement ≠ .exited → next.endSent = c.endSent →
      next.endSent = c.endSent ∧
          (c.statement = .finished ∨ c.statement = .exited →
            next.statement = .finished ∨ next.statement = .exited) ∨
        (c.statement = .loopTest ∧ next.statement = .finished) := by
    rintro _ rfl running alive same
    exact Or.inl ⟨same, fun ends => (ends.elim running alive).elim⟩
  cases move with
  | finished statement stops => exact Or.inr ⟨statement, rfl⟩
  | ended exited => exact Or.inl ⟨rfl, fun ends => ends⟩
  | reaped runs run => exact Or.inl ⟨rfl, fun ends => ends⟩
  | rested statement => exact Or.inl ⟨rfl, fun ends => ends⟩
  | interrupted runs => exact Or.inl ⟨rfl, fun _ => Or.inr rfl⟩
  | continued statement => exact earlier statement nofun nofun rfl
  | drained statement => exact earlier statement nofun nofun rfl
  | taken statement => exact earlier statement nofun nofun rfl
  | found statement => exact earlier statement nofun nofun rfl
  | gaveUp statement => exact earlier statement nofun nofun rfl
  | allocated statement => exact earlier statement nofun nofun rfl
  | handedOver statement => exact earlier statement nofun nofun rfl
  | noneLeft statement => exact earlier statement nofun nofun rfl
  | passed statement => exact earlier statement nofun nofun rfl
  | queued statement => exact earlier statement nofun nofun rfl
  | admitted statement => exact earlier statement nofun nofun rfl

/-- Every event keeps the account of what has been sent at the end of input. -/
theorem Creation.Complete.move {c next : Creation} {chains chains' : Chains}
    {event : CreationEvent} (complete : c.Complete)
    (move : CreationMove c chains event next chains')
    (followed : Creation.Followed c.processList next) : next.Complete := by
  intro ended
  rcases move.endSent with ⟨same, stays⟩ | ⟨_, finished⟩
  · obtain ⟨statement, all⟩ := complete (same ▸ ended)
    refine ⟨stays statement, ?_⟩
    rcases move.posts with messages | ⟨_, _, _, _, _, _, _, _, _, running, alive⟩
    · rw [messages, move.processList]
      exact all
    · exact (statement.elim running alive).elim
  · obtain ⟨chains'', admission⟩ := followed.2.2 (by simp [finished])
    exact ⟨Or.inl finished, admission.messages_perm finished⟩

/-! ### The message queue -/

namespace System

variable {s : System} {creation : Creation} {items : List Addr}

/-- What the generator has sent arrives behind what was there. -/
theorem deliver_messages {new : List PCB}
    (messages : creation.messages = s.creation.messages ++ new) :
    (s.deliver creation).pcbMessages = s.world.pcbMessages ++ new := by
  rw [deliver, messages, List.drop_left]

/-- The scheduler keeps its accounts while messages arrive. -/
theorem deliver_balanced (balanced : Balanced s.world items) {new : List PCB}
    (messages : creation.messages = s.creation.messages ++ new)
    (sent : ∀ pcb ∈ new, Sent pcb) : Balanced (s.deliver creation) items := by
  refine ⟨balanced.tally, fun pcb member => ?_, balanced.preemptive⟩
  rw [deliver_messages messages] at member
  rcases List.mem_append.mp member with arrived | later
  · rcases List.mem_append.mp arrived with before | posted
    · exact balanced.sent pcb (List.mem_append_left _ before)
    · exact sent pcb posted
  · exact balanced.sent pcb (List.mem_append_right _ later)

/-- What has arrived is accounted for; behind the end of input nothing comes. -/
theorem deliver_accounted (accounted : Accounted s.creation.messages s.world)
    (toSend : s.world.toSend = []) (linked : s.world.endSent = s.creation.endSent)
    {new : List PCB} (messages : creation.messages = s.creation.messages ++ new)
    (valid : ∀ pcb ∈ new, validPcb pcb = true)
    (stays : s.creation.endSent = true → creation.endSent = true ∧ new = []) :
    Accounted creation.messages (s.deliver creation) := by
  have arrived := deliver_messages messages
  refine ⟨?_, ?_, fun _ => toSend, ?_, ?_, ?_, accounted.exit⟩
  · intro pcb member
    rw [arrived, List.append_assoc] at member
    rcases List.mem_append.mp member with before | later
    · exact accounted.valid pcb (List.mem_append_left _ before)
    · rcases List.mem_append.mp later with posted | unsent
      · exact valid pcb posted
      · exact accounted.valid pcb (List.mem_append_right _ unsent)
  · have processes := accounted.processes
    rw [toSend, List.append_nil] at processes
    show s.world.sched.receivedProcesses ++ List.map _ (_ ++ s.world.toSend) = _
    rw [arrived, toSend, List.append_nil, List.map_append, ← List.append_assoc,
      processes, messages, List.map_append]
  · intro pending
    by_cases ended : creation.endSent = true
    · exact ended
    · have none : (s.deliver creation).endMessages = s.world.endMessages := by
        simp [deliver, ended]
      rw [none] at pending
      exact (stays (linked ▸ accounted.sent pending)).1
  · intro noMore
    exact (stays (linked ▸ accounted.taken noMore)).1
  · intro noMore more
    have none := (stays (linked ▸ accounted.taken noMore)).2
    rw [arrived, none, List.append_nil] at more
    exact accounted.left noMore more

end System

/-- Neither a phase nor a signal sends anything. -/
theorem Move.sending {w w' : World} {event : Event} (move : Move w event w')
    (other : event ≠ .send) : w'.toSend = w.toSend ∧ w'.endSent = w.endSent := by
  cases move with
  | sent => exact absurd rfl other
  | _ => exact ⟨rfl, rfl⟩

/-! ### The invariant

Each of the two processes has its invariant already.  What joins them is the
message queue: the messages the generator has sent are those that the scheduler
has received and those it will receive, and the end of input is in the queue
exactly if the generator has sent it.  With these links a step of the one is,
for the other, nothing or the arrival of a message.
-/

/-- Both processes keep their accounts, and what one of them has sent is what the
other one has received or will receive. -/
structure Serving (processList : List Process) (s : System)
    (items : List Addr) : Prop where
  followed : Creation.Followed processList s.creation
  housed : s.creation.statement ≠ .exited → s.creation.Housed
  complete : s.creation.Complete
  balanced : Balanced s.world items
  accounted : Accounted s.creation.messages s.world
  origins : TrueToOrigin s.world.sched
  toSend : s.world.toSend = []
  linked : s.world.endSent = s.creation.endSent

namespace Serving

variable {processList : List Process} {s next : System} {items : List Addr}

theorem start (processList : List Process) (clock clkPid schPid : Int)
    (algorithm : SchedulingAlgorithm) (quantum : Int) :
    Serving processList
      (.start processList clock clkPid schPid algorithm quantum) [] where
  followed := ⟨rfl, rfl, fun _ =>
    ⟨_, Admission.start processList clock clkPid schPid⟩⟩
  housed := fun _ => ⟨_, Hosted.initial⟩
  complete := fun impossible => by cases impossible
  balanced := (balanced_init algorithm quantum clock (List.forall_mem_nil Sent)).1
  accounted := accounted_init algorithm quantum clock (List.forall_mem_nil _)
  origins := fun line member => by cases member
  toSend := rfl
  linked := rfl

/-- An event of the generator. -/
theorem generator (serving : Serving processList s items)
    (wellFormed : ∀ process ∈ processList, 0 < process.id ∧
      0 < process.runtime ∧ InRange process.runtime ∧ 1 ≤ process.memorySize)
    {event : CreationEvent} (serves : s.Serves (.generator event)) :
    ∃ next, s.step (.generator event) = .ok next ∧
      Serving processList next items := by
  obtain ⟨between, fresh⟩ := serves
  obtain ⟨creation, stepped⟩ :=
    Creation.followed_total serving.followed serving.housed between fresh
  have followed' := Creation.followed_step serving.followed between stepped
  have list := serving.followed.1
  refine ⟨_, bind_eq_ok.mpr ⟨creation, stepped, rfl⟩, ?_⟩
  by_cases exited : s.creation.statement = .exited
  · have same : s.creation = creation := by
      rw [Creation.step_exited exited, Except.ok.injEq] at stepped
      exact stepped
    have quiet : s.deliver creation = s.world := by
      rw [← same, System.deliver, List.drop_length, List.append_nil]
      simp [← serving.linked]
    refine ⟨followed', same ▸ serving.housed, same ▸ serving.complete, ?_, ?_, ?_,
      ?_, ?_⟩ <;> dsimp only <;> rw [quiet]
    · exact serving.balanced
    · exact same ▸ serving.accounted
    · exact serving.origins
    · exact serving.toSend
    · exact same ▸ serving.linked
  · obtain ⟨chains, admission⟩ := serving.followed.2.2 exited
    obtain ⟨chains', move, _⟩ := admission.inOrder.move stepped
    have complete' : creation.Complete :=
      serving.complete.move move (list.symm ▸ followed')
    have housed' := fun runs => Creation.housed_step
      (fun process member => (wellFormed process member).2.2.2) serving.followed
      serving.housed between fresh stepped runs
    have posted : ∃ new, creation.messages = s.creation.messages ++ new ∧
        (∀ pcb ∈ new, Sent pcb ∧ validPcb pcb = true) ∧
        (s.creation.endSent = true → creation.endSent = true ∧ new = []) := by
      have stays : s.creation.endSent = true → creation.endSent = true := by
        intro ended
        rcases move.endSent with ⟨same, _⟩ | ⟨tests, _⟩
        · rw [same]
          exact ended
        · rcases (serving.complete ended).1 with ends | ends <;>
            simp [tests] at ends
      rcases move.posts with same | ⟨_, _, pid, process, new, here, member, posts,
        messages, running, alive⟩
      · exact ⟨[], by rw [same, List.append_nil], by simp,
          fun ended => ⟨stays ended, rfl⟩⟩
      · refine ⟨new, messages, ?_, fun ended =>
          (((serving.complete ended).1).elim running alive).elim⟩
        subst here
        rw [list] at member
        obtain ⟨positive, long, inRange, _⟩ := wellFormed process member
        cases posts with
        | failed failed => simp
        | sent forked found =>
            intro pcb sent
            rw [List.mem_singleton.mp sent]
            have pidPositive : 0 < pid := fresh.1
            refine ⟨⟨rfl, inRange.2⟩, decide_eq_true ?_⟩
            show ¬ (pid ≤ 0 ∨ process.id ≤ 0 ∨ process.runtime ≤ 0)
            omega
    obtain ⟨new, messages, good, stays⟩ := posted
    exact ⟨followed', housed', complete',
      System.deliver_balanced serving.balanced messages
        fun pcb member => (good pcb member).1,
      System.deliver_accounted serving.accounted serving.toSend serving.linked
        messages (fun pcb member => (good pcb member).2) stays,
      serving.origins, serving.toSend, rfl⟩

/-- A phase of the scheduler, or a signal. -/
theorem world (serving : Serving processList s items) {event : Event}
    (other : event ≠ .send) {w' : World} (run : s.world.step event = .ok w')
    (accounted' : Accounted s.creation.messages w') (exited : List Int) :
    ∃ items', Serving processList
      { s with world := w', exited := exited } items' := by
  obtain ⟨items', balanced', _⟩ := serving.balanced.of_step run
  have move := serving.balanced.move run
  obtain ⟨toSend, endSent⟩ := move.sending other
  exact ⟨items', serving.followed, serving.housed, serving.complete, balanced',
    accounted', TrueToOrigin.move serving.origins move, toSend.trans serving.toSend,
    endSent.trans serving.linked⟩

/-- Every event returns and keeps the accounts. -/
theorem step (serving : Serving processList s items)
    (wellFormed : ∀ process ∈ processList, 0 < process.id ∧
      0 < process.runtime ∧ InRange process.runtime ∧ 1 ≤ process.memorySize)
    {event : SystemEvent} (serves : s.Serves event) :
    ∃ next, s.step event = .ok next ∧ ∃ items', Serving processList next items' := by
  cases event with
  | generator event =>
      obtain ⟨next, run, serving'⟩ := serving.generator wellFormed serves
      exact ⟨next, run, items, serving'⟩
  | phase clk =>
      obtain ⟨w', _, run, _⟩ := serving.balanced.step (.proceed clk)
      have other : Event.proceed clk ≠ .send := by simp
      refine ⟨_, bind_eq_ok.mpr ⟨w', run, rfl⟩, ?_⟩
      exact serving.world other run
        (serving.accounted.proceed serving.balanced serves run) s.exited
  | signal clk =>
      obtain ⟨w', _, run, _⟩ := serving.balanced.step (.signal clk)
      have other : Event.signal clk ≠ .send := by simp
      refine ⟨_, bind_eq_ok.mpr ⟨w', run, rfl⟩, ?_⟩
      exact serving.world other run
        (serving.accounted.signal serving.balanced serves run) _

/-- When the scheduler's loop has ended everything has been served. -/
theorem served (serving : Serving processList s items)
    (exited : s.world.phase = .exited) : s.Served processList := by
  obtain ⟨drained, _, received, ended⟩ :=
    serving.accounted.nothingLost serving.balanced exited
  have ends : s.creation.endSent = true := by
    rw [← serving.linked]
    exact serving.accounted.taken (serving.accounted.exit exited).1
  have tally := serving.balanced.tally
  have count : s.world.sched.received = s.creation.messages.length := by
    have lengths := congrArg List.length received
    simpa [Scheduler.receivedProcesses] using lengths
  have sent : (s.creation.messages.map PCB.pdata).Perm processList :=
    serving.followed.1 ▸ (serving.complete ends).2
  refine ⟨sent, drained, ?_, ?_⟩
  · refine (serving.origins.finished_perm tally.once tally.old ?_ received).trans
      sent
    intro a inside
    exact (ended a (count ▸ inside)).2
  · intro left member
    obtain ⟨a, child⟩ := List.mem_iff_getElem?.mp member
    have inside : a < s.creation.messages.length := by
      rw [← count, ← tally.counted]
      exact (List.getElem?_eq_some_iff.mp child).1
    have zero := (ended a inside).1
    rw [child, Option.some.injEq] at zero
    exact zero

/-- On a well-formed list every run returns, in a state with the invariant. -/
theorem of_runs {processList : List Process}
    (wellFormed : ∀ process ∈ processList, 0 < process.id ∧
      0 < process.runtime ∧ InRange process.runtime ∧ 1 ≤ process.memorySize)
    (clock clkPid schPid : Int) (algorithm : SchedulingAlgorithm) (quantum : Int)
    {events : List SystemEvent}
    (serves : Along System.step System.Serves
      (.start processList clock clkPid schPid algorithm quantum) events) :
    ∃ last, runs System.step
        (.start processList clock clkPid schPid algorithm quantum) events =
          .ok last ∧
      ∃ items, Serving processList last items := by
  have total : ∀ (s : System) (event : SystemEvent),
      (∃ items, Serving processList s items) → s.Serves event →
      ∃ next, s.step event = .ok next ∧
        ∃ items, Serving processList next items := by
    rintro s event ⟨items, serving⟩ allowed
    exact serving.step wellFormed allowed
  exact total_of_runs total
    ⟨[], Serving.start processList clock clkPid schPid algorithm quantum⟩ serves

end Serving

private def errand (id runtime : Int) : Process :=
  { id := id, arrivalTime := 0, runtime := runtime, priority := 0,
    memorySize := 1 }

/-- Two processes are admitted and received, run in turn for three units, and
their exits are handled. -/
private def wholeDay : List SystemEvent :=
  [List.replicate 3 (.generator (.proceed 0 0 10)),
    List.replicate 3 (.generator (.proceed 0 0 11)),
    [.generator (.proceed 0 0 12)],
    List.replicate 6 (.phase ⟨0, 0, 0⟩),
    (List.replicate 4 (.signal ⟨1, 1, 1⟩ ::
      List.replicate 7 (.phase ⟨1, 1, 1⟩))).flatten,
    [.generator (.exit 2 10), .generator (.exit 2 11)]].flatten

end OsSim
