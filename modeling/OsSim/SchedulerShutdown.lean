/-
Module: OsSim.SchedulerShutdown
Purpose: The end of `scheduler_loop`.  The end of input is read after the
  process messages of the same iteration, so a message that comes in between can
  be left in the queue when the loop ends.
Trusted boundary: none
Main exports:
  StaysBusy, NothingLost, Accounted, no_process_lost, process_lost
-/
import OsSim.SchedulerWorld

namespace OsSim

open PointerMemory
open Trace

/-- The process a message is about. -/
def identity (pcb : PCB) : Int × Process := (pcb.pid, pcb.pdata)

/-- The processes received so far, in order. -/
def Scheduler.receivedProcesses (s : Scheduler) : List (Option (Int × Process)) :=
  (List.range s.received).map s.origin

/-- No message is left, every process sent has been enqueued, and it has
terminated: its child has used up its runtime, and it has been logged as
finished. -/
def NothingLost (toSend : List PCB) (w : World) : Prop :=
  w.pcbMessages = [] ∧ w.toSend = [] ∧
    w.sched.receivedProcesses = toSend.map (fun pcb => some (identity pcb)) ∧
    ∀ a, a < toSend.length →
      w.children[a]? = some 0 ∧ a ∈ w.sched.finished

/-- The next signal of the current process is its last one. -/
def World.lastSignal (w : World) : Prop :=
  (w.sched.currentPcb.bind fun a => w.children[a]?) = some 1

/-- Whether a process other than the current one is in the ready queue. -/
def Scheduler.otherWaiting (s : Scheduler) : Bool :=
  s.readyQueue.size > if s.selectedAlgorithm = .hpf then 0 else 1

/-- The end of input is not taken while process messages are in the queue,
unless a process is ready or current then; and from there to the loop test the
last such process does not terminate. -/
def StaysBusy (w : World) : Event → Prop
  | .send => True
  | .proceed _ =>
      w.phase = .endOfInput → w.endMessages ≠ [] → w.pcbMessages ≠ [] →
        w.sched.readyQueue.isEmpty = false ∨ w.sched.currentPcb ≠ none
  | .signal _ =>
      (w.phase = .sleep ∨ w.phase = .loopTest) →
        w.sched.noMoreProcesses = true → w.pcbMessages ≠ [] → w.lastSignal →
          w.sched.otherWaiting = true

instance (w : World) : Decidable w.lastSignal :=
  inferInstanceAs (Decidable (_ = _))

instance (w : World) : ∀ event, Decidable (StaysBusy w event)
  | .send => inferInstanceAs (Decidable True)
  | .proceed _ => inferInstanceAs (Decidable (_ → _ → _ → _ ∨ _))
  | .signal _ => inferInstanceAs (Decidable (_ ∨ _ → _ → _ → _ → _))

/-! ### The messages still to come

The loop reads process messages first and the end of input last, in each
iteration.  The generator sends the end of input behind everything else, but the
scheduler may take it in an iteration that looked for processes before the last
of them had been sent.  Such a message is read in the next iteration, provided
that there is one.  This is what `Accounted` keeps: once the end of input has been
taken, a message in the queue is one of a loop that goes on.
-/

/-- A message received adds its process at the end. -/
theorem Scheduler.receivedProcesses_malloc {s s' : Scheduler} {pcb : PCB}
    (made : s'.pcbs = (s.pcbs.malloc pcb).1) :
    s'.receivedProcesses = s.receivedProcesses ++ [some (identity pcb)] := by
  have grown : s'.received = s.received + 1 := by
    rw [received, made]
    exact Mem.length_malloc s.pcbs pcb
  have before : ∀ a, a ∈ List.range s.received → s'.origin a = s.origin a := by
    intro a member
    have old : a ≠ s.received := Nat.ne_of_lt (List.mem_range.mp member)
    rw [origin, made, Mem.load_malloc_of_ne s.pcbs pcb old, origin]
  have last : s'.origin s.received = some (identity pcb) := by
    have loaded : (s.pcbs.malloc pcb).1.load s.received = some pcb :=
      Mem.load_malloc_self s.pcbs pcb
    rw [origin, made, loaded, Option.map_some, identity]
  rw [receivedProcesses, receivedProcesses, grown, List.range_succ,
    List.map_append, List.map_congr_left before, List.map_singleton, last]

/-- The loop ends without processes, after the end of input. -/
theorem Scheduler.loopContinues_eq_false {s : Scheduler} :
    s.loopContinues = false ↔ s.noMoreProcesses = true ∧
      s.readyQueue.isEmpty = true ∧ s.currentPcb = none := by
  simp [loopContinues]

/-- Where another process waits, the ready queue is not empty after the current
one has terminated. -/
theorem Tally.stays_waiting {s s' : Scheduler} {children children' : List Int}
    {items items' : List Addr} (tally : Tally s children items)
    (waiting : s.otherWaiting = true) (tally' : Tally s' children' items')
    {a : Addr} (runs : s.currentPcb = some a)
    (fewer : items'.length + 1 = items.length + s.inHand.length) :
    s'.readyQueue.isEmpty = false := by
  have positive : items' ≠ [] := by
    intro empty
    rw [Scheduler.otherWaiting, decide_eq_true_iff,
      tally.wired.shows.size_eq] at waiting
    rw [empty, List.length_nil] at fewer
    by_cases hpf : s.selectedAlgorithm = .hpf
    · rw [if_pos hpf] at waiting
      rw [Scheduler.inHand, if_pos hpf, runs] at fewer
      simp only [Option.toList_some, List.length_singleton] at fewer
      omega
    · rw [if_neg hpf] at waiting
      rw [Scheduler.inHand, if_neg hpf, List.length_nil] at fewer
      omega
  cases empty : s'.readyQueue.isEmpty with
  | false => rfl
  | true => exact absurd (tally'.wired.shows.isEmpty_iff.mp empty) positive

/-- Every process is received, in the queue or still to be sent; the end of
input comes last; and once it has been taken, what is in the queue will still be
received. -/
structure Accounted (all : List PCB) (w : World) : Prop where
  valid : ∀ pcb ∈ w.pcbMessages ++ w.toSend, validPcb pcb = true
  processes : w.sched.receivedProcesses ++
      (w.pcbMessages ++ w.toSend).map (fun pcb => some (identity pcb)) =
    all.map fun pcb => some (identity pcb)
  last : w.endSent = true → w.toSend = []
  sent : w.endMessages ≠ [] → w.endSent = true
  taken : w.sched.noMoreProcesses = true → w.endSent = true
  left : w.sched.noMoreProcesses = true → w.pcbMessages ≠ [] →
    w.phase = .receive ∨ ((w.phase = .sleep ∨ w.phase = .loopTest) ∧
      (w.sched.readyQueue.isEmpty = false ∨ w.sched.currentPcb ≠ none))
  exit : w.phase = .exited → w.sched.noMoreProcesses = true ∧
    w.sched.readyQueue.isEmpty = true ∧ w.sched.currentPcb = none

namespace Accounted

variable {all : List PCB} {w : World} {items : List Addr}

/-- A function that leaves the control blocks and the flag alone, between the
receptions and the end of input. -/
theorem moved (accounted : Accounted all w) {sched' : Scheduler}
    (frame : w.sched.Frame sched') (children : List Int) {phase : Phase}
    (busy : w.sched.noMoreProcesses = true → w.pcbMessages ≠ [] →
      phase = .receive ∨ ((phase = .sleep ∨ phase = .loopTest) ∧
        (sched'.readyQueue.isEmpty = false ∨ sched'.currentPcb ≠ none)))
    (exit : phase = .exited → sched'.noMoreProcesses = true ∧
      sched'.readyQueue.isEmpty = true ∧ sched'.currentPcb = none) :
    Accounted all { w with
      sched := sched', phase := phase, children := children } := by
  refine ⟨accounted.valid, ?_, accounted.last, accounted.sent, ?_, ?_, exit⟩
  · rw [← accounted.processes]
    have same : sched'.origin = w.sched.origin := funext frame.origin
    simp only [Scheduler.receivedProcesses, frame.received, same]
  · intro noMore
    exact accounted.taken (frame.noMore.symm.trans noMore)
  · intro noMore
    exact busy (frame.noMore.symm.trans noMore)

/-- While messages are to be sent, the end of input is not. -/
theorem send (accounted : Accounted all w) : Accounted all w.send := by
  have messages := w.send_messages
  rw [World.send] at messages ⊢
  split
  next pcb rest more =>
    simp only [more] at messages
    have unsent : w.endSent ≠ true := by
      intro sent
      rw [accounted.last sent] at more
      cases more
    have running : w.sched.noMoreProcesses ≠ true :=
      fun noMore => unsent (accounted.taken noMore)
    refine ⟨?_, ?_, fun sent => absurd sent unsent, accounted.sent,
      accounted.taken, fun noMore => absurd noMore running, accounted.exit⟩
    · rw [messages, ← more]
      exact accounted.valid
    · rw [messages, ← more]
      exact accounted.processes
  next none =>
    split
    next => exact accounted
    next unsent =>
      exact ⟨accounted.valid, accounted.processes, fun _ => none, fun _ => rfl,
        fun _ => rfl, accounted.left, accounted.exit⟩

/-- Outside the reception and the sleep that follows, no message is left once
the end of input has been taken. -/
theorem drained (accounted : Accounted all w)
    (noMore : w.sched.noMoreProcesses = true) (receiving : w.phase ≠ .receive)
    (asleep : w.phase ≠ .sleep) (testing : w.phase ≠ .loopTest) :
    w.pcbMessages = [] := by
  by_contra more
  rcases accounted.left noMore more with same | ⟨same | same, _⟩
  · exact receiving same
  · exact asleep same
  · exact testing same

theorem receive (accounted : Accounted all w) (balanced : Balanced w items)
    (phase : w.phase = .receive) {w' : World} (run : w.receive = .ok w') :
    Accounted all w' := by
  rcases World.receive_spec balanced.tally (fun pcb member =>
      balanced.sent pcb (List.mem_append_left _ member)) with
    ⟨none, run'⟩ | ⟨pcb, rest, messages, ⟨invalid, _⟩ | ⟨_, sched', items', run',
      _, _, noMore, made, _⟩⟩
  · rw [run, Except.ok.injEq] at run'
    subst run'
    exact ⟨accounted.valid, accounted.processes, accounted.last, accounted.sent,
      accounted.taken, fun _ more => absurd none more,
      fun impossible => by cases impossible⟩
  · have valid := accounted.valid pcb (by simp [messages])
    rw [invalid] at valid
    cases valid
  · rw [run, Except.ok.injEq] at run'
    subst run'
    refine ⟨?_, ?_, accounted.last, accounted.sent, ?_, fun _ _ => Or.inl phase,
      ?_⟩
    · intro other member
      apply accounted.valid other
      rw [messages, List.cons_append]
      exact List.mem_cons_of_mem _ member
    · rw [← accounted.processes, messages,
        Scheduler.receivedProcesses_malloc made]
      simp
    · intro taken
      exact accounted.taken (noMore.symm.trans taken)
    · intro exited
      rw [phase] at exited
      cases exited

/-- The end of input is taken where it was sent, and the last phase before was
`handle_current_running_process`. -/
theorem endOfInput (accounted : Accounted all w) {clk : Readings}
    (phase : w.phase = .endOfInput) (busy : StaysBusy w (.proceed clk)) :
    Accounted all { w with
      sched := checkNoMoreProcesses w.sched w.endMessages.head?
      endMessages := w.endMessages.tail
      phase := .sleep } := by
  have drained := fun noMore => accounted.drained noMore (by simp [phase])
    (by simp [phase]) (by simp [phase])
  cases messages : w.endMessages with
  | nil =>
      exact ⟨accounted.valid, accounted.processes, accounted.last,
        fun impossible => absurd rfl impossible, accounted.taken,
        fun noMore more => absurd (drained noMore) more,
        fun impossible => by cases impossible⟩
  | cons str rest =>
      have sent : w.endSent = true := accounted.sent (by simp [messages])
      obtain ⟨noMore, checked⟩ :=
        checkNoMoreProcesses_eq w.sched (some str)
      rw [List.head?_cons, checked]
      exact ⟨accounted.valid, accounted.processes, accounted.last,
        fun _ => sent, fun _ => sent,
        fun _ more => Or.inr ⟨Or.inl rfl, busy phase (by simp [messages]) more⟩,
        fun impossible => by cases impossible⟩

theorem proceed (accounted : Accounted all w) (balanced : Balanced w items)
    {clk : Readings} (busy : StaysBusy w (.proceed clk)) {w' : World}
    (run : w.proceed clk = .ok w') : Accounted all w' := by
  have inner : ∀ {sched' : Scheduler} {phase : Phase}, w.sched.Frame sched' →
      (w.phase = .dispatch ∨ w.phase = .running ∨ w.phase = .expire) →
      phase ≠ .exited →
      Accounted all { w with sched := sched', phase := phase } := by
    intro sched' phase frame place inside
    apply accounted.moved frame w.children _ fun same => absurd same inside
    intro noMore more
    refine absurd (accounted.drained noMore ?_ ?_ ?_) more <;>
      rcases place with same | same | same <;> simp [same]
  rw [World.proceed] at run
  cases phase : w.phase with
  | loopTest =>
      simp only [phase, Except.ok.injEq] at run
      subst run
      cases continues : w.sched.loopContinues with
      | true =>
          exact accounted.moved (Scheduler.Frame.refl _) w.children
            (fun _ _ => Or.inl rfl) fun impossible => by cases impossible
      | false =>
          obtain ⟨noMore, empty, idle⟩ := Scheduler.loopContinues_eq_false.mp continues
          apply accounted.moved (Scheduler.Frame.refl _) w.children _
            fun _ => ⟨noMore, empty, idle⟩
          intro _ more
          rcases accounted.left noMore more with same | ⟨_, busy'⟩
          · rw [phase] at same
            cases same
          · rcases busy' with waiting | runs
            · rw [empty] at waiting
              cases waiting
            · exact absurd idle runs
  | receive =>
      simp only [phase] at run
      exact accounted.receive balanced phase run
  | dispatch =>
      simp only [phase] at run
      obtain ⟨sched', items', run', _, frame, _⟩ :=
        World.dispatch_spec balanced.tally clk
      rw [run', Except.ok.injEq] at run
      subst run
      exact inner frame (by simp [phase]) (by simp)
  | running =>
      simp only [phase] at run
      obtain ⟨sched', items', expired, run', decided⟩ :=
        balanced.tally.runningDecision clk.now clk.log
      simp only [World.running, run', ok_bind, pure_eq_ok, Except.ok.injEq] at run
      subst run
      exact inner decided.frame (by simp [phase]) (by cases expired <;> simp)
  | expire =>
      simp only [phase] at run
      obtain ⟨sched', items', run', _, frame, _⟩ :=
        balanced.tally.handleQuantumExpiration (balanced.preemptive phase)
          clk.now clk.log
      rw [run', ok_bind, pure_eq_ok, Except.ok.injEq] at run
      subst run
      exact inner frame (by simp [phase]) (by simp)
  | endOfInput =>
      simp only [phase, Except.ok.injEq] at run
      subst run
      exact accounted.endOfInput phase busy
  | sleep =>
      simp only [phase, Except.ok.injEq] at run
      subst run
      apply accounted.moved (Scheduler.Frame.refl _) w.children _
        fun impossible => by cases impossible
      intro noMore more
      rcases accounted.left noMore more with same | ⟨_, busy'⟩
      · rw [phase] at same
        cases same
      · exact Or.inr ⟨Or.inr rfl, busy'⟩
  | exited =>
      simp only [phase, Except.ok.injEq] at run
      exact run ▸ accounted

theorem signal (accounted : Accounted all w) (balanced : Balanced w items)
    {clk : Readings} (busy : StaysBusy w (.signal clk)) {w' : World}
    (run : w.signal clk = .ok w') : Accounted all w' := by
  rcases World.signal_spec balanced.tally clk with
    same | ⟨a, n, sched', items', runs, child, run', tally', frame, current, _⟩
  · rw [same, Except.ok.injEq] at run
    exact run ▸ accounted
  · rw [run', Except.ok.injEq] at run
    subst run
    apply accounted.moved frame
    · intro noMore more
      refine (accounted.left noMore more).imp_right fun both => ⟨both.1, ?_⟩
      rcases current with stays | ⟨last, _, fewer⟩
      · exact Or.inr (by simp [stays])
      · subst last
        have waiting := busy both.1 noMore more (by
          rw [World.lastSignal, runs, Option.bind_some, child])
        exact Or.inl (balanced.tally.stays_waiting waiting tally' runs fewer)
    · intro exited
      have idle := (accounted.exit exited).2.2
      rw [runs] at idle
      cases idle

end Accounted

/-! ### The end of the loop

When the loop ends nothing is current, nothing waits, and by the accounts nothing
is left in the message queue.  The processes received are then all finished, for
there are as many of them in the three places as have been received, and two of
the places are empty.
-/

/-- The accounts at the end of the loop: everything has been received and has
terminated. -/
theorem Accounted.nothingLost {all : List PCB} {w : World} {items : List Addr}
    (accounted : Accounted all w) (balanced : Balanced w items)
    (exited : w.phase = .exited) : NothingLost all w := by
  obtain ⟨noMore, empty, idle⟩ := accounted.exit exited
  have tally := balanced.tally
  have drained : w.pcbMessages = [] := accounted.drained noMore
    (by simp [exited]) (by simp [exited]) (by simp [exited])
  have sent : w.toSend = [] := accounted.last (accounted.taken noMore)
  have processes := accounted.processes
  rw [drained, sent, List.append_nil, List.map_nil, List.append_nil] at processes
  have count : w.sched.received = all.length := by
    have lengths := congrArg List.length processes
    simpa [Scheduler.receivedProcesses] using lengths
  have none_waits : items = [] := tally.wired.shows.isEmpty_iff.mp empty
  have full : w.sched.finished.length = w.sched.received := by
    have total := tally.total
    rw [none_waits, Scheduler.inHand_none idle] at total
    simpa using total
  refine ⟨drained, sent, processes, fun a inside => ?_⟩
  rw [← count] at inside
  have done := mem_of_lt_of_nodup tally.once tally.old full inside
  have child := List.getElem?_eq_getElem (tally.counted.symm ▸ inside)
  rw [child, (tally.ended a _ child).mpr done]
  exact ⟨rfl, done⟩

/-- At the start everything is still to be sent. -/
theorem accounted_init (algorithm : SchedulingAlgorithm) (quantum clk : Int)
    {toSend : List PCB} (valid : ∀ pcb ∈ toSend, validPcb pcb = true) :
    Accounted toSend (World.init algorithm quantum clk toSend) := by
  refine ⟨valid, rfl, ?_, ?_, ?_, ?_, ?_⟩
  · intro impossible
    cases impossible
  · intro impossible
    exact absurd rfl impossible
  · intro impossible
    cases impossible
  · intro impossible
    cases impossible
  · intro impossible
    cases impossible

/-- In every run in which the scheduler stays busy around the end of input, no
process is lost when the loop ends. -/
theorem no_process_lost (algorithm : SchedulingAlgorithm) (quantum clk : Int)
    (toSend : List PCB)
    (sent : ∀ pcb ∈ toSend, Sent pcb ∧ validPcb pcb = true)
    (events : List Event)
    (busy : Along World.step StaysBusy
      (World.init algorithm quantum clk toSend) events) :
    ∃ last, runs World.step (World.init algorithm quantum clk toSend) events =
        .ok last ∧
      (last.phase = .exited → NothingLost toSend last) := by
  obtain ⟨last, run, items, balanced, accounted⟩ := total_of_runs
    (P := fun w => ∃ items, Balanced w items ∧ Accounted toSend w)
    (by
      rintro w event ⟨items, balanced, accounted⟩ allowed
      obtain ⟨w', items', run, balanced', _⟩ := balanced.step event
      refine ⟨w', run, items', balanced', ?_⟩
      cases event with
      | send =>
          rw [World.step, Except.ok.injEq] at run
          exact run ▸ accounted.send
      | proceed clk => exact accounted.proceed balanced allowed run
      | signal clk => exact accounted.signal balanced allowed run)
    ⟨[], (balanced_init algorithm quantum clk fun pcb member =>
        (sent pcb member).1).1,
      accounted_init algorithm quantum clk fun pcb member =>
        (sent pcb member).2⟩ busy
  exact ⟨last, run, accounted.nothingLost balanced⟩

private def rounds (n : Nat) : List Event :=
  List.replicate n (.proceed ⟨0, 0, 0⟩)

/-- Process 2 and the end of input are sent while process 1 runs, and the end is
taken first. -/
theorem no_process_lost_sample :
    ∃ last, runs World.step
        (World.init .rr 1 0 [sampleJob 1 1 0, sampleJob 2 1 0])
        ([.send] ++ rounds 5 ++ [.send, .send] ++ rounds 7 ++
          [.signal ⟨1, 1, 1⟩] ++ rounds 6 ++ [.signal ⟨2, 2, 2⟩] ++ rounds 2) =
        .ok last ∧
      (last.phase = .exited → NothingLost [sampleJob 1 1 0, sampleJob 2 1 0] last) :=
  no_process_lost .rr 1 0 [sampleJob 1 1 0, sampleJob 2 1 0] (by decide) _
    (by decide +kernel)

/-- The scheduler has looked for processes before the only one is sent, and
takes the end of input in the same iteration. -/
private def missed : Except Fault (Phase × Nat) := do
  let w ← runs World.step (World.init .rr 1 0 [sampleJob 1 1 0])
    (rounds 2 ++ [.send, .send] ++ rounds 5)
  pure (w.phase, w.pcbMessages.length)

/-- The loop ends with a process message in the queue. -/
theorem process_lost :
    ¬ ∀ (algorithm : SchedulingAlgorithm) (quantum clk : Int)
      (toSend : List PCB),
      (∀ pcb ∈ toSend, Sent pcb ∧ validPcb pcb = true) →
      ∀ (events : List Event) (last : World),
        runs World.step (World.init algorithm quantum clk toSend) events =
            .ok last →
          last.phase = .exited → NothingLost toSend last := by
  intro always
  have replay : missed = .ok (.exited, 1) := by decide +kernel
  obtain ⟨last, run, ends⟩ := bind_eq_ok.mp replay
  simp only [pure_eq_ok, Except.ok.injEq, Prod.mk.injEq] at ends
  obtain ⟨exited, left⟩ := ends
  have drained := (always .rr 1 0 [sampleJob 1 1 0] (by decide) _ last run exited).1
  rw [drained] at left
  cases left

end OsSim
