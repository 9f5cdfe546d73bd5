/-
Module: OsSim.SchedulerMoves
Purpose: What each event of the scheduler's world does, by cases, with the
  conditions under which it does it.
Trusted boundary: none
Main exports:
  World.Follows, Scheduler.Took, Move, Balanced.move,
  Balanced.invariant_of_moves, Move.origin, Move.messages, Move.heaped,
  Scheduler.dispatches
-/
import OsSim.SchedulerWorld

namespace OsSim

open PointerMemory

/-- The queue after the front has been taken to be dispatched. -/
def Scheduler.Took (s : Scheduler) (first : Addr) (queue : IQueue Addr) : Prop :=
  s.readyQueue.front = .ok (some first) ∧
    (s.selectedAlgorithm = .hpf →
      s.readyQueue.dequeue true = .ok (queue, some first)) ∧
    (s.selectedAlgorithm ≠ .hpf → queue = s.readyQueue)

/-- The decision about the running process finds no reason to act. -/
structure Scheduler.StaysOn (s : Scheduler) : Prop where
  rr : s.selectedAlgorithm = .rr → ∀ a pcb, s.currentPcb = some a →
    s.pcbs.load a = some pcb → s.lastRemainTime - s.quantum < pcb.remainingTime
  hpf : s.selectedAlgorithm = .hpf →
    s.currentPcb ≠ none ∨ s.readyQueue.isEmpty = true
  srtn : s.selectedAlgorithm = .srtn → ∀ a, s.currentPcb = some a →
    s.readyQueue.front = .ok (some a)

/-- The phases that may come next without a change to the scheduler. -/
def World.Follows (w : World) (phase : Phase) : Prop :=
  match w.phase with
  | .loopTest => phase = if w.sched.loopContinues then .receive else .exited
  | .receive => w.pcbMessages = [] ∧ phase = .dispatch
  | .dispatch => (w.sched.currentPcb ≠ none ∨ w.sched.readyQueue.isEmpty = true) ∧
      phase = .running
  | .running => (w.sched.StaysOn ∧ phase = .endOfInput) ∨
      (w.sched.selectedAlgorithm = .srtn ∧ phase = .expire ∧
        ∃ a b, w.sched.currentPcb = some a ∧
          w.sched.readyQueue.front = .ok (some b) ∧ b ≠ a)
  | .expire => w.sched.currentPcb = none ∧ phase = .endOfInput
  | .endOfInput => False
  | .sleep => phase = .loopTest
  | .exited => phase = .exited

/-- What an event does, one case for each way the code goes. -/
inductive Move (w : World) : Event → World → Prop
  | sent : Move w .send w.send
  | turned {clk : Readings} {phase : Phase} (follows : w.Follows phase) :
      Move w (.proceed clk) { w with phase := phase }
  | rejected {clk : Readings} {pcb : PCB} {rest : List PCB}
      (phase : w.phase = .receive) (messages : w.pcbMessages = pcb :: rest)
      (invalid : validPcb pcb = false) :
      Move w (.proceed clk) { w with pcbMessages := rest, phase := .dispatch }
  | received {clk : Readings} {pcb : PCB} {rest : List PCB}
      {queue : IQueue Addr} (phase : w.phase = .receive)
      (messages : w.pcbMessages = pcb :: rest) (valid : validPcb pcb = true)
      (entered : w.sched.readyQueue.enqueue w.sched.received
        (enqueuePriority w.sched.selectedAlgorithm pcb) = .ok queue) :
      Move w (.proceed clk) { w with
        sched := { w.sched with
          pcbs := (w.sched.pcbs.malloc pcb).1
          readyQueue := queue }
        pcbMessages := rest
        children := w.children ++ [pcb.pdata.runtime] }
  | dispatched {clk : Readings} {first : Addr} {pcb : PCB}
      {queue : IQueue Addr} (phase : w.phase = .dispatch)
      (idle : w.sched.currentPcb = none)
      (live : w.sched.pcbs.load first = some pcb)
      (took : w.sched.Took first queue) :
      Move w (.proceed clk) { w with
        sched := (w.sched.accountIdle clk.idle).afterDispatch queue first pcb
          clk.now clk.log
        phase := .running }
  | redispatched {clk : Readings} {first : Addr} {pcb : PCB}
      {queue : IQueue Addr} (phase : w.phase = .running)
      (hpf : w.sched.selectedAlgorithm = .hpf)
      (idle : w.sched.currentPcb = none)
      (live : w.sched.pcbs.load first = some pcb)
      (took : w.sched.Took first queue) :
      Move w (.proceed clk) { w with
        sched := w.sched.afterDispatch queue first pcb clk.now clk.log
        phase := .endOfInput }
  | clipped {clk : Readings} {a : Addr} {pcb : PCB} (phase : w.phase = .running)
      (rr : w.sched.selectedAlgorithm = .rr)
      (runs : w.sched.currentPcb = some a)
      (live : w.sched.pcbs.load a = some pcb)
      (used : pcb.remainingTime ≤ w.sched.lastRemainTime - w.sched.quantum) :
      Move w (.proceed clk) { w with
        sched := { w.sched with
          pcbs := w.sched.pcbs.put a { pcb with
            remainingTime := w.sched.lastRemainTime - w.sched.quantum } }
        phase := .expire }
  | expired {clk : Readings} {a : Addr} {pcb : PCB} {queue : IQueue Addr}
      (phase : w.phase = .expire) (runs : w.sched.currentPcb = some a)
      (live : w.sched.pcbs.load a = some pcb)
      (rotated : w.sched.selectedAlgorithm = .rr →
        ∃ next, w.sched.readyQueue.dequeue false = .ok (queue, next))
      (kept : w.sched.selectedAlgorithm ≠ .rr → queue = w.sched.readyQueue) :
      Move w (.proceed clk) { w with
        sched := w.sched.afterExpiration queue a pcb clk.now clk.log
        phase := .endOfInput }
  | checked {clk : Readings} (phase : w.phase = .endOfInput) :
      Move w (.proceed clk) { w with
        sched := checkNoMoreProcesses w.sched w.endMessages.head?
        endMessages := w.endMessages.tail
        phase := .sleep }
  | silent {clk : Readings} (none : ∀ a n, w.sched.currentPcb = some a →
        w.children[a]? = some n → n ≤ 0) :
      Move w (.signal clk) w
  | ticked {clk : Readings} {a : Addr} {pcb : PCB} {n : Int}
      {queue : IQueue Addr} (runs : w.sched.currentPcb = some a)
      (live : w.sched.pcbs.load a = some pcb)
      (child : w.children[a]? = some n) (more : 1 < n)
      (kept : w.sched.selectedAlgorithm ≠ .srtn → queue = w.sched.readyQueue)
      (rekeyed : w.sched.selectedAlgorithm = .srtn → queue =
        w.sched.readyQueue.changePriority 0 (pcb.remainingTime - 1)) :
      Move w (.signal clk) { w with
        sched := w.sched.afterTick queue a pcb
        children := w.children.set a (n - 1) }
  | finished {clk : Readings} {a : Addr} {pcb : PCB} {queue : IQueue Addr}
      (runs : w.sched.currentPcb = some a)
      (live : w.sched.pcbs.load a = some pcb)
      (child : w.children[a]? = some 1)
      (kept : w.sched.selectedAlgorithm = .hpf → queue = w.sched.readyQueue)
      (removed : w.sched.selectedAlgorithm ≠ .hpf →
        ∃ next, w.sched.readyQueue.dequeue true = .ok (queue, next)) :
      Move w (.signal clk) { w with
        sched := w.sched.afterTermination queue a pcb clk.now clk.log
        children := w.children.set a 0 }

namespace World

variable {w : World} {items : List Addr}

/-- Without a process that waits there is no idle time to account for. -/
theorem accountIdle_empty (s : Scheduler) (empty : s.readyQueue.isEmpty = true)
    (clk : Int) : s.accountIdle clk = s := by
  rw [Scheduler.accountIdle, if_neg (by simp [empty])]

/-- Scheduling while no process is current dispatches the front of the queue. -/
theorem scheduleNextProcess_moves {s : Scheduler} (wired : s.Wired items)
    (clk log : Int) :
    (s.readyQueue.isEmpty = true ∧ s.scheduleNextProcess clk log = .ok s) ∨
    ∃ first pcb queue, s.pcbs.load first = some pcb ∧ s.Took first queue ∧
      s.scheduleNextProcess clk log =
        .ok (s.afterDispatch queue first pcb clk log) := by
  cases items with
  | nil =>
      exact Or.inl ⟨wired.shows.isEmpty_iff.mpr rfl,
        wired.scheduleNextProcess_empty clk log⟩
  | cons first rest =>
      obtain ⟨pcb, live⟩ := wired.live first List.mem_cons_self
      obtain ⟨queue, _, run, _, _, hpf, others⟩ :=
        wired.scheduleNextProcess_run live clk log
      exact Or.inr ⟨first, pcb, queue, live, ⟨wired.shows.front_eq,
        fun algorithm => (hpf algorithm).1,
        fun algorithm => (others algorithm).1⟩, run⟩

end World

/-- No event changes the settings. -/
theorem Move.settings {w w' : World} {event : Event} (move : Move w event w') :
    w'.sched.quantum = w.sched.quantum ∧
      w'.sched.selectedAlgorithm = w.sched.selectedAlgorithm := by
  cases move with
  | sent =>
      rw [w.send_sched.1]
      exact ⟨rfl, rfl⟩
  | dispatched phase idle live took =>
      exact ⟨w.sched.accountIdle_quantum _, w.sched.accountIdle_selectedAlgorithm _⟩
  | checked phase =>
      exact ⟨checkNoMoreProcesses_quantum _ _,
        checkNoMoreProcesses_selectedAlgorithm _ _⟩
  | _ => exact ⟨rfl, rfl⟩

namespace Balanced

variable {w w' : World} {items : List Addr} {clk : Readings}

theorem receive_move (balanced : Balanced w items) (phase : w.phase = .receive)
    (run : w.receive = .ok w') : Move w (.proceed clk) w' := by
  rw [World.receive] at run
  cases messages : w.pcbMessages with
  | nil =>
      have turned : Move w (.proceed clk) { w with phase := .dispatch } := by
        apply Move.turned
        rw [World.Follows, phase]
        exact ⟨messages, rfl⟩
      simp only [messages] at run
      cases run
      rw [messages] at turned
      exact turned
  | cons pcb rest =>
      simp only [messages] at run
      cases valid : validPcb pcb with
      | false =>
          simp only [Scheduler.receivePcb, valid] at run
          cases run
          exact Move.rejected phase messages valid
      | true =>
          obtain ⟨queue, _, entered, received, _⟩ :=
            balanced.tally.wired.receivePcb valid
          rw [received] at run
          cases run
          exact Move.received phase messages valid entered

theorem dispatch_move (balanced : Balanced w items) (phase : w.phase = .dispatch)
    (run : w.dispatch clk = .ok w') : Move w (.proceed clk) w' := by
  have turned : (w.sched.currentPcb ≠ none ∨
      w.sched.readyQueue.isEmpty = true) →
      Move w (.proceed clk) { w with phase := .running } := by
    intro quiet
    apply Move.turned
    rw [World.Follows, phase]
    exact ⟨quiet, rfl⟩
  rw [World.dispatch] at run
  by_cases idle : w.sched.currentPcb = none
  · rw [if_pos idle] at run
    have wired := (World.accountIdle balanced.tally clk.idle).1.wired
    rcases World.scheduleNextProcess_moves wired clk.now clk.log with
      ⟨empty, kept⟩ | ⟨first, pcb, queue, live, took, done⟩
    · rw [Scheduler.accountIdle_readyQueue] at empty
      rw [kept] at run
      cases run
      rw [World.accountIdle_empty w.sched empty]
      exact turned (Or.inr empty)
    · rw [done] at run
      cases run
      rw [Scheduler.accountIdle_pcbs] at live
      rw [Scheduler.Took, Scheduler.accountIdle_readyQueue,
        Scheduler.accountIdle_selectedAlgorithm] at took
      exact Move.dispatched phase idle live took
  · rw [if_neg idle] at run
    cases run
    exact turned (Or.inl idle)

theorem running_move (balanced : Balanced w items) (phase : w.phase = .running)
    (run : w.running clk = .ok w') : Move w (.proceed clk) w' := by
  have stays : w.sched.StaysOn →
      Move w (.proceed clk) { w with phase := .endOfInput } := by
    intro quiet
    apply Move.turned
    rw [World.Follows, phase]
    exact Or.inl ⟨quiet, rfl⟩
  have wired := balanced.tally.wired
  rw [World.running, Scheduler.runningDecision] at run
  cases algorithm : w.sched.selectedAlgorithm with
  | rr =>
      simp only [algorithm] at run
      cases runs : w.sched.currentPcb with
      | none =>
          simp only [runs, if_true] at run
          cases run
          refine stays ⟨fun _ a pcb impossible => ?_, by simp [algorithm],
            by simp [algorithm]⟩
          rw [runs] at impossible
          cases impossible
      | some a =>
          obtain ⟨pcb, live⟩ := wired.running a runs
          rw [if_neg (by simp [runs]), Scheduler.current_eq runs live,
            ok_bind] at run
          by_cases used : pcb.remainingTime ≤
              w.sched.lastRemainTime - w.sched.quantum
          · rw [if_pos used, Scheduler.updateCurrent_eq runs live] at run
            cases run
            exact Move.clipped phase algorithm runs live used
          · rw [if_neg used] at run
            cases run
            refine stays ⟨fun _ b pcb' same live' => ?_, by simp [algorithm],
              by simp [algorithm]⟩
            rw [runs, Option.some.injEq] at same
            subst same
            rw [live, Option.some.injEq] at live'
            subst live'
            exact not_le.mp used
  | hpf =>
      simp only [algorithm] at run
      by_cases idle : w.sched.currentPcb = none
      · rw [if_pos idle] at run
        rcases World.scheduleNextProcess_moves wired clk.now clk.log with
          ⟨empty, kept⟩ | ⟨first, pcb, queue, live, took, done⟩
        · rw [kept] at run
          cases run
          exact stays ⟨by simp [algorithm], fun _ => Or.inr empty,
            by simp [algorithm]⟩
        · rw [done] at run
          cases run
          exact Move.redispatched phase algorithm idle live took
      · rw [if_neg idle] at run
        cases run
        exact stays ⟨by simp [algorithm], fun _ => Or.inl idle,
          by simp [algorithm]⟩
  | srtn =>
      simp only [algorithm] at run
      rw [wired.shows.front_eq, ok_bind] at run
      cases waiting : items with
      | nil =>
          simp only [waiting, List.head?_nil, if_true] at run
          cases run
          refine stays ⟨by simp [algorithm], by simp [algorithm],
            fun _ a runs => ?_⟩
          have member := balanced.tally.member (by simp [algorithm]) a runs
          rw [waiting] at member
          cases member
      | cons first rest =>
          have front := wired.shows.front_eq
          rw [waiting, List.head?_cons] at front
          obtain ⟨pcb, live⟩ := wired.live first (by simp [waiting])
          rw [waiting, List.head?_cons, if_neg (Option.some_ne_none first),
            derefPtr, deref_of_load live, ok_bind] at run
          cases run
          by_cases preempts : w.sched.currentPcb ≠ none ∧
              some first ≠ w.sched.currentPcb
          · simp only [decide_eq_true preempts, if_true]
            apply Move.turned
            rw [World.Follows, phase]
            obtain ⟨a, runs⟩ := Option.ne_none_iff_exists'.mp preempts.1
            refine Or.inr ⟨algorithm, rfl, a, first, runs, front, ?_⟩
            intro same
            exact preempts.2 (same ▸ runs.symm)
          · simp only [decide_eq_false preempts]
            refine stays ⟨by simp [algorithm], by simp [algorithm],
              fun _ a runs => ?_⟩
            rw [not_and, not_not] at preempts
            rw [front, preempts (by simp [runs]), runs]

theorem expire_move (balanced : Balanced w items) (phase : w.phase = .expire)
    {sched : Scheduler}
    (run : w.sched.handleQuantumExpiration clk.now clk.log = .ok sched) :
    Move w (.proceed clk) { w with sched := sched, phase := .endOfInput } := by
  cases runs : w.sched.currentPcb with
  | none =>
      rw [Scheduler.handleQuantumExpiration, if_pos runs,
        Except.ok.injEq] at run
      subst run
      apply Move.turned
      rw [World.Follows, phase]
      exact ⟨runs, rfl⟩
  | some a =>
      obtain ⟨pcb, live⟩ := balanced.tally.wired.running a runs
      obtain ⟨queue, _, run', _, _, _, ring, others⟩ :=
        balanced.tally.wired.handleQuantumExpiration_run runs live clk.now
          clk.log
      rw [run, Except.ok.injEq] at run'
      subst run'
      exact Move.expired phase runs live (fun rr => (ring rr).2)
        fun other => (others other).1

theorem signal_move (balanced : Balanced w items)
    (run : w.signal clk = .ok w') : Move w (.signal clk) w' := by
  rw [World.signal] at run
  split at run
  next idle =>
    cases run
    exact Move.silent fun a n runs => by
      rw [idle] at runs
      cases runs
  next a runs =>
    split at run
    next missing =>
      cases run
      refine Move.silent fun b n same child => ?_
      rw [runs, Option.some.injEq] at same
      subst same
      rw [missing] at child
      cases child
    next n child =>
      obtain ⟨pcb, live⟩ := balanced.tally.wired.running a runs
      split at run
      next ended =>
        cases run
        refine Move.silent fun b m same child' => ?_
        rw [runs, Option.some.injEq] at same
        subst same
        rw [child, Option.some.injEq] at child'
        omega
      next positive =>
        split at run
        next last =>
          subst last
          obtain ⟨queue, _, run', _, hpf, others, _⟩ :=
            balanced.tally.wired.handleProcessTermination_run runs live clk.now
              clk.log
          rw [run'] at run
          cases run
          exact Move.finished runs live child (fun same => (hpf same).1)
            fun other => (others other).2
        next more =>
          obtain ⟨queue, _, run', _, _, _, kept, rekeyed⟩ :=
            balanced.tally.wired.handleProcessTick_run runs live
          rw [run'] at run
          cases run
          exact Move.ticked runs live child (by omega) kept rekeyed

/-- Every event does what one of the cases says. -/
theorem move (balanced : Balanced w items) {event : Event}
    (run : w.step event = .ok w') : Move w event w' := by
  cases event with
  | send =>
      cases run
      exact Move.sent
  | signal clk => exact balanced.signal_move run
  | proceed clk =>
      rw [World.step, World.proceed] at run
      have turned : ∀ {next : Phase}, w.Follows next →
          Move w (.proceed clk) { w with phase := next } := Move.turned
      cases phase : w.phase with
      | loopTest =>
          simp only [phase] at run
          cases run
          apply turned
          rw [World.Follows, phase]
      | receive =>
          simp only [phase] at run
          exact balanced.receive_move phase run
      | dispatch =>
          simp only [phase] at run
          exact balanced.dispatch_move phase run
      | running =>
          simp only [phase] at run
          exact balanced.running_move phase run
      | expire =>
          simp only [phase] at run
          obtain ⟨sched, expired, rest⟩ := bind_eq_ok.mp run
          cases rest
          exact balanced.expire_move phase expired
      | endOfInput =>
          simp only [phase] at run
          cases run
          exact Move.checked phase
      | sleep =>
          simp only [phase] at run
          cases run
          apply turned
          rw [World.Follows, phase]
      | exited =>
          simp only [phase] at run
          cases run
          have same : Move w (.proceed clk) { w with phase := .exited } := by
            apply turned
            rw [World.Follows, phase]
          rw [← phase] at same
          exact same

/-- What every move keeps holds wherever a run ends. -/
theorem invariant_of_moves {P : World → Prop} (balanced : Balanced w items)
    (kept : ∀ {w w' : World} {items : List Addr} {event : Event},
      Balanced w items → Move w event w' → P w → P w')
    (holds : P w) {events : List Event} {last : World}
    (run : Trace.runs World.step w events = .ok last) : P last := by
  have both : (∃ items, Balanced last items) ∧ P last := by
    refine Trace.invariant_of_steps
      (P := fun w => (∃ items, Balanced w items) ∧ P w) ?_ ⟨⟨_, balanced⟩, holds⟩
      run
    rintro w event w' ⟨⟨items, balanced⟩, holds⟩ stepped
    obtain ⟨items', balanced', _⟩ := balanced.of_step stepped
    exact ⟨⟨items', balanced'⟩, kept balanced (balanced.move stepped) holds⟩
  exact both.2

theorem algorithm_step (balanced : Balanced w items) {event : Event}
    (run : w.step event = .ok w') :
    w'.sched.selectedAlgorithm = w.sched.selectedAlgorithm :=
  (balanced.move run).settings.2

end Balanced

/-- A control block stays that of the process it was received for. -/
theorem Move.origin {w w' : World} {event : Event} (move : Move w event w')
    {a : Addr} (old : a < w.sched.received) :
    w'.sched.origin a = w.sched.origin a := by
  have put : ∀ {b : Addr} {pcb pcb' : PCB} {sched : Scheduler},
      sched.pcbs = w.sched.pcbs.put b pcb' → w.sched.pcbs.load b = some pcb →
      pcb'.pid = pcb.pid → pcb'.pdata = pcb.pdata →
      sched.origin a = w.sched.origin a := by
    intro b pcb pcb' sched pcbs live pid pdata
    rw [Scheduler.origin, pcbs]
    exact Mem.map_load_put live (by rw [pid, pdata]) a
  cases move with
  | sent => rw [w.send_sched.1]
  | @received clk pcb rest queue phase messages valid entered =>
      have apart : a ≠ (w.sched.pcbs.malloc pcb).2 := Nat.ne_of_lt old
      exact congrArg (Option.map fun pcb : PCB => (pcb.pid, pcb.pdata))
        (Mem.load_malloc_of_ne w.sched.pcbs pcb apart)
  | @dispatched clk first pcb queue phase idle live took =>
      obtain ⟨pid, pdata, _⟩ := Scheduler.dispatchedPcb_kept pcb clk.now
      exact put (by simp) live pid pdata
  | @redispatched clk first pcb queue phase hpf idle live took =>
      obtain ⟨pid, pdata, _⟩ := Scheduler.dispatchedPcb_kept pcb clk.now
      exact put rfl live pid pdata
  | checked phase =>
      rw [Scheduler.origin, checkNoMoreProcesses_pcbs, Scheduler.origin]
  | clipped phase rr runs live used => exact put rfl live rfl rfl
  | expired phase runs live rotated kept => exact put rfl live rfl rfl
  | ticked runs live child more kept rekeyed => exact put rfl live rfl rfl
  | finished runs live child kept removed => exact put rfl live rfl rfl
  | turned follows => rfl
  | rejected phase messages invalid => rfl
  | silent none => rfl

/-- No event makes up a message. -/
theorem Move.messages {w w' : World} {event : Event} (move : Move w event w') :
    ∀ pcb ∈ w'.pcbMessages ++ w'.toSend, pcb ∈ w.pcbMessages ++ w.toSend := by
  have tail : ∀ {pcb : PCB} {rest : List PCB}, w.pcbMessages = pcb :: rest →
      ∀ other ∈ rest ++ w.toSend, other ∈ w.pcbMessages ++ w.toSend := by
    intro pcb rest messages other member
    rw [messages, List.cons_append]
    exact List.mem_cons_of_mem _ member
  cases move with
  | sent =>
      rw [w.send_messages]
      exact fun _ member => member
  | rejected phase messages invalid => exact tail messages
  | received phase messages valid entered => exact tail messages
  | _ => exact fun _ member => member

/-- As long as the priorities in the heap can be compared, every event keeps the
heap in order. -/
theorem Move.heaped {w w' : World} {event : Event} (move : Move w event w')
    (other : w.sched.selectedAlgorithm ≠ .rr) (spread : Spread w.sched.readyQueue)
    (spread' : Spread w'.sched.readyQueue) (heaped : Heaped w.sched.readyQueue) :
    Heaped w'.sched.readyQueue := by
  have took : ∀ {first : Addr} {queue : IQueue Addr},
      w.sched.Took first queue → Heaped queue := by
    rintro first queue ⟨_, hpf, same⟩
    by_cases algorithm : w.sched.selectedAlgorithm = .hpf
    · exact heaped.dequeue spread (hpf algorithm)
    · exact same algorithm ▸ heaped
  cases move with
  | sent =>
      rw [w.send_sched.1]
      exact heaped
  | received phase messages valid entered => exact heaped.enqueue entered spread'
  | dispatched phase idle live taken => exact took taken
  | redispatched phase hpf idle live taken => exact took taken
  | expired phase runs live rotated kept =>
      have same := kept other
      exact same ▸ heaped
  | checked phase =>
      rw [checkNoMoreProcesses_readyQueue]
      exact heaped
  | ticked runs live child more kept rekeyed =>
      by_cases srtn : w.sched.selectedAlgorithm = .srtn
      · have same := rekeyed srtn
        subst same
        exact heaped.changePriority spread'
      · have same := kept srtn
        exact same ▸ heaped
  | finished runs live child kept removed =>
      by_cases hpf : w.sched.selectedAlgorithm = .hpf
      · have same := kept hpf
        exact same ▸ heaped
      · obtain ⟨next, run⟩ := removed hpf
        exact heaped.dequeue spread run
  | turned follows => exact heaped
  | rejected phase messages invalid => exact heaped
  | clipped phase rr runs live used => exact heaped
  | silent none => exact heaped

/-! ### Dispatches in the log -/

/-- A line of `scheduler.log` about a dispatch. -/
def LogLine.isDispatch (line : LogLine) : Bool :=
  line.snapshot.state = some .started ∨ line.snapshot.state = some .resumed

namespace Scheduler

/-- The processes dispatched so far, in order, by control block. -/
def dispatches (s : Scheduler) : List Addr :=
  (s.schedulerLog.filter LogLine.isDispatch).map LogLine.pcb

variable {s s' : Scheduler}

/-- A line that is not about a dispatch does not count. -/
theorem dispatches_of_log (line : LogLine)
    (logged : s'.schedulerLog = s.schedulerLog ++ [line])
    (other : line.isDispatch = false) : s'.dispatches = s.dispatches := by
  rw [dispatches, dispatches, logged, List.filter_append, List.map_append]
  simp [other]

theorem dispatches_of_dispatch (line : LogLine)
    (logged : s'.schedulerLog = s.schedulerLog ++ [line])
    (dispatch : line.isDispatch = true) :
    s'.dispatches = s.dispatches ++ [line.pcb] := by
  rw [dispatches, dispatches, logged, List.filter_append, List.map_append]
  simp [dispatch]

/-- A dispatch is logged as one. -/
theorem dispatches_afterDispatch (s : Scheduler) (queue : IQueue Addr) (a : Addr)
    (pcb : PCB) (clk log : Int) :
    (s.afterDispatch queue a pcb clk log).dispatches = s.dispatches ++ [a] := by
  apply dispatches_of_dispatch
    { clk := log, pcb := a, snapshot := dispatchedPcb pcb clk } rfl
  rw [LogLine.isDispatch, dispatchedPcb]
  split <;> simp

/-- Neither a preemption nor an end is one. -/
theorem dispatches_afterExpiration (s : Scheduler) (queue : IQueue Addr)
    (a : Addr) (pcb : PCB) (clk log : Int) :
    (s.afterExpiration queue a pcb clk log).dispatches = s.dispatches :=
  dispatches_of_log (LogLine.mk log a { pcb with state := some .stopped }) rfl
    rfl

theorem dispatches_afterTermination (s : Scheduler) (queue : IQueue Addr)
    (a : Addr) (pcb : PCB) (clk log : Int) :
    (s.afterTermination queue a pcb clk log).dispatches = s.dispatches :=
  dispatches_of_log (LogLine.mk log a (finishedPcb pcb)) rfl rfl

/-- Nor does the idle time count. -/
@[simp] theorem dispatches_accountIdle (s : Scheduler) (clk : Int) :
    (s.accountIdle clk).dispatches = s.dispatches := by
  rw [dispatches, accountIdle_schedulerLog, dispatches]

@[simp] theorem dispatches_checkNoMoreProcesses (s : Scheduler)
    (msg : Option String) :
    (checkNoMoreProcesses s msg).dispatches = s.dispatches := by
  rw [dispatches, checkNoMoreProcesses_schedulerLog, dispatches]

@[simp] theorem received_checkNoMoreProcesses (s : Scheduler)
    (msg : Option String) :
    (checkNoMoreProcesses s msg).received = s.received := by
  rw [received, checkNoMoreProcesses_pcbs, received]

@[simp] theorem remaining_checkNoMoreProcesses (s : Scheduler)
    (msg : Option String) :
    (checkNoMoreProcesses s msg).remaining = s.remaining := by
  funext a
  rw [remaining, checkNoMoreProcesses_pcbs, remaining]

end Scheduler

end OsSim
