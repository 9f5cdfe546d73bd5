/-
Module: OsSim.SchedulerWorld
Purpose: The scheduler together with the generator that sends it messages and
  the child that runs.  `scheduler_loop` is cut into phases; messages are sent
  and signals are handled at any boundary between two of them.
Trusted boundary: human-reviewed translation
Main exports:
  Phase, Readings, Event, World, World.init, World.step, checkNoMoreProcesses
-/
import OsSim.SchedulerTally
import OsSim.Library.Trace

namespace OsSim

open PointerMemory

/-- Where `scheduler_loop` stands: what it does next. -/
inductive Phase where
  | loopTest
  | receive
  | dispatch
  | running
  | expire
  | endOfInput
  | sleep
  | exited
deriving Repr, DecidableEq

/-- The clock values that one phase, or one signal handler, reads: for the idle
time, in the function itself, and in `log_event`. -/
structure Readings where
  idle : Int
  now : Int
  log : Int
deriving Repr, DecidableEq

/-- What happens next: the generator sends a message, the scheduler performs its
next phase, or the child of the current process uses up a unit of its runtime
and the signal it sends is handled. -/
inductive Event where
  | send
  | proceed (clk : Readings)
  | signal (clk : Readings)
deriving Repr, DecidableEq

/-- The scheduler, the two message types in the queue, what the generator has
still to send, and the `runtime` counter of each child in `run_process`, by the
address of its control block. -/
structure World where
  sched : Scheduler
  phase : Phase
  toSend : List PCB
  endSent : Bool
  pcbMessages : List PCB
  endMessages : List String
  children : List Int
deriving Repr, DecidableEq

/-- `check_no_more_processes`, with the message that `msgrcv` returns. -/
def checkNoMoreProcesses (s : Scheduler) (msg : Option String) : Scheduler :=
  match msg with
  | none => s
  | some str =>
      if str = "no_more_processes" then { s with noMoreProcesses := true } else s

section

variable (s : Scheduler) (msg : Option String)

/-! The check for the end of input writes `noMoreProcesses` only. -/

/-- The check sets the flag, or nothing. -/
theorem checkNoMoreProcesses_eq :
    ∃ noMore, checkNoMoreProcesses s msg =
      { s with noMoreProcesses := noMore } := by
  cases msg with
  | none => exact ⟨s.noMoreProcesses, rfl⟩
  | some str =>
      rw [checkNoMoreProcesses]
      split
      next => exact ⟨true, rfl⟩
      next => exact ⟨s.noMoreProcesses, rfl⟩

@[simp] theorem checkNoMoreProcesses_readyQueue :
    (checkNoMoreProcesses s msg).readyQueue = s.readyQueue := by
  obtain ⟨_, checked⟩ := checkNoMoreProcesses_eq s msg
  rw [checked]

@[simp] theorem checkNoMoreProcesses_pcbs :
    (checkNoMoreProcesses s msg).pcbs = s.pcbs := by
  obtain ⟨_, checked⟩ := checkNoMoreProcesses_eq s msg
  rw [checked]

@[simp] theorem checkNoMoreProcesses_currentPcb :
    (checkNoMoreProcesses s msg).currentPcb = s.currentPcb := by
  obtain ⟨_, checked⟩ := checkNoMoreProcesses_eq s msg
  rw [checked]

@[simp] theorem checkNoMoreProcesses_quantum :
    (checkNoMoreProcesses s msg).quantum = s.quantum := by
  obtain ⟨_, checked⟩ := checkNoMoreProcesses_eq s msg
  rw [checked]

@[simp] theorem checkNoMoreProcesses_lastRemainTime :
    (checkNoMoreProcesses s msg).lastRemainTime = s.lastRemainTime := by
  obtain ⟨_, checked⟩ := checkNoMoreProcesses_eq s msg
  rw [checked]

@[simp] theorem checkNoMoreProcesses_logStartTime :
    (checkNoMoreProcesses s msg).logStartTime = s.logStartTime := by
  obtain ⟨_, checked⟩ := checkNoMoreProcesses_eq s msg
  rw [checked]

@[simp] theorem checkNoMoreProcesses_executionLog :
    (checkNoMoreProcesses s msg).executionLog = s.executionLog := by
  obtain ⟨_, checked⟩ := checkNoMoreProcesses_eq s msg
  rw [checked]

@[simp] theorem checkNoMoreProcesses_lastProcessEndTime :
    (checkNoMoreProcesses s msg).lastProcessEndTime = s.lastProcessEndTime := by
  obtain ⟨_, checked⟩ := checkNoMoreProcesses_eq s msg
  rw [checked]

@[simp] theorem checkNoMoreProcesses_idleTime :
    (checkNoMoreProcesses s msg).idleTime = s.idleTime := by
  obtain ⟨_, checked⟩ := checkNoMoreProcesses_eq s msg
  rw [checked]

@[simp] theorem checkNoMoreProcesses_selectedAlgorithm :
    (checkNoMoreProcesses s msg).selectedAlgorithm = s.selectedAlgorithm := by
  obtain ⟨_, checked⟩ := checkNoMoreProcesses_eq s msg
  rw [checked]

@[simp] theorem checkNoMoreProcesses_schedulerLog :
    (checkNoMoreProcesses s msg).schedulerLog = s.schedulerLog := by
  obtain ⟨_, checked⟩ := checkNoMoreProcesses_eq s msg
  rw [checked]

@[simp] theorem checkNoMoreProcesses_totalWta :
    (checkNoMoreProcesses s msg).totalWta = s.totalWta := by
  obtain ⟨_, checked⟩ := checkNoMoreProcesses_eq s msg
  rw [checked]

@[simp] theorem checkNoMoreProcesses_totalWait :
    (checkNoMoreProcesses s msg).totalWait = s.totalWait := by
  obtain ⟨_, checked⟩ := checkNoMoreProcesses_eq s msg
  rw [checked]

@[simp] theorem checkNoMoreProcesses_kills :
    (checkNoMoreProcesses s msg).kills = s.kills := by
  obtain ⟨_, checked⟩ := checkNoMoreProcesses_eq s msg
  rw [checked]

end

namespace World

/-- The scheduler at its first loop test, before any message has been sent. -/
def init (algorithm : SchedulingAlgorithm) (quantum clk : Int)
    (toSend : List PCB) : World :=
  { sched := runScheduler algorithm quantum clk
    phase := .loopTest
    toSend := toSend
    endSent := false
    pcbMessages := []
    endMessages := []
    children := [] }

/-- The messages `create_processes` sends: one for each process, and
"no_more_processes" after the last one. -/
def send (w : World) : World :=
  match w.toSend with
  | pcb :: rest =>
      { w with toSend := rest, pcbMessages := w.pcbMessages ++ [pcb] }
  | [] =>
      if w.endSent then w
      else
        { w with
          endSent := true
          endMessages := w.endMessages ++ ["no_more_processes"] }

/-- One round of the loop of `check_for_new_processes`. -/
def receive (w : World) : Except Fault World :=
  match w.pcbMessages with
  | [] => .ok { w with phase := .dispatch }
  | pcb :: rest => do
      let (sched, more) ← w.sched.receivePcb pcb
      if more then
        pure { w with
          sched := sched
          pcbMessages := rest
          children := w.children ++ [pcb.pdata.runtime] }
      else
        pure { w with sched := sched, pcbMessages := rest, phase := .dispatch }

/-- The part of the loop body that schedules when no process is current. -/
def dispatch (w : World) (clk : Readings) : Except Fault World :=
  if w.sched.currentPcb = none then do
    let sched ←
      (w.sched.accountIdle clk.idle).scheduleNextProcess clk.now clk.log
    pure { w with sched := sched, phase := .running }
  else
    .ok { w with phase := .running }

/-- `handle_current_running_process` up to its call of
`handle_quantum_expiration`. -/
def running (w : World) (clk : Readings) : Except Fault World := do
  let (sched, expired) ← w.sched.runningDecision clk.now clk.log
  pure { w with
    sched := sched
    phase := if expired then .expire else .endOfInput }

/-- Perform the next phase. -/
def proceed (w : World) (clk : Readings) : Except Fault World :=
  match w.phase with
  | .loopTest =>
      .ok { w with phase := if w.sched.loopContinues then .receive else .exited }
  | .receive => w.receive
  | .dispatch => w.dispatch clk
  | .running => w.running clk
  | .expire => do
      let sched ← w.sched.handleQuantumExpiration clk.now clk.log
      pure { w with sched := sched, phase := .endOfInput }
  | .endOfInput =>
      .ok { w with
        sched := checkNoMoreProcesses w.sched w.endMessages.head?
        endMessages := w.endMessages.tail
        phase := .sleep }
  | .sleep => .ok { w with phase := .loopTest }
  | .exited => .ok w

/-- From the running phase to the end of it, over the phase of the expiration
where there is one. -/
def runningToEnd (w : World) (clk : Readings) : Except Fault World := do
  let w' ← w.proceed clk
  if w'.phase = .expire then w'.proceed clk else pure w'

/-- A signal may come between the two phases; where none does, they are
`handle_current_running_process`. -/
theorem runningToEnd_eq (w : World) (clk : Readings) (phase : w.phase = .running) :
    w.runningToEnd clk = (do
      let sched ← w.sched.handleCurrentRunningProcess clk.now clk.log
      pure { w with sched := sched, phase := .endOfInput }) := by
  rw [runningToEnd, proceed, phase]
  dsimp only
  rw [running, Scheduler.handleCurrentRunningProcess]
  cases w.sched.runningDecision clk.now clk.log with
  | error fault => rfl
  | ok decided =>
      obtain ⟨sched, expired⟩ := decided
      cases expired <;> rfl

/-- The child of the current process counts its runtime down and sends SIGUSR2,
or SIGUSR1 for its last unit.  Without such a child nothing happens. -/
def signal (w : World) (clk : Readings) : Except Fault World :=
  match w.sched.currentPcb with
  | none => .ok w
  | some a =>
      match w.children[a]? with
      | none => .ok w
      | some left =>
          if left ≤ 0 then .ok w
          else if left = 1 then do
            let sched ← w.sched.handleProcessTermination clk.now clk.log
            pure { w with sched := sched, children := w.children.set a 0 }
          else do
            let sched ← w.sched.handleProcessTick
            pure { w with
              sched := sched, children := w.children.set a (left - 1) }

/-- One event. -/
def step (w : World) : Event → Except Fault World
  | .send => .ok w.send
  | .proceed clk => w.proceed clk
  | .signal clk => w.signal clk

end World

/-! ### What each event does

The invariant of the world has two parts, as that of the scheduler has.  Every
event keeps the first one, and in particular every event succeeds.  The second
one is kept as long as signals find their sender in front.  It says where this
may fail: from a reception to the next check for preemption, and only when the
new process has less time left than the current one.
-/

/-- The scheduler of a world whose signals have all been charged to their
sender, and the messages still to come. -/
structure Balanced (w : World) (items : List Addr) : Prop where
  tally : Tally w.sched w.children items
  sent : ∀ pcb ∈ w.pcbMessages ++ w.toSend, Sent pcb
  preemptive : w.phase = .expire → w.sched.selectedAlgorithm ≠ .hpf

namespace World

variable {w : World} {items : List Addr}

theorem send_sched (w : World) : w.send.sched = w.sched ∧
    w.send.children = w.children ∧ w.send.phase = w.phase := by
  rw [send]
  split
  next => exact ⟨rfl, rfl, rfl⟩
  next => split <;> exact ⟨rfl, rfl, rfl⟩

theorem send_messages (w : World) :
    w.send.pcbMessages ++ w.send.toSend = w.pcbMessages ++ w.toSend := by
  rw [send]
  split
  next pcb rest same => simp [same]
  next => split <;> rfl

/-- Accounting for idle time changes no account of processes. -/
theorem accountIdle (tally : Tally w.sched w.children items) (clk : Int) :
    Tally (w.sched.accountIdle clk) w.children items ∧
      w.sched.Frame (w.sched.accountIdle clk) ∧
      (w.sched.accountIdle clk).currentPcb = w.sched.currentPcb ∧
      (Roster w.sched w.children items →
        Roster (w.sched.accountIdle clk) w.children items) := by
  rw [Scheduler.accountIdle]
  split
  next =>
    obtain ⟨tally', kept⟩ := tally.settings
      (w.sched.executionLog ++ [.idle w.sched.lastProcessEndTime clk])
      (w.sched.idleTime + (clk - w.sched.lastProcessEndTime))
      w.sched.noMoreProcesses
    exact ⟨tally', ⟨rfl, rfl, rfl, rfl, fun _ => rfl⟩, rfl, kept⟩
  next => exact ⟨tally, Scheduler.Frame.refl _, rfl, fun roster => roster⟩

/-- The scheduling part of the loop body dispatches when no process is current. -/
theorem dispatch_spec (tally : Tally w.sched w.children items) (clk : Readings) :
    ∃ sched' items',
      w.dispatch clk = .ok { w with sched := sched', phase := .running } ∧
      Tally sched' w.children items' ∧ w.sched.Frame sched' ∧
      (Settled w.sched items → Settled sched' items') ∧
      (Overtaken w.sched items → Overtaken sched' items') ∧
      (Roster w.sched w.children items → Roster sched' w.children items') := by
  rw [dispatch]
  by_cases idle : w.sched.currentPcb = none
  · obtain ⟨tally₁, frame₁, current, kept₁⟩ := accountIdle tally clk.idle
    obtain ⟨sched', items', run, tally', frame', settled, _, kept⟩ :=
      tally₁.scheduleNextProcess (current.trans idle) clk.now clk.log
    refine ⟨sched', items', ?_, tally', frame₁.trans frame', fun _ => settled,
      ?_, fun roster => kept (kept₁ roster)⟩
    · rw [if_pos idle, run]
      rfl
    · rintro ⟨_, a, _, _, _, runs, _⟩
      rw [idle] at runs
      cases runs
  · exact ⟨w.sched, items, if_neg idle, tally, Scheduler.Frame.refl _,
      fun kept => kept, fun kept => kept, fun kept => kept⟩

/-- A round of `check_for_new_processes` ends the loop, or adds a process. -/
theorem receive_spec (tally : Tally w.sched w.children items)
    (sent : ∀ pcb ∈ w.pcbMessages, Sent pcb) :
    (w.pcbMessages = [] ∧ w.receive = .ok { w with phase := .dispatch }) ∨
    ∃ pcb rest, w.pcbMessages = pcb :: rest ∧
      ((validPcb pcb = false ∧ w.receive =
          .ok { w with pcbMessages := rest, phase := .dispatch }) ∨
        (validPcb pcb = true ∧ ∃ sched' items',
          w.receive = .ok { w with
            sched := sched'
            pcbMessages := rest
            children := w.children ++ [pcb.pdata.runtime] } ∧
          Tally sched' (w.children ++ [pcb.pdata.runtime]) items' ∧
          sched'.selectedAlgorithm = w.sched.selectedAlgorithm ∧
          sched'.noMoreProcesses = w.sched.noMoreProcesses ∧
          sched'.pcbs = (w.sched.pcbs.malloc pcb).1 ∧
          (Roster w.sched w.children items →
            Roster sched' (w.children ++ [pcb.pdata.runtime]) items' ∧
            (Settled w.sched items → Settled sched' items' ∨
              Overtaken sched' items') ∧
            (Overtaken w.sched items → Overtaken sched' items')))) := by
  rw [receive]
  cases messages : w.pcbMessages with
  | nil => exact Or.inl ⟨rfl, rfl⟩
  | cons pcb rest =>
      refine Or.inr ⟨pcb, rest, rfl, ?_⟩
      cases valid : validPcb pcb with
      | false =>
          refine Or.inl ⟨rfl, ?_⟩
          simp only [Scheduler.receivePcb, valid]
          rfl
      | true =>
          obtain ⟨sched', items', run, tally', algorithm, noMore, _, made,
            kept⟩ := tally.receivePcb (sent pcb (by simp [messages])) valid
          refine Or.inr ⟨rfl, sched', items', ?_, tally', algorithm, noMore,
            made, kept⟩
          dsimp only
          rw [run]
          rfl

/-- A child counts down: while units are left the current process stays, and the
last one finishes it. -/
theorem signal_spec (tally : Tally w.sched w.children items) (clk : Readings) :
    w.signal clk = .ok w ∨
    ∃ a n sched' items', w.sched.currentPcb = some a ∧
      w.children[a]? = some n ∧
      w.signal clk = .ok { w with
        sched := sched', children := w.children.set a (n - 1) } ∧
      Tally sched' (w.children.set a (n - 1)) items' ∧
      w.sched.Frame sched' ∧
      (sched'.currentPcb = some a ∨
        (n = 1 ∧ sched'.currentPcb = none ∧
          items'.length + 1 = items.length + w.sched.inHand.length)) ∧
      (Settled w.sched items → Roster w.sched w.children items →
        Roster sched' (w.children.set a (n - 1)) items' ∧
          Settled sched' items') := by
  rw [signal]
  split
  next => exact Or.inl rfl
  next a runs =>
    split
    next => exact Or.inl rfl
    next n child =>
      split
      next => exact Or.inl rfl
      next positive =>
        right
        split
        next last =>
          subst last
          obtain ⟨sched', items', run, tally', frame, idle, fewer, kept⟩ :=
            tally.handleProcessTermination runs child clk.now clk.log
          refine ⟨a, 1, sched', items', runs, child, ?_, tally', frame,
            Or.inr ⟨rfl, idle, fewer⟩, fun settled roster =>
            ⟨kept settled roster, ?_⟩⟩
          · rw [run]
            rfl
          · intro _ b same
            rw [idle] at same
            cases same
        next more =>
          obtain ⟨sched', items', run, tally', frame, current, _, kept⟩ :=
            tally.handleProcessTick runs child (by omega)
          refine ⟨a, n, sched', items', runs, child, ?_, tally', frame,
            Or.inl current, kept⟩
          rw [run]
          rfl

end World

/-- The phases in which a process that has just been received may have come
before the current one. -/
def Phase.unsettled : Phase → Bool
  | .receive | .dispatch | .running | .expire => true
  | .loopTest | .endOfInput | .sleep | .exited => false

/-- Every signal so far was charged to its sender, and the current process is in
front, or about to be preempted. -/
structure Charged (w : World) (items : List Addr) : Prop where
  roster : Roster w.sched w.children items
  front : Settled w.sched items ∨
    (w.phase.unsettled = true ∧ Overtaken w.sched items)

/-- Between the checks for preemption the current process is in front. -/
theorem Charged.settled {w : World} {items : List Addr}
    (charged : Charged w items) (quiet : w.phase.unsettled = false) :
    Settled w.sched items := by
  rcases charged.front with settled | ⟨unsettled, _⟩
  · exact settled
  · rw [quiet] at unsettled
    cases unsettled

namespace Balanced

variable {w : World} {items : List Addr}

theorem send (balanced : Balanced w items) :
    Balanced w.send items ∧ (Charged w items → Charged w.send items) := by
  obtain ⟨sched, children, phase⟩ := w.send_sched
  refine ⟨⟨?_, ?_, ?_⟩, fun charged => ⟨?_, ?_⟩⟩
  · rw [sched, children]
    exact balanced.tally
  · rw [w.send_messages]
    exact balanced.sent
  · rw [sched, phase]
    exact balanced.preemptive
  · rw [sched, children]
    exact charged.roster
  · rw [sched, phase]
    exact charged.front

/-- A new process may come before the current one. -/
theorem receive (balanced : Balanced w items) (phase : w.phase = .receive) :
    ∃ w' items', w.receive = .ok w' ∧ Balanced w' items' ∧
      (Charged w items → Charged w' items') := by
  rcases World.receive_spec balanced.tally (fun pcb member =>
      balanced.sent pcb (List.mem_append_left _ member)) with
    ⟨_, run⟩ | ⟨pcb, rest, messages, ⟨_, run⟩ | ⟨_, sched', items', run, tally',
      algorithm, noMore, _, kept⟩⟩
  · exact ⟨_, items, run,
      ⟨balanced.tally, balanced.sent, fun impossible => by cases impossible⟩,
      fun charged => ⟨charged.roster,
        charged.front.imp_right fun both => ⟨rfl, both.2⟩⟩⟩
  · refine ⟨_, items, run,
      ⟨balanced.tally, ?_, fun impossible => by cases impossible⟩,
      fun charged => ⟨charged.roster,
        charged.front.imp_right fun both => ⟨rfl, both.2⟩⟩⟩
    intro other member
    apply balanced.sent other
    rw [messages, List.cons_append]
    exact List.mem_cons_of_mem _ member
  · refine ⟨_, items', run, ⟨tally', ?_, ?_⟩, fun charged => ?_⟩
    · intro other member
      apply balanced.sent other
      rw [messages, List.cons_append]
      exact List.mem_cons_of_mem _ member
    · intro expire
      rw [phase] at expire
      cases expire
    · obtain ⟨roster', settled, overtaken⟩ := kept charged.roster
      refine ⟨roster', ?_⟩
      have unsettled : w.phase.unsettled = true := by
        rw [phase]
        rfl
      rcases charged.front with before | ⟨_, before⟩
      · exact (settled before).imp_right fun after => ⟨unsettled, after⟩
      · exact Or.inr ⟨unsettled, overtaken before⟩

theorem dispatch (balanced : Balanced w items) (clk : Readings) :
    ∃ w' items', w.dispatch clk = .ok w' ∧ Balanced w' items' ∧
      (Charged w items → Charged w' items') := by
  obtain ⟨sched', items', run, tally', frame, settled, overtaken, kept⟩ :=
    World.dispatch_spec balanced.tally clk
  refine ⟨_, items', run,
    ⟨tally', balanced.sent, fun impossible => by cases impossible⟩,
    fun charged => ⟨kept charged.roster, ?_⟩⟩
  exact charged.front.imp settled fun both => ⟨rfl, overtaken both.2⟩

theorem running (balanced : Balanced w items) (clk : Readings) :
    ∃ w' items', w.running clk = .ok w' ∧ Balanced w' items' ∧
      (Charged w items → Charged w' items') := by
  obtain ⟨sched', items', expired, run, decided⟩ :=
    balanced.tally.runningDecision clk.now clk.log
  refine ⟨{ w with
      sched := sched', phase := if expired then .expire else .endOfInput },
    items', ?_, ⟨decided.tally, balanced.sent, ?_⟩,
    fun charged => ⟨decided.roster charged.roster, ?_⟩⟩
  · rw [World.running, run]
    rfl
  · cases expired with
    | false =>
        intro impossible
        cases impossible
    | true =>
        intro _ hpf
        exact decided.preemptive rfl (decided.frame.algorithm.symm.trans hpf)
  · rcases charged.front with settled | ⟨_, overtaken⟩
    · exact Or.inl (decided.settled settled)
    · cases expired with
      | false => exact Or.inl (decided.front overtaken.1 rfl)
      | true => exact Or.inr ⟨rfl, decided.overtaken overtaken⟩

theorem expire (balanced : Balanced w items) (phase : w.phase = .expire)
    (clk : Readings) :
    ∃ sched' items',
      w.sched.handleQuantumExpiration clk.now clk.log = .ok sched' ∧
      Balanced { w with sched := sched', phase := .endOfInput } items' ∧
      (Charged w items →
        Charged { w with sched := sched', phase := .endOfInput } items') := by
  obtain ⟨sched', items', run, tally', frame, idle, _, kept⟩ :=
    balanced.tally.handleQuantumExpiration (balanced.preemptive phase) clk.now
      clk.log
  refine ⟨sched', items', run,
    ⟨tally', balanced.sent, fun impossible => by cases impossible⟩,
    fun charged => ⟨kept charged.roster, Or.inl ?_⟩⟩
  intro _ a runs
  rw [idle] at runs
  cases runs

theorem endOfInput (balanced : Balanced w items) (phase : w.phase = .endOfInput)
    (msg : Option String) (messages : List String) :
    Balanced { w with
      sched := checkNoMoreProcesses w.sched msg
      endMessages := messages
      phase := .sleep } items ∧
    (Charged w items → Charged { w with
      sched := checkNoMoreProcesses w.sched msg
      endMessages := messages
      phase := .sleep } items) := by
  have quiet : w.phase.unsettled = false := by
    rw [phase]
    rfl
  obtain ⟨noMore, checked⟩ := checkNoMoreProcesses_eq w.sched msg
  obtain ⟨tally', kept⟩ :=
    balanced.tally.settings w.sched.executionLog w.sched.idleTime noMore
  rw [checked]
  exact ⟨⟨tally', balanced.sent, fun impossible => by cases impossible⟩,
    fun charged => ⟨kept charged.roster, Or.inl (charged.settled quiet)⟩⟩

/-- The next phase succeeds and keeps the accounts. -/
theorem proceed (balanced : Balanced w items) (clk : Readings) :
    ∃ w' items', w.proceed clk = .ok w' ∧ Balanced w' items' ∧
      (Charged w items → Charged w' items') := by
  have moved : ∀ phase : Phase, w.phase.unsettled = false → phase ≠ .expire →
      Balanced { w with phase := phase } items ∧
        (Charged w items → Charged { w with phase := phase } items) :=
    fun phase quiet other =>
      ⟨⟨balanced.tally, balanced.sent, fun same => absurd same other⟩,
        fun charged => ⟨charged.roster, Or.inl (charged.settled quiet)⟩⟩
  rw [World.proceed]
  cases phase : w.phase with
  | loopTest =>
      refine ⟨_, items, rfl, moved _ (by rw [phase]; rfl) ?_⟩
      split <;> simp
  | receive => exact balanced.receive phase
  | dispatch => exact balanced.dispatch clk
  | running => exact balanced.running clk
  | expire =>
      obtain ⟨sched', items', run, kept⟩ := balanced.expire phase clk
      refine ⟨_, items', ?_, kept⟩
      rw [run]
      rfl
  | endOfInput => exact ⟨_, items, rfl, balanced.endOfInput phase _ _⟩
  | sleep => exact ⟨_, items, rfl, moved .loopTest (by rw [phase]; rfl) (by simp)⟩
  | exited => exact ⟨w, items, rfl, balanced, fun charged => charged⟩

theorem signal (balanced : Balanced w items) (clk : Readings) :
    ∃ w' items', w.signal clk = .ok w' ∧ Balanced w' items' ∧
      (Settled w.sched items → Charged w items → Charged w' items') := by
  rcases World.signal_spec balanced.tally clk with
    run | ⟨a, n, sched', items', _, _, run, tally', frame, _, kept⟩
  · exact ⟨w, items, run, balanced, fun _ charged => charged⟩
  · refine ⟨_, items', run, ⟨tally', balanced.sent, ?_⟩,
      fun settled charged => ?_⟩
    · intro expire
      rw [frame.algorithm]
      exact balanced.preemptive expire
    · obtain ⟨roster', settled'⟩ := kept settled charged.roster
      exact ⟨roster', Or.inl settled'⟩

/-- Every event succeeds and keeps the accounts; it keeps the charges right when
a signal finds the current process in front. -/
theorem step (balanced : Balanced w items) (event : Event) :
    ∃ w' items', w.step event = .ok w' ∧ Balanced w' items' ∧
      ((∀ clk, event = .signal clk → Settled w.sched items) →
        Charged w items → Charged w' items') := by
  cases event with
  | send =>
      obtain ⟨balanced', kept⟩ := balanced.send
      exact ⟨w.send, items, rfl, balanced', fun _ => kept⟩
  | proceed clk =>
      obtain ⟨w', items', run, balanced', kept⟩ := balanced.proceed clk
      exact ⟨w', items', run, balanced', fun _ => kept⟩
  | signal clk =>
      obtain ⟨w', items', run, balanced', kept⟩ := balanced.signal clk
      exact ⟨w', items', run, balanced', fun settled => kept (settled clk rfl)⟩

/-- What an event that has been performed keeps. -/
theorem of_step (balanced : Balanced w items) {event : Event} {w' : World}
    (run : w.step event = .ok w') :
    ∃ items', Balanced w' items' ∧
      ((∀ clk, event = .signal clk → Settled w.sched items) →
        Charged w items → Charged w' items') := by
  obtain ⟨found, items', run', kept⟩ := balanced.step event
  have same : found = w' := Except.ok.inj (run'.symm.trans run)
  exact ⟨items', same ▸ kept⟩

end Balanced

/-- At the start there is nothing to account for. -/
theorem balanced_init (algorithm : SchedulingAlgorithm) (quantum clk : Int)
    {toSend : List PCB} (sent : ∀ pcb ∈ toSend, Sent pcb) :
    Balanced (World.init algorithm quantum clk toSend) [] ∧
      Charged (World.init algorithm quantum clk toSend) [] := by
  have hand : (runScheduler algorithm quantum clk).inHand = [] :=
    Scheduler.inHand_none rfl
  have wired : (runScheduler algorithm quantum clk).Wired [] :=
    ⟨initQueue_shows algorithm, initQueue_type algorithm, by simp,
      fun a impossible => by cases impossible⟩
  have tally : Tally (runScheduler algorithm quantum clk) [] [] := by
    refine ⟨wired, rfl, by simp, by simp, List.nodup_nil, ?_, ?_, ?_⟩
    · intro a member
      cases member
    · intro _ a impossible
      cases impossible
    · rw [hand]
      rfl
  refine ⟨⟨tally, sent, fun impossible => by cases impossible⟩,
    ⟨⟨tally, ?_, ?_, fun _ => initQueue_keyedBy algorithm _⟩, Or.inl ?_⟩⟩
  · show ([] ++ (runScheduler algorithm quantum clk).inHand ++ []).Nodup
    rw [hand]
    exact List.nodup_nil
  · intro _ a n impossible
    cases impossible
  · intro _ a impossible
    cases impossible

end OsSim
