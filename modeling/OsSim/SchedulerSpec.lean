/-
Module: OsSim.SchedulerSpec
Purpose: What each scheduler function does to the ready queue, the current
  process, the remaining times and the log, on a scheduler whose pointers are in
  order.
Trusted boundary: none
Main exports:
  Scheduler.Wired, Scheduler.Frame, afterDispatch, afterExpiration,
  afterTermination, afterTick, Wired.receivePcb, Wired.scheduleNextProcess_run,
  Wired.handleQuantumExpiration_run, Wired.handleProcessTermination_run,
  Wired.handleProcessTick_run
-/
import OsSim.Scheduler
import Mathlib.Data.List.Rotate

namespace OsSim

open PointerMemory

namespace Scheduler

/-- The remaining time in a control block. -/
def remaining (s : Scheduler) (a : Addr) : Option Int :=
  (s.pcbs.load a).map PCB.remainingTime

/-- The process that a control block was received for. -/
def origin (s : Scheduler) (a : Addr) : Option (Int × Process) :=
  (s.pcbs.load a).map fun pcb => (pcb.pid, pcb.pdata)

/-- The number of control blocks received. -/
def received (s : Scheduler) : Nat := s.pcbs.cells.length

/-- The ready queue is well formed and shows these items; they and the current
process are control blocks. -/
structure Wired (s : Scheduler) (items : List Addr) : Prop where
  shows : Shows s.readyQueue items
  type : s.readyQueue.type = queueType s.selectedAlgorithm
  live : ∀ a ∈ items, ∃ pcb, s.pcbs.load a = some pcb
  running : ∀ a, s.currentPcb = some a → ∃ pcb, s.pcbs.load a = some pcb

/-- What no function but `receivePcb` changes: the settings, and which control
blocks there are. -/
structure Frame (s s' : Scheduler) : Prop where
  algorithm : s'.selectedAlgorithm = s.selectedAlgorithm
  quantum : s'.quantum = s.quantum
  noMore : s'.noMoreProcesses = s.noMoreProcesses
  received : s'.received = s.received
  origin : ∀ a, s'.origin a = s.origin a

variable {s s' : Scheduler} {items : List Addr} {a : Addr} {pcb : PCB}

namespace Frame

theorem refl (s : Scheduler) : Frame s s :=
  ⟨rfl, rfl, rfl, rfl, fun _ => rfl⟩

theorem trans {s'' : Scheduler} (first : Frame s s') (second : Frame s' s'') :
    Frame s s'' :=
  ⟨second.algorithm.trans first.algorithm, second.quantum.trans first.quantum,
    second.noMore.trans first.noMore, second.received.trans first.received,
    fun a => (second.origin a).trans (first.origin a)⟩

/-- A control block stays one. -/
theorem live (frame : Frame s s') (live : ∃ pcb, s.pcbs.load a = some pcb) :
    ∃ pcb, s'.pcbs.load a = some pcb := by
  obtain ⟨pcb, loaded⟩ := live
  have same := frame.origin a
  rw [Scheduler.origin, Scheduler.origin, loaded, Option.map_some,
    Option.map_eq_some_iff] at same
  exact ⟨same.choose, same.choose_spec.1⟩

end Frame

/-! ### The statements on the current process -/

theorem current_eq (runs : s.currentPcb = some a)
    (live : s.pcbs.load a = some pcb) : s.current = .ok pcb := by
  rw [current, runs, derefPtr, deref_of_load live]

theorem current_none (idle : s.currentPcb = none) :
    s.current = .error .nullPointer := by
  rw [current, idle, derefPtr]

theorem updateCurrent_eq (runs : s.currentPcb = some a)
    (live : s.pcbs.load a = some pcb) (f : PCB → PCB) :
    s.updateCurrent f = .ok { s with pcbs := s.pcbs.put a (f pcb) } := by
  rw [updateCurrent, runs, updatePtr, update_of_load live, ok_bind, pure_eq_ok]

theorem killCurrent_eq (runs : s.currentPcb = some a)
    (live : s.pcbs.load a = some pcb) (signal : ProcessSignal) :
    s.killCurrent signal =
      .ok { s with kills := s.kills ++ [(pcb.pid, signal)] } := by
  rw [killCurrent, current_eq runs live, ok_bind, pure_eq_ok]

/-- The scheduler with one more line in `scheduler.log`. -/
def logged (s : Scheduler) (a : Addr) (pcb : PCB) (clk : Int) : Scheduler :=
  { s with
    schedulerLog :=
      s.schedulerLog ++ [{ clk := clk, pcb := a, snapshot := pcb }] }

/-- `log_event` about a process that has not finished writes one line. -/
theorem logEvent_eq (runs : s.currentPcb = some a)
    (live : s.pcbs.load a = some pcb) (unfinished : pcb.state ≠ some .finished)
    (clk : Int) : s.logEvent s.currentPcb clk = .ok (s.logged a pcb clk) := by
  have same : s.logEvent s.currentPcb clk = s.logEvent (some a) clk := by
    rw [runs]
  rw [same, logEvent, deref_of_load live, ok_bind]
  exact if_neg unfinished

/-- `log_event` about a finished process also adds to the totals. -/
theorem logEvent_finished (runs : s.currentPcb = some a)
    (live : s.pcbs.load a = some pcb) (done : pcb.state = some .finished)
    (clk : Int) :
    s.logEvent s.currentPcb clk = .ok { s.logged a pcb clk with
      totalWta := s.totalWta +
        ((clk - pcb.pdata.arrivalTime : Int) : ℚ) / (pcb.pdata.runtime : ℚ)
      totalWait := s.totalWait + pcb.waitTime } := by
  have same : s.logEvent s.currentPcb clk = s.logEvent (some a) clk := by
    rw [runs]
  rw [same, logEvent, deref_of_load live, ok_bind]
  exact if_pos done

/-- A line about a process that has not finished does not count. -/
theorem finished_of_log {line : LogLine}
    (logged : s'.schedulerLog = s.schedulerLog ++ [line])
    (unfinished : line.snapshot.state ≠ some .finished) :
    s'.finished = s.finished := by
  rw [finished, finished, logged, List.filter_append, List.map_append]
  simp [unfinished]

theorem finished_of_log_finished (line : LogLine)
    (logged : s'.schedulerLog = s.schedulerLog ++ [line])
    (done : line.snapshot.state = some .finished) :
    s'.finished = s.finished ++ [line.pcb] := by
  rw [finished, finished, logged, List.filter_append, List.map_append]
  simp [done]

theorem received_put {pcb' : PCB} (pcbs : s'.pcbs = s.pcbs.put a pcb') :
    s'.received = s.received := by
  rw [received, pcbs, Mem.length_put, received]

/-- Overwriting a control block by one of the same process keeps the frame. -/
theorem frame_of_put (live : s.pcbs.load a = some pcb) (pcb' : PCB)
    (pid : pcb'.pid = pcb.pid) (pdata : pcb'.pdata = pcb.pdata)
    (algorithm : s'.selectedAlgorithm = s.selectedAlgorithm)
    (quantum : s'.quantum = s.quantum)
    (noMore : s'.noMoreProcesses = s.noMoreProcesses)
    (pcbs : s'.pcbs = s.pcbs.put a pcb') : Frame s s' := by
  refine ⟨algorithm, quantum, noMore, ?_, ?_⟩
  · rw [Scheduler.received, pcbs, Mem.length_put, Scheduler.received]
  · intro b
    rw [Scheduler.origin, pcbs]
    exact Mem.map_load_put live (by rw [pid, pdata]) b

/-- The control block of a process that is dispatched at a time. -/
def dispatchedPcb (pcb : PCB) (clk : Int) : PCB :=
  if pcb.startTime = -1 then
    { pcb with
      state := some .started
      startTime := clk
      waitTime := clk - pcb.pdata.arrivalTime }
  else
    { pcb with
      state := some .resumed
      waitTime := (clk - pcb.pdata.arrivalTime) -
        (pcb.pdata.runtime - pcb.remainingTime) }

/-- Recording a dispatch touches the times and the state only. -/
theorem dispatchedPcb_kept (pcb : PCB) (clk : Int) :
    (dispatchedPcb pcb clk).pid = pcb.pid ∧
      (dispatchedPcb pcb clk).pdata = pcb.pdata ∧
      (dispatchedPcb pcb clk).remainingTime = pcb.remainingTime ∧
      (dispatchedPcb pcb clk).state ≠ some .finished := by
  rw [dispatchedPcb]
  split <;> simp

theorem recordDispatch_eq (runs : s.currentPcb = some a)
    (live : s.pcbs.load a = some pcb) (clk : Int) :
    s.recordDispatch clk =
      .ok { s with pcbs := s.pcbs.put a (dispatchedPcb pcb clk) } := by
  rw [recordDispatch, current_eq runs live, ok_bind, dispatchedPcb]
  split
  next =>
    simp only [updateCurrent_eq runs live, ok_bind,
      updateCurrent_eq (s := { s with pcbs := s.pcbs.put a _ }) runs
        (Mem.load_put_self live _), Mem.put_put]
  next =>
    simp only [updateCurrent_eq runs live, ok_bind,
      updateCurrent_eq (s := { s with pcbs := s.pcbs.put a _ }) runs
        (Mem.load_put_self live _), Mem.put_put]

/-! ### What each function leaves behind -/

/-- After `schedule_next_process` has dispatched a process. -/
def afterDispatch (s : Scheduler) (queue : IQueue Addr) (a : Addr) (pcb : PCB)
    (clk log : Int) : Scheduler :=
  { s.logged a (dispatchedPcb pcb clk) log with
    readyQueue := queue
    currentPcb := some a
    pcbs := s.pcbs.put a (dispatchedPcb pcb clk)
    kills := s.kills ++ [(pcb.pid, .sigcont)]
    lastRemainTime := pcb.remainingTime
    logStartTime := clk }

section

variable (s : Scheduler) (queue : IQueue Addr) (a : Addr) (pcb : PCB)
  (clk log : Int)

@[simp] theorem afterDispatch_pcbs :
    (s.afterDispatch queue a pcb clk log).pcbs =
      s.pcbs.put a (dispatchedPcb pcb clk) := rfl

@[simp] theorem received_afterDispatch :
    (s.afterDispatch queue a pcb clk log).received = s.received :=
  received_put (s.afterDispatch_pcbs queue a pcb clk log)

@[simp] theorem received_accountIdle :
    (s.accountIdle clk).received = s.received := by
  rw [received, accountIdle_pcbs, received]

@[simp] theorem afterDispatch_schedulerLog :
    (s.afterDispatch queue a pcb clk log).schedulerLog =
      s.schedulerLog ++ [{ clk := log, pcb := a, snapshot := dispatchedPcb pcb clk }] :=
  rfl

@[simp] theorem afterDispatch_selectedAlgorithm :
    (s.afterDispatch queue a pcb clk log).selectedAlgorithm = s.selectedAlgorithm :=
  rfl

end

/-- After `handle_quantum_expiration` has stopped the current process. -/
def afterExpiration (s : Scheduler) (queue : IQueue Addr) (a : Addr) (pcb : PCB)
    (clk log : Int) : Scheduler :=
  { s.logged a { pcb with state := some .stopped } log with
    readyQueue := queue
    currentPcb := none
    pcbs := s.pcbs.put a { pcb with state := some .stopped }
    kills := s.kills ++ [(pcb.pid, .sigstop)]
    executionLog := s.executionLog ++ [.runs pcb.pdata.id pcb.pdata.runtime
      s.logStartTime clk pcb.remainingTime]
    lastProcessEndTime := clk
    logStartTime := 0 }

/-- The control block of a process that has terminated. -/
def finishedPcb (pcb : PCB) : PCB :=
  { pcb with
    remainingTime := pcb.remainingTime - 1
    state := some .finished }

/-- After `handle_process_termination` for the current process. -/
def afterTermination (s : Scheduler) (queue : IQueue Addr) (a : Addr)
    (pcb : PCB) (clk log : Int) : Scheduler :=
  { s.logged a (finishedPcb pcb) log with
    readyQueue := queue
    currentPcb := none
    pcbs := s.pcbs.put a (finishedPcb pcb)
    executionLog := s.executionLog ++ [.finishes pcb.pdata.id
      pcb.pdata.runtime s.logStartTime clk]
    totalWta := s.totalWta +
      ((log - pcb.pdata.arrivalTime : Int) : ℚ) / (pcb.pdata.runtime : ℚ)
    totalWait := s.totalWait + pcb.waitTime
    lastProcessEndTime := clk
    lastRemainTime := 0
    logStartTime := 0 }

/-- After a tick of the current process. -/
def afterTick (s : Scheduler) (queue : IQueue Addr) (a : Addr) (pcb : PCB) :
    Scheduler :=
  { s with
    readyQueue := queue
    pcbs :=
      s.pcbs.put a { pcb with remainingTime := pcb.remainingTime - 1 } }

/-! ### The functions -/

namespace Wired

/-- A valid message becomes the next control block and enters the queue. -/
theorem receivePcb (wired : Wired s items) {pcb : PCB}
    (valid : validPcb pcb = true) :
    ∃ queue' items',
      s.readyQueue.enqueue s.received
        (enqueuePriority s.selectedAlgorithm pcb) = .ok queue' ∧
      s.receivePcb pcb = .ok ({ s with
        pcbs := (s.pcbs.malloc pcb).1
        readyQueue := queue' }, true) ∧
      Wired { s with
        pcbs := (s.pcbs.malloc pcb).1
        readyQueue := queue' } items' ∧
      items'.Perm (s.received :: items) ∧
      (s.selectedAlgorithm = .rr → items ≠ [] →
        items'.head? = items.head?) := by
  obtain ⟨queue', items', run, type, shows, perm, kept⟩ :=
    wired.shows.enqueue s.received (enqueuePriority s.selectedAlgorithm pcb)
  have loaded : (s.pcbs.malloc pcb).1.load s.received = some pcb :=
    Mem.load_malloc_self s.pcbs pcb
  refine ⟨queue', items', run, ?_, ⟨shows, type.trans wired.type, ?_, ?_⟩, perm,
    ?_⟩
  · rw [Scheduler.receivePcb, if_pos valid]
    have enqueued : s.readyQueue.enqueue (s.pcbs.malloc pcb).2
        (enqueuePriority s.selectedAlgorithm pcb) = .ok queue' := run
    change (s.readyQueue.enqueue (s.pcbs.malloc pcb).2 _ >>= _) = _
    rw [enqueued]
    rfl
  · intro b member
    rcases List.mem_cons.mp (perm.mem_iff.mp member) with new | old
    · exact ⟨pcb, new ▸ loaded⟩
    · obtain ⟨old, live⟩ := wired.live b old
      exact ⟨old, Mem.load_malloc_of_live live pcb⟩
  · intro b running
    obtain ⟨old, live⟩ := wired.running b running
    exact ⟨old, Mem.load_malloc_of_live live pcb⟩
  · intro ring
    apply kept
    rw [wired.type, ring]
    rfl

/-- Scheduling on an empty queue does nothing. -/
theorem scheduleNextProcess_empty (wired : Wired s []) (clk log : Int) :
    s.scheduleNextProcess clk log = .ok s := by
  rw [Scheduler.scheduleNextProcess, if_pos (wired.shows.isEmpty_iff.mpr rfl)]

/-- Taking the next process makes the front current, and removes it from the
queue under HPF. -/
theorem takeNext {first : Addr} {rest : List Addr}
    (wired : Wired s (first :: rest)) :
    ∃ queue' items',
      s.takeNext =
        .ok { s with readyQueue := queue', currentPcb := some first } ∧
      Shows queue' items' ∧ queue'.type = s.readyQueue.type ∧
      (s.selectedAlgorithm = .hpf →
        s.readyQueue.dequeue true = .ok (queue', some first) ∧
          items'.Perm rest) ∧
      (s.selectedAlgorithm ≠ .hpf →
        queue' = s.readyQueue ∧ items' = first :: rest) := by
  rw [Scheduler.takeNext]
  by_cases hpf : s.selectedAlgorithm = .hpf
  · obtain ⟨queue', items', run, type, shows, perm, _⟩ :=
      wired.shows.dequeue_remove
    refine ⟨queue', items', ?_, shows, type, fun _ => ⟨run, perm⟩,
      fun other => absurd hpf other⟩
    rw [if_pos hpf, run]
    rfl
  · refine ⟨s.readyQueue, first :: rest, ?_, wired.shows, rfl,
      fun impossible => absurd impossible hpf, fun _ => ⟨rfl, rfl⟩⟩
    rw [if_neg hpf, wired.shows.front_eq]
    rfl

/-- Scheduling dispatches the process in front. -/
theorem scheduleNextProcess_run {first : Addr} {rest : List Addr} {pcb : PCB}
    (wired : Wired s (first :: rest)) (live : s.pcbs.load first = some pcb)
    (clk log : Int) :
    ∃ queue' items',
      s.scheduleNextProcess clk log =
        .ok (s.afterDispatch queue' first pcb clk log) ∧
      Shows queue' items' ∧ queue'.type = s.readyQueue.type ∧
      (s.selectedAlgorithm = .hpf →
        s.readyQueue.dequeue true = .ok (queue', some first) ∧
          items'.Perm rest) ∧
      (s.selectedAlgorithm ≠ .hpf →
        queue' = s.readyQueue ∧ items' = first :: rest) := by
  obtain ⟨queue', items', taken, shows, type, hpf, others⟩ := wired.takeNext
  let s₁ : Scheduler :=
    { s with readyQueue := queue', currentPcb := some first }
  have recorded := recordDispatch_eq (s := s₁) rfl live clk
  have live' := Mem.load_put_self live (dispatchedPcb pcb clk)
  obtain ⟨pid, _, remaining, unfinished⟩ := dispatchedPcb_kept pcb clk
  let s₂ : Scheduler :=
    { s₁ with pcbs := s.pcbs.put first (dispatchedPcb pcb clk) }
  let s₃ : Scheduler := { s₂ with
    kills := s.kills ++ [((dispatchedPcb pcb clk).pid, .sigcont)]
    lastRemainTime := (dispatchedPcb pcb clk).remainingTime
    logStartTime := clk }
  have logged := logEvent_eq (s := s₃) rfl live' unfinished log
  have nonempty : ¬ s.readyQueue.isEmpty = true := by
    rw [wired.shows.isEmpty_iff]
    exact List.cons_ne_nil _ _
  have running : s₁.currentPcb ≠ none := Option.some_ne_none first
  refine ⟨queue', items', ?_, shows, type, hpf, others⟩
  rw [Scheduler.scheduleNextProcess, if_neg nonempty, taken, ok_bind,
    current_eq (s := s₁) rfl live, ok_bind, if_neg running, recorded, ok_bind,
    killCurrent_eq (s := s₂) rfl live', ok_bind, rememberRemaining,
    current_eq (s := { s₂ with kills := _ }) rfl live', ok_bind]
  refine logged.trans ?_
  rw [Except.ok.injEq, afterDispatch, ← pid, ← remaining]
  rfl

theorem scheduleNextProcess {first : Addr} {rest : List Addr}
    (wired : Wired s (first :: rest)) (clk log : Int) :
    ∃ s' items', s.scheduleNextProcess clk log = .ok s' ∧ Wired s' items' ∧
      Frame s s' ∧ s'.currentPcb = some first ∧
      (∀ a, s'.remaining a = s.remaining a) ∧ s'.finished = s.finished ∧
      (s.selectedAlgorithm = .hpf → items'.Perm rest) ∧
      (s.selectedAlgorithm ≠ .hpf →
        s'.readyQueue = s.readyQueue ∧ items' = first :: rest) := by
  obtain ⟨pcb, live⟩ := wired.live first List.mem_cons_self
  obtain ⟨queue', items', run, shows, type, hpf, others⟩ :=
    wired.scheduleNextProcess_run live clk log
  obtain ⟨pid, pdata, remaining, unfinished⟩ := dispatchedPcb_kept pcb clk
  have frame : Frame s (s.afterDispatch queue' first pcb clk log) :=
    frame_of_put live (dispatchedPcb pcb clk) pid pdata rfl rfl rfl rfl
  refine ⟨_, items', run, ⟨shows, type.trans wired.type, ?_, ?_⟩, frame, rfl,
    Mem.map_load_put live remaining, finished_of_log rfl unfinished,
    fun algorithm => (hpf algorithm).2, others⟩
  · intro b member
    apply frame.live (wired.live b _)
    by_cases algorithm : s.selectedAlgorithm = .hpf
    · exact List.mem_cons_of_mem _ ((hpf algorithm).2.mem_iff.mp member)
    · exact (others algorithm).2 ▸ member
  · intro b same
    cases same
    exact frame.live ⟨pcb, live⟩

/-- The rotation after a preemption turns the queue, under RR. -/
theorem rotateQueue (wired : Wired s items) :
    ∃ queue' items', s.rotateQueue = .ok { s with readyQueue := queue' } ∧
      Shows queue' items' ∧ queue'.type = s.readyQueue.type ∧
      items'.Perm items ∧
      (s.selectedAlgorithm = .rr → items' = items.rotate 1 ∧
        ∃ next, s.readyQueue.dequeue false = .ok (queue', next)) ∧
      (s.selectedAlgorithm ≠ .rr →
        queue' = s.readyQueue ∧ items' = items) := by
  rw [Scheduler.rotateQueue]
  by_cases rr : s.selectedAlgorithm = .rr
  · rw [if_pos rr]
    have ring : s.readyQueue.type = .circularQueue := by
      rw [wired.type, rr]
      rfl
    cases items with
    | nil =>
        have run := wired.shows.dequeue_empty false
        refine ⟨s.readyQueue, [], ?_, wired.shows, rfl, List.Perm.refl _,
          fun _ => ⟨rfl, _, run⟩, fun other => absurd rr other⟩
        rw [run]
        rfl
    | cons first rest =>
        obtain ⟨queue', run, type, shows⟩ := wired.shows.dequeue_rotate ring
        have turned : rest ++ [first] = (first :: rest).rotate 1 := by
          rw [List.rotate_cons_succ, List.rotate_zero]
        refine ⟨queue', _, ?_, shows, type, List.perm_append_singleton _ _,
          fun _ => ⟨turned, _, run⟩, fun other => absurd rr other⟩
        rw [run]
        rfl
  · rw [if_neg rr]
    exact ⟨s.readyQueue, items, rfl, wired.shows, rfl, List.Perm.refl _,
      fun impossible => absurd impossible rr, fun _ => ⟨rfl, rfl⟩⟩

/-- Expiration stops the current process; under RR it rotates the queue. -/
theorem handleQuantumExpiration_run (wired : Wired s items)
    (runs : s.currentPcb = some a) (live : s.pcbs.load a = some pcb)
    (clk log : Int) :
    ∃ queue' items',
      s.handleQuantumExpiration clk log =
        .ok (s.afterExpiration queue' a pcb clk log) ∧
      Shows queue' items' ∧ queue'.type = s.readyQueue.type ∧
      items'.Perm items ∧
      (s.selectedAlgorithm = .rr → items' = items.rotate 1 ∧
        ∃ next, s.readyQueue.dequeue false = .ok (queue', next)) ∧
      (s.selectedAlgorithm ≠ .rr →
        queue' = s.readyQueue ∧ items' = items) := by
  let pcb' : PCB := { pcb with state := some .stopped }
  have live' : (s.pcbs.put a pcb').load a = some pcb' :=
    Mem.load_put_self live pcb'
  have unfinished : pcb'.state ≠ some .finished := by
    change some ProcessState.stopped ≠ some .finished
    decide
  let s₁ : Scheduler := { s with
    executionLog := s.executionLog ++ [.runs pcb.pdata.id pcb.pdata.runtime
      s.logStartTime clk pcb.remainingTime]
    lastProcessEndTime := clk }
  let s₂ : Scheduler := { s₁ with kills := s.kills ++ [(pcb.pid, .sigstop)] }
  let s₃ : Scheduler := { s₂ with pcbs := s.pcbs.put a pcb' }
  let s₄ : Scheduler := { s₃.logged a pcb' log with currentPcb := none }
  have logged := logEvent_eq (s := s₃) runs live' unfinished log
  have frame : Frame s s₄ := frame_of_put live pcb' rfl rfl rfl rfl rfl rfl
  have wired₄ : Wired s₄ items :=
    ⟨wired.shows, wired.type, fun b member => frame.live (wired.live b member),
      fun b impossible => by cases impossible⟩
  obtain ⟨queue', items', turned, shows, type, perm, ring, others⟩ :=
    wired₄.rotateQueue
  refine ⟨queue', items', ?_, shows, type, perm, ring, others⟩
  rw [Scheduler.handleQuantumExpiration, if_neg (by simp [runs]), logStint,
    current_eq runs live, ok_bind, pure_eq_ok, ok_bind,
    killCurrent_eq (s := s₁) runs live, ok_bind,
    updateCurrent_eq (s := s₂) runs live, ok_bind]
  change (s₃.logEvent s₃.currentPcb log >>= _) = _
  rw [logged, ok_bind]
  change (s₄.rotateQueue >>= _) = _
  rw [turned]
  rfl

theorem handleQuantumExpiration (wired : Wired s items)
    (runs : s.currentPcb = some a) (clk log : Int) :
    ∃ s' items', s.handleQuantumExpiration clk log = .ok s' ∧ Wired s' items' ∧
      Frame s s' ∧ s'.currentPcb = none ∧
      (∀ b, s'.remaining b = s.remaining b) ∧ s'.finished = s.finished ∧
      (s.selectedAlgorithm = .rr → items' = items.rotate 1) ∧
      (s.selectedAlgorithm ≠ .rr →
        s'.readyQueue = s.readyQueue ∧ items' = items) := by
  obtain ⟨pcb, live⟩ := wired.running a runs
  obtain ⟨queue', items', run, shows, type, perm, ring, others⟩ :=
    wired.handleQuantumExpiration_run runs live clk log
  have frame : Frame s (s.afterExpiration queue' a pcb clk log) :=
    frame_of_put live { pcb with state := some .stopped } rfl rfl rfl rfl rfl rfl
  refine ⟨_, items', run, ⟨shows, type.trans wired.type, ?_, ?_⟩, frame, rfl,
    Mem.map_load_put live rfl, finished_of_log rfl (by simp),
    fun algorithm => (ring algorithm).1, others⟩
  · intro b member
    exact frame.live (wired.live b (perm.mem_iff.mp member))
  · intro b impossible
    cases impossible

/-- Removing a finished process removes the front, except under HPF. -/
theorem removeFinished (wired : Wired s items) :
    ∃ queue' items', s.removeFinished = .ok { s with readyQueue := queue' } ∧
      Wired { s with readyQueue := queue' } items' ∧
      (s.selectedAlgorithm = .hpf →
        queue' = s.readyQueue ∧ items' = items) ∧
      (s.selectedAlgorithm ≠ .hpf → items'.Perm items.tail ∧
        ∃ next, s.readyQueue.dequeue true = .ok (queue', next)) ∧
      ∀ key, KeyedBy s.readyQueue key → KeyedBy queue' key := by
  rw [Scheduler.removeFinished]
  by_cases hpf : s.selectedAlgorithm = .hpf
  · rw [if_neg (not_not_intro hpf)]
    exact ⟨s.readyQueue, items, rfl, wired, fun _ => ⟨rfl, rfl⟩,
      fun other => absurd hpf other, fun _ keyed => keyed⟩
  · rw [if_pos hpf]
    cases items with
    | nil =>
        refine ⟨s.readyQueue, [], ?_, wired, fun _ => ⟨rfl, rfl⟩,
          fun _ => ⟨List.Perm.refl _, _, wired.shows.dequeue_empty true⟩,
          fun _ keyed => keyed⟩
        rw [wired.shows.dequeue_empty]
        rfl
    | cons first rest =>
        obtain ⟨queue', items', run, type, shows, perm, keys⟩ :=
          wired.shows.dequeue_remove
        refine ⟨queue', items', ?_,
          ⟨shows, type.trans wired.type, ?_, wired.running⟩,
          fun impossible => absurd impossible hpf, fun _ => ⟨perm, _, run⟩,
          keys⟩
        · rw [run]
          rfl
        · intro b member
          exact wired.live b
            (List.mem_cons_of_mem _ (perm.mem_iff.mp member))

/-- The line about the next process reads a control block. -/
theorem announceNext (wired : Wired s items) : s.announceNext = .ok () := by
  rw [Scheduler.announceNext]
  split
  next nonempty =>
    cases items with
    | nil => simp [wired.shows.isEmpty_iff.mpr rfl] at nonempty
    | cons first rest =>
        obtain ⟨pcb, live⟩ := wired.live first List.mem_cons_self
        rw [wired.shows.front_eq, ok_bind, List.head?_cons, derefPtr,
          deref_of_load live]
        rfl
  next => rfl

/-- Termination finishes the current process and removes the front of the queue,
which under HPF it leaves alone. -/
theorem handleProcessTermination_run (wired : Wired s items)
    (runs : s.currentPcb = some a) (live : s.pcbs.load a = some pcb)
    (clk log : Int) :
    ∃ queue' items',
      s.handleProcessTermination clk log =
        .ok (s.afterTermination queue' a pcb clk log) ∧
      Wired { s with readyQueue := queue' } items' ∧
      (s.selectedAlgorithm = .hpf →
        queue' = s.readyQueue ∧ items' = items) ∧
      (s.selectedAlgorithm ≠ .hpf → items'.Perm items.tail ∧
        ∃ next, s.readyQueue.dequeue true = .ok (queue', next)) ∧
      ∀ key, KeyedBy s.readyQueue key → KeyedBy queue' key := by
  let s₁ : Scheduler := { s with
    executionLog := s.executionLog ++ [.finishes pcb.pdata.id
      pcb.pdata.runtime s.logStartTime clk]
    lastProcessEndTime := clk }
  have wired₁ : Wired s₁ items :=
    ⟨wired.shows, wired.type, wired.live, wired.running⟩
  obtain ⟨queue', items', removed, wired₂, hpf, others, keys⟩ :=
    wired₁.removeFinished
  let s₂ : Scheduler := { s₁ with readyQueue := queue' }
  let pcb₁ : PCB := { pcb with remainingTime := pcb.remainingTime - 1 }
  let s₃ : Scheduler := { s₂ with pcbs := s.pcbs.put a pcb₁ }
  let s₄ : Scheduler := { s₂ with pcbs := s.pcbs.put a (finishedPcb pcb) }
  have live₃ : s₃.pcbs.load a = some pcb₁ := Mem.load_put_self live pcb₁
  have live₄ : s₄.pcbs.load a = some (finishedPcb pcb) :=
    Mem.load_put_self live (finishedPcb pcb)
  have logged := logEvent_finished (s := s₄) runs live₄ rfl log
  refine ⟨queue', items', ?_,
    ⟨wired₂.shows, wired₂.type, wired₂.live, wired₂.running⟩, hpf, others,
    keys⟩
  rw [Scheduler.handleProcessTermination, logFinish, current_eq runs live,
    ok_bind, pure_eq_ok, ok_bind]
  change (s₁.removeFinished >>= _) = _
  rw [removed, ok_bind]
  change (s₂.announceNext >>= _) = _
  rw [wired₂.announceNext, ok_bind, updateCurrent_eq (s := s₂) runs live,
    ok_bind]
  change (s₃.updateCurrent _ >>= _) = _
  rw [updateCurrent_eq (s := s₃) runs live₃, ok_bind, Mem.put_put]
  change (s₄.logEvent s₄.currentPcb log >>= _) = _
  rw [logged]
  rfl

theorem handleProcessTermination (wired : Wired s items)
    (runs : s.currentPcb = some a) (clk log : Int) :
    ∃ s' items', s.handleProcessTermination clk log = .ok s' ∧
      Wired s' items' ∧ Frame s s' ∧ s'.currentPcb = none ∧
      s'.remaining a = (s.remaining a).map (· - 1) ∧
      (∀ b, b ≠ a → s'.remaining b = s.remaining b) ∧
      s'.finished = s.finished ++ [a] ∧
      (s.selectedAlgorithm = .hpf → items' = items) ∧
      (s.selectedAlgorithm ≠ .hpf → items'.Perm items.tail ∧
        ∃ next, s.readyQueue.dequeue true = .ok (s'.readyQueue, next)) ∧
      ∀ key, KeyedBy s.readyQueue key → KeyedBy s'.readyQueue key := by
  obtain ⟨pcb, live⟩ := wired.running a runs
  obtain ⟨queue', items', run, wired', hpf, others, keys⟩ :=
    wired.handleProcessTermination_run runs live clk log
  have frame : Frame s (s.afterTermination queue' a pcb clk log) :=
    frame_of_put live (finishedPcb pcb) rfl rfl rfl rfl rfl rfl
  have live' : (s.pcbs.put a (finishedPcb pcb)).load a =
      some (finishedPcb pcb) := Mem.load_put_self live _
  refine ⟨_, items', run, ⟨wired'.shows, wired'.type, ?_, ?_⟩, frame, rfl, ?_,
    ?_, finished_of_log_finished
      { clk := log, pcb := a, snapshot := finishedPcb pcb } rfl rfl,
    fun algorithm => (hpf algorithm).2, others, keys⟩
  · intro b member
    exact frame.live (wired'.live b member)
  · intro b impossible
    cases impossible
  · rw [Scheduler.remaining, Scheduler.remaining, live]
    exact congrArg (Option.map PCB.remainingTime) live'
  · intro b other
    rw [Scheduler.remaining, Scheduler.remaining]
    exact congrArg (Option.map PCB.remainingTime)
      (Mem.load_put_of_ne _ other _)

/-- A tick takes one unit off the current process and, under SRTN, re-keys the
front of the queue. -/
theorem handleProcessTick_run (wired : Wired s items)
    (runs : s.currentPcb = some a) (live : s.pcbs.load a = some pcb) :
    ∃ queue' items',
      s.handleProcessTick = .ok (s.afterTick queue' a pcb) ∧
      Shows queue' items' ∧ queue'.type = s.readyQueue.type ∧
      items'.Perm items ∧
      (s.selectedAlgorithm ≠ .srtn → queue' = s.readyQueue) ∧
      (s.selectedAlgorithm = .srtn → queue' =
        s.readyQueue.changePriority 0 (pcb.remainingTime - 1)) := by
  let pcb' : PCB := { pcb with remainingTime := pcb.remainingTime - 1 }
  let s₁ : Scheduler := { s with pcbs := s.pcbs.put a pcb' }
  have live₁ : s₁.pcbs.load a = some pcb' := Mem.load_put_self live pcb'
  have running : s.currentPcb ≠ none := by
    rw [runs]
    exact Option.some_ne_none a
  rw [Scheduler.handleProcessTick, current_eq runs live, ok_bind,
    if_neg running, updateCurrent_eq runs live, ok_bind]
  change ∃ queue' items', (s₁.current >>= _) = _ ∧ _
  rw [current_eq (s := s₁) runs live₁, ok_bind]
  by_cases srtn : s.selectedAlgorithm = .srtn
  · obtain ⟨items', shows, type, perm⟩ :=
      wired.shows.changePriority (pcb.remainingTime - 1)
    exact ⟨_, items', if_pos srtn, shows, type, perm,
      fun other => absurd srtn other, fun _ => rfl⟩
  · exact ⟨s.readyQueue, items, if_neg srtn, wired.shows, rfl,
      List.Perm.refl _, fun _ => rfl, fun impossible => absurd impossible srtn⟩

theorem handleProcessTick (wired : Wired s items)
    (runs : s.currentPcb = some a) :
    ∃ s' items' rest, s.handleProcessTick = .ok s' ∧ Wired s' items' ∧
      Frame s s' ∧ s'.currentPcb = some a ∧ s.remaining a = some rest ∧
      s'.remaining a = some (rest - 1) ∧
      (∀ b, b ≠ a → s'.remaining b = s.remaining b) ∧
      s'.finished = s.finished ∧ items'.Perm items ∧
      (s.selectedAlgorithm ≠ .srtn → s'.readyQueue = s.readyQueue) ∧
      (s.selectedAlgorithm = .srtn →
        s'.readyQueue = s.readyQueue.changePriority 0 (rest - 1)) := by
  obtain ⟨pcb, live⟩ := wired.running a runs
  obtain ⟨queue', items', run, shows, type, perm, others, srtn⟩ :=
    wired.handleProcessTick_run runs live
  let pcb' : PCB := { pcb with remainingTime := pcb.remainingTime - 1 }
  have frame : Frame s (s.afterTick queue' a pcb) :=
    frame_of_put live pcb' rfl rfl rfl rfl rfl rfl
  have live' : (s.pcbs.put a pcb').load a = some pcb' :=
    Mem.load_put_self live pcb'
  refine ⟨_, items', pcb.remainingTime, run,
    ⟨shows, type.trans wired.type, ?_, ?_⟩, frame, runs, ?_, ?_, ?_, rfl, perm,
    others, srtn⟩
  · intro b member
    exact frame.live (wired.live b (perm.mem_iff.mp member))
  · intro b same
    exact frame.live (wired.running b same)
  · rw [Scheduler.remaining, live]
    rfl
  · exact congrArg (Option.map PCB.remainingTime) live'
  · intro b other
    exact congrArg (Option.map PCB.remainingTime)
      (Mem.load_put_of_ne _ other _)

end Wired

end Scheduler

end OsSim
