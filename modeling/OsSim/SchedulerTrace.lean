/-
Module: OsSim.SchedulerTrace
Purpose: `scheduler.log` read line by line.  It shows one processor that runs at
  most one process at a time; every process is started once, stopped and resumed
  in turn, and finished at most once, for good.
Trusted boundary: none
Main exports:
  Cpu, Cpu.read, Cpu.Shows, TrueToOrigin, Dated, scheduler_log_replays
-/
import OsSim.SchedulerMoves
import OsSim.SchedulerSignals
import OsSim.Library.Replay

namespace OsSim

open PointerMemory
open Trace
open Replay
open Scheduler (dispatchedPcb finishedPcb)

/-- What the lines of `scheduler.log` say about the processor: which process has
it, which have been started, and which have finished. -/
structure Cpu where
  running : Option Addr
  started : List Addr
  finished : List Addr
deriving Repr, DecidableEq

namespace Cpu

/-- Before the first line. -/
def idle : Cpu := { running := none, started := [], finished := [] }

/-- Read one line.  A process can be started once, while no process runs; it can
be resumed between its start and its end, while no process runs; and only the
process that runs can be stopped or finish. -/
def read (cpu : Cpu) (line : LogLine) : Option Cpu :=
  match line.snapshot.state with
  | some .started =>
      if cpu.running = none ∧ line.pcb ∉ cpu.started then
        some { cpu with
          running := some line.pcb, started := cpu.started ++ [line.pcb] }
      else none
  | some .resumed =>
      if cpu.running = none ∧ line.pcb ∈ cpu.started ∧
          line.pcb ∉ cpu.finished then
        some { cpu with running := some line.pcb }
      else none
  | some .stopped =>
      if cpu.running = some line.pcb then
        some { cpu with running := none }
      else none
  | some .finished =>
      if cpu.running = some line.pcb then
        some { cpu with
          running := none, finished := cpu.finished ++ [line.pcb] }
      else none
  | none => none

/-- The processor of the log is that of the scheduler: the same process runs, the
same ones have finished, and those started are the ones with a start time. -/
structure Shows (cpu : Cpu) (s : Scheduler) : Prop where
  running : cpu.running = s.currentPcb
  finished : cpu.finished = s.finished
  started : ∀ a pcb, s.pcbs.load a = some pcb →
    (a ∈ cpu.started ↔ pcb.startTime ≠ -1)
  known : ∀ a ∈ cpu.started, a < s.received

end Cpu

/-- Every line is about the process that its control block was received for. -/
def TrueToOrigin (s : Scheduler) : Prop :=
  ∀ line ∈ s.schedulerLog,
    s.origin line.pcb = some (line.snapshot.pid, line.snapshot.pdata)

/-- The clock does not read -1, the start time of a process that has not been
started. -/
def Dated : Event → Prop
  | .send => True
  | .proceed clk | .signal clk => 0 ≤ clk.now

instance : ∀ event, Decidable (Dated event)
  | .send => inferInstanceAs (Decidable True)
  | .proceed _ | .signal _ => inferInstanceAs (Decidable (_ ≤ _))

/-! ### Lines that the scheduler writes -/

namespace Cpu.Shows

variable {cpu : Cpu} {s s' : Scheduler} {a : Addr} {pcb : PCB}

/-- Nothing that the log shows has changed. -/
theorem congr (shows : cpu.Shows s) (current : s'.currentPcb = s.currentPcb)
    (log : s'.schedulerLog = s.schedulerLog) (pcbs : s'.pcbs = s.pcbs) :
    cpu.Shows s' where
  running := shows.running.trans current.symm
  finished := by
    rw [Scheduler.finished, log]
    exact shows.finished
  started := by
    rw [pcbs]
    exact shows.started
  known := by
    rw [Scheduler.received, pcbs]
    exact shows.known

/-- Start times are those of before where a control block is overwritten by one
with the same start time. -/
theorem started_put (shows : cpu.Shows s) (live : s.pcbs.load a = some pcb)
    {pcb' : PCB} (same : pcb'.startTime = pcb.startTime) :
    ∀ b found, (s.pcbs.put a pcb').load b = some found →
      (b ∈ cpu.started ↔ found.startTime ≠ -1) := by
  intro b found loaded
  by_cases here : b = a
  · subst here
    rw [Mem.load_put_self live, Option.some.injEq] at loaded
    rw [← loaded, same]
    exact shows.started b pcb live
  · rw [Mem.load_put_of_ne _ here] at loaded
    exact shows.started b found loaded

/-- A new control block has not been started. -/
theorem received (shows : cpu.Shows s) {new : PCB} (fresh : new.startTime = -1)
    (current : s'.currentPcb = s.currentPcb)
    (log : s'.schedulerLog = s.schedulerLog)
    (pcbs : s'.pcbs = (s.pcbs.malloc new).1) : cpu.Shows s' where
  running := shows.running.trans current.symm
  finished := by
    rw [Scheduler.finished, log]
    exact shows.finished
  started := by
    intro b found loaded
    rw [pcbs] at loaded
    by_cases here : b = (s.pcbs.malloc new).2
    · subst here
      rw [Mem.load_malloc_self, Option.some.injEq] at loaded
      subst loaded
      constructor
      · intro member
        exact absurd (shows.known _ member) (Nat.lt_irrefl _)
      · exact fun other => absurd fresh other
    · rw [Mem.load_malloc_of_ne _ _ here] at loaded
      exact shows.started b found loaded
  known := by
    intro b member
    rw [Scheduler.received, pcbs, Mem.length_malloc]
    exact Nat.lt_succ_of_lt (shows.known b member)

/-- A dispatch of a process that has not finished is logged as its start, or as
a resumption of it. -/
theorem dispatch (shows : cpu.Shows s) (idle : s.currentPcb = none)
    (live : s.pcbs.load a = some pcb) (unfinished : a ∉ s.finished)
    (queue : IQueue Addr) {clk : Int} (dated : 0 ≤ clk) (log : Int) :
    ∃ cpu', cpu.read
        { clk := log, pcb := a, snapshot := dispatchedPcb pcb clk } = some cpu' ∧
      cpu'.Shows (s.afterDispatch queue a pcb clk log) := by
  have free : cpu.running = none := shows.running.trans idle
  have done : (s.afterDispatch queue a pcb clk log).finished = s.finished :=
    Scheduler.finished_of_log (s := s) rfl
      (Scheduler.dispatchedPcb_kept pcb clk).2.2.2
  have grown : (s.afterDispatch queue a pcb clk log).received = s.received :=
    Scheduler.received_put rfl
  have inside : a < s.received := Scheduler.lt_received live
  by_cases first : pcb.startTime = -1
  · have unseen : a ∉ cpu.started := fun member =>
      (shows.started a pcb live).mp member first
    have state : (dispatchedPcb pcb clk).state = some .started := by
      rw [dispatchedPcb, if_pos first]
    have begins : (dispatchedPcb pcb clk).startTime ≠ -1 := by
      rw [dispatchedPcb, if_pos first]
      show clk ≠ -1
      omega
    refine ⟨{ cpu with running := some a, started := cpu.started ++ [a] }, ?_,
      rfl, shows.finished.trans done.symm, ?_, ?_⟩
    · simp only [read, state]
      exact if_pos ⟨free, unseen⟩
    · intro b found loaded
      by_cases here : b = a
      · subst here
        have same : found = dispatchedPcb pcb clk := by
          rw [Scheduler.afterDispatch, Mem.load_put_self live,
            Option.some.injEq] at loaded
          exact loaded.symm
        rw [same]
        exact ⟨fun _ => begins, fun _ => by simp⟩
      · have before : s.pcbs.load b = some found := by
          rw [← loaded]
          exact (Mem.load_put_of_ne _ here _).symm
        rw [List.mem_append, shows.started b found before]
        simp [here]
    · intro b member
      rw [grown]
      rcases List.mem_append.mp member with old | new
      · exact shows.known b old
      · rw [List.mem_singleton.mp new]
        exact inside
  · have seen : a ∈ cpu.started := (shows.started a pcb live).mpr first
    have state : (dispatchedPcb pcb clk).state = some .resumed := by
      rw [dispatchedPcb, if_neg first]
    have kept : (dispatchedPcb pcb clk).startTime = pcb.startTime := by
      rw [dispatchedPcb, if_neg first]
    refine ⟨{ cpu with running := some a }, ?_, rfl,
      shows.finished.trans done.symm, shows.started_put live kept, ?_⟩
    · simp only [read, state]
      exact if_pos ⟨free, seen, shows.finished ▸ unfinished⟩
    · rw [grown]
      exact shows.known

/-- A preemption is logged as a stop of the process that runs. -/
theorem expire (shows : cpu.Shows s) (runs : s.currentPcb = some a)
    (live : s.pcbs.load a = some pcb) (queue : IQueue Addr) (clk log : Int) :
    ∃ cpu', cpu.read (LogLine.mk log a { pcb with state := some .stopped }) =
        some cpu' ∧
      cpu'.Shows (s.afterExpiration queue a pcb clk log) := by
  refine ⟨{ cpu with running := none }, ?_, rfl, ?_,
    shows.started_put live rfl, ?_⟩
  · simp only [read]
    exact if_pos (shows.running.trans runs)
  · have same : (s.afterExpiration queue a pcb clk log).finished = s.finished :=
      Scheduler.finished_of_log rfl (by simp)
    exact shows.finished.trans same.symm
  · intro b member
    have grown : (s.afterExpiration queue a pcb clk log).received = s.received :=
      Scheduler.received_put rfl
    rw [grown]
    exact shows.known b member

/-- A termination is logged as the end of the process that runs. -/
theorem terminate (shows : cpu.Shows s) (runs : s.currentPcb = some a)
    (live : s.pcbs.load a = some pcb) (queue : IQueue Addr) (clk log : Int) :
    ∃ cpu', cpu.read { clk := log, pcb := a, snapshot := finishedPcb pcb } =
        some cpu' ∧
      cpu'.Shows (s.afterTermination queue a pcb clk log) := by
  refine ⟨{ cpu with running := none, finished := cpu.finished ++ [a] }, ?_,
    rfl, ?_, shows.started_put live rfl, ?_⟩
  · simp only [read, finishedPcb]
    exact if_pos (shows.running.trans runs)
  · have done : (s.afterTermination queue a pcb clk log).finished =
        s.finished ++ [a] :=
      Scheduler.finished_of_log_finished
        { clk := log, pcb := a, snapshot := finishedPcb pcb } rfl rfl
    rw [done, shows.finished]
  · intro b member
    have grown : (s.afterTermination queue a pcb clk log).received =
        s.received := Scheduler.received_put rfl
    rw [grown]
    exact shows.known b member

end Cpu.Shows

/-! ### Whose lines they are -/

namespace TrueToOrigin

variable {s s' : Scheduler}

/-- A control block that a line is about has been received. -/
theorem old (origins : TrueToOrigin s) {line : LogLine}
    (member : line ∈ s.schedulerLog) : line.pcb < s.received := by
  have own := origins line member
  rw [Scheduler.origin, Option.map_eq_some_iff] at own
  obtain ⟨pcb, live, _⟩ := own
  exact Scheduler.lt_received live

theorem keep (origins : TrueToOrigin s)
    (kept : ∀ a, a < s.received → s'.origin a = s.origin a)
    (log : s'.schedulerLog = s.schedulerLog) : TrueToOrigin s' := by
  intro line member
  rw [log] at member
  rw [kept _ (origins.old member)]
  exact origins line member

/-- One more line, which shows a control block as it is stored. -/
theorem write (origins : TrueToOrigin s)
    (kept : ∀ a, a < s.received → s'.origin a = s.origin a) {line : LogLine}
    (log : s'.schedulerLog = s.schedulerLog ++ [line])
    (stored : s'.pcbs.load line.pcb = some line.snapshot) : TrueToOrigin s' := by
  intro other member
  rw [log] at member
  rcases List.mem_append.mp member with old | new
  · rw [kept _ (origins.old old)]
    exact origins other old
  · rw [List.mem_singleton.mp new, Scheduler.origin, stored, Option.map_some]

/-- Every event keeps the log about the processes received. -/
theorem move {w w' : World} {event : Event} (origins : TrueToOrigin w.sched)
    (move : Move w event w') : TrueToOrigin w'.sched := by
  have kept : ∀ a, a < w.sched.received → w'.sched.origin a = w.sched.origin a :=
    fun a old => move.origin old
  cases move with
  | sent => exact origins.keep kept (by rw [w.send_sched.1])
  | @dispatched clk first pcb queue phase idle live took =>
      have written : ((w.sched.accountIdle clk.idle).afterDispatch queue first
          pcb clk.now clk.log).schedulerLog = w.sched.schedulerLog ++
            [LogLine.mk clk.log first (dispatchedPcb pcb clk.now)] := by
        simp
      apply origins.write kept written
      rw [Scheduler.afterDispatch_pcbs, Scheduler.accountIdle_pcbs]
      exact Mem.load_put_self live _
  | redispatched phase hpf idle live took =>
      exact origins.write kept rfl (Mem.load_put_self live _)
  | expired phase runs live rotated queue =>
      exact origins.write kept rfl (Mem.load_put_self live _)
  | finished runs live child queue removed =>
      exact origins.write kept rfl (Mem.load_put_self live _)
  | checked phase =>
      exact origins.keep kept (by simp)
  | _ => exact origins.keep kept rfl

end TrueToOrigin

/-! ### Runs

The reader of `scheduler.log` knows less than the scheduler does.  It has no
queue and no control blocks, only which process runs and which have been started
or have finished.  It accepts a start, or a resumption, when no process runs, so
the proof has to know that the scheduler dispatches only then, and only a process
that has not finished.  The first is in the cases of a move, the second in the
accounts: the front of the ready queue waits, and what waits has not finished.
-/

/-- The log of a world can be read, and the messages still to come are about
processes that have not been started. -/
structure Traced (w : World) : Prop where
  faithful : Faithful Cpu.read Cpu.idle Scheduler.schedulerLog Cpu.Shows w.sched
  fresh : ∀ pcb ∈ w.pcbMessages ++ w.toSend, pcb.startTime = -1

namespace Traced

variable {w w' : World} {items : List Addr} {event : Event}

/-- Where only the remaining time of a control block changes, the log shows what
it did. -/
theorem retimed (traced : Traced w) {sched : Scheduler} {a : Addr}
    {pcb pcb' : PCB} (pcbs : sched.pcbs = w.sched.pcbs.put a pcb')
    (live : w.sched.pcbs.load a = some pcb)
    (start : pcb'.startTime = pcb.startTime)
    (current : sched.currentPcb = w.sched.currentPcb)
    (log : sched.schedulerLog = w.sched.schedulerLog) :
    Faithful Cpu.read Cpu.idle Scheduler.schedulerLog Cpu.Shows sched := by
  refine traced.faithful.keep log fun cpu shows => ⟨?_, ?_, ?_, ?_⟩
  · exact shows.running.trans current.symm
  · rw [Scheduler.finished, log]
    exact shows.finished
  · rw [pcbs]
    exact shows.started_put live start
  · rw [Scheduler.received, pcbs, Mem.length_put]
    exact shows.known

/-- The front of the ready queue has not finished. -/
theorem front_unfinished (roster : Roster w.sched w.children items)
    {first : Addr} {queue : IQueue Addr} (took : w.sched.Took first queue) :
    first ∉ w.sched.finished := by
  have front := roster.tally.wired.shows.front_eq.symm.trans took.1
  rw [Except.ok.injEq] at front
  have member : first ∈ items := List.mem_of_mem_head? front
  obtain ⟨_, _, distinct⟩ := List.nodup_append.mp roster.apart
  exact fun done => distinct first (List.mem_append_left _ member) first done rfl

/-- Every event writes lines that can be read. -/
theorem move (traced : Traced w) (charged : Charged w items)
    (move : Move w event w') (dated : Dated event) : Traced w' := by
  refine ⟨?_, fun pcb member => traced.fresh pcb (move.messages pcb member)⟩
  have faithful := traced.faithful
  cases move with
  | sent =>
      rw [w.send_sched.1]
      exact faithful
  | turned follows => exact faithful
  | rejected phase messages invalid => exact faithful
  | silent none => exact faithful
  | @received clk pcb rest queue phase messages valid entered =>
      have new : pcb.startTime = -1 := traced.fresh pcb (by simp [messages])
      exact faithful.keep rfl fun cpu shows => shows.received new rfl rfl rfl
  | @dispatched clk first pcb queue phase idle live took =>
      have idled : Faithful Cpu.read Cpu.idle Scheduler.schedulerLog Cpu.Shows
          (w.sched.accountIdle clk.idle) :=
        faithful.keep (by simp) fun cpu shows =>
          shows.congr (by simp) (by simp) (by simp)
      have live' : (w.sched.accountIdle clk.idle).pcbs.load first = some pcb := by
        rw [Scheduler.accountIdle_pcbs, live]
      have unfinished : first ∉ (w.sched.accountIdle clk.idle).finished := by
        rw [Scheduler.finished, Scheduler.accountIdle_schedulerLog]
        exact front_unfinished charged.roster took
      exact idled.write rfl fun cpu shows =>
        shows.dispatch (by simpa using idle) live' unfinished queue dated clk.log
  | @redispatched clk first pcb queue phase hpf idle live took =>
      exact faithful.write rfl fun cpu shows => shows.dispatch idle live
        (front_unfinished charged.roster took) queue dated clk.log
  | @clipped clk a pcb phase rr runs live used =>
      exact traced.retimed rfl live rfl rfl rfl
  | @expired clk a pcb queue phase runs live rotated kept =>
      exact faithful.write rfl fun cpu shows =>
        shows.expire runs live queue clk.now clk.log
  | checked phase =>
      exact faithful.keep (by simp) fun cpu shows =>
        shows.congr (by simp) (by simp) (by simp)
  | @ticked clk a pcb n queue runs live child more kept rekeyed =>
      exact traced.retimed rfl live rfl rfl rfl
  | @finished clk a pcb queue runs live child kept removed =>
      exact faithful.write rfl fun cpu shows =>
        shows.terminate runs live queue clk.now clk.log

end Traced

/-- An event that is charged to its sender keeps the accounts, and does what one
of the cases says. -/
theorem charged_step {w w' : World} {event : Event}
    (kept : ∃ items, Balanced w items ∧ Charged w items)
    (allowed : NoShorterWaiting w event) (run : w.step event = .ok w') :
    (∃ items, Balanced w' items ∧ Charged w' items) ∧
      ∃ items, Balanced w items ∧ Charged w items ∧ Move w event w' := by
  obtain ⟨items, balanced, charged⟩ := kept
  obtain ⟨items', balanced', charged'⟩ := balanced.of_step run
  refine ⟨⟨items', balanced', charged' ?_ charged⟩,
    items, balanced, charged, balanced.move run⟩
  rintro clk rfl
  exact charged.settled_of_noShorterWaiting allowed

/-- In every run in which, under SRTN, no signal is handled while a process in
the ready queue has less time left than the current one, `scheduler.log` can be
read from its first line to its last.  What it shows at its end is the state of
the scheduler, and every line is about the process its control block was received
for. -/
theorem scheduler_log_replays (algorithm : SchedulingAlgorithm)
    (quantum clk : Int) (toSend : List PCB)
    (sent : ∀ pcb ∈ toSend, Sent pcb ∧ pcb.startTime = -1) (events : List Event)
    (dated : ∀ event ∈ events, Dated event)
    (allowed : Along World.step NoShorterWaiting
      (World.init algorithm quantum clk toSend) events) :
    ∃ last, runs World.step (World.init algorithm quantum clk toSend) events =
        .ok last ∧ TrueToOrigin last.sched ∧
      ∃ cpu, replay Cpu.read Cpu.idle last.sched.schedulerLog = some cpu ∧
        cpu.Shows last.sched := by
  have start : (∃ items, Balanced (World.init algorithm quantum clk toSend) items ∧
      Charged (World.init algorithm quantum clk toSend) items) ∧
      TrueToOrigin (World.init algorithm quantum clk toSend).sched ∧
      Traced (World.init algorithm quantum clk toSend) := by
    refine ⟨⟨[], balanced_init algorithm quantum clk fun pcb member =>
      (sent pcb member).1⟩, ?_, ⟨Cpu.idle, rfl, rfl, rfl, ?_, ?_⟩,
      fun pcb member => (sent pcb member).2⟩
    · intro line member
      cases member
    · intro a pcb loaded
      rw [World.init, runScheduler, Mem.load_empty] at loaded
      cases loaded
    · intro a member
      cases member
  have total : ∀ (w : World) (event : Event),
      ((∃ items, Balanced w items ∧ Charged w items) ∧
        TrueToOrigin w.sched ∧ Traced w) →
      (NoShorterWaiting w event ∧ Dated event) →
      ∃ w', w.step event = .ok w' ∧
        (∃ items, Balanced w' items ∧ Charged w' items) ∧
          TrueToOrigin w'.sched ∧ Traced w' := by
    rintro w event ⟨⟨items, balanced, charged⟩, origins, traced⟩ ⟨quiet, time⟩
    obtain ⟨w', _, run, _⟩ := balanced.step event
    obtain ⟨kept', items, _, charged, move⟩ :=
      charged_step ⟨items, balanced, charged⟩ quiet run
    exact ⟨w', run, kept', origins.move move, traced.move charged move time⟩
  obtain ⟨last, run, _, origins, traced⟩ := total_of_runs total start
    (along_and.mpr ⟨allowed, along_of_mem dated _⟩)
  exact ⟨last, run, origins, traced.faithful⟩

/-- Process 1 runs for a unit, is stopped for process 2, and is resumed when that
one has finished. -/
private def alternation : List Event :=
  [[.send, .send], List.replicate 7 (.proceed ⟨0, 0, 0⟩), [.signal ⟨1, 1, 1⟩],
    List.replicate 14 (.proceed ⟨1, 1, 1⟩), [.signal ⟨2, 2, 2⟩],
    List.replicate 7 (.proceed ⟨2, 2, 2⟩), [.signal ⟨3, 3, 3⟩]].flatten

theorem scheduler_log_replays_alternation :
    ∃ last, runs World.step (World.init .rr 1 0 [sampleJob 1 2 0, sampleJob 2 1 0])
        alternation = .ok last ∧ TrueToOrigin last.sched ∧
      ∃ cpu, replay Cpu.read Cpu.idle last.sched.schedulerLog = some cpu ∧
        cpu.Shows last.sched :=
  scheduler_log_replays .rr 1 0 [sampleJob 1 2 0, sampleJob 2 1 0] (by decide) alternation
    (by decide) (by decide +kernel)

/-- The log of that run. -/
example : (do
    let last ← runs World.step (World.init .rr 1 0 [sampleJob 1 2 0, sampleJob 2 1 0])
      alternation
    pure (last.sched.schedulerLog.map fun line =>
      (line.pcb, line.snapshot.state))) =
    Except.ok [(0, some .started), (0, some .stopped), (1, some .started),
      (1, some .finished), (0, some .resumed), (0, some .finished)] := by
  decide +kernel

end OsSim
