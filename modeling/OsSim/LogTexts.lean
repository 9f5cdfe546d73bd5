/-
Module: OsSim.LogTexts
Purpose: The texts of `scheduler.log`, `execution_log.txt` and `memory.log`, as
  the calls of `fprintf` print them, and what can be told from them.
Trusted boundary: human-reviewed translation
Main exports:
  LogRecord, LogRecord.call, ExecutionLine.call, MemoryEvent.call,
  schedulerLogText, executionLogText, memoryLogText, log_texts_tell,
  memory_log_text_tells
-/
import OsSim.Library.Printf
import OsSim.MemoryTrace
import OsSim.RoundNumber
import OsSim.Scheduler

namespace OsSim

open PointerMemory
open Decimal
open Printf
open Trace
open Replay

/-! ### The lines -/

/-- The strings that are assigned to `state`. -/
def ProcessState.text : ProcessState → List Char
  | .started => "started".toList
  | .resumed => "resumed".toList
  | .stopped => "stopped".toList
  | .finished => "finished".toList

/-- What a line of `scheduler.log` is printed from. -/
structure LogRecord where
  time : Int
  id : Int
  state : ProcessState
  arrival : Int
  total : Int
  remain : Int
  wait : Int
deriving Repr, DecidableEq

/-- The fields that `log_event` reads.  It compares `state` first, so that it has
to be assigned. -/
def LogLine.record (line : LogLine) : Option LogRecord :=
  line.snapshot.state.map fun state =>
    { time := line.clk
      id := line.snapshot.pdata.id
      state := state
      arrival := line.snapshot.pdata.arrivalTime
      total := line.snapshot.pdata.runtime
      remain := line.snapshot.remainingTime
      wait := line.snapshot.waitTime }

/-- The format of the lines about a process that goes on. -/
def eventFormat : List Piece :=
  pieces
    "At time %d process %d %s arr %d total %d remain %d wait %d\n".toList

/-- The format of the lines about a process that has finished. -/
def finishFormat : List Piece :=
  pieces
    "At time %d process %d %s arr %d total %d remain %d wait %d TA %d WTA %s\n".toList

/-- The `fprintf` of `log_event`.  `wta` is what `round_number` makes of the
weighted turnaround time. -/
def LogRecord.call (wta : LogRecord → List Char) (record : LogRecord) : Call :=
  let shared := [.int record.time, .int record.id, .str record.state.text,
    .int record.arrival, .int record.total, .int record.remain, .int record.wait]
  if record.state = .finished then
    let ta := record.time - record.arrival
    { format := finishFormat, args := shared ++ [.int ta, .str (wta record)] }
  else
    { format := eventFormat, args := shared }

def idleFormat : List Piece := pieces "Idle from %d → %d\n\n".toList

def runsFormat : List Piece :=
  pieces "P%d (burst %d) runs %d → %d (rem %d)\n\n".toList

def finishesFormat : List Piece :=
  pieces "P%d (burst %d) runs %d → %d and finishes at %d\n\n".toList

/-- The calls of `fprintf` on `execution_log`, in `scheduler_loop`,
`handle_quantum_expiration` and `handle_process_termination`. -/
def ExecutionLine.call : ExecutionLine → Call
  | .idle start stop =>
      { format := idleFormat, args := [.int start, .int stop] }
  | .runs id burst start stop remaining =>
      { format := runsFormat
        args := [.int id, .int burst, .int start, .int stop, .int remaining] }
  | .finishes id burst start stop =>
      { format := finishesFormat
        args := [.int id, .int burst, .int start, .int stop, .int stop] }

/-- The formats of `log_memory_event`. -/
def MemoryEventType.format : MemoryEventType → List Piece
  | .deallocated =>
      pieces
        "At time %d deallocated %d bytes for process %d from %d to %d\n".toList
  | .allocated =>
      pieces
        "At time %d allocated %d bytes for process %d from %d to %d\n".toList

/-- The `fprintf` of `log_memory_event`. -/
def MemoryEvent.call (event : MemoryEvent) : Call :=
  { format := event.type.format
    args := [.int event.time, .int event.bytes, .int event.process,
      .int event.first, .int event.last] }

/-! ### The files -/

/-- `scheduler.log`, with the line of `init_scheduler_log`. -/
def schedulerLogText (wta : LogRecord → List Char) (s : Scheduler) : List Char :=
  "At time x process y state arr w total z remain y wait k\n".toList ++
    ((s.schedulerLog.filterMap LogLine.record).map (LogRecord.call wta)).flatMap
      Call.text

/-- `execution_log.txt` -/
def executionLogText (s : Scheduler) : List Char :=
  (s.executionLog.map ExecutionLine.call).flatMap Call.text

/-- `memory.log`, with the line of `init_memory_log`. -/
def memoryLogText (manager : MemoryManager) : List Char :=
  "#At time x allocated y bytes for process z from i to j\n".toList ++
    (manager.memoryLog.map MemoryEvent.call).flatMap Call.text

example : String.ofList (ExecutionLine.runs 2 7 0 3 4).call.text =
    "P2 (burst 7) runs 0 → 3 (rem 4)\n\n" := by
  decide

/-! ### The lines can be read

A line can be read back if no digit follows a number in its format, and no string
contains the character that follows it; and two formats can be told apart if they
come to different characters before they come to different conversions.  The
library shows what follows from that for the text of a whole file.  Here the
formats of the source are checked, and the strings that are put into them: the
states contain no space, and a rounded number no newline.
-/

theorem distinguishable_events : Distinguishable [eventFormat, finishFormat] := by
  rw [eventFormat, String.toList_ofList, finishFormat, String.toList_ofList]
  decide

theorem distinguishable_stints :
    Distinguishable [idleFormat, runsFormat, finishesFormat] := by
  rw [idleFormat, String.toList_ofList, runsFormat, String.toList_ofList,
    finishesFormat, String.toList_ofList]
  decide

theorem distinguishable_memory :
    Distinguishable
      [MemoryEventType.format .deallocated, MemoryEventType.format .allocated] := by
  simp only [MemoryEventType.format]
  rw [String.toList_ofList, String.toList_ofList]
  decide

namespace LogRecord

variable {wta : LogRecord → List Char} {record record' : LogRecord}

theorem legible (oneLine : ∀ record, '\n' ∉ wta record) (record : LogRecord) :
    (record.call wta).Legible [eventFormat, finishFormat] := by
  have blank : ' ' ∉ record.state.text := by
    cases record.state <;> decide
  have event : conversions eventFormat =
      some [.int, .int, .str ' ', .int, .int, .int, .int] := by
    rw [eventFormat, String.toList_ofList]
    decide
  have finish : conversions finishFormat =
      some [.int, .int, .str ' ', .int, .int, .int, .int, .int, .str '\n'] := by
    rw [finishFormat, String.toList_ofList]
    decide
  rw [call]
  dsimp only
  split
  · exact ⟨by simp, _, finish, blank, oneLine record, trivial⟩
  · exact ⟨by simp, _, event, blank, trivial⟩

/-- Both formats begin with the fields of the record. -/
theorem take_args (record : LogRecord) : (record.call wta).args.take 7 =
    [.int record.time, .int record.id, .str record.state.text,
      .int record.arrival, .int record.total, .int record.remain,
      .int record.wait] := by
  rw [call]
  dsimp only
  split <;> rfl

theorem state_of_text {state state' : ProcessState}
    (same : state.text = state'.text) : state = state' := by
  cases state <;> cases state' <;> first | rfl | exact absurd same (by decide)

theorem call_injective : Function.Injective (call wta) := by
  intro record record' same
  have args := congrArg (fun call => call.args.take 7) same
  rw [take_args, take_args] at args
  simp only [List.cons.injEq, Arg.int.injEq, Arg.str.injEq, and_true] at args
  obtain ⟨time, id, text, arrival, total, remain, wait⟩ := args
  have state := state_of_text text
  cases record
  cases record'
  simp_all

end LogRecord

namespace ExecutionLine

theorem legible (line : ExecutionLine) :
    line.call.Legible [idleFormat, runsFormat, finishesFormat] := by
  have idle : conversions idleFormat = some [.int, .int] := by
    rw [idleFormat, String.toList_ofList]
    decide
  have runs : conversions runsFormat = some [.int, .int, .int, .int, .int] := by
    rw [runsFormat, String.toList_ofList]
    decide
  have finishes : conversions finishesFormat =
      some [.int, .int, .int, .int, .int] := by
    rw [finishesFormat, String.toList_ofList]
    decide
  cases line with
  | idle start stop => exact ⟨by simp [call], _, idle, trivial⟩
  | runs id burst start stop remaining => exact ⟨by simp [call], _, runs, trivial⟩
  | finishes id burst start stop => exact ⟨by simp [call], _, finishes, trivial⟩

theorem call_injective : Function.Injective call := by
  have apart : runsFormat ≠ finishesFormat := by
    rw [runsFormat, String.toList_ofList, finishesFormat, String.toList_ofList]
    decide
  intro line line' same
  have format := congrArg Call.format same
  have args := congrArg Call.args same
  cases line <;> cases line' <;> simp_all [call]

end ExecutionLine

namespace MemoryEvent

theorem legible (event : MemoryEvent) :
    event.call.Legible
      [MemoryEventType.format .deallocated, MemoryEventType.format .allocated] := by
  have kinds : ∀ type : MemoryEventType, conversions type.format =
      some [.int, .int, .int, .int, .int] := by
    intro type
    cases type <;> rw [MemoryEventType.format, String.toList_ofList] <;> decide
  refine ⟨?_, _, kinds event.type, trivial⟩
  rw [call]
  cases event.type <;> simp

theorem call_injective : Function.Injective call := by
  intro event event' same
  have apart : MemoryEventType.format .deallocated ≠
      MemoryEventType.format .allocated := by
    simp only [MemoryEventType.format]
    rw [String.toList_ofList, String.toList_ofList]
    decide
  obtain ⟨time, type, bytes, process, first, last⟩ := event
  obtain ⟨time', type', bytes', process', first', last'⟩ := event'
  have format : type.format = type'.format := congrArg Call.format same
  have args := congrArg Call.args same
  have types : type = type' := by
    cases type with
    | deallocated =>
        cases type' with
        | deallocated => rfl
        | allocated => exact absurd format apart
    | allocated =>
        cases type' with
        | deallocated => exact absurd format.symm apart
        | allocated => rfl
  simp_all [call]

end MemoryEvent

/-! ### What the files tell -/

theorem schedulerLogText_injective {wta : LogRecord → List Char}
    (oneLine : ∀ record, '\n' ∉ wta record) {s s' : Scheduler}
    (same : schedulerLogText wta s = schedulerLogText wta s') :
    s.schedulerLog.filterMap LogLine.record =
      s'.schedulerLog.filterMap LogLine.record :=
  log_text_injective distinguishable_events (LogRecord.legible oneLine)
    LogRecord.call_injective (List.append_cancel_left same)

theorem executionLogText_injective {s s' : Scheduler}
    (same : executionLogText s = executionLogText s') :
    s.executionLog = s'.executionLog :=
  log_text_injective distinguishable_stints ExecutionLine.legible
    ExecutionLine.call_injective same

theorem memoryLogText_injective {manager manager' : MemoryManager}
    (same : memoryLogText manager = memoryLogText manager') :
    manager.memoryLog = manager'.memoryLog :=
  log_text_injective distinguishable_memory MemoryEvent.legible
    MemoryEvent.call_injective (List.append_cancel_left same)

/-- The three log files leave nothing open: from the text of each of them one can
tell all the lines that were printed, with all of their fields, where a line ends
and the next one begins. -/
theorem log_texts_tell (wta : LogRecord → List Char)
    (oneLine : ∀ record, '\n' ∉ wta record) :
    (∀ s s' : Scheduler, schedulerLogText wta s = schedulerLogText wta s' →
      s.schedulerLog.filterMap LogLine.record =
        s'.schedulerLog.filterMap LogLine.record) ∧
      (∀ s s' : Scheduler, executionLogText s = executionLogText s' →
        s.executionLog = s'.executionLog) ∧
      ∀ manager manager' : MemoryManager,
        memoryLogText manager = memoryLogText manager' →
          manager.memoryLog = manager'.memoryLog :=
  ⟨fun _ _ => schedulerLogText_injective oneLine,
    fun _ _ => executionLogText_injective, fun _ _ => memoryLogText_injective⟩

/-- The weighted turnaround time of a finished process, as `round_number` prints
the exact quotient. -/
def LogRecord.roundedWta (record : LogRecord) : List Char :=
  roundNumber (((record.time - record.arrival : Int) : ℚ) / (record.total : ℚ))

/-- Rounding prints nothing but what "%.2f" does. -/
theorem mem_fixedTwo_of_roundNumber {number : ℚ} {c : Char}
    (member : c ∈ roundNumber number) : c ∈ fixedTwo number := by
  rw [roundNumber_eq] at member
  have kept : c ∈ trimZeros ((fixedTwo number).take 7) := by
    rw [trimPoint] at member
    split at member
    · exact List.mem_of_mem_dropLast member
    · exact member
  exact List.mem_of_mem_take ((List.rdropWhile_prefix _ _).mem kept)

theorem newline_not_mem_roundNumber (number : ℚ) : '\n' ∉ roundNumber number := by
  intro member
  have printed := mem_fixedTwo_of_roundNumber member
  rw [fixedTwo, fixedDigits, List.mem_append, List.mem_append] at printed
  have noDigit : '\n'.isDigit = false := by decide
  rcases printed with minus | whole | fraction
  · split at minus
    · simp at minus
    · cases minus
  · have digit := Nat.isDigit_of_mem_toDigits (by decide) (by decide) whole
    rw [noDigit] at digit
    cases digit
  · have digit : ∀ k : Nat, k < 10 → '\n' ≠ Nat.digitChar k := by decide
    simp only [List.mem_cons, List.not_mem_nil, or_false] at fraction
    rcases fraction with point | tenths | hundredths
    · cases point
    · exact digit _ (Nat.mod_lt _ (by decide)) tenths
    · exact digit _ (Nat.mod_lt _ (by decide)) hundredths

theorem log_texts_tell_rounded :
    (∀ s s' : Scheduler, schedulerLogText LogRecord.roundedWta s =
        schedulerLogText LogRecord.roundedWta s' →
      s.schedulerLog.filterMap LogLine.record =
        s'.schedulerLog.filterMap LogLine.record) ∧
      (∀ s s' : Scheduler, executionLogText s = executionLogText s' →
        s.executionLog = s'.executionLog) ∧
      ∀ manager manager' : MemoryManager,
        memoryLogText manager = memoryLogText manager' →
          manager.memoryLog = manager'.memoryLog :=
  log_texts_tell LogRecord.roundedWta fun _ => newline_not_mem_roundNumber _

/-- Two runs of `create_processes` that leave the same text in `memory.log` end with
the same stretches of memory booked for the same processes, whatever they were given.
`Creation.Reached` asks of both that every process has a size of at least 1, that
forks succeed with pids which no child has had before and which are neither the
clock's nor the scheduler's, and that exits are handled between two rounds; with a pid
used twice the same text may hide different bookings. -/
theorem memory_log_text_tells {c c' : Creation}
    {processList processList' : List Process}
    {clock clkPid schPid clock' clkPid' schPid' : Int}
    {events events' : List CreationEvent}
    (reached : c.Reached processList clock clkPid schPid events)
    (reached' : c'.Reached processList' clock' clkPid' schPid' events')
    (same : memoryLogText c.manager = memoryLogText c'.manager) :
    (c.manager.bookings c.children).Perm (c'.manager.bookings c'.children) := by
  obtain ⟨held, reads, shows⟩ := reached.shows
  obtain ⟨held', reads', shows'⟩ := reached'.shows
  have lines := memoryLogText_injective same
  dsimp only at reads reads'
  rw [lines, reads', Option.some.injEq] at reads
  subst reads
  exact shows.booked.symm.trans shows'.booked

private def guest (id arrivalTime runtime memorySize : Int) : Process :=
  { id := id, arrivalTime := arrivalTime, runtime := runtime, priority := 0,
    memorySize := memorySize }

/-- The second of two processes gets the memory that the first one gives back. -/
private def succession : List CreationEvent :=
  List.replicate 3 (.proceed 0 0 10) ++ List.replicate 3 (.proceed 1 1 11) ++
    [.exit 3 10] ++ List.replicate 5 (.proceed 3 3 11)

/-- The runtimes of the processes leave no trace in `memory.log`. -/
theorem memory_log_text_tells_succession :
    ∃ c c', runs Creation.step (.start [guest 1 0 2 600, guest 2 1 2 500] 0 2 3)
        succession = .ok c ∧
      runs Creation.step (.start [guest 1 0 7 600, guest 2 1 9 500] 0 2 3)
        succession = .ok c' ∧ c.processList ≠ c'.processList ∧
      (c.manager.bookings c.children).Perm (c'.manager.bookings c'.children) := by
  have ends : (do
      let c ← runs Creation.step
        (.start [guest 1 0 2 600, guest 2 1 2 500] 0 2 3) succession
      let c' ← runs Creation.step
        (.start [guest 1 0 7 600, guest 2 1 9 500] 0 2 3) succession
      pure (decide (c.manager.memoryLog = c'.manager.memoryLog ∧
        c.processList ≠ c'.processList))) = Except.ok true := by
    decide +kernel
  obtain ⟨c, run, rest⟩ := bind_eq_ok.mp ends
  obtain ⟨c', run', equal⟩ := bind_eq_ok.mp rest
  rw [pure_eq_ok, Except.ok.injEq, decide_eq_true_iff] at equal
  obtain ⟨logs, lists⟩ := equal
  have same : memoryLogText c.manager = memoryLogText c'.manager := by
    unfold memoryLogText
    exact congrArg (fun log => _ ++ (List.map MemoryEvent.call log).flatMap Call.text)
      logs
  have reached : c.Reached [guest 1 0 2 600, guest 2 1 2 500] 0 2 3 succession :=
    ⟨by decide, by decide +kernel, run⟩
  have reached' : c'.Reached [guest 1 0 7 600, guest 2 1 9 500] 0 2 3 succession :=
    ⟨by decide, by decide +kernel, run'⟩
  exact ⟨c, c', run, run', lists, memory_log_text_tells reached reached' same⟩

end OsSim
