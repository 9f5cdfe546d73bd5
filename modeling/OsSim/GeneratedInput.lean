/-
Module: OsSim.GeneratedInput
Purpose: The input files that `test_generator.c` writes, and what
  `read_input_file` makes of them.
Trusted boundary: human-reviewed translation
Main exports:
  headerLine, recordLine, generatedFile, IntFields, generated_round_trip
-/
import OsSim.InputLines

namespace OsSim

open Decimal

/-- The first line of the file. -/
def headerLine : List Char := "#id arrival runtime priority memsize\n".toList

/-- "%d\t%d\t%d\t%d\t%d\n" for one process. -/
def recordLine (process : Process) : List Char :=
  printInt process.id ++ ['\t'] ++ printInt process.arrivalTime ++ ['\t'] ++
    printInt process.runtime ++ ['\t'] ++ printInt process.priority ++ ['\t'] ++
      printInt process.memorySize ++ ['\n']

/-- The file that `main` writes for these processes. -/
def generatedFile (processes : List Process) : List Char :=
  headerLine ++ processes.flatMap recordLine

/-- The fields of the process are values of an `int`. -/
def IntFields (process : Process) : Prop :=
  ∀ field ∈ [process.id, process.arrivalTime, process.runtime, process.priority,
    process.memorySize], InRange field

/-- A tab. -/
def Gap.tab : Gap where
  text := ['\t']
  nonempty := by decide
  blank := by simp

/-- The line of a process as a line of the input format. -/
def DataLine.ofProcess (process : Process) (fields : IntFields process) :
    DataLine where
  id := Numeral.ofInt process.id
  gap₁ := Gap.tab
  arrivalTime := Numeral.ofInt process.arrivalTime
  gap₂ := Gap.tab
  runtime := Numeral.ofInt process.runtime
  gap₃ := Gap.tab
  priority := Numeral.ofInt process.priority
  gap₄ := Gap.tab
  memorySize := Numeral.ofInt process.memorySize
  inRange := by
    intro numeral member
    simp only [List.mem_cons, List.not_mem_nil, or_false] at member
    rcases member with rfl | rfl | rfl | rfl | rfl <;>
      rw [Numeral.value_ofInt] <;> exact fields _ (by simp)

namespace DataLine

variable {process : Process} (fields : IntFields process)

theorem text_ofProcess :
    (ofProcess process fields).text ++ ['\n'] = recordLine process := by
  simp only [text, ofProcess, Gap.tab, Numeral.text_ofInt, recordLine,
    List.append_assoc]

theorem record_ofProcess : (ofProcess process fields).record = process := by
  simp only [record, ofProcess, Numeral.value_ofInt]

/-- The numeral of an `int` has at most eleven characters. -/
theorem length_ofInt {n : Int} (inRange : InRange n) :
    (Numeral.ofInt n).text.length ≤ 11 := by
  obtain ⟨lower, upper⟩ := inRange
  have small : n.natAbs < 10 ^ 10 := by omega
  exact Numeral.length_ofInt (by decide) small

/-- The line of a process fits into the buffer. -/
theorem length_ofProcess : (ofProcess process fields).text.length ≤ 59 := by
  have id := length_ofInt (fields process.id (by simp))
  have arrivalTime := length_ofInt (fields process.arrivalTime (by simp))
  have runtime := length_ofInt (fields process.runtime (by simp))
  have priority := length_ofInt (fields process.priority (by simp))
  have memorySize := length_ofInt (fields process.memorySize (by simp))
  simp only [text, ofProcess, Gap.tab, List.length_append, List.length_cons,
    List.length_nil]
  omega

end DataLine

/-- The line of a process is read as the process. -/
theorem readLines_recordLine {process : Process} (fields : IntFields process)
    (rest : List Char) :
    readLines (recordLine process ++ rest) =
      ((readLines rest).1, process :: (readLines rest).2) := by
  have short := DataLine.length_ofProcess fields
  have read := (DataLine.ofProcess process fields).readLines_eq (by omega) rest
  rw [DataLine.record_ofProcess] at read
  rw [← DataLine.text_ofProcess fields, List.append_assoc]
  exact read

/-- The header is a comment. -/
theorem readLines_headerLine (rest : List Char) :
    readLines (headerLine ++ rest) = readLines rest := by
  let title := "#id arrival runtime priority memsize".toList
  have split : headerLine = title ++ ['\n'] := by decide
  have ignored : ignoredLine headerLine = true := by decide
  have read : readLines (title ++ '\n' :: rest) =
      loopBody (title ++ ['\n']) (readLines rest) :=
    readLines_short (by decide) (by decide)
  rw [← split, loopBody, if_pos ignored] at read
  rw [split, List.append_assoc]
  exact read

theorem readLines_records {processes : List Process}
    (fields : ∀ process ∈ processes, IntFields process) :
    readLines (processes.flatMap recordLine) = (true, processes) := by
  induction processes with
  | nil => exact readLines_nil
  | cons process processes ih =>
      rw [List.flatMap_cons,
        readLines_recordLine (fields process List.mem_cons_self),
        ih fun other member => fields other (List.mem_cons_of_mem _ member)]

/-- `read_input_file` reads back what `test_generator` has written. -/
theorem generated_round_trip (processes : List Process)
    (fields : ∀ process ∈ processes, IntFields process) (input : Input) :
    readInputFile (some (generatedFile processes)) input =
      (0, { processList := some processes
            processCount := processes.length
            procCount := processes.length }) := by
  have read : readLines (generatedFile processes) = (true, processes) := by
    rw [generatedFile, readLines_headerLine, readLines_records fields]
  rw [readInputFile, read]
  rfl

private def extremes : List Process :=
  [{ id := 1, arrivalTime := 0, runtime := -2147483648, priority := 2147483647
     memorySize := -10 },
   { id := 2, arrivalTime := 5, runtime := 30, priority := 0, memorySize := 256 }]

/-- Two processes with the smallest and the largest `int` among their fields. -/
theorem generated_round_trip_sample :
    readInputFile (some (generatedFile extremes))
        { processList := none, processCount := 0, procCount := 0 } =
      (0, { processList := some extremes, processCount := 2, procCount := 2 }) := by
  have fields : ∀ process ∈ extremes, IntFields process := by
    unfold IntFields
    decide
  exact generated_round_trip extremes fields _

end OsSim
