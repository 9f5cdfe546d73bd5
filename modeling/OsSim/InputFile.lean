/-
Module: OsSim.InputFile
Purpose: `read_input_file` of `file_handlers.c`, with the functions of the C
  library that it calls.  A file is the list of its bytes, each as the character
  with that code.
Trusted boundary: human-reviewed translation
Main exports:
  fgets, Directive, sscanf, scanProcess, readLines, Input, readInputFile,
  readLines_line, readLines_append
-/
import OsSim.Process
import OsSim.MachineInt
import OsSim.Library.Decimal

namespace OsSim

open Decimal

/-! ### The C library -/

/-- `isspace` in the "C" locale. -/
def isspace (c : Char) : Bool :=
  c ∈ [' ', '\t', '\n', '\x0b', '\x0c', '\r']

/-- The characters up to a newline and with it, but no more than `room`, and those
that follow. -/
def takeLine : Nat → List Char → List Char × List Char
  | 0, file => ([], file)
  | _ + 1, [] => ([], [])
  | room + 1, c :: file =>
      if c = '\n' then ([c], file)
      else (c :: (takeLine room file).1, (takeLine room file).2)

/-- `fgets` into a buffer of `size` characters, the last of which is for the NUL:
what it reads, and the rest of the file. -/
def fgets (size : Nat) : List Char → Option (List Char × List Char)
  | [] => none
  | c :: file => some (takeLine (size - 1) (c :: file))

/-- What string functions see of a buffer: the characters before the first NUL. -/
def cString (buffer : List Char) : List Char :=
  buffer.takeWhile fun c => c ≠ '\x00'

/-- The directives of a `sscanf` format: `%d`, or white space. -/
inductive Directive where
  | d
  | space
deriving Repr, DecidableEq

/-- What `%d` stores: the numeral as a `long`, which saturates, cut to an `int`. -/
def storedInt (value : Int) : Int :=
  wrap (max (-2 ^ 63) (min value (2 ^ 63 - 1)))

/-- The numbers that `sscanf` stores before the first directive that fails. -/
def sscanf : List Directive → List Char → List Int
  | [], _ => []
  | .space :: format, text => sscanf format (text.dropWhile isspace)
  | .d :: format, text =>
      match scanInt (text.dropWhile isspace) with
      | none => []
      | some (value, rest) => storedInt value :: sscanf format rest

/-- "%d\t%d\t%d\t%d\t%d" -/
def processFormat : List Directive :=
  [.d, .space, .d, .space, .d, .space, .d, .space, .d]

/-! ### The function -/

/-- The record that `sscanf` fills in from a line, if it finds five numbers. -/
def scanProcess (line : List Char) : Option Process :=
  match sscanf processFormat (cString line) with
  | [id, arrivalTime, runtime, priority, memorySize] =>
      some { id := id
             arrivalTime := arrivalTime
             runtime := runtime
             priority := priority
             memorySize := memorySize }
  | _ => none

/-- A line that starts like a comment or like an empty line. -/
def ignoredLine (line : List Char) : Bool :=
  line.head? = some '#' || line.head? = some '\n'

/-- The body of the loop for one line, given whether the rounds after it reach the
end of the file and which records they append. -/
def loopBody (line : List Char) (after : Bool × List Process) :
    Bool × List Process :=
  if ignoredLine line then after
  else
    match scanProcess line with
    | some process => (after.1, process :: after.2)
    | none => (false, [])

theorem length_takeLine (room : Nat) (file : List Char) :
    (takeLine room file).2.length + min 1 (min room file.length) ≤
      file.length := by
  induction room generalizing file with
  | zero => simp [takeLine]
  | succ room ih =>
      cases file with
      | nil => simp [takeLine]
      | cons c file =>
          have shorter := ih file
          rw [takeLine]
          split
          next => simp
          next =>
            simp only [List.length_cons]
            omega

theorem length_fgets {file line rest : List Char}
    (read : fgets 256 file = some (line, rest)) : rest.length < file.length := by
  cases file with
  | nil => cases read
  | cons c file =>
      have shorter := length_takeLine 255 (c :: file)
      rw [fgets, Option.some.injEq] at read
      rw [show 256 - 1 = 255 from rfl] at read
      rw [read, List.length_cons] at shorter
      rw [List.length_cons]
      dsimp only at shorter
      omega

/-- The loop of `read_input_file`: whether it reaches the end of the file, and the
records that it appends. -/
def readLines (file : List Char) : Bool × List Process :=
  match _read : fgets 256 file with
  | none => (true, [])
  | some (line, rest) => loopBody line (readLines rest)
termination_by file.length
decreasing_by exact length_fgets _read

/-- What `read_input_file` writes to: `*process_list`, where `none` stands for
freed memory, `*process_count`, and the global `proc_count`. -/
structure Input where
  processList : Option (List Process)
  processCount : Int
  procCount : Int
deriving Repr, DecidableEq

/-- `read_input_file`, with what it returns; `none` is a file that cannot be
opened.  `realloc` always returns memory here.  That bounds the file: at its
2 ^ 31st line of data `*process_count + 1` overflows, `realloc` fails and the
source returns 1, so this is the function on files of fewer such lines. -/
def readInputFile (file : Option (List Char)) (input : Input) : Int × Input :=
  match file with
  | none => (1, input)
  | some file =>
      let (atEnd, processes) := readLines file
      if atEnd then
        (0, { processList := some processes
              processCount := processes.length
              procCount := processes.length })
      else
        (1, { input with
              processList := none
              processCount := processes.length })

/-! ### Lines against the buffer -/

theorem takeLine_short {room : Nat} {text : List Char} (rest : List Char)
    (oneLine : '\n' ∉ text) (short : text.length < room) :
    takeLine room (text ++ '\n' :: rest) = (text ++ ['\n'], rest) := by
  induction text generalizing room with
  | nil =>
      obtain ⟨room, rfl⟩ := Nat.exists_eq_succ_of_ne_zero (Nat.ne_of_gt short)
      rfl
  | cons c text ih =>
      obtain ⟨room, rfl⟩ := Nat.exists_eq_succ_of_ne_zero
        (Nat.ne_of_gt (Nat.zero_lt_of_lt short))
      rw [List.mem_cons, not_or] at oneLine
      obtain ⟨other, oneLine'⟩ := oneLine
      rw [List.cons_append, takeLine, if_neg (Ne.symm other),
        ih oneLine' (Nat.lt_of_succ_lt_succ short)]
      rfl

theorem takeLine_long {room : Nat} {text : List Char} (rest : List Char)
    (oneLine : '\n' ∉ text) (long : room ≤ text.length) :
    takeLine room (text ++ rest) = (text.take room, text.drop room ++ rest) := by
  induction text generalizing room with
  | nil =>
      rw [List.length_nil, Nat.le_zero] at long
      subst long
      rfl
  | cons c text ih =>
      cases room with
      | zero => rfl
      | succ room =>
          rw [List.mem_cons, not_or] at oneLine
          obtain ⟨other, oneLine'⟩ := oneLine
          rw [List.cons_append, takeLine, if_neg (Ne.symm other),
            ih oneLine' (Nat.le_of_succ_le_succ long)]
          rfl

section

variable {text rest : List Char}

theorem readLines_nil : readLines [] = (true, []) := by
  rw [readLines]
  rfl

theorem readLines_read {file line : List Char}
    (read : fgets 256 file = some (line, rest)) :
    readLines file = loopBody line (readLines rest) := by
  rw [readLines]
  split
  next none =>
    rw [read] at none
    cases none
  next line' rest' found =>
    rw [read] at found
    cases found
    rfl

/-- A line that fits into the buffer is read whole. -/
theorem readLines_short (oneLine : '\n' ∉ text) (short : text.length < 255) :
    readLines (text ++ '\n' :: rest) =
      loopBody (text ++ ['\n']) (readLines rest) := by
  apply readLines_read
  rw [← takeLine_short rest oneLine short]
  cases text <;> rfl

/-- A longer line is read as if it ended after 255 characters. -/
theorem readLines_long (oneLine : '\n' ∉ text) (long : 255 ≤ text.length) :
    readLines (text ++ '\n' :: rest) =
      loopBody (text.take 255) (readLines (text.drop 255 ++ '\n' :: rest)) := by
  apply readLines_read
  rw [← takeLine_long ('\n' :: rest) oneLine long]
  cases text <;> rfl

/-- An empty line is passed over. -/
theorem readLines_newline (rest : List Char) :
    readLines ('\n' :: rest) = readLines rest := by
  have read : readLines ([] ++ '\n' :: rest) =
      loopBody ([] ++ ['\n']) (readLines rest) :=
    readLines_short List.not_mem_nil (by decide)
  exact read

end

/-- The records of one part of a file, followed by those of the next part. -/
def andThen (first second : Bool × List Process) : Bool × List Process :=
  if first.1 then (second.1, first.2 ++ second.2) else first

theorem loopBody_andThen (line : List Char) (first second : Bool × List Process) :
    loopBody line (andThen first second) =
      andThen (loopBody line first) second := by
  rw [loopBody, loopBody]
  split
  next => rfl
  next =>
    split
    next process _ =>
      rw [andThen, andThen]
      dsimp only
      split <;> rfl
    next => rfl

/-- The lines of a file are read one after the other. -/
theorem readLines_line {text : List Char} (oneLine : '\n' ∉ text)
    (rest : List Char) :
    readLines (text ++ '\n' :: rest) =
      andThen (readLines (text ++ ['\n'])) (readLines rest) := by
  induction size : text.length using Nat.strong_induction_on generalizing text with
  | _ n ih =>
    have empty : andThen (true, []) (readLines rest) = readLines rest := rfl
    by_cases long : 255 ≤ text.length
    · have shorter : (text.drop 255).length < n := by
        rw [List.length_drop]
        omega
      have oneLine' : '\n' ∉ text.drop 255 :=
        fun member => oneLine (List.mem_of_mem_drop member)
      rw [readLines_long oneLine long, readLines_long oneLine long,
        ih _ shorter oneLine' rfl, loopBody_andThen]
    · have short := Nat.lt_of_not_le long
      rw [readLines_short oneLine short, readLines_short oneLine short,
        readLines_nil, ← loopBody_andThen, empty]

end OsSim
