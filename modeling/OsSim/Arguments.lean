/-
Module: OsSim.Arguments
Purpose: `main` of `process_generator.c` up to `create_processes`: the command line
  with `parse_args`, the input file, and the algorithm and the quantum that the
  scheduler is started with.
Trusted boundary: human-reviewed translation
Main exports:
  Arguments, atoi, argument, parseArgs, setSelectedAlgorithm, generatorMain,
  Usage, atoi_eq, start_up_iff
-/
import OsSim.InputLines
import OsSim.Orphans

namespace OsSim

open PointerMemory
open Decimal

/-- What `parse_args` writes to. -/
structure Arguments where
  schedulingAlgo : List Char
  inputFile : List Char
  quantum : Int
deriving Repr, DecidableEq

/-- `atoi`: the numeral behind white space as a `long`, cut to an `int`; 0 if there
is none. -/
def atoi (text : List Char) : Int :=
  match scanInt (text.dropWhile isspace) with
  | none => 0
  | some (value, _) => storedInt value

/-- `argv[i]`.  Behind the last argument there is a NULL, which is nothing that
`strcmp` or `atoi` could read. -/
def argument (argv : List (List Char)) (i : Nat) : Except Fault (List Char) :=
  match argv[i]? with
  | some text => .ok text
  | none => .error (if i = argv.length then .nullPointer else .danglingPointer)

/-- `strcmp(argv[i], text) != 0` -/
def differs (argv : List (List Char)) (i : Nat) (text : String) :
    Except Fault Bool := do
  let arg ← argument argv i
  pure (decide (arg ≠ text.toList))

/-- `first || second`, where `second` is not evaluated behind a `first` that is
true. -/
def orElse (first : Bool) (second : Except Fault Bool) : Except Fault Bool :=
  if first then .ok true else second

/-- `parse_args`; `argc` is the length of `argv`, and `none` stands for
`exit(EXIT_FAILURE)`.  Without `-q` the quantum is not written to. -/
def parseArgs (argv : List (List Char)) (quantum : Int) :
    Except Fault (Option Arguments) := do
  let argc := argv.length
  if ← orElse (argc ≠ 5 && argc ≠ 7) (differs argv 1 "-s") then
    pure none
  else do
    let schedulingAlgo ← argument argv 2
    if schedulingAlgo ≠ "rr".toList ∧ schedulingAlgo ≠ "hpf".toList ∧
        schedulingAlgo ≠ "srtn".toList then
      pure none
    else if schedulingAlgo = "rr".toList then do
      let flags := do
        if ← differs argv 3 "-q" then pure true else differs argv 5 "-f"
      if ← orElse (argc ≠ 7) flags then
        pure none
      else do
        let quantum := atoi (← argument argv 4)
        if quantum ≤ 0 then
          pure none
        else do
          let inputFile ← argument argv 6
          pure (some { schedulingAlgo := schedulingAlgo
                       inputFile := inputFile
                       quantum := quantum })
    else do
      if ← orElse (argc ≠ 5) (differs argv 3 "-f") then
        pure none
      else do
        let inputFile ← argument argv 4
        pure (some { schedulingAlgo := schedulingAlgo
                     inputFile := inputFile
                     quantum := quantum })

/-- `set_selected_algorithm`; a text that is none of the three leaves
`selected_algorithm` as it is. -/
def setSelectedAlgorithm (schedulingAlgorithm : List Char)
    (selected : SchedulingAlgorithm) : SchedulingAlgorithm :=
  let selected := if schedulingAlgorithm = "rr".toList then .rr else selected
  let selected := if schedulingAlgorithm = "hpf".toList then .hpf else selected
  if schedulingAlgorithm = "srtn".toList then .srtn else selected

/-- `main` up to the first statement of `create_processes` and of the scheduler's
loop, for the forks and the message queue that succeed; `none` stands for
`exit(EXIT_FAILURE)`.  `files` tells what can be opened, `quantum` is what the
uninitialized variable holds, and `selected_algorithm` is 0 at first. -/
def generatorMain (argv : List (List Char))
    (files : List Char → Option (List Char)) (quantum clock clkPid schPid : Int) :
    Except Fault (Option System) := do
  match ← parseArgs argv quantum with
  | none => pure none
  | some arguments =>
      let read := readInputFile (files arguments.inputFile)
        { processList := none, processCount := 0, procCount := 0 }
      match read with
      | (0, { processList := some processes, .. }) =>
          pure (some (.start processes clock clkPid schPid
            (setSelectedAlgorithm arguments.schedulingAlgo .rr)
            arguments.quantum))
      | _ => pure none

/-- The command lines of the usage message, with what they ask for. -/
inductive Usage (quantum : Int) :
    List (List Char) → SchedulingAlgorithm → Int → List Char → Prop
  | rr (program number file : List Char) (positive : 0 < atoi number) :
      Usage quantum [program, "-s".toList, "rr".toList, "-q".toList, number,
        "-f".toList, file] .rr (atoi number) file
  | hpf (program file : List Char) :
      Usage quantum [program, "-s".toList, "hpf".toList, "-f".toList, file] .hpf
        quantum file
  | srtn (program file : List Char) :
      Usage quantum [program, "-s".toList, "srtn".toList, "-f".toList, file] .srtn
        quantum file

/-! ### The quantum -/

/-- `atoi` of a numeral yields its value where that is one of an `int`; it is
some other value where it is not. -/
theorem atoi_eq {spaces rest : List Char}
    (blank : ∀ c ∈ spaces, isspace c = true) (numeral : Numeral)
    (stops : Stops rest) :
    atoi (spaces ++ (numeral.text ++ rest)) = storedInt numeral.value ∧
      (storedInt numeral.value = numeral.value ↔ InRange numeral.value) := by
  constructor
  · rw [atoi, dropWhile_space blank numeral, scanInt_text numeral stops]
  · refine ⟨fun same => ?_, storedInt_of_inRange⟩
    rw [← same]
    exact inRange_wrap _

/-! ### The command line -/

theorem orElse_true (second : Except Fault Bool) :
    orElse true second = .ok true := rfl

theorem orElse_false (second : Except Fault Bool) :
    orElse false second = second := rfl

section

variable (quantum : Int)

/-- Any other number of arguments is refused before one is read. -/
theorem parseArgs_count {argv : List (List Char)} (five : argv.length ≠ 5)
    (seven : argv.length ≠ 7) : parseArgs argv quantum = .ok none := by
  have count : (argv.length ≠ 5 && argv.length ≠ 7) = true := by
    simp [five, seven]
  rw [parseArgs, count, orElse_true]
  rfl

/-- Four arguments behind the program's name. -/
theorem parseArgs_five (program option name file inputFile : List Char) :
    parseArgs [program, option, name, file, inputFile] quantum =
      .ok (if option = "-s".toList ∧
          (name = "hpf".toList ∨ name = "srtn".toList) ∧ file = "-f".toList then
        some { schedulingAlgo := name, inputFile := inputFile,
               quantum := quantum }
      else none) := by
  have five : decide ([program, option, name, file, inputFile].length ≠ 5) =
    false := rfl
  have seven : decide ([program, option, name, file, inputFile].length ≠ 7) =
    true := rfl
  simp only [parseArgs, five, seven, Bool.false_and, orElse_true, orElse_false,
    differs, argument, List.getElem?_cons_succ, List.getElem?_cons_zero, ok_bind,
    pure_eq_ok, decide_eq_true_eq, if_true]
  by_cases s : option = "-s".toList
  · rw [if_neg (not_not.mpr s)]
    by_cases rr : name = "rr".toList
    · have other : ¬ (name = "hpf".toList ∨ name = "srtn".toList) := by
        rw [rr]
        decide
      rw [if_neg (fun unknown => unknown.1 rr), if_pos rr,
        if_neg (fun all => other all.2.1)]
    · by_cases known : name = "hpf".toList ∨ name = "srtn".toList
      · rw [if_neg (fun unknown => known.elim unknown.2.1 unknown.2.2),
          if_neg rr]
        by_cases f : file = "-f".toList
        · rw [if_neg (not_not.mpr f), if_pos ⟨s, known, f⟩]
        · rw [if_pos f, if_neg (fun all => f all.2.2)]
      · rw [if_pos ⟨rr, not_or.mp known⟩, if_neg (fun all => known all.2.1)]
  · rw [if_pos s, if_neg (fun all => s all.1)]

/-- Six arguments behind it. -/
theorem parseArgs_seven
    (program option name flag number file inputFile : List Char) :
    parseArgs [program, option, name, flag, number, file, inputFile] quantum =
      .ok (if option = "-s".toList ∧ name = "rr".toList ∧ flag = "-q".toList ∧
          file = "-f".toList ∧ 0 < atoi number then
        some { schedulingAlgo := name, inputFile := inputFile,
               quantum := atoi number }
      else none) := by
  have five : decide ([program, option, name, flag, number, file,
    inputFile].length ≠ 5) = true := rfl
  have seven : decide ([program, option, name, flag, number, file,
    inputFile].length ≠ 7) = false := rfl
  simp only [parseArgs, five, seven, Bool.and_false, orElse_true, orElse_false,
    differs, argument, List.getElem?_cons_succ, List.getElem?_cons_zero, ok_bind,
    pure_eq_ok, decide_eq_true_eq]
  by_cases s : option = "-s".toList
  · rw [if_neg (not_not.mpr s)]
    by_cases rr : name = "rr".toList
    · rw [if_neg (fun unknown => unknown.1 rr), if_pos rr]
      by_cases q : flag = "-q".toList
      · rw [if_neg (not_not.mpr q), ok_bind]
        by_cases f : file = "-f".toList
        · have same : decide (file ≠ "-f".toList) = false := by simp [f]
          rw [if_neg (by rw [same]; decide)]
          by_cases positive : 0 < atoi number
          · rw [if_neg (by omega), if_pos ⟨s, rr, q, f, positive⟩]
          · rw [if_pos (by omega), if_neg (fun all => positive all.2.2.2.2)]
        · rw [if_pos (decide_eq_true f), if_neg (fun all => f all.2.2.2.1)]
      · rw [if_pos q, ok_bind, if_pos rfl, if_neg (fun all => q all.2.2.1)]
    · have refused : ¬ (option = "-s".toList ∧ name = "rr".toList ∧
          flag = "-q".toList ∧ file = "-f".toList ∧ 0 < atoi number) :=
        fun all => rr all.2.1
      rw [if_neg refused]
      by_cases known : name = "hpf".toList ∨ name = "srtn".toList
      · rw [if_neg (fun unknown => known.elim unknown.2.1 unknown.2.2),
          if_neg rr, if_pos trivial]
      · rw [if_pos ⟨rr, not_or.mp known⟩]
  · rw [if_pos s, if_neg (fun all => s all.1)]

/-- `parse_args` accepts the command lines of the usage message, and
`set_selected_algorithm` selects the algorithm that was asked for. -/
theorem parseArgs_iff (argv : List (List Char)) :
    ∃ result, parseArgs argv quantum = .ok result ∧
      (∀ arguments, result = some arguments → Usage quantum argv
        (setSelectedAlgorithm arguments.schedulingAlgo .rr) arguments.quantum
        arguments.inputFile) ∧
      ∀ algorithm number file, Usage quantum argv algorithm number file →
        ∃ arguments, result = some arguments ∧
          setSelectedAlgorithm arguments.schedulingAlgo .rr = algorithm ∧
          arguments.quantum = number ∧ arguments.inputFile = file := by
  have rr : setSelectedAlgorithm "rr".toList .rr = .rr := by decide
  have hpf : setSelectedAlgorithm "hpf".toList .rr = .hpf := by decide
  have srtn : setSelectedAlgorithm "srtn".toList .rr = .srtn := by decide
  by_cases five : argv.length = 5
  · obtain ⟨program, option, name, flag, inputFile, rfl⟩ :
        ∃ a b c d e, argv = [a, b, c, d, e] := by
      match argv, five with
      | [a, b, c, d, e], _ => exact ⟨a, b, c, d, e, rfl⟩
    refine ⟨_, parseArgs_five quantum program option name flag inputFile, ?_, ?_⟩
    · intro arguments accepted
      split at accepted
      · next all =>
          obtain ⟨rfl, known, rfl⟩ := all
          rw [Option.some.injEq] at accepted
          subst accepted
          rcases known with rfl | rfl
          · rw [hpf]
            exact .hpf program inputFile
          · rw [srtn]
            exact .srtn program inputFile
      · cases accepted
    · intro algorithm number file usage
      cases usage with
      | hpf => exact ⟨_, if_pos ⟨rfl, Or.inl rfl, rfl⟩, hpf, rfl, rfl⟩
      | srtn => exact ⟨_, if_pos ⟨rfl, Or.inr rfl, rfl⟩, srtn, rfl, rfl⟩
  · by_cases seven : argv.length = 7
    · obtain ⟨program, option, name, flag, number, file, inputFile, rfl⟩ :
          ∃ a b c d e f g, argv = [a, b, c, d, e, f, g] := by
        match argv, seven with
        | [a, b, c, d, e, f, g], _ => exact ⟨a, b, c, d, e, f, g, rfl⟩
      refine ⟨_, parseArgs_seven quantum program option name flag number file
        inputFile, ?_, ?_⟩
      · intro arguments accepted
        split at accepted
        · next all =>
            obtain ⟨rfl, rfl, rfl, rfl, positive⟩ := all
            rw [Option.some.injEq] at accepted
            subst accepted
            rw [rr]
            exact .rr program number inputFile positive
        · cases accepted
      · intro algorithm number file usage
        cases usage with
        | rr _ _ _ positive =>
            exact ⟨_, if_pos ⟨rfl, rfl, rfl, rfl, positive⟩, rr, rfl, rfl⟩
    · refine ⟨none, parseArgs_count quantum five seven, ?_, ?_⟩
      · intro arguments accepted
        cases accepted
      · intro algorithm number file usage
        cases usage with
        | rr => exact absurd rfl seven
        | hpf | srtn => exact absurd rfl five

/-- The quantum of Round Robin is positive. -/
theorem Usage.positive {quantum : Int} {argv : List (List Char)}
    {number : Int} {file : List Char}
    (usage : Usage quantum argv .rr number file) : 1 ≤ number := by
  cases usage with
  | rr _ number _ positive =>
      omega

end

/-- On a command line for Round Robin the quantum is what `atoi` makes of the
fifth argument. -/
theorem Usage.number_eq {quantum : Int} {argv : List (List Char)}
    {algorithm : SchedulingAlgorithm} {number : Int} {file : List Char}
    (usage : Usage quantum argv algorithm number file)
    {program text inputFile : List Char}
    (given : argv = [program, "-s".toList, "rr".toList, "-q".toList, text,
      "-f".toList, inputFile]) : number = atoi text := by
  cases usage with
  | rr =>
      simp only [List.cons.injEq] at given
      rw [given.2.2.2.2.1]
  | hpf | srtn => cases congrArg List.length given

/-! ### The start of the simulation -/

/-- What follows `parse_args`, on the result of reading the file. -/
theorem generatorMain_some {argv : List (List Char)}
    {files : List Char → Option (List Char)} {quantum : Int}
    {arguments : Arguments} (clock clkPid schPid : Int)
    (run : parseArgs argv quantum = .ok (some arguments)) :
    ∃ result, generatorMain argv files quantum clock clkPid schPid = .ok result ∧
      ∀ s, result = some s ↔ ∃ contents processes,
        files arguments.inputFile = some contents ∧
        readLines contents = (true, processes) ∧
        s = .start processes clock clkPid schPid
          (setSelectedAlgorithm arguments.schedulingAlgo .rr)
          arguments.quantum := by
  rw [generatorMain, run, ok_bind]
  dsimp only
  cases opened : files arguments.inputFile with
  | none =>
      refine ⟨none, rfl, fun s => ?_⟩
      simp
  | some contents =>
      rcases read : readLines contents with ⟨atEnd, processes⟩
      cases atEnd with
      | false =>
          refine ⟨none, by simp [readInputFile, read], fun s => ?_⟩
          simp [read]
      | true =>
          refine ⟨some (.start processes clock clkPid schPid
            (setSelectedAlgorithm arguments.schedulingAlgo .rr)
            arguments.quantum), by simp [readInputFile, read], fun s => ?_⟩
          simp [read, eq_comm]

/-- Whatever the command line and the files are, `main` returns.  It starts the
simulation exactly on a command line of the usage message that names a file which
can be opened and read, with the processes of that file and the algorithm and the
quantum of the command line; a quantum for Round Robin is positive, and it is the
number that was entered exactly if that is a value of an `int`. -/
theorem start_up_iff (argv : List (List Char))
    (files : List Char → Option (List Char)) (quantum clock clkPid schPid : Int) :
    ∃ result,
      generatorMain argv files quantum clock clkPid schPid = .ok result ∧
      (∀ s, result = some s ↔ ∃ algorithm number file contents processes,
        Usage quantum argv algorithm number file ∧
        files file = some contents ∧ readLines contents = (true, processes) ∧
        s = .start processes clock clkPid schPid algorithm number) ∧
      (∀ s, result = some s → s.world.sched.selectedAlgorithm = .rr →
        1 ≤ s.world.sched.quantum) ∧
      ∀ s program spaces (numeral : Numeral) rest file,
        argv = [program, "-s".toList, "rr".toList, "-q".toList,
          spaces ++ (numeral.text ++ rest), "-f".toList, file] →
        (∀ c ∈ spaces, isspace c = true) → Stops rest → result = some s →
        (s.world.sched.quantum = numeral.value ↔ InRange numeral.value) := by
  obtain ⟨parsed, run, sound, complete⟩ := parseArgs_iff quantum argv
  cases parsed with
  | none =>
      have refuses : ∀ {s : System}, (none : Option System) ≠ some s := nofun
      refine ⟨none, by rw [generatorMain, run]; rfl, ?_,
        fun _ started => absurd started refuses,
        fun _ _ _ _ _ _ _ _ _ started => absurd started refuses⟩
      refine fun s => iff_of_false refuses ?_
      rintro ⟨algorithm, number, file, _, _, usage, _⟩
      obtain ⟨_, impossible, _⟩ := complete algorithm number file usage
      cases impossible
  | some arguments =>
      obtain ⟨result, ran, starts⟩ :=
        generatorMain_some clock clkPid schPid run
      have usage := sound arguments rfl
      refine ⟨result, ran, ?_, ?_, ?_⟩
      · intro s
        rw [starts]
        constructor
        · rintro ⟨contents, processes, opened, read, same⟩
          exact ⟨_, _, _, contents, processes, usage, opened, read, same⟩
        · rintro ⟨algorithm, number, file, contents, processes, usage', opened,
            read, same⟩
          obtain ⟨_, isSome, rfl, rfl, rfl⟩ :=
            complete algorithm number file usage'
          rw [Option.some.injEq] at isSome
          subst isSome
          exact ⟨contents, processes, opened, read, same⟩
      · intro s started selected
        obtain ⟨_, _, _, _, rfl⟩ := (starts s).mp started
        have isRr : setSelectedAlgorithm arguments.schedulingAlgo .rr = .rr :=
          selected
        rw [isRr] at usage
        exact usage.positive
      · intro s program spaces numeral rest file given blank stops started
        obtain ⟨_, processes, _, _, same⟩ := (starts s).mp started
        have quantumEq : s.world.sched.quantum = storedInt numeral.value := by
          rw [same, ← (atoi_eq blank numeral stops).1]
          exact usage.number_eq given
        rw [quantumEq]
        exact (atoi_eq blank numeral stops).2

/-- 2^32 + 1 is accepted as a quantum, and the scheduler runs with 1. -/
example : parseArgs ["os-sim".toList, "-s".toList, "rr".toList, "-q".toList,
      "4294967297".toList, "-f".toList, "processes.txt".toList] 0 =
    .ok (some { schedulingAlgo := "rr".toList
                inputFile := "processes.txt".toList
                quantum := 1 }) := by
  decide +kernel

end OsSim
