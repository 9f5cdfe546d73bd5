/-
Module: OsSim.InputLines
Purpose: The input file format by its lines, and which files `read_input_file`
  reads as the format has them.  It takes a line in pieces of 255 characters and
  looks at each piece as if it were a line.
Trusted boundary: human-reviewed translation
Main exports:
  Gap, DataLine, InputLine, fileText, ReadsRight, Marked, InputLine.Fits,
  DataLine.readLines_eq, reads_right_iff, long_comment_fails
-/
import OsSim.InputFile

namespace OsSim

open Decimal

/-! ### The format -/

/-- One or more spaces and tabs. -/
structure Gap where
  text : List Char
  nonempty : text ≠ []
  blank : ∀ c ∈ text, c = ' ' ∨ c = '\t'

/-- Five numbers in the range of `int` with gaps between them. -/
structure DataLine where
  id : Numeral
  gap₁ : Gap
  arrivalTime : Numeral
  gap₂ : Gap
  runtime : Numeral
  gap₃ : Gap
  priority : Numeral
  gap₄ : Gap
  memorySize : Numeral
  inRange : ∀ numeral ∈ [id, arrivalTime, runtime, priority, memorySize],
    InRange numeral.value

namespace DataLine

def text (line : DataLine) : List Char :=
  line.id.text ++ (line.gap₁.text ++ (line.arrivalTime.text ++
    (line.gap₂.text ++ (line.runtime.text ++ (line.gap₃.text ++
      (line.priority.text ++ (line.gap₄.text ++ line.memorySize.text)))))))

def record (line : DataLine) : Process :=
  { id := line.id.value
    arrivalTime := line.arrivalTime.value
    runtime := line.runtime.value
    priority := line.priority.value
    memorySize := line.memorySize.value }

end DataLine

/-- A line of the input file: a comment, which `text` follows after the '#', an
empty line, or the data of a process. -/
inductive InputLine where
  | comment (text : List Char) (oneLine : '\n' ∉ text)
  | empty
  | data (line : DataLine)

namespace InputLine

def text : InputLine → List Char
  | .comment text _ => '#' :: text
  | .empty => []
  | .data line => line.text

/-- The record that the line stands for. -/
def record : InputLine → Option Process
  | .data line => some line.record
  | .comment _ _ | .empty => none

end InputLine

/-- The file with these lines. -/
def fileText (lines : List InputLine) : List Char :=
  lines.flatMap fun line => line.text ++ ['\n']

/-- `read_input_file` succeeds and yields one record for each data line, in
order. -/
def ReadsRight (lines : List InputLine) : Prop :=
  ∀ input, readInputFile (some (fileText lines)) input =
    (0, { processList := some (lines.filterMap InputLine.record)
          processCount := (lines.filterMap InputLine.record).length
          procCount := (lines.filterMap InputLine.record).length })

/-- Every piece of 255 characters starts with '#'. -/
def Marked (text : List Char) : Prop :=
  ∀ k, 255 * k < text.length → text[255 * k]? = some '#'

/-- The lines that come out right: a data line of at most 255 characters, and a
comment whose pieces look like comments. -/
def InputLine.Fits : InputLine → Prop
  | .comment text _ => Marked ('#' :: text)
  | .empty => True
  | .data line => line.text.length ≤ 255

/-! ### Numbers and gaps -/

/-- No white space, and no character that ends a string or starts a comment. -/
def Plain (c : Char) : Prop := isspace c = false ∧ c ≠ '#' ∧ c ≠ '\x00'

theorem plain_of_isDigit {c : Char} (digit : c.isDigit = true) : Plain c := by
  refine ⟨?_, ?_, ?_⟩
  · rw [isspace, decide_eq_false_iff_not]
    intro member
    simp only [List.mem_cons, List.not_mem_nil, or_false] at member
    rcases member with rfl | rfl | rfl | rfl | rfl | rfl <;> cases digit
  · rintro rfl
    cases digit
  · rintro rfl
    cases digit

theorem plain_numeral (numeral : Numeral) : ∀ c ∈ numeral.text, Plain c := by
  obtain ⟨sign, digits⟩ := numeral
  intro c member
  rcases List.mem_append.mp member with signed | digit
  · rcases Sign.mem_text signed with rfl | rfl <;>
      exact ⟨by decide, by decide, by decide⟩
  · exact plain_of_isDigit (digits.decimal c digit)

/-- A numeral starts with a plain character. -/
theorem numeral_cons (numeral : Numeral) :
    ∃ c rest, numeral.text = c :: rest ∧ Plain c := by
  cases split : numeral.text with
  | nil =>
      rw [Numeral.text, List.append_eq_nil_iff] at split
      exact absurd split.2 numeral.digits.nonempty
  | cons c rest =>
      exact ⟨c, rest, rfl, plain_numeral numeral c (split ▸ List.mem_cons_self)⟩

section

variable {rest : List Char} {format : List Directive}

/-- White space before a numeral is skipped up to it. -/
theorem dropWhile_space {spaces : List Char}
    (blank : ∀ c ∈ spaces, isspace c = true) (numeral : Numeral) :
    (spaces ++ (numeral.text ++ rest)).dropWhile isspace =
      numeral.text ++ rest := by
  obtain ⟨c, others, split, plain⟩ := numeral_cons numeral
  rw [List.dropWhile_append_of_pos blank, split, List.cons_append,
    List.dropWhile_cons_of_neg (by simp [plain.1])]

theorem Gap.chars (gap : Gap) : ∀ c ∈ gap.text,
    isspace c = true ∧ c.isDigit = false ∧ c ≠ '\n' ∧ c ≠ '\x00' := by
  intro c member
  rcases gap.blank c member with rfl | rfl <;> decide

/-- A gap ends the numeral before it. -/
theorem Gap.stops (gap : Gap) : Stops (gap.text ++ rest) := by
  intro c first
  cases split : gap.text with
  | nil => exact absurd split gap.nonempty
  | cons d others =>
      rw [split, List.cons_append, List.head?_cons, Option.mem_some_iff] at first
      subst first
      exact (gap.chars d (split ▸ List.mem_cons_self)).2.1

theorem storedInt_of_inRange {value : Int} (inRange : InRange value) :
    storedInt value = value := by
  obtain ⟨lower, upper⟩ := inRange
  have inside : max (-2 ^ 63) (min value (2 ^ 63 - 1)) = value := by omega
  rw [storedInt, inside, wrap_of_inRange ⟨lower, upper⟩]

/-- `%d` reads a numeral. -/
theorem sscanf_d (numeral : Numeral) (inRange : InRange numeral.value)
    (stops : Stops rest) : sscanf (.d :: format) (numeral.text ++ rest) =
      numeral.value :: sscanf format rest := by
  have start : ([] ++ (numeral.text ++ rest)).dropWhile isspace =
      numeral.text ++ rest := dropWhile_space (by simp) numeral
  rw [List.nil_append] at start
  rw [sscanf, start, scanInt_text numeral stops]
  dsimp only
  rw [storedInt_of_inRange inRange]

/-- The white space of the format passes over a gap, and `%d` reads the numeral
after it. -/
theorem sscanf_gap (gap : Gap) (numeral : Numeral)
    (inRange : InRange numeral.value) (stops : Stops rest) :
    sscanf (.space :: .d :: format) (gap.text ++ (numeral.text ++ rest)) =
      numeral.value :: sscanf format rest := by
  rw [sscanf, dropWhile_space fun c member => (gap.chars c member).1,
    sscanf_d numeral inRange stops]

end

namespace DataLine

variable (line : DataLine)

/-- No character of a data line ends a line or a string. -/
theorem chars : ∀ c ∈ line.text, c ≠ '\n' ∧ c ≠ '\x00' := by
  have plain : ∀ numeral : Numeral, ∀ c ∈ numeral.text,
      c ≠ '\n' ∧ c ≠ '\x00' := by
    intro numeral c member
    obtain ⟨space, _, notNul⟩ := plain_numeral numeral c member
    refine ⟨?_, notNul⟩
    rintro rfl
    cases space
  have blank : ∀ gap : Gap, ∀ c ∈ gap.text, c ≠ '\n' ∧ c ≠ '\x00' :=
    fun gap c member => (gap.chars c member).2.2
  intro c member
  simp only [text, List.mem_append] at member
  rcases member with m | m | m | m | m | m | m | m | m
  · exact plain _ c m
  · exact blank _ c m
  · exact plain _ c m
  · exact blank _ c m
  · exact plain _ c m
  · exact blank _ c m
  · exact plain _ c m
  · exact blank _ c m
  · exact plain _ c m

theorem oneLine : '\n' ∉ line.text := fun member => (line.chars _ member).1 rfl

/-- A data line starts with a plain character, so it is not ignored. -/
theorem cons_plain : ∃ c rest, line.text = c :: rest ∧ Plain c := by
  obtain ⟨c, rest, split, plain⟩ := numeral_cons line.id
  rw [text, split]
  exact ⟨c, _, rfl, plain⟩

/-- A data line is scanned as its record, with or without the newline. -/
theorem scanProcess_eq {tail : List Char} (stops : Stops tail)
    (noNul : '\x00' ∉ tail) :
    scanProcess (line.text ++ tail) = some line.record := by
  have whole : cString (line.text ++ tail) = line.text ++ tail := by
    apply List.takeWhile_eq_self_iff.mpr
    intro c member
    rw [decide_eq_true_iff]
    rintro rfl
    rcases List.mem_append.mp member with inside | after
    · exact (line.chars _ inside).2 rfl
    · exact noNul after
  have range := line.inRange
  simp only [List.forall_mem_cons] at range
  obtain ⟨id, arrivalTime, runtime, priority, memorySize, _⟩ := range
  have found : sscanf processFormat (line.text ++ tail) =
      [line.id.value, line.arrivalTime.value, line.runtime.value,
        line.priority.value, line.memorySize.value] := by
    simp only [text, List.append_assoc]
    rw [processFormat, sscanf_d _ id line.gap₁.stops,
      sscanf_gap _ _ arrivalTime line.gap₂.stops,
      sscanf_gap _ _ runtime line.gap₃.stops,
      sscanf_gap _ _ priority line.gap₄.stops,
      sscanf_gap _ _ memorySize stops, sscanf]
  rw [scanProcess, whole, found]
  rfl

end DataLine

/-! ### Lines that fit -/

theorem ignoredLine_plain {line : List Char} {c : Char}
    (first : line.head? = some c) (plain : Plain c) : ignoredLine line = false := by
  obtain ⟨space, notHash, _⟩ := plain
  have notNewline : c ≠ '\n' := by
    rintro rfl
    cases space
  simp [ignoredLine, first, notHash, notNewline]

/-- A data line of at most 255 characters adds its record. -/
theorem DataLine.readLines_eq (line : DataLine)
    (fits : line.text.length ≤ 255) (rest : List Char) :
    readLines (line.text ++ '\n' :: rest) =
      ((readLines rest).1, line.record :: (readLines rest).2) := by
  obtain ⟨c, others, split, plain⟩ := line.cons_plain
  have body : ∀ tail, Stops tail → '\x00' ∉ tail → ∀ after,
      loopBody (line.text ++ tail) after = (after.1, line.record :: after.2) := by
    intro tail stops noNul after
    have notIgnored : ignoredLine (line.text ++ tail) = false := by
      rw [split]
      exact ignoredLine_plain rfl plain
    rw [loopBody, if_neg (by simp [notIgnored]),
      line.scanProcess_eq stops noNul]
  by_cases short : line.text.length < 255
  · rw [readLines_short line.oneLine short, body _ _ (by decide)]
    intro c first
    cases first
    rfl
  · -- The newline is read as a line of its own.
    have full : line.text.length = 255 := by omega
    have none : Stops [] := fun c first => by cases first
    have whole := body [] none (by simp) (readLines rest)
    rw [List.append_nil] at whole
    rw [readLines_long line.oneLine (Nat.le_of_not_lt short),
      List.take_of_length_le (Nat.le_of_eq full), List.drop_of_length_le
        (Nat.le_of_eq full), List.nil_append, readLines_newline, whole]

/-! ### Comments -/

section

variable {text : List Char}

theorem marked_nil : Marked [] := fun _ impossible => by simp at impossible

/-- A piece after the first one is a piece of what follows the first. -/
theorem marked_drop (first : text.head? = some '#') :
    Marked text ↔ Marked (text.drop 255) := by
  constructor
  · intro marked k inside
    rw [List.length_drop] at inside
    have later := marked (k + 1) (by omega)
    rw [List.getElem?_drop, ← later]
    congr 1
    omega
  · intro marked k inside
    cases k with
    | zero => rw [← first, List.head?_eq_getElem?]
    | succ k =>
        have later := marked k (by rw [List.length_drop]; omega)
        rw [List.getElem?_drop] at later
        rw [← later]
        congr 1
        omega

/-- A piece that starts like a line of data stops the reading or adds a record. -/
theorem loopBody_ne {line : List Char} (after : Bool × List Process)
    (notIgnored : ignoredLine line = false) : loopBody line after ≠ (true, []) := by
  rw [loopBody, if_neg (by simp [notIgnored])]
  split <;> simp

/-- The first round of the loop on a line reads a piece of it. -/
theorem readLines_piece {c : Char} (oneLine : '\n' ∉ text)
    (start : text.head? = some c) :
    ∃ piece, piece <+: text ++ ['\n'] ∧ piece.head? = some c ∧
      readLines (text ++ ['\n']) =
        loopBody piece (readLines (text.drop 255 ++ ['\n'])) := by
  by_cases long : 255 ≤ text.length
  · refine ⟨text.take 255, (List.take_prefix 255 text).trans
      (List.prefix_append text _), ?_, readLines_long oneLine long⟩
    rw [List.head?_take, if_neg (by decide), start]
  · have short := Nat.lt_of_not_le long
    refine ⟨text ++ ['\n'], List.prefix_rfl, ?_, ?_⟩
    · rw [List.head?_append, start]
      rfl
    · rw [List.drop_of_length_le (Nat.le_of_lt short), List.nil_append,
        readLines_newline, readLines_short oneLine short]

/-- A text is passed over exactly when all its pieces look like comments. -/
theorem readLines_marked (oneLine : '\n' ∉ text) :
    readLines (text ++ ['\n']) = (true, []) ↔ Marked text := by
  induction size : text.length using Nat.strong_induction_on
    generalizing text with
  | _ n ih =>
    cases start : text.head? with
    | none =>
        rw [List.head?_eq_none_iff.mp start]
        exact iff_of_true ((readLines_newline []).trans readLines_nil) marked_nil
    | some c =>
        obtain ⟨piece, _, first, read⟩ := readLines_piece oneLine start
        have inside : c ∈ text := List.mem_of_head? start
        rw [read]
        by_cases comment : c = '#'
        · subst comment
          have shorter : (text.drop 255).length < n := by
            have positive := List.length_pos_of_mem inside
            rw [List.length_drop]
            omega
          rw [loopBody, if_pos (by simp [ignoredLine, first]), marked_drop start]
          exact ih _ shorter
            (fun member => oneLine (List.mem_of_mem_drop member)) rfl
        · have newline : c ≠ '\n' := fun same => oneLine (same ▸ inside)
          refine iff_of_false (loopBody_ne _ ?_) ?_
          · simp [ignoredLine, first, comment, newline]
          · intro marked
            have hash := marked 0 (List.length_pos_of_mem inside)
            rw [Nat.mul_zero, ← List.head?_eq_getElem?, start,
              Option.some.injEq] at hash
            exact comment hash

end

/-! ### Data lines that are too long

A line that does not fit the buffer is read in pieces, and each piece is scanned
like a line.  The first piece of a data line lacks the end of it: at least one
digit of the last number, and perhaps numbers before that.  Either it has fewer
than five numbers, and the reading stops, or the last one is cut in two.  Then the
second piece is a single number, and the reading stops there.
-/

/-- `sscanf` stores no more numbers than the text has runs of digits. -/
theorem length_sscanf (format : List Directive) (text : List Char) :
    (sscanf format text).length ≤ digitRuns false text := by
  have skipped : ∀ text : List Char, digitRuns false (text.dropWhile isspace) =
      digitRuns false text := by
    intro text
    have blank : ∀ c ∈ text.takeWhile isspace, c.isDigit = false := by
      intro c member
      have space := List.mem_takeWhile_imp member
      cases digit : c.isDigit with
      | false => rfl
      | true =>
          rw [(plain_of_isDigit digit).1] at space
          cases space
    have skip := @digitRuns_blank false _ (text.dropWhile isspace) blank
      (Or.inl rfl)
    rw [List.takeWhile_append_dropWhile] at skip
    exact skip.symm
  induction format generalizing text with
  | nil => exact Nat.zero_le _
  | cons directive format ih =>
      cases directive with
      | space =>
          rw [sscanf, ← skipped text]
          exact ih _
      | d =>
          rw [sscanf]
          split
          next => exact Nat.zero_le _
          next value rest scanned =>
            rw [← skipped text, digitRuns_scanInt scanned, List.length_cons,
              Nat.add_comm]
            exact Nat.add_le_add_left (ih rest) 1

/-- A text with fewer than five runs of digits is no record. -/
theorem scanProcess_few {text : List Char} (few : digitRuns false text < 5) :
    scanProcess text = none := by
  have seen : digitRuns false (cString text) ≤ digitRuns false text := by
    have whole : cString text ++ text.dropWhile (fun c => c ≠ '\x00') = text :=
      List.takeWhile_append_dropWhile
    have longer := digitRuns_le_append false (cString text)
      (text.dropWhile fun c => c ≠ '\x00')
    rw [whole] at longer
    exact longer
  have bound := length_sscanf processFormat (cString text)
  rw [scanProcess]
  split
  next same =>
    rw [same, List.length_cons] at bound
    simp only [List.length_cons, List.length_nil] at bound
    omega
  next => rfl

/-- A piece that starts like data but has too few numbers stops the reading. -/
theorem loopBody_few {line : List Char} (after : Bool × List Process)
    (notIgnored : ignoredLine line = false) (few : digitRuns false line < 5) :
    (loopBody line after).1 = false := by
  rw [loopBody, if_neg (by simp [notIgnored]), scanProcess_few few]

/-- The rest of a number alone stops the reading. -/
theorem readLines_digits (digits : Digits) :
    (readLines (digits.text ++ ['\n'])).1 = false := by
  let numeral : Numeral := { sign := .absent, digits := digits }
  have oneLine : '\n' ∉ digits.text :=
    fun member => by cases digits.decimal _ member
  obtain ⟨c, others, split, plain⟩ := numeral_cons numeral
  have start : digits.text.head? = some c := congrArg List.head? split
  obtain ⟨piece, ⟨rest, whole⟩, first, read⟩ := readLines_piece oneLine start
  have runs : digitRuns false (digits.text ++ ['\n']) = 1 :=
    numeral.digitRuns_eq ['\n']
  have fewer := digitRuns_le_append false piece rest
  rw [whole, runs] at fewer
  rw [read]
  exact loopBody_few _ (ignoredLine_plain first plain) (by omega)

/-- The line up to the digits of its last number. -/
def DataLine.front (line : DataLine) : List Char :=
  line.id.text ++ (line.gap₁.text ++ (line.arrivalTime.text ++
    (line.gap₂.text ++ (line.runtime.text ++ (line.gap₃.text ++
      (line.priority.text ++ (line.gap₄.text ++ line.memorySize.sign.text)))))))

theorem DataLine.front_append (line : DataLine) :
    line.front ++ line.memorySize.digits.text = line.text := by
  simp only [front, text, List.append_assoc]
  rfl

/-- The line holds four numbers before the digits of the last one. -/
theorem DataLine.digitRuns_front (line : DataLine) :
    digitRuns false line.front = 4 := by
  have gap : ∀ (gap : Gap) (rest : List Char),
      digitRuns true (gap.text ++ rest) = digitRuns false rest := by
    intro gap rest
    exact digitRuns_blank (fun c member => (gap.chars c member).2.1)
      (Or.inr gap.nonempty)
  have sign : digitRuns false line.memorySize.sign.text = 0 := by
    cases line.memorySize.sign <;> decide
  rw [front, Numeral.digitRuns_eq, gap, Numeral.digitRuns_eq, gap,
    Numeral.digitRuns_eq, gap, Numeral.digitRuns_eq, gap, sign]

/-- A longer data line stops the reading: its first piece lacks a number, or cuts
the last one in two. -/
theorem DataLine.readLines_long (line : DataLine)
    (long : 255 < line.text.length) :
    (readLines (line.text ++ ['\n'])).1 = false := by
  obtain ⟨c, others, split, plain⟩ := line.cons_plain
  have notIgnored : ignoredLine (line.text.take 255) = false := by
    rw [split]
    exact ignoredLine_plain rfl plain
  rw [OsSim.readLines_long line.oneLine (Nat.le_of_lt long)]
  by_cases inside : 255 ≤ line.front.length
  · apply loopBody_few _ notIgnored
    have piece : line.text.take 255 = line.front.take 255 := by
      rw [← line.front_append, List.take_append_of_le_length inside]
    have more := digitRuns_le_append false (line.front.take 255)
      (line.front.drop 255)
    rw [List.take_append_drop, line.digitRuns_front] at more
    rw [piece]
    omega
  · have outside := Nat.lt_of_not_le inside
    have rest : line.text.drop 255 =
        line.memorySize.digits.text.drop (255 - line.front.length) := by
      rw [← line.front_append, List.drop_append,
        List.drop_of_length_le (Nat.le_of_lt outside), List.nil_append]
    have nonempty : line.text.drop 255 ≠ [] := by
      rw [Ne, List.drop_eq_nil_iff]
      omega
    have stopped := readLines_digits {
      text := line.text.drop 255
      nonempty := nonempty
      decimal := fun c member => line.memorySize.digits.decimal c
        (List.mem_of_mem_drop (rest ▸ member)) }
    rw [loopBody, if_neg (by simp [notIgnored])]
    split
    next => exact stopped
    next => rfl

/-! ### Whole files -/

namespace InputLine

/-- What reading the line alone comes to. -/
def reading (line : InputLine) : Bool × List Process :=
  readLines (line.text ++ ['\n'])

theorem oneLine (line : InputLine) : '\n' ∉ line.text := by
  cases line with
  | comment text oneLine =>
      intro member
      rcases List.mem_cons.mp member with impossible | inside
      · cases impossible
      · exact oneLine inside
  | empty => exact List.not_mem_nil
  | data line => exact line.oneLine

/-- A line that fits is read as its record. -/
theorem reading_of_fits {line : InputLine} (fits : line.Fits) :
    line.reading = (true, line.record.toList) := by
  cases line with
  | comment text oneLine =>
      exact (readLines_marked (InputLine.comment text oneLine).oneLine).mpr fits
  | empty => exact (readLines_marked List.not_mem_nil).mpr marked_nil
  | data line =>
      show readLines (line.text ++ ['\n']) = _
      rw [line.readLines_eq fits, readLines_nil]
      rfl

/-- Any other line stops the reading, or adds a record too many. -/
theorem reading_of_not_fits {line : InputLine} (unfit : ¬ line.Fits)
    (done : line.reading.1 = true) :
    line.record.toList.length < line.reading.2.length := by
  cases line with
  | comment text oneLine =>
      have unread : (InputLine.comment text oneLine).reading ≠ (true, []) :=
        fun same => unfit
          ((readLines_marked (InputLine.comment text oneLine).oneLine).mp same)
      apply List.length_pos_iff.mpr
      intro none
      exact unread (Prod.ext done none)
  | empty => exact absurd trivial unfit
  | data line =>
      have stopped := line.readLines_long (Nat.lt_of_not_le unfit)
      exact absurd (stopped.symm.trans done) (by decide)

end InputLine

theorem readLines_fileText (line : InputLine) (lines : List InputLine) :
    readLines (fileText (line :: lines)) =
      andThen line.reading (readLines (fileText lines)) := by
  have split : fileText (line :: lines) =
      line.text ++ '\n' :: fileText lines := by
    rw [fileText, List.flatMap_cons, List.append_assoc]
    rfl
  rw [split, readLines_line line.oneLine]
  rfl

/-- A file whose lines all fit is read line by line. -/
theorem readLines_of_fits {lines : List InputLine}
    (fits : ∀ line ∈ lines, line.Fits) :
    readLines (fileText lines) = (true, lines.filterMap InputLine.record) := by
  induction lines with
  | nil => exact readLines_nil
  | cons line lines ih =>
      have first := InputLine.reading_of_fits (fits line List.mem_cons_self)
      have rest := ih fun other member => fits other (List.mem_cons_of_mem _ member)
      rw [readLines_fileText, first, rest, andThen, if_pos rfl,
        List.filterMap_cons]
      cases line.record <;> rfl

/-- A file that is read to its end yields as many records as it has data lines
or more, and more if a line does not fit. -/
theorem length_readLines {lines : List InputLine}
    (done : (readLines (fileText lines)).1 = true) :
    (lines.filterMap InputLine.record).length ≤
        (readLines (fileText lines)).2.length ∧
      ((readLines (fileText lines)).2.length =
        (lines.filterMap InputLine.record).length →
          ∀ line ∈ lines, line.Fits) := by
  induction lines with
  | nil => exact ⟨Nat.zero_le _, fun _ line member => by cases member⟩
  | cons line lines ih =>
      rw [readLines_fileText, andThen] at done ⊢
      cases first : line.reading.1 with
      | false =>
          rw [first, if_neg (by decide)] at done
          rw [done] at first
          cases first
      | true =>
          rw [first, if_pos rfl] at done
          rw [if_pos rfl]
          obtain ⟨enough, exactly⟩ := ih done
          have own : line.record.toList.length ≤ line.reading.2.length ∧
              (line.reading.2.length = line.record.toList.length →
                line.Fits) := by
            by_cases fits : line.Fits
            · rw [InputLine.reading_of_fits fits]
              exact ⟨Nat.le_refl _, fun _ => fits⟩
            · have more := InputLine.reading_of_not_fits fits first
              exact ⟨Nat.le_of_lt more, fun same => absurd more (by omega)⟩
          have count : ((line :: lines).filterMap InputLine.record).length =
              line.record.toList.length +
                (lines.filterMap InputLine.record).length := by
            rw [List.filterMap_cons]
            cases line.record with
            | none => exact (Nat.zero_add _).symm
            | some process => exact Nat.add_comm _ _
          rw [count]
          simp only [List.length_append, List.forall_mem_cons]
          refine ⟨Nat.add_le_add own.1 enough, fun same => ⟨own.2 ?_, exactly ?_⟩⟩
          · omega
          · omega

/-- A file is read as the format has it exactly if every data line has at most
255 characters and every piece of 255 characters of a comment starts with '#'. -/
theorem reads_right_iff (lines : List InputLine) :
    ReadsRight lines ↔ ∀ line ∈ lines, line.Fits := by
  constructor
  · intro right
    have returned := right { processList := none, processCount := 0, procCount := 0 }
    rw [readInputFile] at returned
    dsimp only at returned
    split at returned
    next done =>
      simp only [Prod.mk.injEq, Input.mk.injEq, Option.some.injEq,
        true_and] at returned
      exact (length_readLines done).2 (congrArg List.length returned.1)
    next =>
      rw [Prod.mk.injEq] at returned
      cases returned.1
  · intro fits input
    rw [readInputFile, readLines_of_fits fits]
    rfl

/-- A comment of 256 characters. -/
private def longComment : InputLine :=
  .comment (List.replicate 255 'x') (by decide)

/-- The second piece of the comment is taken for a line of data. -/
theorem long_comment_fails : ¬ ∀ lines : List InputLine, ReadsRight lines := by
  intro always
  have returned := always [longComment]
    { processList := none, processCount := 0, procCount := 0 }
  have code := congrArg Prod.fst returned
  revert code
  decide +kernel

end OsSim
