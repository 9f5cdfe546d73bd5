/-
Module: OsSim.Library.Printf
Purpose: Format strings with the conversions `%d` and `%s`, the text that they
  print, and a test on formats under which the text tells what has been printed.
Trusted boundary: none
Main exports:
  Piece, pieces, Arg, print, Conversion, conversions, Accepts, clash, Call,
  Distinguishable, Call.Legible, flatMap_text_injective, log_text_injective
-/
import OsSim.Library.Decimal

namespace Printf

open Decimal

/-- A format string is made of characters and conversions. -/
inductive Piece where
  | char (c : Char)
  | int
  | str
deriving Repr, DecidableEq

/-- Read a format string. -/
def pieces : List Char → List Piece
  | '%' :: 'd' :: rest => .int :: pieces rest
  | '%' :: 's' :: rest => .str :: pieces rest
  | c :: rest => .char c :: pieces rest
  | [] => []

/-- An argument for a conversion. -/
inductive Arg where
  | int (n : Int)
  | str (text : List Char)
deriving Repr, DecidableEq

/-- What is printed, up to the first conversion without an argument of its kind. -/
def print : List Piece → List Arg → List Char
  | .char c :: format, args => c :: print format args
  | .int :: format, .int n :: args => printInt n ++ print format args
  | .str :: format, .str text :: args => text ++ print format args
  | _, _ => []

/-- A conversion, with the character that marks the end of a string. -/
inductive Conversion where
  | int
  | str (stop : Char)
deriving Repr, DecidableEq

/-- The conversions of a format, if each of them is followed by a character that
can mark its end. -/
def conversions : List Piece → Option (List Conversion)
  | [] => some []
  | .char _ :: format => conversions format
  | .int :: .char c :: format =>
      if c.isDigit then none else (conversions format).map (.int :: ·)
  | .str :: .char c :: format => (conversions format).map (.str c :: ·)
  | _ => none

/-- The arguments are of the right kinds, and no string contains the character
that marks its end. -/
def Accepts : List Conversion → List Arg → Prop
  | [], [] => True
  | .int :: conversions, .int _ :: args => Accepts conversions args
  | .str stop :: conversions, .str text :: args =>
      stop ∉ text ∧ Accepts conversions args
  | _, _ => False

/-- The formats agree, conversions included, up to a place where they have
different characters. -/
def clash : List Piece → List Piece → Bool
  | .char c :: format, .char c' :: format' => c ≠ c' || clash format format'
  | .int :: format, .int :: format' => clash format format'
  | .str :: .char c :: format, .str :: .char c' :: format' =>
      c = c' && clash format format'
  | _, _ => false

/-! ### Reading one argument -/

/-- An integer in front of something that is no digit. -/
theorem printInt_append_inj {n n' : Int} {rest rest' : List Char}
    (stops : Stops rest) (stops' : Stops rest')
    (same : printInt n ++ rest = printInt n' ++ rest') : n = n' ∧ rest = rest' := by
  have scanned := scanInt_text (Numeral.ofInt n) stops
  have scanned' := scanInt_text (Numeral.ofInt n') stops'
  rw [Numeral.text_ofInt, Numeral.value_ofInt] at scanned scanned'
  rw [same, scanned', Option.some.injEq, Prod.mk.injEq] at scanned
  exact ⟨scanned.1.symm, scanned.2.symm⟩

/-- A string in front of a character that it does not contain. -/
theorem append_cons_inj {c : Char} {text text' rest rest' : List Char}
    (fresh : c ∉ text) (fresh' : c ∉ text')
    (same : text ++ c :: rest = text' ++ c :: rest') :
    text = text' ∧ rest = rest' := by
  induction text generalizing text' with
  | nil =>
      cases text' with
      | nil => exact ⟨rfl, (List.cons.inj same).2⟩
      | cons d text' =>
          have first := (List.cons.inj same).1
          exact absurd (first ▸ List.mem_cons_self) fresh'
  | cons d text ih =>
      cases text' with
      | nil =>
          have first := (List.cons.inj same).1
          exact absurd (first ▸ List.mem_cons_self) fresh
      | cons d' text' =>
          obtain ⟨rfl, rest⟩ := List.cons.inj same
          obtain ⟨rfl, equal⟩ := ih (fun member => fresh (List.mem_cons_of_mem _ member))
            (fun member => fresh' (List.mem_cons_of_mem _ member)) rest
          exact ⟨rfl, equal⟩

theorem stops_cons {c : Char} (other : c.isDigit = false) (rest : List Char) :
    Stops (c :: rest) := by
  intro d first
  rw [List.head?_cons, Option.mem_some_iff] at first
  exact first ▸ other

/-! ### Reading one format -/

section

variable {rest rest' : List Char}

/-- After `%d` comes a character that is no digit. -/
theorem conversions_int {format : List Piece} {kinds : List Conversion}
    (wellFormed : conversions (.int :: format) = some kinds) :
    ∃ c format' kinds', format = .char c :: format' ∧ c.isDigit = false ∧
      conversions format = some kinds' ∧ kinds = .int :: kinds' := by
  match format, wellFormed with
  | .char c :: format', wellFormed =>
      by_cases digit : c.isDigit = true
      · rw [conversions, if_pos digit] at wellFormed
        cases wellFormed
      · rw [conversions, if_neg digit, Option.map_eq_some_iff] at wellFormed
        obtain ⟨kinds', rest, rfl⟩ := wellFormed
        exact ⟨c, format', kinds', rfl, by simpa using digit, rest, rfl⟩

/-- The text of a format determines the arguments. -/
theorem print_append_inj {format : List Piece} {kinds : List Conversion}
    (wellFormed : conversions format = some kinds) {args args' : List Arg}
    (accepts : Accepts kinds args) (accepts' : Accepts kinds args')
    (same : print format args ++ rest = print format args' ++ rest') :
    args = args' ∧ rest = rest' := by
  induction format using conversions.induct generalizing kinds args args' with
  | case1 =>
      rw [conversions, Option.some.injEq] at wellFormed
      subst wellFormed
      cases args with
      | cons _ _ => cases accepts
      | nil =>
          cases args' with
          | cons _ _ => cases accepts'
          | nil => exact ⟨rfl, same⟩
  | case2 c format ih =>
      exact ih wellFormed accepts accepts' (List.cons.inj same).2
  | case3 c format digit =>
      rw [conversions, if_pos digit] at wellFormed
      cases wellFormed
  | case4 c format other ih =>
      rw [conversions, if_neg other, Option.map_eq_some_iff] at wellFormed
      obtain ⟨kinds, wellFormed, rfl⟩ := wellFormed
      rw [Bool.not_eq_true] at other
      match args, args', accepts, accepts' with
      | .int n :: args, .int n' :: args', accepts, accepts' =>
          simp only [print, List.append_assoc, List.cons_append] at same
          obtain ⟨rfl, tail⟩ := printInt_append_inj (stops_cons other _)
            (stops_cons other _) same
          obtain ⟨rfl, equal⟩ :=
            ih wellFormed accepts accepts' (List.cons.inj tail).2
          exact ⟨rfl, equal⟩
  | case5 c format ih =>
      rw [conversions, Option.map_eq_some_iff] at wellFormed
      obtain ⟨kinds, wellFormed, rfl⟩ := wellFormed
      match args, args', accepts, accepts' with
      | .str text :: args, .str text' :: args', ⟨fresh, accepts⟩,
          ⟨fresh', accepts'⟩ =>
          simp only [print, List.append_assoc, List.cons_append] at same
          obtain ⟨rfl, tail⟩ := append_cons_inj fresh fresh' same
          obtain ⟨rfl, equal⟩ := ih wellFormed accepts accepts' tail
          exact ⟨rfl, equal⟩
  | case6 format noneLeft noChar noInt noStr =>
      rw [conversions] at wellFormed
      · cases wellFormed
      all_goals assumption

/-- Formats that clash print different texts. -/
theorem print_append_ne {format format' : List Piece}
    {kinds kinds' : List Conversion} (wellFormed : conversions format = some kinds)
    (wellFormed' : conversions format' = some kinds') {args args' : List Arg}
    (accepts : Accepts kinds args) (accepts' : Accepts kinds' args')
    (clashes : clash format format' = true) :
    print format args ++ rest ≠ print format' args' ++ rest' := by
  intro same
  induction format, format' using clash.induct generalizing kinds kinds' args args' with
  | case1 c format c' format' ih =>
      rw [clash, Bool.or_eq_true, decide_eq_true_iff] at clashes
      rcases clashes with different | later
      · exact different (List.cons.inj same).1
      · exact ih wellFormed wellFormed' accepts accepts' later (List.cons.inj same).2
  | case2 format format' ih =>
      obtain ⟨c, tail, kinds, rfl, other, inner, rfl⟩ :=
        conversions_int wellFormed
      obtain ⟨c', tail', kinds', rfl, other', inner', rfl⟩ :=
        conversions_int wellFormed'
      match args, args', accepts, accepts' with
      | .int n :: args, .int n' :: args', accepts, accepts' =>
          simp only [print, List.append_assoc, List.cons_append] at same
          obtain ⟨_, tails⟩ := printInt_append_inj (stops_cons other _)
            (stops_cons other' _) same
          exact ih inner inner' accepts accepts' clashes tails
  | case3 c format c' format' ih =>
      rw [clash, Bool.and_eq_true, decide_eq_true_iff] at clashes
      obtain ⟨rfl, later⟩ := clashes
      rw [conversions, Option.map_eq_some_iff] at wellFormed wellFormed'
      obtain ⟨kinds, wellFormed, rfl⟩ := wellFormed
      obtain ⟨kinds', wellFormed', rfl⟩ := wellFormed'
      match args, args', accepts, accepts' with
      | .str text :: args, .str text' :: args', ⟨fresh, accepts⟩,
          ⟨fresh', accepts'⟩ =>
          simp only [print, List.append_assoc, List.cons_append] at same
          obtain ⟨rfl, tail⟩ := append_cons_inj fresh fresh' same
          exact ih wellFormed wellFormed' accepts accepts' later tail
  | case4 format format' noChars noInts noStrs =>
      rw [clash] at clashes
      · cases clashes
      all_goals assumption

end

/-! ### Reading many lines -/

/-- One call of `fprintf`. -/
structure Call where
  format : List Piece
  args : List Arg
deriving Repr, DecidableEq

def Call.text (call : Call) : List Char := print call.format call.args

/-- A format that prints something and can be read. -/
def Readable (format : List Piece) : Prop :=
  (format.head?.any fun piece => piece matches .char _) = true ∧
    (conversions format).isSome = true

/-- All formats can be read, and any two of them clash. -/
def Distinguishable (formats : List (List Piece)) : Prop :=
  (∀ format ∈ formats, Readable format) ∧
    ∀ format ∈ formats, ∀ format' ∈ formats,
      format = format' ∨ clash format format' = true

instance (formats : List (List Piece)) : Decidable (Distinguishable formats) :=
  have (format : List Piece) : Decidable (Readable format) :=
    inferInstanceAs (Decidable (_ ∧ _))
  inferInstanceAs (Decidable (_ ∧ _))

/-- A call with one of the formats, and with arguments that it accepts. -/
def Call.Legible (formats : List (List Piece)) (call : Call) : Prop :=
  call.format ∈ formats ∧
    ∃ kinds, conversions call.format = some kinds ∧ Accepts kinds call.args

section

variable {formats : List (List Piece)}

theorem Call.text_ne_nil (distinguishable : Distinguishable formats) {call : Call}
    (legible : call.Legible formats) : call.text ≠ [] := by
  have begins := (distinguishable.1 _ legible.1).1
  rw [Call.text]
  match format : call.format, begins with
  | .char c :: rest, _ => exact List.cons_ne_nil _ _

/-- The first line of a text tells which call printed it. -/
theorem Call.text_append_inj (distinguishable : Distinguishable formats)
    {call call' : Call} (legible : call.Legible formats)
    (legible' : call'.Legible formats) {rest rest' : List Char}
    (same : call.text ++ rest = call'.text ++ rest') :
    call = call' ∧ rest = rest' := by
  obtain ⟨known, kinds, wellFormed, accepts⟩ := legible
  obtain ⟨known', kinds', wellFormed', accepts'⟩ := legible'
  rcases distinguishable.2 _ known _ known' with equal | clashes
  · obtain ⟨format, args⟩ := call
    obtain ⟨format', args'⟩ := call'
    subst equal
    rw [wellFormed, Option.some.injEq] at wellFormed'
    obtain ⟨rfl, tails⟩ :=
      print_append_inj wellFormed accepts (wellFormed' ▸ accepts') same
    exact ⟨rfl, tails⟩
  · exact absurd same
      (print_append_ne wellFormed wellFormed' accepts accepts' clashes)

/-- The text that many calls print tells which calls these were. -/
theorem flatMap_text_injective (distinguishable : Distinguishable formats)
    {calls calls' : List Call} (legible : ∀ call ∈ calls, call.Legible formats)
    (legible' : ∀ call ∈ calls', call.Legible formats)
    (same : calls.flatMap Call.text = calls'.flatMap Call.text) :
    calls = calls' := by
  induction calls generalizing calls' with
  | nil =>
      cases calls' with
      | nil => rfl
      | cons call' _ =>
          have empty := (List.append_eq_nil_iff.mp same.symm).1
          exact absurd empty (Call.text_ne_nil distinguishable
            (legible' call' List.mem_cons_self))
  | cons call calls ih =>
      cases calls' with
      | nil =>
          have empty := (List.append_eq_nil_iff.mp same).1
          exact absurd empty (Call.text_ne_nil distinguishable
            (legible call List.mem_cons_self))
      | cons call' calls' =>
          rw [List.flatMap_cons, List.flatMap_cons] at same
          obtain ⟨rfl, tails⟩ := Call.text_append_inj distinguishable
            (legible call List.mem_cons_self) (legible' call' List.mem_cons_self)
            same
          rw [ih (fun other member => legible other (List.mem_cons_of_mem _ member))
            (fun other member => legible' other (List.mem_cons_of_mem _ member))
            tails]

/-- The text of a log tells its entries, if each of them can be told from the call
that prints it. -/
theorem log_text_injective {ι : Type*} (distinguishable : Distinguishable formats)
    {entry : ι → Call} (legible : ∀ line, (entry line).Legible formats)
    (injective : Function.Injective entry) {lines lines' : List ι}
    (same : (lines.map entry).flatMap Call.text =
      (lines'.map entry).flatMap Call.text) : lines = lines' := by
  have readable : ∀ log : List ι, ∀ call ∈ log.map entry, call.Legible formats := by
    intro log call member
    obtain ⟨line, _, rfl⟩ := List.mem_map.mp member
    exact legible line
  have calls : lines.map entry = lines'.map entry :=
    flatMap_text_injective distinguishable (readable lines) (readable lines') same
  exact injective.list_map calls

end

end Printf
