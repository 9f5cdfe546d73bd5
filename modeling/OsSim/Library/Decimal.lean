/-
Module: OsSim.Library.Decimal
Purpose: Decimal numerals as texts: printing an integer, scanning one at the
  front of a text, how many of them a text has room for, and numerals with
  decimals.
Trusted boundary: none
Main exports:
  Sign, Digits, Numeral, Numeral.ofInt, printInt, scanInt, scanInt_text,
  scanInt_eq_some, digitRuns, Fraction, Fraction.value_congr, trimZeros,
  part_trimZeros
-/
import Mathlib.Algebra.Field.Rat
import Mathlib.Data.List.DropRight
import Mathlib.Data.List.TakeWhile
import Mathlib.Tactic.FieldSimp

namespace Decimal

/-- What a numeral may start with. -/
inductive Sign where
  | absent
  | plus
  | minus
deriving Repr, DecidableEq

namespace Sign

def text : Sign → List Char
  | .absent => []
  | .plus => ['+']
  | .minus => ['-']

def apply : Sign → ℕ → Int
  | .minus, n => -n
  | .absent, n | .plus, n => n

theorem mem_text {sign : Sign} {c : Char} (member : c ∈ sign.text) :
    c = '+' ∨ c = '-' := by
  cases sign with
  | absent => cases member
  | plus => exact Or.inl (List.mem_singleton.mp member)
  | minus => exact Or.inr (List.mem_singleton.mp member)

end Sign

/-- One or more decimal digits. -/
structure Digits where
  text : List Char
  nonempty : text ≠ []
  decimal : ∀ c ∈ text, c.isDigit = true

def Digits.value (digits : Digits) : ℕ := Nat.ofDigitChars 10 digits.text 0

/-- An integer in decimal notation. -/
structure Numeral where
  sign : Sign
  digits : Digits

namespace Numeral

def text (numeral : Numeral) : List Char :=
  numeral.sign.text ++ numeral.digits.text

def value (numeral : Numeral) : Int := numeral.sign.apply numeral.digits.value

end Numeral

/-! ### Printing -/

/-- A minus sign for negative numbers, and the digits without leading zeros. -/
def printInt (n : Int) : List Char :=
  (if n < 0 then ['-'] else []) ++ Nat.toDigits 10 n.natAbs

/-- The digits of a natural number. -/
def Digits.ofNat (n : ℕ) : Digits where
  text := Nat.toDigits 10 n
  nonempty := Nat.toDigits_ne_nil
  decimal := fun _ member =>
    Nat.isDigit_of_mem_toDigits (by decide) (by decide) member

theorem Digits.value_ofNat (n : ℕ) : (Digits.ofNat n).value = n :=
  Nat.ofDigitChars_ten_toDigits

namespace Numeral

/-- The numeral that `printInt` prints. -/
def ofInt (n : Int) : Numeral where
  sign := if n < 0 then .minus else .absent
  digits := Digits.ofNat n.natAbs

theorem text_ofInt (n : Int) : (ofInt n).text = printInt n := by
  rw [text, printInt, ofInt]
  dsimp only
  split <;> rfl

theorem value_ofInt (n : Int) : (ofInt n).value = n := by
  rw [value, ofInt]
  dsimp only
  rw [Digits.value_ofNat]
  split
  next negative =>
    show -(n.natAbs : Int) = n
    omega
  next positive =>
    show (n.natAbs : Int) = n
    omega

/-- A number with at most `k` digits takes at most one character more. -/
theorem length_ofInt {n : Int} {k : ℕ} (positive : 0 < k)
    (small : n.natAbs < 10 ^ k) : (ofInt n).text.length ≤ k + 1 := by
  have digits : (Nat.toDigits 10 n.natAbs).length ≤ k :=
    (Nat.length_toDigits_le_iff (by decide) positive).mpr small
  rw [text_ofInt, printInt, List.length_append]
  split
  next => rw [List.length_singleton]; omega
  next => rw [List.length_nil]; omega

end Numeral

/-! ### Scanning -/

/-- The sign at the front of a text, and what follows it. -/
def scanSign : List Char → Sign × List Char
  | '+' :: rest => (.plus, rest)
  | '-' :: rest => (.minus, rest)
  | text => (.absent, text)

/-- The longest numeral at the front of a text, by its value, and what follows
it. -/
def scanInt (text : List Char) : Option (Int × List Char) :=
  let signed := scanSign text
  let digits := signed.2.takeWhile Char.isDigit
  if digits = [] then none
  else some (signed.1.apply (Nat.ofDigitChars 10 digits 0),
    signed.2.dropWhile Char.isDigit)

/-- The text does not go on with a digit. -/
def Stops (text : List Char) : Prop := ∀ c ∈ text.head?, c.isDigit = false

section

variable {text rest : List Char}

/-- Scanning the sign of a text that goes on with a digit. -/
theorem scanSign_text (sign : Sign) (digits : Digits) :
    scanSign (sign.text ++ (digits.text ++ rest)) =
      (sign, digits.text ++ rest) := by
  cases sign with
  | plus => rfl
  | minus => rfl
  | absent =>
      obtain ⟨text, nonempty, decimal⟩ := digits
      cases text with
      | nil => exact absurd rfl nonempty
      | cons c cs =>
          have digit := decimal c List.mem_cons_self
          show scanSign (c :: (cs ++ rest)) = (.absent, c :: (cs ++ rest))
          have notPlus : c ≠ '+' := by
            rintro rfl
            cases digit
          have notMinus : c ≠ '-' := by
            rintro rfl
            cases digit
          rw [scanSign]
          · intro _ same
            exact notPlus (List.cons.inj same).1
          · intro _ same
            exact notMinus (List.cons.inj same).1

/-- The digits at the front of a text are found again. -/
theorem takeWhile_digits (digits : Digits) (stops : Stops rest) :
    (digits.text ++ rest).takeWhile Char.isDigit = digits.text ∧
      (digits.text ++ rest).dropWhile Char.isDigit = rest := by
  have none : rest.takeWhile Char.isDigit = [] ∧
      rest.dropWhile Char.isDigit = rest := by
    cases rest with
    | nil => exact ⟨rfl, rfl⟩
    | cons c cs =>
        have stop := stops c rfl
        exact ⟨List.takeWhile_cons_of_neg (by simp [stop]),
          List.dropWhile_cons_of_neg (by simp [stop])⟩
  rw [List.takeWhile_append_of_pos digits.decimal,
    List.dropWhile_append_of_pos digits.decimal, none.1, none.2, List.append_nil]
  exact ⟨rfl, rfl⟩

/-- A numeral is scanned by its value, whatever follows its digits. -/
theorem scanInt_text (numeral : Numeral) (stops : Stops rest) :
    scanInt (numeral.text ++ rest) = some (numeral.value, rest) := by
  obtain ⟨taken, dropped⟩ := takeWhile_digits numeral.digits stops
  rw [scanInt, Numeral.text, List.append_assoc, scanSign_text]
  dsimp only
  rw [taken, dropped, if_neg numeral.digits.nonempty]
  rfl

theorem scanSign_append (text : List Char) :
    (scanSign text).1.text ++ (scanSign text).2 = text := by
  unfold scanSign
  split <;> rfl

/-- Whatever is scanned is a numeral that does not go on. -/
theorem scanInt_eq_some {value : Int} (scanned : scanInt text = some (value, rest)) :
    ∃ numeral : Numeral, text = numeral.text ++ rest ∧ Stops rest := by
  rw [scanInt] at scanned
  by_cases nonempty : (scanSign text).2.takeWhile Char.isDigit = []
  · rw [if_pos nonempty] at scanned
    cases scanned
  · rw [if_neg nonempty, Option.some.injEq, Prod.mk.injEq] at scanned
    obtain ⟨_, rfl⟩ := scanned
    refine ⟨⟨(scanSign text).1, _, nonempty, fun _ => List.mem_takeWhile_imp⟩,
      ?_, ?_⟩
    · rw [Numeral.text, List.append_assoc, List.takeWhile_append_dropWhile,
        scanSign_append]
    · intro c first
      have stop := List.head?_dropWhile_not Char.isDigit (scanSign text).2
      rw [first] at stop
      exact stop

end

/-! ### Runs of digits -/

/-- How many runs of digits begin in a text; `inside` says whether a digit stands
before it. -/
def digitRuns (inside : Bool) : List Char → ℕ
  | [] => 0
  | c :: cs =>
      if c.isDigit then (if inside then 0 else 1) + digitRuns true cs
      else digitRuns false cs

section

variable {inside : Bool} {left right text rest : List Char}

/-- A longer text has as many runs or more. -/
theorem digitRuns_le_append (inside : Bool) (left right : List Char) :
    digitRuns inside left ≤ digitRuns inside (left ++ right) := by
  induction left generalizing inside with
  | nil => exact Nat.zero_le _
  | cons c cs ih =>
      rw [List.cons_append, digitRuns, digitRuns]
      split
      next => exact Nat.add_le_add_left (ih true) _
      next => exact ih false

/-- Characters that are no digits begin no run and end the one before them. -/
theorem digitRuns_blank (blank : ∀ c ∈ left, c.isDigit = false)
    (apart : inside = false ∨ left ≠ []) :
    digitRuns inside (left ++ right) = digitRuns false right := by
  induction left generalizing inside with
  | nil =>
      rcases apart with outside | nonempty
      · rw [outside, List.nil_append]
      · exact absurd rfl nonempty
  | cons c cs ih =>
      rw [List.cons_append, digitRuns, if_neg (by simp [blank c])]
      exact ih (fun d member => blank d (List.mem_cons_of_mem c member)) (Or.inl rfl)

/-- Digits go on with the run before them. -/
theorem digitRuns_inside (decimal : ∀ c ∈ left, c.isDigit = true) :
    digitRuns true (left ++ right) = digitRuns true right := by
  induction left with
  | nil => rfl
  | cons c cs ih =>
      rw [List.cons_append, digitRuns, if_pos (decimal c List.mem_cons_self),
        if_pos rfl, Nat.zero_add]
      exact ih fun d member => decimal d (List.mem_cons_of_mem c member)

/-- A numeral begins one run. -/
theorem Numeral.digitRuns_eq (numeral : Numeral) (right : List Char) :
    digitRuns false (numeral.text ++ right) = 1 + digitRuns true right := by
  obtain ⟨sign, text, nonempty, decimal⟩ := numeral
  have signed : ∀ c ∈ sign.text, c.isDigit = false := by
    intro c member
    rcases Sign.mem_text member with rfl | rfl <;> rfl
  rw [Numeral.text, List.append_assoc, digitRuns_blank signed (Or.inl rfl)]
  cases text with
  | nil => exact absurd rfl nonempty
  | cons c cs =>
      show digitRuns false (c :: (cs ++ right)) = _
      rw [digitRuns, if_pos (decimal c List.mem_cons_self), if_neg (by decide),
        digitRuns_inside fun d member => decimal d (List.mem_cons_of_mem c member)]

/-- What is scanned takes one run off the text. -/
theorem digitRuns_scanInt {value : Int}
    (scanned : scanInt text = some (value, rest)) :
    digitRuns false text = 1 + digitRuns false rest := by
  obtain ⟨numeral, rfl, stops⟩ := scanInt_eq_some scanned
  rw [numeral.digitRuns_eq]
  cases rest with
  | nil => rfl
  | cons c cs =>
      have stop := stops c rfl
      rw [digitRuns, digitRuns, if_neg (by simp [stop]), if_neg (by simp [stop])]

end

/-! ### Numerals with decimals -/

/-- The decimals of a numeral, after a point if there are any. -/
def pointed (decimals : List Char) : List Char :=
  if decimals = [] then [] else '.' :: decimals

/-- What a list of digits denotes after the point. -/
def part (decimals : List Char) : ℚ :=
  Nat.ofDigitChars 10 decimals 0 / 10 ^ decimals.length

/-- A number in decimal notation, with any number of decimals. -/
structure Fraction where
  sign : Sign
  whole : Digits
  decimals : List Char
  decimal : ∀ c ∈ decimals, c.isDigit = true

def Sign.factor : Sign → ℚ
  | .minus => -1
  | .absent | .plus => 1

namespace Fraction

def text (f : Fraction) : List Char :=
  f.sign.text ++ (f.whole.text ++ pointed f.decimals)

def value (f : Fraction) : ℚ := f.sign.factor * (f.whole.value + part f.decimals)

end Fraction

theorem stops_pointed (decimals : List Char) : Stops (pointed decimals) := by
  intro c first
  rw [pointed] at first
  split at first
  next => cases first
  next =>
    cases first
    rfl

theorem pointed_injective {left right : List Char}
    (same : pointed left = pointed right) : left = right := by
  rw [pointed, pointed] at same
  split at same <;> split at same
  next leftEmpty rightEmpty => rw [leftEmpty, rightEmpty]
  next => cases same
  next => cases same
  next => exact (List.cons.inj same).2

/-- The value of a numeral can be read off its text. -/
theorem Fraction.value_congr {f g : Fraction} (same : f.text = g.text) :
    f.value = g.value := by
  have scanned : ∀ h : Fraction, scanSign h.text =
      (h.sign, h.whole.text ++ pointed h.decimals) :=
    fun h => scanSign_text h.sign h.whole
  have signs := congrArg scanSign same
  rw [scanned, scanned, Prod.mk.injEq] at signs
  obtain ⟨sign, rest⟩ := signs
  obtain ⟨taken, dropped⟩ := takeWhile_digits f.whole (stops_pointed f.decimals)
  obtain ⟨taken', dropped'⟩ := takeWhile_digits g.whole (stops_pointed g.decimals)
  rw [rest] at taken dropped
  have whole : f.whole.text = g.whole.text := taken.symm.trans taken'
  have decimals : f.decimals = g.decimals :=
    pointed_injective (dropped.symm.trans dropped')
  rw [value, value, Digits.value, Digits.value, sign, whole, decimals]

/-! ### Zeros at the end -/

/-- A text without the zeros at its end. -/
def trimZeros (text : List Char) : List Char := text.rdropWhile fun c => c = '0'

theorem trimZeros_append_zeros (text : List Char) :
    ∃ k, trimZeros text ++ List.replicate k '0' = text := by
  have zeros : ∀ c ∈ text.rtakeWhile (fun c => c = '0'), c = '0' := by
    intro c member
    have zero := List.mem_rtakeWhile_imp member
    rwa [decide_eq_true_iff] at zero
  refine ⟨(text.rtakeWhile fun c => c = '0').length, ?_⟩
  rw [← List.eq_replicate_of_mem zeros, trimZeros,
    List.rdropWhile_append_rtakeWhile]

/-- Where something is left of the second text, the first one stays as it is. -/
theorem trimZeros_append {left right : List Char} (kept : trimZeros right ≠ []) :
    trimZeros (left ++ right) = left ++ trimZeros right := by
  have some_left : (right.reverse.dropWhile fun c => c = '0').isEmpty = false := by
    rw [trimZeros, List.rdropWhile, Ne, List.reverse_eq_nil_iff] at kept
    simpa using kept
  rw [trimZeros, trimZeros, List.rdropWhile, List.rdropWhile, List.reverse_append,
    List.dropWhile_append, some_left, if_neg (by decide), List.reverse_append,
    List.reverse_reverse]

/-- No character but a zero is taken off. -/
theorem trimZeros_cons {c : Char} (other : c ≠ '0') (rest : List Char) :
    trimZeros (c :: rest) = c :: trimZeros rest := by
  have stop : [c].dropWhile (fun c => c = '0') = [c] :=
    List.dropWhile_cons_of_neg (by simp [other])
  rw [trimZeros, trimZeros, List.rdropWhile, List.rdropWhile, List.reverse_cons,
    List.dropWhile_append, stop]
  split
  next empty => rw [List.isEmpty_iff.mp empty]; rfl
  next => rw [List.reverse_append]; rfl

theorem getLast?_trimZeros (text : List Char) :
    (trimZeros text).getLast? ≠ some '0' := by
  intro last
  have nonempty : trimZeros text ≠ [] := by
    intro empty
    rw [empty] at last
    cases last
  have stop := List.rdropWhile_last_not (fun c => decide (c = '0')) text nonempty
  rw [List.getLast?_eq_getLast_of_ne_nil nonempty, Option.some.injEq] at last
  exact stop (decide_eq_true last)

theorem length_trimZeros_le (text : List Char) :
    (trimZeros text).length ≤ text.length :=
  (List.rdropWhile_prefix _ text).length_le

/-- Digits stay digits. -/
theorem decimal_trimZeros {text : List Char}
    (decimal : ∀ c ∈ text, c.isDigit = true) :
    ∀ c ∈ trimZeros text, c.isDigit = true :=
  fun c member => decimal c ((List.rdropWhile_prefix _ text).mem member)

/-- Zeros at the end of the decimals add nothing. -/
theorem part_trimZeros (decimals : List Char) :
    part (trimZeros decimals) = part decimals := by
  obtain ⟨k, split⟩ := trimZeros_append_zeros decimals
  conv_rhs => rw [← split]
  rw [part, part, Nat.ofDigitChars_append, Nat.ofDigitChars_replicate_zero,
    List.length_append, List.length_replicate, pow_add]
  push_cast
  field_simp

end Decimal
