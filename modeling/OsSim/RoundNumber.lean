/-
Module: OsSim.RoundNumber
Purpose: `round_number` of `file_handlers.c`: the text of a number, rounded to two
  decimals and without the zeros at its end.
Trusted boundary: human-reviewed translation
Main exports:
  roundHalfEven, fixedTwo, snprintf, roundNumber, KeepsValue, wholeLength,
  KeptLength, roundNumber_short, roundNumber_long, round_number_iff,
  round_number_fails
-/
import Mathlib.Data.Rat.Floor
import Mathlib.Tactic.IntervalCases
import Mathlib.Tactic.Ring
import OsSim.Library.Decimal

namespace OsSim

open Decimal

/-! ### The C library -/

/-- The nearest integer, and the even one of two. -/
def roundHalfEven (x : ℚ) : ℤ :=
  if x - x.floor < 1 / 2 ∨ (x - x.floor = 1 / 2 ∧ x.floor % 2 = 0) then x.floor
  else x.floor + 1

/-- The digits of `%.2f` for a number of hundredths. -/
def fixedDigits (hundredths : Nat) : List Char :=
  Nat.toDigits 10 (hundredths / 100) ++
    ['.', Nat.digitChar (hundredths / 10 % 10), Nat.digitChar (hundredths % 10)]

/-- "%.2f" -/
def fixedTwo (number : ℚ) : List Char :=
  (if number < 0 then ['-'] else []) ++
    fixedDigits (roundHalfEven (|number| * 100)).toNat

/-- `snprintf` into a buffer of `size` characters, the last of which is for the
NUL. -/
def snprintf (size : Nat) (text : List Char) : List Char := text.take (size - 1)

/-- The size of a pointer. -/
def sizeofPointer : Nat := 8

/-! ### The function -/

/-- The removal of a decimal point at the end. -/
def trimPoint (str : List Char) : List Char :=
  if str.getLast? = some '.' then str.dropLast else str

/-- `round_number`.  The size given to `snprintf` is that of the pointer `str`. -/
def roundNumber (number : ℚ) : List Char :=
  let str := snprintf sizeofPointer (fixedTwo number)
  -- The loop takes off zeros whether or not there is a point before them.
  let str := trimZeros str
  trimPoint str

/-- The text for `n` hundredths is a decimal numeral with this value, with at most
two decimals and no zero at their end. -/
def KeepsValue (n : Int) : Prop :=
  ∃ f : Fraction, roundNumber (n / 100) = f.text ∧ f.value = n / 100 ∧
    f.decimals.length ≤ 2 ∧ f.decimals.getLast? ≠ some '0'

/-- How many characters "%.2f" prints before the point, with the minus sign. -/
def wholeLength (n : Int) : Nat :=
  (if n < 0 then 1 else 0) + (Nat.toDigits 10 (n.natAbs / 100)).length

/-- What is cut off after seven characters is nothing but zeros, and no zero
before the point is taken for one after it. -/
def KeptLength (n : Int) : Prop :=
  wholeLength n ≤ 4 ∨ (wholeLength n = 5 ∧ 10 ∣ n) ∨
    (wholeLength n = 6 ∧ 100 ∣ n) ∨
    (wholeLength n = 7 ∧ 100 ∣ n ∧ ¬ 1000 ∣ n)

/-! ### The text before it is cut -/

/-- The sign that "%.2f" prints. -/
def signOf (n : Int) : Sign := if n < 0 then .minus else .absent

/-- The digits that "%.2f" prints after the point. -/
def centDigits (n : Int) : List Char :=
  [Nat.digitChar (n.natAbs / 10 % 10), Nat.digitChar (n.natAbs % 10)]

theorem roundHalfEven_intCast (m : Int) : roundHalfEven m = m := by
  rw [roundHalfEven, Rat.floor_intCast, if_pos]
  left
  norm_num

theorem hundredths_abs (n : Int) : |(n : ℚ) / 100| * 100 = (n.natAbs : Int) := by
  rw [abs_div, abs_of_pos (by norm_num : (0 : ℚ) < 100),
    div_mul_cancel₀ _ (by norm_num), Int.natCast_natAbs, Int.cast_abs]

theorem fixedTwo_eq (n : Int) : fixedTwo (n / 100) = (signOf n).text ++
    (Nat.toDigits 10 (n.natAbs / 100) ++ '.' :: centDigits n) := by
  have negative : (n : ℚ) / 100 < 0 ↔ n < 0 := by
    rw [div_neg_iff]
    norm_num
  rw [fixedTwo, hundredths_abs, roundHalfEven_intCast, Int.toNat_natCast, signOf]
  simp only [negative]
  split <;> rfl

theorem wholeLength_eq (n : Int) : wholeLength n =
    (signOf n).text.length + (Nat.toDigits 10 (n.natAbs / 100)).length := by
  rw [wholeLength, signOf]
  split <;> rfl

theorem decimal_centDigits (n : Int) : ∀ c ∈ centDigits n, c.isDigit = true := by
  intro c member
  simp only [centDigits, List.mem_cons, List.not_mem_nil, or_false] at member
  rcases member with rfl | rfl <;> rw [Nat.isDigit_digitChar] <;> simp <;> omega

/-! ### Numbers with few digits before the point -/

theorem roundNumber_eq (number : ℚ) :
    roundNumber number = trimPoint (trimZeros ((fixedTwo number).take 7)) := rfl

/-- After a point the trimming works as it should. -/
theorem trimPoint_trimZeros (left : List Char) {decimals : List Char}
    (decimal : ∀ c ∈ decimals, c.isDigit = true) :
    trimPoint (trimZeros (left ++ '.' :: decimals)) =
      left ++ pointed (trimZeros decimals) := by
  have point : trimZeros ('.' :: decimals) = '.' :: trimZeros decimals :=
    trimZeros_cons (by decide) decimals
  rw [trimZeros_append (by rw [point]; simp), point, trimPoint, pointed]
  cases split : trimZeros decimals with
  | nil => simp
  | cons c others =>
      have last : (left ++ '.' :: c :: others).getLast? ≠ some '.' := by
        intro same
        have inside : '.' ∈ c :: others := by
          apply List.mem_of_getLast?
          rw [← same, List.getLast?_append]
          rfl
        cases decimal_trimZeros decimal '.' (split ▸ inside)
      rw [if_neg last, if_neg (by simp)]

/-- A text without a point is not trimmed of one. -/
theorem trimPoint_of_not_mem {str : List Char} (noPoint : '.' ∉ str) :
    trimPoint str = str := by
  rw [trimPoint, if_neg]
  exact fun last => noPoint (List.mem_of_getLast? last)

theorem part_centDigits (n : Int) :
    part (centDigits n) = ((n.natAbs % 100 : Nat) : ℚ) / 100 := by
  have number : Nat.ofDigitChars 10 (centDigits n) 0 = n.natAbs % 100 := by
    rw [centDigits, Nat.ofDigitChars_cons_digitChar_of_lt_ten (by omega),
      Nat.ofDigitChars_cons_digitChar_of_lt_ten (by omega), Nat.ofDigitChars_nil]
    omega
  rw [part, number, centDigits]
  norm_num

/-- What the digits of `%.2f` denote. -/
theorem value_eq (n : Int) : (signOf n).factor *
    ((n.natAbs / 100 : Nat) + part (centDigits n)) = n / 100 := by
  have whole : (n.natAbs : ℚ) =
      100 * (n.natAbs / 100 : Nat) + (n.natAbs % 100 : Nat) := by
    exact_mod_cast (Nat.div_add_mod n.natAbs 100).symm
  have signed : (signOf n).factor * n.natAbs = n := by
    rw [signOf]
    split
    next negative =>
      have flipped : (n.natAbs : Int) = -n := by omega
      rw [← Int.cast_natCast, flipped, Int.cast_neg, Sign.factor]
      ring
    next positive =>
      have same : (n.natAbs : Int) = n := by omega
      rw [← Int.cast_natCast, same, Sign.factor, one_mul]
  rw [part_centDigits, ← signed, whole]
  ring

/-- A text that is a numeral is the right one if it has the right value. -/
theorem keepsValue_iff {n : Int} {f : Fraction}
    (text : roundNumber (n / 100) = f.text) (short : f.decimals.length ≤ 2)
    (last : f.decimals.getLast? ≠ some '0') :
    KeepsValue n ↔ f.value = n / 100 := by
  constructor
  · rintro ⟨g, same, value, _⟩
    rw [← value]
    exact Fraction.value_congr (text.symm.trans same)
  · intro value
    exact ⟨f, text, value, short, last⟩

/-- The numeral that is left of a number with few digits before the point: the
first `k` decimals, without zeros at the end. -/
def keptFraction (n : Int) (k : Nat) : Fraction where
  sign := signOf n
  whole := Digits.ofNat (n.natAbs / 100)
  decimals := trimZeros ((centDigits n).take k)
  decimal := decimal_trimZeros fun c member =>
    decimal_centDigits n c (List.mem_of_mem_take member)

theorem roundNumber_short {n : Int} (short : wholeLength n ≤ 6) :
    roundNumber (n / 100) = (keptFraction n (6 - wholeLength n)).text := by
  have cut : (fixedTwo (n / 100)).take 7 =
      ((signOf n).text ++ Nat.toDigits 10 (n.natAbs / 100)) ++
        '.' :: (centDigits n).take (6 - wholeLength n) := by
    have length : ((signOf n).text ++
        Nat.toDigits 10 (n.natAbs / 100)).length = wholeLength n := by
      rw [wholeLength_eq, List.length_append]
    have room : 7 - wholeLength n = 6 - wholeLength n + 1 := by omega
    rw [fixedTwo_eq, ← List.append_assoc, List.take_append, length, room,
      List.take_of_length_le (by omega), List.take_succ_cons]
  rw [roundNumber_eq, cut, trimPoint_trimZeros _ fun c member =>
      decimal_centDigits n c (List.mem_of_mem_take member), List.append_assoc]
  rfl

theorem Sign.factor_ne_zero (sign : Sign) : sign.factor ≠ 0 := by
  cases sign <;> norm_num [Sign.factor]

/-- The value is right if the digits that were cut off are zeros. -/
theorem keptFraction_value (n : Int) (k : Nat) :
    (keptFraction n k).value = n / 100 ↔ (10 ^ (2 - k) : Int) ∣ n := by
  have parts : (keptFraction n k).value = n / 100 ↔
      part ((centDigits n).take k) = part (centDigits n) := by
    rw [← value_eq, Fraction.value, keptFraction]
    dsimp only
    rw [Digits.value_ofNat, part_trimZeros,
      mul_right_inj' (Sign.factor_ne_zero _), add_right_inj]
  rw [parts]
  rcases Nat.lt_or_ge k 2 with fewer | enough
  · interval_cases k
    · have none : part ((centDigits n).take 0) = 0 := by
        rw [List.take_zero, part, Nat.ofDigitChars_nil]
        norm_num
      have power : (10 : Int) ^ (2 - 0) = 100 := by norm_num
      rw [none, part_centDigits, eq_comm, div_eq_zero_iff,
        or_iff_left (by norm_num), power]
      norm_cast
      omega
    · have first : part ((centDigits n).take 1) =
          ((n.natAbs / 10 % 10 : Nat) : ℚ) / 10 := by
        rw [centDigits, List.take_succ_cons, List.take_zero, part,
          Nat.ofDigitChars_cons_digitChar_of_lt_ten (by omega),
          Nat.ofDigitChars_nil]
        norm_num
      have power : (10 : Int) ^ (2 - 1) = 10 := by norm_num
      rw [first, part_centDigits, div_eq_div_iff (by norm_num) (by norm_num),
        power]
      norm_cast
      omega
  · have all : (centDigits n).take k = centDigits n :=
      List.take_of_length_le enough
    rw [all, Nat.sub_eq_zero_of_le enough, pow_zero]
    exact iff_of_true rfl (one_dvd n)

/-- With at most six characters before the point. -/
theorem keepsValue_short {n : Int} (short : wholeLength n ≤ 6) :
    KeepsValue n ↔ (10 ^ (2 - (6 - wholeLength n)) : Int) ∣ n := by
  rw [keepsValue_iff (roundNumber_short short) _ (getLast?_trimZeros _),
    keptFraction_value]
  calc (trimZeros ((centDigits n).take (6 - wholeLength n))).length
      ≤ ((centDigits n).take (6 - wholeLength n)).length := length_trimZeros_le _
    _ ≤ (centDigits n).length := List.length_take_le' _ _
    _ = 2 := rfl

/-! ### Numbers with many digits before the point

From seven characters on no decimal is left, and the buffer may end before the
point.  There is then nothing to stop the loop that removes zeros, which goes on
into the digits before the point.  The value is right only if neither the cut nor
the loop has removed anything.
-/

/-- Digits denote less than the next power of ten. -/
theorem ofDigitChars_lt {digits : List Char}
    (decimal : ∀ c ∈ digits, c.isDigit = true) :
    Nat.ofDigitChars 10 digits 0 < 10 ^ digits.length := by
  induction digits with
  | nil => simp
  | cons c digits ih =>
      have rest := ih fun d member => decimal d (List.mem_cons_of_mem c member)
      have digit := Char.isDigit_iff_toNat.mp (decimal c List.mem_cons_self)
      rw [Nat.ofDigitChars_cons, Nat.ofDigitChars_eq_ofDigitChars_zero,
        List.length_cons, pow_succ]
      have head : 10 * 0 + (c.toNat - '0'.toNat) ≤ 9 := by
        have bounds : 48 ≤ c.toNat ∧ c.toNat ≤ 57 := digit
        show 10 * 0 + (c.toNat - 48) ≤ 9
        omega
      calc 10 ^ digits.length * (10 * 0 + (c.toNat - '0'.toNat)) +
            Nat.ofDigitChars 10 digits 0
          ≤ 10 ^ digits.length * 9 + Nat.ofDigitChars 10 digits 0 :=
            Nat.add_le_add_right (Nat.mul_le_mul_left _ head) _
        _ < 10 ^ digits.length * 9 + 10 ^ digits.length :=
            Nat.add_lt_add_left rest _
        _ = 10 ^ digits.length * 10 := by ring

/-- No zero is trimmed off a number that ends in another digit. -/
theorem trimZeros_toDigits {w : Nat} (large : 10 ≤ w) :
    trimZeros (Nat.toDigits 10 w) = Nat.toDigits 10 w ↔ w % 10 ≠ 0 := by
  have split : Nat.toDigits 10 w =
      Nat.toDigits 10 (w / 10) ++ [Nat.digitChar (w % 10)] :=
    Nat.toDigits_of_base_le (by decide) large
  rw [split, trimZeros, List.rdropWhile_concat]
  simp only [decide_eq_true_iff, Nat.digitChar_eq_zero]
  by_cases zero : w % 10 = 0
  · rw [if_pos zero]
    refine iff_of_false (fun same => ?_) (fun other => other zero)
    have shorter := length_trimZeros_le (Nat.toDigits 10 (w / 10))
    have length := congrArg List.length same
    rw [List.length_append, List.length_singleton] at length
    rw [trimZeros] at shorter
    omega
  · rw [if_neg zero]
    exact iff_of_true rfl zero

section

variable {n : Int}

/-- The digits before the point that fit into seven characters with the sign. -/
def keptDigits (n : Int) : List Char :=
  (Nat.toDigits 10 (n.natAbs / 100)).take (7 - (signOf n).text.length)

theorem length_sign (n : Int) : (signOf n).text.length ≤ 1 := by
  cases signOf n <;> decide

theorem large_of_long (long : 7 ≤ wholeLength n) : 10 ≤ n.natAbs / 100 := by
  by_contra small
  have digits := (Nat.length_toDigits_le_iff (b := 10) (k := 1) (by decide)
    (by decide)).mpr (show n.natAbs / 100 < 10 ^ 1 by omega)
  have sign := length_sign n
  rw [wholeLength_eq] at long
  omega

/-- The zeros that are trimmed off, and the digits that were cut off, behind what
is left. -/
theorem keptDigits_split (n : Int) :
    ∃ k rest, Nat.toDigits 10 (n.natAbs / 100) =
        trimZeros (keptDigits n) ++ (List.replicate k '0' ++ rest) ∧
      rest.length =
        (Nat.toDigits 10 (n.natAbs / 100)).length -
          (7 - (signOf n).text.length) ∧
      n.natAbs / 100 =
        10 ^ (k + rest.length) * Nat.ofDigitChars 10 (trimZeros (keptDigits n)) 0 +
          Nat.ofDigitChars 10 rest 0 := by
  obtain ⟨k, zeros⟩ := trimZeros_append_zeros (keptDigits n)
  have split : Nat.toDigits 10 (n.natAbs / 100) =
      trimZeros (keptDigits n) ++ (List.replicate k '0' ++
        (Nat.toDigits 10 (n.natAbs / 100)).drop (7 - (signOf n).text.length)) := by
    rw [← List.append_assoc, zeros, keptDigits, List.take_append_drop]
  refine ⟨k, _, split, List.length_drop, ?_⟩
  have number := Nat.ofDigitChars_ten_toDigits (n := n.natAbs / 100)
  rw [split, Nat.ofDigitChars_append, Nat.ofDigitChars_eq_ofDigitChars_zero,
    Nat.ofDigitChars_append 0, Nat.ofDigitChars_replicate_zero, Nat.mul_zero,
    List.length_append, List.length_replicate] at number
  exact number.symm

/-- A number starts with a digit that is not trimmed off. -/
theorem keptDigits_nonempty (long : 7 ≤ wholeLength n) :
    trimZeros (keptDigits n) ≠ [] := by
  intro empty
  obtain ⟨k, rest, split, length, number⟩ := keptDigits_split n
  have large := large_of_long long
  have sign := length_sign n
  rw [wholeLength_eq] at long
  have decimal : ∀ c ∈ rest, c.isDigit = true := by
    intro c member
    apply Nat.isDigit_of_mem_toDigits (b := 10) (n := n.natAbs / 100) (by decide)
      (by decide)
    rw [split]
    exact List.mem_append_right _ (List.mem_append_right _ member)
  have bound := ofDigitChars_lt decimal
  rw [empty, Nat.ofDigitChars_nil, Nat.mul_zero, Nat.zero_add] at number
  rw [← number] at bound
  rcases Nat.eq_zero_or_pos rest.length with none | some
  · rw [none, pow_zero] at bound
    omega
  · have fewer := (Nat.length_toDigits_le_iff (by decide) some).mpr bound
    omega

/-- The numeral that is left of a number with many digits before the point. -/
def keptWhole (n : Int) (long : 7 ≤ wholeLength n) : Fraction where
  sign := signOf n
  whole :=
    { text := trimZeros (keptDigits n)
      nonempty := keptDigits_nonempty long
      decimal := decimal_trimZeros fun _ member =>
        Nat.isDigit_of_mem_toDigits (by decide) (by decide)
          (List.mem_of_mem_take member) }
  decimals := []
  decimal := fun _ impossible => by cases impossible

theorem roundNumber_long (long : 7 ≤ wholeLength n) :
    roundNumber (n / 100) = (keptWhole n long).text := by
  have sign := length_sign n
  have total := wholeLength_eq n
  have cut : (fixedTwo (n / 100)).take 7 = (signOf n).text ++ keptDigits n := by
    rw [fixedTwo_eq, List.take_append, List.take_of_length_le (by omega),
      List.take_append_of_le_length (by omega)]
    rfl
  have noPoint : '.' ∉ (signOf n).text ++ trimZeros (keptDigits n) := by
    intro member
    rcases List.mem_append.mp member with signed | digit
    · revert signed
      cases signOf n <;> decide
    · cases (keptWhole n long).whole.decimal '.' digit
  rw [roundNumber_eq, cut, trimZeros_append (keptDigits_nonempty long),
    trimPoint_of_not_mem noPoint, Fraction.text, keptWhole, pointed, if_pos rfl,
    List.append_nil]

theorem keptWhole_value (long : 7 ≤ wholeLength n) :
    (keptWhole n long).value = n / 100 ↔
      100 * Nat.ofDigitChars 10 (trimZeros (keptDigits n)) 0 = n.natAbs := by
  have none : part [] = 0 := by
    rw [part, Nat.ofDigitChars_nil]
    norm_num
  rw [← value_eq, Fraction.value, keptWhole, Digits.value]
  dsimp only
  rw [none, mul_right_inj' (Sign.factor_ne_zero _), part_centDigits, add_zero,
    eq_comm, ← mul_right_inj' (by norm_num : (100 : ℚ) ≠ 0), mul_add,
    mul_div_cancel₀ _ (by norm_num)]
  norm_cast
  omega

/-- Nothing is cut or trimmed off exactly if there are seven characters, the last
of them another digit than zero. -/
theorem trimZeros_keptDigits (long : 7 ≤ wholeLength n) :
    Nat.ofDigitChars 10 (trimZeros (keptDigits n)) 0 = n.natAbs / 100 ↔
      wholeLength n = 7 ∧ n.natAbs / 100 % 10 ≠ 0 := by
  have large := large_of_long long
  have total := wholeLength_eq n
  have whole : wholeLength n = 7 →
      keptDigits n = Nat.toDigits 10 (n.natAbs / 100) := by
    intro seven
    exact List.take_of_length_le (by omega)
  constructor
  · intro same
    obtain ⟨k, rest, split, length, number⟩ := keptDigits_split n
    have nothing : k + rest.length = 0 := by
      by_contra more
      have tenfold : 10 ^ 1 ≤ 10 ^ (k + rest.length) :=
        Nat.pow_le_pow_right (by decide) (Nat.pos_of_ne_zero more)
      have bound := Nat.mul_le_mul_right (n.natAbs / 100) tenfold
      rw [same] at number
      omega
    obtain ⟨noZeros, noRest⟩ := Nat.add_eq_zero_iff.mp nothing
    have seven : wholeLength n = 7 := by
      have sign := length_sign n
      omega
    rw [noZeros, List.length_eq_zero_iff.mp noRest, List.replicate_zero,
      List.append_nil, List.append_nil, whole seven] at split
    exact ⟨seven, (trimZeros_toDigits large).mp split.symm⟩
  · rintro ⟨seven, last⟩
    rw [whole seven, (trimZeros_toDigits large).mpr last,
      Nat.ofDigitChars_ten_toDigits]

/-- With seven characters or more before the point. -/
theorem keepsValue_long (long : 7 ≤ wholeLength n) :
    KeepsValue n ↔ wholeLength n = 7 ∧ 100 ∣ n ∧ ¬ 1000 ∣ n := by
  have digits := trimZeros_keptDigits long
  rw [keepsValue_iff (roundNumber_long long) (Nat.zero_le _) (by simp [keptWhole]),
    keptWhole_value]
  constructor
  · intro same
    obtain ⟨seven, last⟩ := digits.mp (by omega)
    exact ⟨seven, by omega, by omega⟩
  · rintro ⟨seven, cents, last⟩
    have same := digits.mpr ⟨seven, by omega⟩
    omega

end

/-- The text for `n` hundredths has the value of `n` hundredths exactly if there
are at most four characters before the point; or five, and the second decimal is
zero; or six, and both decimals are; or seven, both decimals are zero and the
digit before the point is not. -/
theorem round_number_iff (n : Int) : KeepsValue n ↔ KeptLength n := by
  rw [KeptLength]
  rcases Nat.lt_or_ge (wholeLength n) 7 with short | long
  · rw [keepsValue_short (Nat.le_of_lt_succ short)]
    have counts : wholeLength n ≤ 4 ∨ wholeLength n = 5 ∨ wholeLength n = 6 := by
      omega
    rcases counts with few | five | six
    · have all : 2 - (6 - wholeLength n) = 0 := by omega
      rw [all, pow_zero]
      exact iff_of_true (one_dvd n) (Or.inl few)
    · rw [five]
      norm_num
    · rw [six]
      norm_num
  · rw [keepsValue_long long]
    omega

/-- The text for 12345.67, which fits into 32 bytes, is "12345.6". -/
theorem round_number_fails :
    ¬ ∀ n : Int, (fixedTwo (n / 100)).length < 32 → KeepsValue n := by
  intro always
  have short : (fixedTwo (((1234567 : Int) : ℚ) / 100)).length < 32 := by
    decide +kernel
  have five : wholeLength 1234567 = 5 := by decide
  have kept := (keepsValue_short (by rw [five]; decide)).mp (always 1234567 short)
  rw [five] at kept
  revert kept
  decide

end OsSim
