/-
Module: OsSim.Library.Dyadic
Purpose: Aligned power-of-two blocks of natural numbers: buddies, halves,
  doubling, and the dichotomy that two blocks are nested or disjoint.
Trusted boundary: none
Main exports:
  Aligned, Aligned.xor_of_dvd, Aligned.xor_of_not_dvd, Aligned.nested
-/
import Mathlib.Algebra.Order.Group.Nat
import Mathlib.Data.Nat.Bitwise
import Mathlib.Tactic.Ring

namespace Dyadic

/-- The block of `size` numbers from `start` on is dyadic when its size is a
power of two and its start a multiple of its size. -/
structure Aligned (start size : Nat) : Prop where
  order : ∃ k, size = 2 ^ k
  dvd : size ∣ start

namespace Aligned

variable {start size : Nat}

theorem pos (aligned : Aligned start size) : 0 < size := by
  obtain ⟨k, rfl⟩ := aligned.order
  exact Nat.two_pow_pos k

/-- Flipping the size bit of a block of order `k` flips the last bit of its
position among the blocks of that order. -/
private theorem xor_eq_mul (quotient k : Nat) :
    quotient * 2 ^ k ^^^ 2 ^ k = (quotient ^^^ 1) * 2 ^ k := by
  have shifted : (quotient ^^^ 1) <<< k = quotient <<< k ^^^ 1 <<< k :=
    Nat.shiftLeft_xor_distrib
  simpa only [Nat.shiftLeft_eq, Nat.one_mul] using shifted.symm

/-- The buddy of a left half lies directly to its right. -/
theorem xor_of_dvd (aligned : Aligned start size)
    (left : 2 * size ∣ start) : start ^^^ size = start + size := by
  obtain ⟨k, rfl⟩ := aligned.order
  obtain ⟨half, rfl⟩ := left
  have position : 2 * 2 ^ k * half = (2 * half) * 2 ^ k := by ring
  rw [position, xor_eq_mul, Nat.xor_one_of_even (even_two_mul half)]
  ring

/-- A right half has an odd position among the blocks of its size. -/
private theorem odd_position {quotient : Nat}
    (right : ¬ 2 * size ∣ size * quotient) : Odd quotient := by
  rcases Nat.even_or_odd quotient with even | odd
  · obtain ⟨half, rfl⟩ := even
    exact absurd ⟨half, by ring⟩ right
  · exact odd

/-- The buddy of a right half lies directly to its left. -/
theorem xor_of_not_dvd (aligned : Aligned start size)
    (right : ¬ 2 * size ∣ start) :
    size ≤ start ∧ start ^^^ size = start - size := by
  obtain ⟨k, rfl⟩ := aligned.order
  obtain ⟨quotient, rfl⟩ := aligned.dvd
  obtain ⟨half, rfl⟩ := odd_position right
  have position : 2 ^ k * (2 * half + 1) = (2 * half + 1) * 2 ^ k := by ring
  have predecessor : (2 * half + 1 - 1) * 2 ^ k =
      2 ^ k * (2 * half + 1) - 2 ^ k := by
    rw [Nat.sub_mul, Nat.one_mul, Nat.mul_comm]
  constructor
  · exact Nat.le_mul_of_pos_right _ (Nat.succ_pos _)
  · rw [← predecessor, position, xor_eq_mul,
      Nat.xor_one_of_odd (odd_two_mul_add_one half)]

/-- The comparison that tells a left half from a right one. -/
theorem lt_xor_iff (aligned : Aligned start size) :
    start < start ^^^ size ↔ 2 * size ∣ start := by
  have positive := aligned.pos
  by_cases left : 2 * size ∣ start
  · rw [aligned.xor_of_dvd left]
    exact iff_of_true (Nat.lt_add_of_pos_right positive) left
  · obtain ⟨_, below⟩ := aligned.xor_of_not_dvd left
    rw [below]
    exact iff_of_false (Nat.not_lt.mpr (Nat.sub_le _ _)) left

/-- A left half and its buddy make up a block of twice the size. -/
theorem double (aligned : Aligned start size) (left : 2 * size ∣ start) :
    Aligned start (2 * size) := by
  obtain ⟨k, rfl⟩ := aligned.order
  exact ⟨⟨k + 1, by ring⟩, left⟩

/-- A right half and its buddy make up a block of twice the size. -/
theorem double_sub (aligned : Aligned start size)
    (right : ¬ 2 * size ∣ start) :
    Aligned (start - size) (2 * size) := by
  obtain ⟨quotient, rfl⟩ := aligned.dvd
  obtain ⟨half, rfl⟩ := odd_position right
  obtain ⟨k, order⟩ := aligned.order
  refine ⟨⟨k + 1, by rw [order]; ring⟩, half, ?_⟩
  rw [Nat.mul_add, Nat.mul_one, Nat.add_sub_cancel]
  ring

/-- The two halves of a block. -/
theorem halves (aligned : Aligned start (2 * size)) :
    Aligned start size ∧ Aligned (start + size) size := by
  obtain ⟨k, order⟩ := aligned.order
  have exponent : k ≠ 0 := by
    intro zero
    rw [zero, pow_zero] at order
    omega
  obtain ⟨j, rfl⟩ := Nat.exists_eq_succ_of_ne_zero exponent
  have power : size = 2 ^ j := by
    rw [Nat.succ_eq_add_one, pow_succ] at order
    omega
  have whole : size ∣ start := Dvd.dvd.trans (Dvd.intro_left 2 rfl) aligned.dvd
  exact ⟨⟨⟨j, power⟩, whole⟩, ⟨⟨j, power⟩, Nat.dvd_add_self_right.mpr whole⟩⟩

/-- A dyadic size above one is even. -/
theorem two_mul_half (aligned : Aligned start size) (large : 1 < size) :
    2 * (size / 2) = size := by
  obtain ⟨k, rfl⟩ := aligned.order
  cases k with
  | zero => simp at large
  | succ j => rw [pow_succ]; omega

/-- Of two dyadic sizes the smaller divides the larger. -/
theorem size_dvd {other otherSize : Nat} (aligned : Aligned start size)
    (larger : Aligned other otherSize) (le : size ≤ otherSize) :
    size ∣ otherSize := by
  obtain ⟨j, rfl⟩ := aligned.order
  obtain ⟨k, rfl⟩ := larger.order
  exact Nat.pow_dvd_pow 2 ((Nat.pow_le_pow_iff_right (by decide)).mp le)

/-- A larger dyadic size is at least twice the smaller one. -/
theorem two_mul_le {other otherSize : Nat} (aligned : Aligned start size)
    (larger : Aligned other otherSize) (lt : size < otherSize) :
    2 * size ≤ otherSize := by
  obtain ⟨factor, rfl⟩ := aligned.size_dvd larger (Nat.le_of_lt lt)
  have positive := aligned.pos
  have twice : 2 ≤ factor := by
    rcases factor with _ | _ | factor
    · simp at lt
    · simp at lt
    · omega
  calc 2 * size = size * 2 := Nat.mul_comm _ _
    _ ≤ size * factor := Nat.mul_le_mul_left size twice

/-- Two dyadic blocks that meet are nested: the smaller lies in the larger. -/
theorem nested {other otherSize : Nat} (aligned : Aligned start size)
    (larger : Aligned other otherSize) (le : size ≤ otherSize)
    (below : start < other + otherSize) (above : other < start + size) :
    other ≤ start ∧ start + size ≤ other + otherSize := by
  have positive := aligned.pos
  obtain ⟨ratio, ratioEq⟩ := aligned.size_dvd larger le
  obtain ⟨position, rfl⟩ := aligned.dvd
  obtain ⟨base, baseEq⟩ :=
    (aligned.size_dvd larger le).trans larger.dvd
  subst baseEq ratioEq
  have upper : position < base + ratio := by
    rw [← Nat.mul_add] at below
    exact Nat.lt_of_mul_lt_mul_left below
  have lower : base < position + 1 := by
    rw [← Nat.mul_succ] at above
    exact Nat.lt_of_mul_lt_mul_left above
  constructor
  · exact Nat.mul_le_mul_left size (Nat.le_of_lt_succ lower)
  · rw [← Nat.mul_add, ← Nat.mul_succ]
    exact Nat.mul_le_mul_left size upper

end Aligned

end Dyadic
