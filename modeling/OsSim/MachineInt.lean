/-
Module: OsSim.MachineInt
Purpose: The `int` of the program: 32 bits in two's complement, in which a
  computation that leaves the range wraps around.
Trusted boundary: human-reviewed translation
Main exports:
  wrap, InRange, wrap_of_inRange, wrap_of_past, wrap_add, inRange_wrap
-/
import Mathlib.Algebra.Ring.Int.Defs
import Mathlib.Algebra.Ring.Nat
import Mathlib.Data.Int.Order.Basic

namespace OsSim

/-- The `int` that a 32-bit two's complement computation of `x` yields. -/
def wrap (x : Int) : Int := x.bmod (2 ^ 32)

/-- The values of an `int`. -/
def InRange (x : Int) : Prop := -2 ^ 31 ≤ x ∧ x < 2 ^ 31

instance (x : Int) : Decidable (InRange x) :=
  inferInstanceAs (Decidable (_ ∧ _))

/-- Nothing wraps around within the range of `int`. -/
theorem wrap_of_inRange {x : Int} (inRange : InRange x) : wrap x = x := by
  obtain ⟨lower, upper⟩ := inRange
  rw [wrap]
  apply Int.bmod_eq_of_le_mul_two <;> omega

/-- What a number just past the greatest `int` wraps around to. -/
theorem wrap_of_past {x : Int} (past : 2 ^ 31 ≤ x) (bound : x < 2 ^ 32) :
    wrap x = x - 2 ^ 32 := by
  have shifted : wrap (x - 2 ^ 32) = x - 2 ^ 32 :=
    wrap_of_inRange ⟨by omega, by omega⟩
  rw [← shifted, wrap, wrap]
  exact (Int.sub_bmod_right x (2 ^ 32)).symm

/-- A sum may be wrapped around before more is added to it. -/
theorem wrap_add (x y : Int) : wrap (wrap x + y) = wrap (x + y) := by
  rw [wrap, wrap, wrap, Int.bmod_add_bmod]

/-- Wrapping around leaves an `int`. -/
theorem inRange_wrap (x : Int) : InRange (wrap x) :=
  ⟨Int.le_bmod (by decide), Int.bmod_lt (by decide)⟩

end OsSim
