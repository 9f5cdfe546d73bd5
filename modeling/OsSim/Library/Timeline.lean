/-
Module: OsSim.Library.Timeline
Purpose: Units of time, each of which may have an owner, how many units of an
  interval are not owned by someone, and intervals that follow each other.
Trusted boundary: none
Main exports:
  owner, unitsWithout, unitsWithout_succ, unitsWithout_cons,
  unitsWithout_of_unknown, unitsWithout_pass, unitsWithout_le, Consecutive,
  Consecutive.snoc, Consecutive.later
-/
import Mathlib.Data.List.Count

namespace Timeline

variable {ω : Type*}

/-- Who owns the unit that begins at a time.  A history lists units by their
beginnings, newest first; a unit that is not in it has no owner. -/
def owner (units : List (Int × Option ω)) (time : Int) : Option ω :=
  (units.find? fun unit => unit.1 = time).bind Prod.snd

theorem owner_cons_self (time : Int) (own : Option ω)
    (units : List (Int × Option ω)) : owner ((time, own) :: units) time = own := by
  rw [owner, List.find?_cons_of_pos (by simp)]
  rfl

theorem owner_cons_of_ne {time other : Int} (apart : other ≠ time)
    (own : Option ω) (units : List (Int × Option ω)) :
    owner ((time, own) :: units) other = owner units other := by
  rw [owner, List.find?_cons_of_neg (by simpa using apart.symm), owner]

/-- An owner is in the history. -/
theorem mem_of_owner {units : List (Int × Option ω)} {time : Int} {a : ω}
    (owns : owner units time = some a) : ∃ unit ∈ units, unit.2 = some a := by
  obtain ⟨unit, found, own⟩ := Option.bind_eq_some_iff.mp owns
  exact ⟨unit, List.mem_of_find?_eq_some found, own⟩

variable [DecidableEq ω]

/-- How many of the units from `start` to `stop` are not owned by `a`. -/
def unitsWithout (units : List (Int × Option ω)) (a : ω) (start stop : Int) :
    Nat :=
  (List.range (stop - start).toNat).countP fun i : Nat =>
    owner units (start + i) ≠ some a

/-- One unit more at the end of the interval. -/
theorem unitsWithout_succ (units : List (Int × Option ω)) (a : ω)
    {start stop : Int} (ordered : start ≤ stop) :
    unitsWithout units a start (stop + 1) = unitsWithout units a start stop +
      if owner units stop = some a then 0 else 1 := by
  have more : (stop + 1 - start).toNat = (stop - start).toNat + 1 := by omega
  have last : start + ((stop - start).toNat : Int) = stop := by omega
  rw [unitsWithout, more, List.range_succ, List.countP_append,
    List.countP_singleton, last, unitsWithout]
  by_cases owns : owner units stop = some a <;> simp [owns]

/-- A unit after the interval does not matter. -/
theorem unitsWithout_cons {time : Int} (own : Option ω)
    (units : List (Int × Option ω)) (a : ω) {start stop : Int}
    (later : stop ≤ time) :
    unitsWithout ((time, own) :: units) a start stop =
      unitsWithout units a start stop := by
  rw [unitsWithout, unitsWithout]
  apply List.countP_congr
  intro i member
  have inside := List.mem_range.mp member
  rw [owner_cons_of_ne (by omega)]

/-- Someone who owns no unit is without all of them. -/
theorem unitsWithout_of_unknown {units : List (Int × Option ω)} {a : ω}
    (unknown : ∀ unit ∈ units, unit.2 ≠ some a) (start stop : Int) :
    unitsWithout units a start stop = (stop - start).toNat := by
  rw [unitsWithout, List.countP_eq_length.mpr, List.length_range]
  intro i _
  rw [decide_eq_true_iff]
  intro owns
  obtain ⟨unit, member, own⟩ := mem_of_owner owns
  exact unknown unit member own

/-- The present unit passes. -/
theorem unitsWithout_pass (own : Option ω) (units : List (Int × Option ω))
    (a : ω) {start now : Int} (ordered : start ≤ now) :
    unitsWithout ((now, own) :: units) a start (now + 1) =
      unitsWithout units a start now + if own = some a then 0 else 1 := by
  rw [unitsWithout_succ _ _ ordered, unitsWithout_cons _ _ _ (Int.le_refl now),
    owner_cons_self]

/-- A longer interval has no fewer such units. -/
theorem unitsWithout_le (units : List (Int × Option ω)) (a : ω) (start : Int)
    {stop later : Int} (ordered : stop ≤ later) :
    unitsWithout units a start stop ≤ unitsWithout units a start later := by
  apply List.Sublist.countP_le
  exact List.range_sublist.mpr (by omega)

/-! ### Intervals that follow each other -/

section

variable {ι : Type*}

/-- The intervals lie between two times, none is turned around, and each of them
is over when the next one begins. -/
structure Consecutive (start stop : ι → Int) (low : Int) (lines : List ι)
    (high : Int) : Prop where
  forward : ∀ line ∈ lines, start line ≤ stop line
  ordered : lines.Pairwise fun earlier later => stop earlier ≤ start later
  lower : ∀ line ∈ lines, low ≤ start line
  upper : ∀ line ∈ lines, stop line ≤ high

namespace Consecutive

variable {start stop : ι → Int} {low high : Int} {lines : List ι}

theorem nil (start stop : ι → Int) (low high : Int) :
    Consecutive start stop low [] high :=
  ⟨by simp, List.Pairwise.nil, by simp, by simp⟩

/-- The upper bound may be a later time. -/
theorem later (turns : Consecutive start stop low lines high) {high' : Int}
    (later : high ≤ high') : Consecutive start stop low lines high' :=
  ⟨turns.forward, turns.ordered, turns.lower,
    fun line member => Int.le_trans (turns.upper line member) later⟩

/-- One more interval that begins no earlier than the others end. -/
theorem snoc (turns : Consecutive start stop low lines high) (bounds : low ≤ high)
    {line : ι} (after : high ≤ start line) (forward : start line ≤ stop line) :
    Consecutive start stop low (lines ++ [line]) (stop line) where
  forward := by
    intro other member
    rcases List.mem_append.mp member with old | new
    · exact turns.forward other old
    · rw [List.mem_singleton.mp new]
      exact forward
  ordered := by
    refine List.pairwise_append.mpr
      ⟨turns.ordered, List.pairwise_singleton _ _, ?_⟩
    intro other old last new
    rw [List.mem_singleton.mp new]
    exact Int.le_trans (turns.upper other old) after
  lower := by
    intro other member
    rcases List.mem_append.mp member with old | new
    · exact turns.lower other old
    · rw [List.mem_singleton.mp new]
      exact Int.le_trans bounds after
  upper := by
    intro other member
    rcases List.mem_append.mp member with old | new
    · exact Int.le_trans (turns.upper other old) (Int.le_trans after forward)
    · exact Int.le_of_eq (congrArg stop (List.mem_singleton.mp new))

end Consecutive

end

end Timeline
