/-
Module: OsSim.Library.SinkPath
Purpose: Where sifting down works in a binary heap: the subtree whose elements
  it moves, and the path along which an element sinks.
Trusted boundary: none
Main exports:
  Descends, Rearranges, siftDown_rearranges, greaterChild, Sinks, Sinks.frame,
  Ranks.bestOf_eq, Ranks.sinks_stays, Ranks.sinks_moves_iff
-/
import OsSim.Library.BinaryHeap
import Mathlib.Logic.Equiv.Basic

namespace BinaryHeap

variable {α : Type*}

/-! ### The subtree -/

/-- The place lies in the subtree below `root`, or is `root` itself. -/
inductive Descends (root : Nat) : Nat → Prop where
  | root : Descends root root
  | child {place : Nat} (positive : 0 < place)
      (above : Descends root ((place - 1) / 2)) : Descends root place

theorem Descends.trans {root middle place : Nat} (upper : Descends root middle)
    (lower : Descends middle place) : Descends root place := by
  induction lower with
  | root => exact upper
  | child positive above ih => exact Descends.child positive ih

/-- The elements of `items'` are those of `items`, moved among these places
only. -/
def Rearranges (places : Nat → Prop) (items items' : List α) : Prop :=
  ∃ moves : Equiv.Perm Nat, (∀ i, ¬ places i → moves i = i) ∧
    ∀ i, items'[i]? = items[moves i]?

namespace Rearranges

variable {places : Nat → Prop} {items items' items'' : List α}

theorem refl (places : Nat → Prop) (items : List α) :
    Rearranges places items items :=
  ⟨Equiv.refl Nat, fun _ _ => rfl, fun _ => rfl⟩

theorem trans (first : Rearranges places items items')
    (second : Rearranges places items' items'') :
    Rearranges places items items'' := by
  obtain ⟨moves, fixed, moved⟩ := first
  obtain ⟨moves', fixed', moved'⟩ := second
  refine ⟨moves'.trans moves, ?_, ?_⟩
  · intro i outside
    rw [Equiv.trans_apply, fixed' i outside, fixed i outside]
  · intro i
    rw [moved', moved, Equiv.trans_apply]

theorem mono {places' : Nat → Prop} (wider : ∀ i, places i → places' i)
    (moved : Rearranges places items items') : Rearranges places' items items' := by
  obtain ⟨moves, fixed, same⟩ := moved
  exact ⟨moves, fun i outside => fixed i fun inside => outside (wider i inside),
    same⟩

/-- An exchange moves two elements. -/
theorem swap {i j : Nat} (first : places i) (second : places j)
    (items : List α) : Rearranges places items (swap items i j) := by
  cases left : items[i]? with
  | none =>
      rw [BinaryHeap.swap, left]
      exact refl places items
  | some a =>
      cases right : items[j]? with
      | none =>
          rw [BinaryHeap.swap, left, right]
          exact refl places items
      | some b =>
          refine ⟨Equiv.swap i j, ?_, ?_⟩
          · intro k outside
            apply Equiv.swap_apply_of_ne_of_ne
            · exact fun same => outside (same ▸ first)
            · exact fun same => outside (same ▸ second)
          · intro k
            rw [swap_getElem? left right, Equiv.swap_apply_def]
            split
            next atSecond =>
              subst atSecond
              split
              next same => rw [same, left]
              next => exact left.symm
            next =>
              split
              next => exact right.symm
              next => rfl

end Rearranges

/-- Sifting down moves elements of one subtree only. -/
theorem siftDown_rearranges (before : α → α → Bool) (items : List α)
    (n parent : Nat) :
    Rearranges (Descends parent) items (siftDown before items n parent) := by
  induction items, parent using siftDown.induct before n with
  | case1 items parent moves ih =>
      rw [siftDown, if_pos moves]
      have below : Descends parent (bestOf before items n parent) := by
        rcases bestOf_cases before items n parent with same | ⟨lower, _⟩
        · exact absurd same moves
        · apply Descends.child (Nat.lt_of_le_of_lt (Nat.zero_le _) lower)
          rw [bestOf_child moves]
          exact Descends.root
      exact (Rearranges.swap Descends.root below items).trans
        (ih.mono fun place => below.trans)
  | case2 items parent stays =>
      rw [siftDown, if_neg stays]
      exact Rearranges.refl _ items

/-! ### The path -/

section

variable {κ : Type*} [LinearOrder κ] [Inhabited κ] {key : α → κ}
  {before : α → α → Bool} {items : List α}

/-- The child with the greater key, the left one of two that are equal. -/
def greaterChild (key : α → κ) (items : List α) (i : Nat) : Nat :=
  if 2 * i + 2 < items.length ∧
      keyAt key items (2 * i + 1) < keyAt key items (2 * i + 2) then
    2 * i + 2
  else
    2 * i + 1

/-- An element of key `level` sinks from one place to another: on the way along
the greater children every key is above `level`. -/
inductive Sinks (key : α → κ) (items : List α) (level : κ) :
    Nat → Nat → Prop where
  | here (i : Nat) : Sinks key items level i i
  | down {i j : Nat} (inside : greaterChild key items i < items.length)
      (above : level < keyAt key items (greaterChild key items i))
      (rest : Sinks key items level (greaterChild key items i) j) :
      Sinks key items level i j

theorem lt_greaterChild (key : α → κ) (items : List α) (i : Nat) :
    i < greaterChild key items i := by
  rw [greaterChild]
  split <;> omega

/-- An element sinks to places in use only. -/
theorem Sinks.lt_length {level : κ} {i j : Nat}
    (sinks : Sinks key items level i j) (inside : i < items.length) :
    j < items.length := by
  induction sinks with
  | here i => exact inside
  | down inside' above rest ih => exact ih inside'

/-- The path from a place depends on the keys below it only. -/
theorem Sinks.frame {items' : List α} {level : κ} {i j : Nat}
    (length : items'.length = items.length)
    (same : ∀ c, i < c → keyAt key items' c = keyAt key items c)
    (sinks : Sinks key items level i j) : Sinks key items' level i j := by
  induction sinks with
  | here i => exact Sinks.here i
  | down inside above rest ih =>
      rename_i i j
      have child : greaterChild key items' i = greaterChild key items i := by
        rw [greaterChild, greaterChild, length, same _ (by omega),
          same _ (by omega)]
      have lower := lt_greaterChild key items i
      apply Sinks.down
      · rw [child, length]
        exact inside
      · rw [child, same _ lower]
        exact above
      · rw [child]
        exact ih fun c deeper => same c (Nat.lt_trans lower deeper)

/-- The position chosen among two. -/
theorem Ranks.better_eq (ranks : Ranks before key items) (candidate : Nat)
    {best : Nat} (inside : best < items.length) :
    better before items items.length candidate best =
      if candidate < items.length ∧
        keyAt key items best < keyAt key items candidate then candidate
      else best := by
  rw [better]
  by_cases bound : candidate < items.length
  · simp only [bound, decide_true, Bool.true_and, true_and,
      ranks.beforeAt_iff bound inside]
  · simp [bound]

/-- The position chosen among a parent and its children is the greater child if
that one's key is above the parent's. -/
theorem Ranks.bestOf_eq (ranks : Ranks before key items) {i : Nat}
    (inside : i < items.length) :
    bestOf before items items.length i =
      if greaterChild key items i < items.length ∧
        keyAt key items i < keyAt key items (greaterChild key items i) then
        greaterChild key items i
      else i := by
  have left := ranks.better_eq (2 * i + 1) inside
  rw [bestOf, greaterChild]
  by_cases chosen : 2 * i + 1 < items.length ∧
      keyAt key items i < keyAt key items (2 * i + 1)
  · rw [left, if_pos chosen, ranks.better_eq _ chosen.1]
    by_cases right : 2 * i + 2 < items.length ∧
        keyAt key items (2 * i + 1) < keyAt key items (2 * i + 2)
    · rw [if_pos right, if_pos ⟨right.1, chosen.2.trans right.2⟩]
    · rw [if_neg right, if_pos chosen]
  · rw [left, if_neg chosen, ranks.better_eq _ inside]
    by_cases right : 2 * i + 2 < items.length ∧
        keyAt key items (2 * i + 1) < keyAt key items (2 * i + 2)
    · rw [if_pos right]
    · rw [if_neg right, if_neg chosen]
      apply if_neg
      rintro ⟨bound, above⟩
      -- The left child would be above the parent as well.
      have notBelow : keyAt key items (2 * i + 2) ≤ keyAt key items (2 * i + 1) :=
        not_lt.mp fun less => right ⟨bound, less⟩
      exact chosen ⟨by omega, above.trans_le notBelow⟩

/-- An element that is not exchanged sinks nowhere. -/
theorem Ranks.sinks_stays (ranks : Ranks before key items) {i : Nat}
    (inside : i < items.length)
    (stays : bestOf before items items.length i = i) {j : Nat}
    (sinks : Sinks key items (keyAt key items i) i j) : j = i := by
  cases sinks with
  | here => rfl
  | down bound above rest =>
      rw [ranks.bestOf_eq inside, if_pos ⟨bound, above⟩] at stays
      exact absurd stays (lt_greaterChild key items i).ne'

/-- An element that is exchanged sinks on from the child's place. -/
theorem Ranks.sinks_moves_iff (ranks : Ranks before key items) {i : Nat}
    (inside : i < items.length)
    (moves : bestOf before items items.length i ≠ i) (j : Nat) :
    Sinks key items (keyAt key items i) i j ↔ j = i ∨
      Sinks key (swap items i (bestOf before items items.length i))
        (keyAt key (swap items i (bestOf before items items.length i))
          (bestOf before items items.length i))
        (bestOf before items items.length i) j := by
  have chosen := ranks.bestOf_eq inside
  have goes : greaterChild key items i < items.length ∧
      keyAt key items i < keyAt key items (greaterChild key items i) := by
    by_contra stays
    rw [if_neg stays] at chosen
    exact moves chosen
  rw [if_pos goes] at chosen
  have lower := lt_greaterChild key items i
  have moved := keyAt_swap key inside goes.1
  have length := swap_length items i (greaterChild key items i)
  have below : ∀ c, greaterChild key items i < c →
      keyAt key (swap items i (greaterChild key items i)) c =
        keyAt key items c := by
    intro c deeper
    rw [moved, if_neg deeper.ne', if_neg (lower.trans deeper).ne']
  rw [chosen, moved, if_pos rfl]
  constructor
  · intro sinks
    cases sinks with
    | here => exact Or.inl rfl
    | down bound above rest => exact Or.inr (rest.frame length below)
  · rintro (same | rest)
    · rw [same]
      exact Sinks.here i
    · exact Sinks.down goes.1 goes.2
        (rest.frame length.symm fun c deeper => (below c deeper).symm)

end

end BinaryHeap
