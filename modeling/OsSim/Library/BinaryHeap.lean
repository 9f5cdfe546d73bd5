/-
Module: OsSim.Library.BinaryHeap
Purpose: Sifting in a binary heap kept in a list: what moving an element up or
  down does to the contents, to the root, and to the order of the heap.
Trusted boundary: none
Main exports:
  swap, siftUp, siftDown, replaceRoot, swap_perm, siftUp_perm, siftDown_perm,
  replaceRoot_perm, siftUp_root, swap_map, keyAt, keyAt_replaceRoot, Ranks,
  Ordered, Ordered.siftUp_eq, Rising, Sinking, Rising.siftUp, Sinking.siftDown,
  Ordered.le_root
-/
import Mathlib.Data.List.Perm.Basic
import Mathlib.Data.Nat.Basic
import Mathlib.Order.Lattice

namespace BinaryHeap

variable {α : Type*}

/-- Exchange the elements at two positions. -/
def swap (items : List α) (i j : Nat) : List α :=
  match items[i]?, items[j]? with
  | some a, some b => (items.set i b).set j a
  | _, _ => items

/-- Whether the element at one position goes before the one at another. -/
def beforeAt (before : α → α → Bool) (items : List α) (i j : Nat) : Bool :=
  match items[i]?, items[j]? with
  | some a, some b => before a b
  | _, _ => false

/-- Move the element at `child` up for as long as it goes before its parent. -/
def siftUp (before : α → α → Bool) (items : List α) (child : Nat) : List α :=
  if 0 < child then
    if beforeAt before items child ((child - 1) / 2) then
      siftUp before (swap items child ((child - 1) / 2)) ((child - 1) / 2)
    else
      items
  else
    items
termination_by child
decreasing_by omega

/-- The better of two positions, where the first one counts only below `n`. -/
def better (before : α → α → Bool) (items : List α) (n candidate best : Nat) :
    Nat :=
  if candidate < n && beforeAt before items candidate best then candidate
  else best

theorem better_cases (before : α → α → Bool) (items : List α)
    (n candidate best : Nat) :
    better before items n candidate best = best ∨
      (better before items n candidate best = candidate ∧ candidate < n) := by
  rw [better]
  split
  next chosen =>
    rw [Bool.and_eq_true, decide_eq_true_iff] at chosen
    exact Or.inr ⟨rfl, chosen.1⟩
  next => exact Or.inl rfl

theorem better_lt (before : α → α → Bool) (items : List α) {n : Nat}
    (candidate : Nat) {best : Nat} (inside : best < n) :
    better before items n candidate best < n := by
  rcases better_cases before items n candidate best with same | ⟨same, bound⟩
  · rw [same]
    exact inside
  · rw [same]
    exact bound

/-- The position that belongs at `parent` among it and its children below `n`. -/
def bestOf (before : α → α → Bool) (items : List α) (n parent : Nat) : Nat :=
  better before items n (2 * parent + 2)
    (better before items n (2 * parent + 1) parent)

/-- A position other than the parent itself is one of its children, below `n`. -/
theorem bestOf_cases (before : α → α → Bool) (items : List α) (n parent : Nat) :
    bestOf before items n parent = parent ∨
      (parent < bestOf before items n parent ∧
        bestOf before items n parent < n) := by
  rw [bestOf]
  rcases better_cases before items n (2 * parent + 2)
      (better before items n (2 * parent + 1) parent) with same | ⟨right, below⟩
  · rw [same]
    rcases better_cases before items n (2 * parent + 1) parent with
      same | ⟨left, below⟩
    · exact Or.inl same
    · rw [left]
      omega
  · rw [right]
    omega

/-- Move the element at `parent` down, among the positions below `n`, for as
long as a child goes before it. -/
def siftDown (before : α → α → Bool) (items : List α) (n parent : Nat) :
    List α :=
  if bestOf before items n parent ≠ parent then
    siftDown before (swap items parent (bestOf before items n parent)) n
      (bestOf before items n parent)
  else
    items
termination_by n - parent
decreasing_by
  have cases := bestOf_cases before items n parent
  omega

/-! ### The contents -/

theorem swap_perm (items : List α) (i j : Nat) : (swap items i j).Perm items := by
  rw [swap]
  split
  next a b first second =>
    obtain ⟨inside, rfl⟩ := List.getElem?_eq_some_iff.mp first
    obtain ⟨inside', rfl⟩ := List.getElem?_eq_some_iff.mp second
    exact List.set_set_perm inside inside'
  next => exact List.Perm.refl _

theorem siftUp_perm (before : α → α → Bool) (items : List α) (child : Nat) :
    (siftUp before items child).Perm items := by
  induction items, child using siftUp.induct before with
  | case1 items child positive smaller ih =>
      rw [siftUp, if_pos positive, if_pos smaller]
      exact ih.trans (swap_perm ..)
  | case2 items child positive smaller =>
      rw [siftUp, if_pos positive, if_neg smaller]
  | case3 items child root => rw [siftUp, if_neg root]

theorem siftDown_perm (before : α → α → Bool) (items : List α)
    (n parent : Nat) : (siftDown before items n parent).Perm items := by
  induction items, parent using siftDown.induct before n with
  | case1 items parent moves ih =>
      rw [siftDown, if_pos moves]
      exact ih.trans (swap_perm ..)
  | case2 items parent stays => rw [siftDown, if_neg stays]

/-- The elements after the last one has taken the place of the root. -/
def replaceRoot (items : List α) : List α :=
  (swap items 0 (items.length - 1)).dropLast

theorem length_replaceRoot (items : List α) :
    (replaceRoot items).length = items.length - 1 := by
  rw [replaceRoot, List.length_dropLast, (swap_perm ..).length_eq]

theorem mem_of_mem_replaceRoot {items : List α} {a : α}
    (member : a ∈ replaceRoot items) : a ∈ items :=
  (swap_perm ..).mem_iff.mp (List.dropLast_subset _ member)

/-- Exchanging the root with the last element and dropping the last position
leaves the elements other than the root. -/
theorem replaceRoot_perm (root : α) (rest : List α) :
    (replaceRoot (root :: rest)).Perm rest := by
  rw [replaceRoot, List.length_cons, Nat.add_sub_cancel]
  rcases List.eq_nil_or_concat rest with empty | ⟨middle, last, split⟩
  · subst empty
    exact List.Perm.refl _
  · rw [List.concat_eq_append] at split
    subst split
    have exchanged : swap (root :: (middle ++ [last])) 0
        (middle ++ [last]).length = last :: (middle ++ [root]) := by
      simp [swap]
    rw [exchanged, ← List.cons_append, List.dropLast_concat]
    exact (List.perm_append_singleton last middle).symm

/-! ### The root -/

theorem siftUp_zero (before : α → α → Bool) (items : List α) :
    siftUp before items 0 = items := by
  rw [siftUp, if_neg (Nat.lt_irrefl 0)]

/-- Two positions after an exchange, and every other one. -/
theorem swap_getElem? {items : List α} {i j : Nat} {a b : α}
    (first : items[i]? = some a) (second : items[j]? = some b) (k : Nat) :
    (swap items i j)[k]? =
      if k = j then some a else if k = i then some b else items[k]? := by
  obtain ⟨inside, _⟩ := List.getElem?_eq_some_iff.mp first
  obtain ⟨inside', _⟩ := List.getElem?_eq_some_iff.mp second
  rw [swap, first, second]
  dsimp only
  rw [List.getElem?_set, List.getElem?_set, List.length_set]
  by_cases atSecond : j = k
  · subst atSecond
    simp [inside']
  · rw [if_neg atSecond, if_neg (Ne.symm atSecond)]
    by_cases atFirst : i = k
    · subst atFirst
      simp [inside]
    · rw [if_neg atFirst, if_neg (Ne.symm atFirst)]

/-- Exchanging images exchanges the elements. -/
theorem swap_map {β : Type*} (f : α → β) (items : List α) (i j : Nat) :
    swap (items.map f) i j = (swap items i j).map f := by
  rw [swap, swap, List.getElem?_map, List.getElem?_map]
  cases items[i]? with
  | none => rfl
  | some a =>
      cases items[j]? with
      | none => rfl
      | some b => rw [Option.map_some, Option.map_some, List.map_set, List.map_set]

/-- After moving an element up, the root is the old one, or it is that element
and goes before the old root. -/
theorem siftUp_root (before : α → α → Bool) {items : List α} {child : Nat}
    {item root : α} (moved : items[child]? = some item)
    (top : items[0]? = some root) :
    (siftUp before items child)[0]? = some root ∨
      ((siftUp before items child)[0]? = some item ∧
        before item root = true) := by
  induction items, child using siftUp.induct before with
  | case1 items child positive smaller ih =>
      rw [siftUp, if_pos positive, if_pos smaller]
      rw [beforeAt, moved] at smaller
      cases above : items[(child - 1) / 2]? with
      | none => simp [above] at smaller
      | some upper =>
          rw [above] at smaller
          have placed := swap_getElem? moved above
          by_cases atTop : (child - 1) / 2 = 0
          · rw [atTop] at above placed ⊢
            rw [siftUp_zero, placed 0, if_pos rfl]
            rw [top, Option.some.injEq] at above
            exact Or.inr ⟨rfl, above ▸ smaller⟩
          · apply ih
            · rw [placed, if_pos rfl]
            · rw [placed, if_neg (Ne.symm atTop), if_neg (by omega), top]
  | case2 items child positive smaller =>
      rw [siftUp, if_pos positive, if_neg smaller]
      exact Or.inl top
  | case3 items child root =>
      rw [siftUp, if_neg root]
      exact Or.inl top

/-! ### The order

Positions are compared by the keys of the elements there. -/

section

variable {κ : Type*} {key : α → κ} {before : α → α → Bool} {items : List α}

/-- The key of the element at a position. -/
def keyAt [Inhabited κ] (key : α → κ) (items : List α) (i : Nat) : κ :=
  ((items[i]?).map key).getD default

theorem keyAt_of_getElem? [Inhabited κ] {i : Nat} {a : α}
    (found : items[i]? = some a) : keyAt key items i = key a := by
  rw [keyAt, found, Option.map_some, Option.getD_some]

theorem keyAt_append_left [Inhabited κ] (key : α → κ) (more : List α) {i : Nat}
    (inside : i < items.length) : keyAt key (items ++ more) i = keyAt key items i := by
  rw [keyAt, List.getElem?_append_left inside, keyAt]

theorem swap_length (items : List α) (i j : Nat) :
    (swap items i j).length = items.length :=
  (swap_perm items i j).length_eq

/-- An exchange of two positions exchanges their keys. -/
theorem keyAt_swap [Inhabited κ] (key : α → κ) {i j : Nat} (first : i < items.length)
    (second : j < items.length) (k : Nat) :
    keyAt key (swap items i j) k =
      if k = j then keyAt key items i
      else if k = i then keyAt key items j else keyAt key items k := by
  have left := List.getElem?_eq_getElem first
  have right := List.getElem?_eq_getElem second
  rw [keyAt, swap_getElem? left right, keyAt_of_getElem? left,
    keyAt_of_getElem? right]
  split
  next => rfl
  next =>
    split
    next => rfl
    next => rfl

theorem keyAt_replaceRoot [Inhabited κ] (key : α → κ) {i : Nat}
    (inside : i + 1 < items.length) :
    keyAt key (replaceRoot items) i =
      if i = 0 then keyAt key items (items.length - 1) else keyAt key items i := by
  have moved := keyAt_swap key (show 0 < items.length by omega)
    (show items.length - 1 < items.length by omega) i
  rw [if_neg (by omega)] at moved
  rw [← moved, keyAt, replaceRoot, List.getElem?_dropLast,
    if_pos (by rw [swap_perm .. |>.length_eq]; omega), keyAt]

variable [LinearOrder κ]

/-- The test by which elements are exchanged compares their keys. -/
def Ranks (before : α → α → Bool) (key : α → κ) (items : List α) : Prop :=
  ∀ a ∈ items, ∀ b ∈ items, (before a b = true ↔ key b < key a)

theorem Ranks.perm {items' : List α} (ranks : Ranks before key items)
    (perm : items'.Perm items) : Ranks before key items' :=
  fun a left b right => ranks a (perm.mem_iff.mp left) b (perm.mem_iff.mp right)

variable [Inhabited κ]

/-- No element has a greater key than its parent. -/
def Ordered (key : α → κ) (items : List α) : Prop :=
  ∀ c, 0 < c → c < items.length →
    keyAt key items c ≤ keyAt key items ((c - 1) / 2)

/-- The heap is in order but for the element at `hole`, which may have a greater
key than its parent. -/
structure Rising (key : α → κ) (items : List α) (hole : Nat) : Prop where
  inside : hole < items.length
  pairs : ∀ c, 0 < c → c < items.length → c ≠ hole →
    keyAt key items c ≤ keyAt key items ((c - 1) / 2)
  skip : 0 < hole → ∀ c, 0 < c → c < items.length → (c - 1) / 2 = hole →
    keyAt key items c ≤ keyAt key items ((hole - 1) / 2)

/-- The heap is in order but for the element at `hole`, which may have a smaller
key than its children. -/
structure Sinking (key : α → κ) (items : List α) (hole : Nat) : Prop where
  inside : hole < items.length
  pairs : ∀ c, 0 < c → c < items.length → (c - 1) / 2 ≠ hole →
    keyAt key items c ≤ keyAt key items ((c - 1) / 2)
  skip : 0 < hole → ∀ c, 0 < c → c < items.length → (c - 1) / 2 = hole →
    keyAt key items c ≤ keyAt key items ((hole - 1) / 2)

/-- The test between two positions. -/
theorem Ranks.beforeAt_iff (ranks : Ranks before key items) {i j : Nat}
    (first : i < items.length) (second : j < items.length) :
    beforeAt before items i j = true ↔ keyAt key items j < keyAt key items i := by
  have left := List.getElem?_eq_getElem first
  have right := List.getElem?_eq_getElem second
  rw [beforeAt, left, right, keyAt_of_getElem? left, keyAt_of_getElem? right]
  exact ranks _ (List.getElem_mem first) _ (List.getElem_mem second)

/-- An exchange with the parent moves the hole up. -/
theorem Rising.swap {hole : Nat} (rising : Rising key items hole)
    (positive : 0 < hole)
    (higher : keyAt key items ((hole - 1) / 2) < keyAt key items hole) :
    Rising key (swap items hole ((hole - 1) / 2)) ((hole - 1) / 2) := by
  have upper : (hole - 1) / 2 < hole := by omega
  have inside' : (hole - 1) / 2 < items.length :=
    Nat.lt_trans upper rising.inside
  have moved := keyAt_swap key rising.inside inside'
  constructor
  · rw [swap_length]
    exact inside'
  · intro c lower bound other
    rw [swap_length] at bound
    rw [moved c, if_neg other, moved ((c - 1) / 2)]
    by_cases atHole : c = hole
    · rw [if_pos atHole, atHole, if_pos rfl]
      exact higher.le
    · rw [if_neg atHole]
      by_cases sibling : (c - 1) / 2 = (hole - 1) / 2
      · rw [if_pos sibling]
        have old := rising.pairs c lower bound atHole
        rw [sibling] at old
        exact old.trans higher.le
      · rw [if_neg sibling]
        by_cases child : (c - 1) / 2 = hole
        · rw [if_pos child]
          exact rising.skip positive c lower bound child
        · rw [if_neg child]
          exact rising.pairs c lower bound atHole
  · intro upperPositive c lower bound child
    rw [swap_length] at bound
    have old := rising.pairs ((hole - 1) / 2) upperPositive inside'
      (Nat.ne_of_lt upper)
    have apart : c ≠ (hole - 1) / 2 := by omega
    have higherUp : ((hole - 1) / 2 - 1) / 2 ≠ (hole - 1) / 2 ∧
        ((hole - 1) / 2 - 1) / 2 ≠ hole := by omega
    rw [moved (((hole - 1) / 2 - 1) / 2), if_neg higherUp.1, if_neg higherUp.2,
      moved c, if_neg apart]
    by_cases atHole : c = hole
    · rw [if_pos atHole]
      exact old
    · rw [if_neg atHole]
      have mine := rising.pairs c lower bound atHole
      rw [child] at mine
      exact mine.trans old

/-- The first elements of a heap in order are one as well. -/
theorem Ordered.of_append {more : List α} (ordered : Ordered key (items ++ more)) :
    Ordered key items := by
  intro c positive inside
  rw [← keyAt_append_left key more inside,
    ← keyAt_append_left key more (show (c - 1) / 2 < items.length by omega)]
  exact ordered c positive (by rw [List.length_append]; omega)

/-- In a heap in order no element moves up. -/
theorem Ordered.siftUp_eq {i : Nat} (ordered : Ordered key items)
    (ranks : Ranks before key items) (inside : i < items.length) :
    siftUp before items i = items := by
  rw [siftUp]
  split
  next positive =>
    rw [if_neg]
    rw [ranks.beforeAt_iff inside (by omega), not_lt]
    exact ordered i positive inside
  next => rfl

/-- Moving up the one element that is out of order puts the heap in order. -/
theorem Rising.siftUp {hole : Nat} (ranks : Ranks before key items)
    (rising : Rising key items hole) :
    Ordered key (siftUp before items hole) := by
  induction items, hole using siftUp.induct before with
  | case1 items hole positive smaller ih =>
      rw [BinaryHeap.siftUp, if_pos positive, if_pos smaller]
      have upper : (hole - 1) / 2 < items.length :=
        Nat.lt_of_le_of_lt (Nat.div_le_self _ _ |>.trans (Nat.sub_le _ _))
          rising.inside
      exact ih (ranks.perm (swap_perm ..)) (rising.swap positive
        ((ranks.beforeAt_iff rising.inside upper).mp smaller))
  | case2 items hole positive smaller =>
      rw [BinaryHeap.siftUp, if_pos positive, if_neg smaller]
      have upper : (hole - 1) / 2 < items.length :=
        Nat.lt_of_le_of_lt (Nat.div_le_self _ _ |>.trans (Nat.sub_le _ _))
          rising.inside
      rw [ranks.beforeAt_iff rising.inside upper, not_lt] at smaller
      intro c lower bound
      by_cases atHole : c = hole
      · rw [atHole]
        exact smaller
      · exact rising.pairs c lower bound atHole
  | case3 items hole root =>
      rw [BinaryHeap.siftUp, if_neg root]
      intro c lower bound
      exact rising.pairs c lower bound (by omega)

/-- The chosen position has at least the keys of both. -/
theorem Ranks.le_better (ranks : Ranks before key items) (candidate : Nat)
    {best : Nat} (inside : best < items.length) :
    keyAt key items best ≤
        keyAt key items (better before items items.length candidate best) ∧
      (candidate < items.length → keyAt key items candidate ≤
        keyAt key items (better before items items.length candidate best)) := by
  rw [better]
  split
  next chosen =>
    rw [Bool.and_eq_true, decide_eq_true_iff] at chosen
    have less := (ranks.beforeAt_iff chosen.1 inside).mp chosen.2
    exact ⟨less.le, fun _ => le_refl _⟩
  next other =>
    refine ⟨le_refl _, fun bound => ?_⟩
    rw [Bool.and_eq_true, decide_eq_true_iff, not_and] at other
    have notBefore := other bound
    rw [ranks.beforeAt_iff bound inside, not_lt] at notBefore
    exact notBefore

/-- The position that belongs at the parent has the greatest key there. -/
theorem Ranks.le_bestOf (ranks : Ranks before key items) {parent : Nat}
    (inside : parent < items.length) :
    keyAt key items parent ≤
        keyAt key items (bestOf before items items.length parent) ∧
      ∀ c, 0 < c → c < items.length → (c - 1) / 2 = parent →
        keyAt key items c ≤
          keyAt key items (bestOf before items items.length parent) := by
  have first := ranks.le_better (2 * parent + 1) inside
  have middle := better_lt before items (2 * parent + 1) inside
  have second := ranks.le_better (2 * parent + 2) middle
  rw [bestOf]
  refine ⟨first.1.trans second.1, fun c lower bound child => ?_⟩
  have sides : c = 2 * parent + 1 ∨ c = 2 * parent + 2 := by omega
  rcases sides with left | right
  · subst left
    exact (first.2 bound).trans second.1
  · subst right
    exact second.2 bound

/-- A position that goes up belongs to a child. -/
theorem bestOf_child {n parent : Nat}
    (moves : bestOf before items n parent ≠ parent) :
    (bestOf before items n parent - 1) / 2 = parent := by
  rw [bestOf] at moves ⊢
  rcases better_cases before items n (2 * parent + 2)
      (better before items n (2 * parent + 1) parent) with same | ⟨same, _⟩
  · rw [same] at moves ⊢
    rcases better_cases before items n (2 * parent + 1) parent with
      same' | ⟨same', _⟩
    · exact absurd same' moves
    · rw [same']
      omega
  · rw [same]
    omega

/-- An exchange with the child of the greatest key moves the hole down. -/
theorem Sinking.swap {hole best : Nat} (sinking : Sinking key items hole)
    (child : (best - 1) / 2 = hole) (below : hole < best)
    (inside : best < items.length)
    (greatest : ∀ c, 0 < c → c < items.length → (c - 1) / 2 = hole →
      keyAt key items c ≤ keyAt key items best)
    (higher : keyAt key items hole ≤ keyAt key items best) :
    Sinking key (swap items hole best) best := by
  have moved := keyAt_swap key sinking.inside inside
  constructor
  · rw [swap_length]
    exact inside
  · intro c lower bound other
    rw [swap_length] at bound
    rw [moved ((c - 1) / 2), if_neg other, moved c]
    by_cases atBest : c = best
    · rw [if_pos atBest, atBest, child, if_pos rfl]
      exact higher
    · rw [if_neg atBest]
      by_cases atHole : c = hole
      · rw [if_pos atHole, if_neg (by omega), atHole]
        exact sinking.skip (by omega) best (by omega) inside child
      · rw [if_neg atHole]
        by_cases sibling : (c - 1) / 2 = hole
        · rw [if_pos sibling]
          exact greatest c lower bound sibling
        · rw [if_neg sibling]
          exact sinking.pairs c lower bound sibling
  · intro _ c lower bound grandchild
    rw [swap_length] at bound
    rw [moved c, if_neg (by omega), if_neg (by omega), child, moved hole,
      if_neg below.ne, if_pos rfl, ← grandchild]
    exact sinking.pairs c lower bound (by omega)

/-- Moving down the one element that is out of order puts the heap in order. -/
theorem Sinking.siftDown {hole : Nat} (ranks : Ranks before key items)
    (sinking : Sinking key items hole) :
    Ordered key (siftDown before items items.length hole) := by
  induction n : items.length - hole using Nat.strong_induction_on
    generalizing items hole with
  | _ n ih =>
      have greatest := ranks.le_bestOf sinking.inside
      rw [BinaryHeap.siftDown]
      split
      next moves =>
        have child := bestOf_child moves
        rcases bestOf_cases before items items.length hole with
          same | ⟨below, inside⟩
        · exact absurd same moves
        · have rest := ih _ (by rw [swap_length]; omega)
            (ranks.perm (swap_perm ..))
            (sinking.swap child below inside greatest.2 greatest.1) rfl
          rw [swap_length] at rest
          exact rest
      next stays =>
        rw [not_not] at stays
        rw [stays] at greatest
        intro c lower bound
        by_cases child : (c - 1) / 2 = hole
        · rw [child]
          exact greatest.2 c lower bound child
        · exact sinking.pairs c lower bound child

/-- In a heap that is in order the root has the greatest key. -/
theorem Ordered.le_root (ordered : Ordered key items) {i : Nat}
    (inside : i < items.length) :
    keyAt key items i ≤ keyAt key items 0 := by
  induction i using Nat.strong_induction_on with
  | _ i ih =>
      rcases Nat.eq_zero_or_pos i with root | positive
      · rw [root]
      · exact (ordered i positive inside).trans
          (ih ((i - 1) / 2) (by omega) (by omega))

theorem Ordered.le_front {root a : α} {rest : List α}
    (ordered : Ordered key (root :: rest)) (member : a ∈ root :: rest) :
    key a ≤ key root := by
  obtain ⟨i, inside, rfl⟩ := List.mem_iff_getElem.mp member
  have bound := ordered.le_root inside
  rwa [keyAt_of_getElem? (List.getElem?_eq_getElem inside)] at bound

end

end BinaryHeap
