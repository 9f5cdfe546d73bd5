/-
Module: OsSim.Library.OpenAddressing
Purpose: Tables with open addressing: searches along a probe path that stop at
  an empty bucket or when the path comes back to its start, and the invariant
  under which such a search decides whether a key is stored.
Trusted boundary: none
Main exports:
  Fresh, Passed, Search, Search.stops_iff, Probed, Probed.search_iff,
  Probed.value_eq_some, Probed.insert, Probed.replace, Probed.erase_iff,
  Probed.detached_of_found
-/
import Mathlib.Logic.Function.Basic

namespace OpenAddressing

variable {κ ν β : Type*}

/-- The path does not come back to its first bucket within `j` steps. -/
def Fresh (path : Nat → β) (j : Nat) : Prop :=
  ∀ i, 0 < i → i ≤ j → path i ≠ path 0

/-- The first `j` buckets of the path hold other keys. -/
def Passed (table : β → Option (κ × ν)) (path : Nat → β) (key : κ) (j : Nat) :
    Prop :=
  ∀ i < j, ∃ entry, table (path i) = some entry ∧ entry.1 ≠ key

/-- How a search ends. -/
inductive Outcome (ν β : Type*) where
  | held (bucket : β) (value : ν)
  | empty (bucket : β)
  | fullCircle

/-- The value found, if any. -/
def Outcome.value : Outcome ν β → Option ν
  | .held _ value => some value
  | .empty _ => none
  | .fullCircle => none

/-- The search for a key along its path ends in this way. -/
inductive Search (table : β → Option (κ × ν)) (path : Nat → β) (key : κ) :
    Outcome ν β → Prop where
  | held (j : Nat) (value : ν) (fresh : Fresh path j)
      (passed : Passed table path key j)
      (here : table (path j) = some (key, value)) :
      Search table path key (.held (path j) value)
  | empty (j : Nat) (fresh : Fresh path j) (passed : Passed table path key j)
      (here : table (path j) = none) :
      Search table path key (.empty (path j))
  | fullCircle (j : Nat) (positive : 0 < j) (back : path j = path 0)
      (passed : Passed table path key j) :
      Search table path key .fullCircle

theorem Fresh.succ {path : Nat → β} {j : Nat} (fresh : Fresh path j)
    (away : path (j + 1) ≠ path 0) : Fresh path (j + 1) := by
  intro i positive bound
  rcases Nat.lt_or_eq_of_le bound with below | last
  · exact fresh i positive (Nat.le_of_lt_succ below)
  · exact last ▸ away

theorem Passed.succ {table : β → Option (κ × ν)} {path : Nat → β} {key : κ}
    {j : Nat} (passed : Passed table path key j) {entry : κ × ν}
    (here : table (path j) = some entry) (other : entry.1 ≠ key) :
    Passed table path key (j + 1) := by
  intro i bound
  rcases Nat.lt_or_eq_of_le (Nat.le_of_lt_succ bound) with below | last
  · exact passed i below
  · exact last ▸ ⟨entry, here, other⟩

/-- A search comes to a bucket that is empty or holds the key exactly when such
a bucket lies on the path before it comes back to its start. -/
theorem Search.stops_iff {table : β → Option (κ × ν)} {path : Nat → β}
    {key : κ} {outcome : Outcome ν β} (search : Search table path key outcome) :
    outcome ≠ .fullCircle ↔
      ∃ j, Fresh path j ∧ ∀ entry, table (path j) = some entry →
        entry.1 = key := by
  constructor
  · intro stops
    cases search with
    | held j value fresh passed here =>
        refine ⟨j, fresh, ?_⟩
        intro entry found
        rw [here, Option.some.injEq] at found
        rw [← found]
    | empty j fresh passed here =>
        refine ⟨j, fresh, ?_⟩
        intro entry found
        rw [here] at found
        cases found
    | fullCircle j positive back passed => exact absurd rfl stops
  · rintro ⟨j, fresh, stop⟩ full
    subst full
    cases search with
    | fullCircle last positive back passed =>
        -- The path comes back only after step `j`, so `j` was passed.
        rcases Nat.lt_or_ge j last with before | after
        · obtain ⟨entry, found, other⟩ := passed j before
          exact other (stop entry found)
        · exact fresh last positive after back

/-! ### The invariant

A search stops at the first empty bucket of its path, so a key is found only as
long as no bucket before its own is empty.  Storing keeps that, since the bucket
that is filled was empty itself.  Emptying a bucket keeps it exactly if no other
key is reached through it.
-/

/-- Every stored key is stored once, and in a bucket of its own path with no
empty bucket before it. -/
structure Probed (path : κ → Nat → β) (table : β → Option (κ × ν)) : Prop where
  unique : ∀ {one other : β} {key : κ} {a b : ν}, table one = some (key, a) →
    table other = some (key, b) → one = other
  reached : ∀ {bucket : β} {key : κ} {value : ν},
    table bucket = some (key, value) →
    ∃ j, path key j = bucket ∧ Fresh (path key) j ∧
      ∀ i < j, path key i ≠ bucket ∧ ∃ entry, table (path key i) = some entry

namespace Probed

variable {path : κ → Nat → β} {table : β → Option (κ × ν)}

theorem empty : Probed path (fun _ => (none : Option (κ × ν))) where
  unique := fun found => by cases found
  reached := fun found => by cases found

/-- A stored key is found, in its bucket. -/
theorem held_of_stored (probed : Probed path table) {key : κ} {value : ν}
    {bucket : β} (stored : table bucket = some (key, value))
    {outcome : Outcome ν β} (search : Search table (path key) key outcome) :
    outcome = .held bucket value := by
  obtain ⟨j, at_, fresh, filled⟩ := probed.reached stored
  have stop : table (path key j) = some (key, value) := at_ ▸ stored
  cases search with
  | held i found fresh' passed here =>
      have same := probed.unique here stored
      rw [same, stored] at here
      simp only [Option.some.injEq, Prod.mk.injEq, true_and] at here
      rw [same, here]
  | empty i fresh' passed here =>
      -- The search passed only other keys, and the path to the key is filled.
      rcases Nat.lt_trichotomy i j with before | same | after
      · obtain ⟨_, entry, occupied⟩ := filled i before
        rw [here] at occupied
        cases occupied
      · rw [same, stop] at here
        cases here
      · obtain ⟨entry, occupied, other⟩ := passed j after
        rw [stop, Option.some.injEq] at occupied
        exact absurd (by rw [← occupied]) other
  | fullCircle i positive back passed =>
      rcases Nat.lt_or_ge j i with before | after
      · obtain ⟨entry, occupied, other⟩ := passed j before
        rw [stop, Option.some.injEq] at occupied
        exact absurd (by rw [← occupied]) other
      · exact absurd back (fresh i positive after)

/-- A search decides whether a key is stored. -/
theorem search_iff (probed : Probed path table) {key : κ}
    {outcome : Outcome ν β} (search : Search table (path key) key outcome)
    {bucket : β} {value : ν} :
    outcome = .held bucket value ↔ table bucket = some (key, value) := by
  constructor
  · intro found
    subst found
    cases search with
    | held j value fresh passed here => exact here
  · intro stored
    exact probed.held_of_stored stored search

/-- The value found is the value stored. -/
theorem value_eq_some (probed : Probed path table) {key : κ}
    {outcome : Outcome ν β} (search : Search table (path key) key outcome)
    {value : ν} :
    outcome.value = some value ↔
      ∃ bucket, table bucket = some (key, value) := by
  constructor
  · intro found
    cases outcome with
    | held bucket old =>
        rw [Outcome.value, Option.some.injEq] at found
        exact ⟨bucket, (probed.search_iff search).mp (by rw [found])⟩
    | empty bucket => cases found
    | fullCircle => cases found
  · rintro ⟨bucket, stored⟩
    rw [probed.held_of_stored stored search]
    rfl

variable [DecidableEq β]

/-- A new key goes into the first empty bucket of its path. -/
theorem insert (probed : Probed path table) {key : κ} {j : Nat}
    (fresh : Fresh (path key) j) (passed : Passed table (path key) key j)
    (here : table (path key j) = none) (value : ν) :
    Probed path
      (Function.update table (path key j) (some (key, value))) := by
  have away : ∀ {bucket : β} {value : ν}, table bucket ≠ some (key, value) := by
    intro bucket value stored
    have found :=
      probed.held_of_stored stored (Search.empty j fresh passed here)
    cases found
  have kept : ∀ {bucket : β} {entry : κ × ν}, table bucket = some entry →
      Function.update table (path key j) (some (key, value)) bucket =
        some entry := by
    intro bucket entry occupied
    rw [Function.update_of_ne _, occupied]
    intro same
    rw [same, here] at occupied
    cases occupied
  have inserted : Function.update table (path key j) (some (key, value))
      (path key j) = some (key, value) := Function.update_self ..
  constructor
  · intro one other found a b oneFound otherFound
    by_cases oneNew : one = path key j <;> by_cases otherNew : other = path key j
    · rw [oneNew, otherNew]
    · rw [oneNew, inserted] at oneFound
      rw [Function.update_of_ne otherNew] at otherFound
      simp only [Option.some.injEq, Prod.mk.injEq] at oneFound
      exact absurd (oneFound.1 ▸ otherFound) away
    · rw [otherNew, inserted] at otherFound
      rw [Function.update_of_ne oneNew] at oneFound
      simp only [Option.some.injEq, Prod.mk.injEq] at otherFound
      exact absurd (otherFound.1 ▸ oneFound) away
    · rw [Function.update_of_ne oneNew] at oneFound
      rw [Function.update_of_ne otherNew] at otherFound
      exact probed.unique oneFound otherFound
  · intro bucket found a stored
    by_cases new : bucket = path key j
    · rw [new, inserted] at stored
      simp only [Option.some.injEq, Prod.mk.injEq] at stored
      obtain ⟨rfl, _⟩ := stored
      refine ⟨j, new.symm, fresh, ?_⟩
      intro i before
      obtain ⟨entry, occupied, _⟩ := passed i before
      refine ⟨?_, entry, kept occupied⟩
      intro same
      rw [same, new, here] at occupied
      cases occupied
    · rw [Function.update_of_ne new] at stored
      obtain ⟨i, at_, fresh', filled⟩ := probed.reached stored
      refine ⟨i, at_, fresh', ?_⟩
      intro m before
      obtain ⟨apart, entry, occupied⟩ := filled m before
      exact ⟨apart, entry, kept occupied⟩

/-- The value of a stored key may be replaced. -/
theorem replace (probed : Probed path table) {bucket : β} {key : κ} {old : ν}
    (stored : table bucket = some (key, old)) (value : ν) :
    Probed path (Function.update table bucket (some (key, value))) := by
  -- The same buckets hold the same keys as before.
  have back : ∀ {place : β} {found : κ} {a : ν},
      Function.update table bucket (some (key, value)) place =
        some (found, a) → ∃ b, table place = some (found, b) := by
    intro place found a read
    by_cases same : place = bucket
    · rw [same, Function.update_self] at read
      simp only [Option.some.injEq, Prod.mk.injEq] at read
      exact ⟨old, by rw [same, stored, read.1]⟩
    · rw [Function.update_of_ne same] at read
      exact ⟨a, read⟩
  constructor
  · intro one other found a b oneFound otherFound
    obtain ⟨a', oneStored⟩ := back oneFound
    obtain ⟨b', otherStored⟩ := back otherFound
    exact probed.unique oneStored otherStored
  · intro place found a read
    obtain ⟨a', placeStored⟩ := back read
    obtain ⟨i, at_, fresh, filled⟩ := probed.reached placeStored
    refine ⟨i, at_, fresh, ?_⟩
    intro m before
    obtain ⟨apart, entry, occupied⟩ := filled m before
    refine ⟨apart, ?_⟩
    by_cases same : path found m = bucket
    · exact ⟨(key, value), by rw [same, Function.update_self]⟩
    · exact ⟨entry, by rw [Function.update_of_ne same, occupied]⟩

/-- No other key is reached through the bucket: it does not lie on the path of
a stored key before that key's own bucket. -/
def Detached (path : κ → Nat → β) (table : β → Option (κ × ν)) (bucket : β) :
    Prop :=
  ∀ place key value, place ≠ bucket → table place = some (key, value) →
    ∀ j, path key j = place → (∀ i < j, path key i ≠ place) →
      ∀ i < j, path key i ≠ bucket

/-- A bucket may be emptied exactly when no other key is reached through it. -/
theorem erase_iff (probed : Probed path table) {bucket : β} :
    Probed path (Function.update table bucket none) ↔
      Detached path table bucket := by
  constructor
  · intro erased place key value apart stored j at_ first i before same
    have kept : Function.update table bucket none place =
        some (key, value) := by
      rw [Function.update_of_ne apart, stored]
    obtain ⟨m, at', _, filled⟩ := erased.reached kept
    -- Both `j` and `m` are the first step at which the path meets `place`.
    have same' : m = j := by
      rcases Nat.lt_trichotomy m j with less | equal | more
      · exact absurd at' (first m less)
      · exact equal
      · exact absurd at_ (filled j more).1
    obtain ⟨_, entry, occupied⟩ := filled i (same' ▸ before)
    rw [same, Function.update_self] at occupied
    cases occupied
  · intro detached
    have back : ∀ {place : β} {entry : κ × ν},
        Function.update table bucket none place = some entry →
        place ≠ bucket ∧ table place = some entry := by
      intro place entry read
      by_cases same : place = bucket
      · rw [same, Function.update_self] at read
        cases read
      · rw [Function.update_of_ne same] at read
        exact ⟨same, read⟩
    constructor
    · intro one other key a b oneFound otherFound
      exact probed.unique (back oneFound).2 (back otherFound).2
    · intro place key value read
      obtain ⟨apart, stored⟩ := back read
      obtain ⟨j, at_, fresh, filled⟩ := probed.reached stored
      refine ⟨j, at_, fresh, ?_⟩
      intro i before
      obtain ⟨early, entry, occupied⟩ := filled i before
      refine ⟨early, entry, ?_⟩
      rw [Function.update_of_ne _, occupied]
      exact detached place key value apart stored j at_
        (fun m less => (filled m less).1) i before

/-- If the other keys are all found after a bucket has been emptied, none of
them was reached through it. -/
theorem detached_of_found (probed : Probed path table) {bucket : β}
    (found : ∀ place key value, place ≠ bucket →
      table place = some (key, value) →
      ∃ outcome, Search (Function.update table bucket none) (path key) key
        outcome ∧ outcome.value = some value) :
    Detached path table bucket := by
  intro place key value apart stored j at_ first i before same
  obtain ⟨outcome, search, look⟩ := found place key value apart stored
  cases search with
  | held m value' fresh passed here =>
      have away : path key m ≠ bucket := by
        intro emptied
        rw [emptied, Function.update_self] at here
        cases here
      rw [Function.update_of_ne away] at here
      have home : path key m = place := probed.unique here stored
      have le : j ≤ m := by
        by_contra early
        exact first m (Nat.lt_of_not_le early) home
      obtain ⟨entry, occupied, _⟩ := passed i (Nat.lt_of_lt_of_le before le)
      rw [same, Function.update_self] at occupied
      cases occupied
  | empty m fresh passed here => cases look
  | fullCircle m positive back passed => cases look

end Probed

end OpenAddressing
