/-
Module: OsSim.HashMap
Purpose: The open-addressing hash map of `DS/hash_map.c`, what its probe loop
  finds, and when an insertion fails.
Trusted boundary: human-reviewed translation
Main exports:
  HashNode, HashMap, hashmapIntHash, hashmapCreate, hashmapPut, hashmapGet,
  hashmapRemove, probe_spec, HashMap.Counted, HashMap.Counted.full_iff,
  HashMap.Formed, HashMap.Formed.hashmapPut_spec,
  HashMap.Formed.hashmapRemove_spec
-/
import OsSim.Library.OpenAddressing
import OsSim.Library.PointerMemory
import OsSim.Library.Trace
import Mathlib.Algebra.Order.Group.Nat
import Mathlib.Data.Nat.ModEq
import Mathlib.Data.List.Count

namespace OsSim

open PointerMemory
open OpenAddressing
open Trace

/-- `struct HashNode`.  A value is a pointer that is not NULL. -/
structure HashNode (ν : Type) where
  key : Int
  value : ν
deriving Repr, DecidableEq

/-- `HashMap`.  A node belongs to one bucket only, so it stands in its bucket. -/
structure HashMap (ν : Type) where
  buckets : List (Option (HashNode ν))
  capacity : Nat
  size : Nat
deriving Repr, DecidableEq

/-- Number of values of `size_t` and of `unsigned long`. -/
def sizeRange : Nat := 2 ^ 64

/-- `hashmap_int_hash`: Knuth's multiplicative method in `unsigned long`. -/
def hashmapIntHash (key : Int) : Nat :=
  (((key % sizeRange).toNat * 2654435761) % sizeRange) / 2 ^ 16

def hashmapCreate (ν : Type) (capacity : Nat) : HashMap ν :=
  { buckets := List.replicate capacity none, capacity := capacity, size := 0 }

/-- `(original_index + step * step) % map->capacity` in `size_t`. -/
def probeIndex (capacity originalIndex step : Nat) : Nat :=
  (originalIndex + step * step) % sizeRange % capacity

/-- The probe loop of `hashmap_put`, `hashmap_get` and `hashmap_remove`: quadratic
probing from `index` on, up to an empty bucket, the key, or a full circle. -/
def probeLoop {ν : Type} (map : HashMap ν) (key : Int) (originalIndex : Nat) :
    Nat → Nat → Nat → Except Fault (Outcome ν Nat)
  | 0, _, _ => .error .outOfFuel
  | fuel + 1, index, step =>
      match map.buckets[index]? with
      | none => .error .danglingPointer
      | some none => .ok (.empty index)
      | some (some node) =>
          if node.key = key then
            .ok (.held index node.value)
          else
            let next := probeIndex map.capacity originalIndex step
            if next = originalIndex then
              .ok .fullCircle
            else
              probeLoop map key originalIndex fuel next (step + 1)

/-- The search that the three operations start with.  After `sizeRange` steps
`step` is zero again, and the probe is back at its start. -/
def probe {ν : Type} (map : HashMap ν) (key : Int) :
    Except Fault (Outcome ν Nat) :=
  probeLoop map key (hashmapIntHash key % map.capacity) sizeRange
    (hashmapIntHash key % map.capacity) 1

/-- `hashmap_put`, with its result: 0 for a replaced value, 1 for a new key,
-1 for a failure. -/
def hashmapPut {ν : Type} (map : HashMap ν) (key : Int) (value : ν) :
    Except Fault (HashMap ν × Int) :=
  if map.capacity ≤ map.size then
    .ok (map, -1)
  else do
    let node := { key := key, value := value }
    match ← probe map key with
    | .held index _ =>
        pure ({ map with buckets := map.buckets.set index (some node) }, 0)
    | .empty index =>
        pure ({ map with
          buckets := map.buckets.set index (some node)
          size := map.size + 1 }, 1)
    | .fullCircle => pure (map, -1)

/-- `hashmap_get` -/
def hashmapGet {ν : Type} (map : HashMap ν) (key : Int) :
    Except Fault (Option ν) := do
  match ← probe map key with
  | .held _ value => pure (some value)
  | .empty _ => pure none
  | .fullCircle => pure none

/-- `hashmap_remove`, with its result: 0 for a removed key, -1 otherwise. -/
def hashmapRemove {ν : Type} (map : HashMap ν) (key : Int) :
    Except Fault (HashMap ν × Int) := do
  match ← probe map key with
  | .held index _ =>
      pure ({ map with
        buckets := map.buckets.set index none
        size := map.size - 1 }, 0)
  | .empty _ => pure (map, -1)
  | .fullCircle => pure (map, -1)

/-- The results of `hashmap_put`. -/
theorem hashmapPut_status {ν : Type} {map after : HashMap ν} {key status : Int}
    {value : ν} (put : hashmapPut map key value = .ok (after, status)) :
    status = -1 ∨ status = 0 ∨ status = 1 := by
  rw [hashmapPut] at put
  split at put
  · simp only [Except.ok.injEq, Prod.mk.injEq] at put
    exact Or.inl put.2.symm
  · obtain ⟨outcome, _, ends⟩ := bind_eq_ok.mp put
    cases outcome with
    | held index old =>
        simp only [pure_eq_ok, Except.ok.injEq, Prod.mk.injEq] at ends
        exact Or.inr (Or.inl ends.2.symm)
    | empty index =>
        simp only [pure_eq_ok, Except.ok.injEq, Prod.mk.injEq] at ends
        exact Or.inr (Or.inr ends.2.symm)
    | fullCircle =>
        simp only [pure_eq_ok, Except.ok.injEq, Prod.mk.injEq] at ends
        exact Or.inl ends.2.symm

/-! ### The probe path -/

/-- The bucket that a key's probe visits at a step. -/
def probePath (capacity : Nat) (key : Int) (step : Nat) : Nat :=
  probeIndex capacity (hashmapIntHash key % capacity) step

theorem hashmapIntHash_lt (key : Int) : hashmapIntHash key < sizeRange := by
  apply Nat.lt_of_le_of_lt (Nat.div_le_self _ _)
  exact Nat.mod_lt _ (by decide)

theorem probePath_lt {capacity : Nat} (positive : 1 ≤ capacity) (key : Int)
    (step : Nat) : probePath capacity key step < capacity :=
  Nat.mod_lt _ positive

theorem probePath_zero (capacity : Nat) (key : Int) :
    probePath capacity key 0 = hashmapIntHash key % capacity := by
  have small : hashmapIntHash key % capacity < sizeRange :=
    Nat.lt_of_le_of_lt (Nat.mod_le _ _) (hashmapIntHash_lt key)
  rw [probePath, probeIndex, Nat.mul_zero, Nat.add_zero,
    Nat.mod_eq_of_lt small, Nat.mod_mod]

/-- When `step` wraps around, the probe is back at its first bucket. -/
theorem probePath_wraps (capacity : Nat) (key : Int) :
    probePath capacity key sizeRange = probePath capacity key 0 := by
  rw [probePath, probePath, probeIndex, probeIndex,
    Nat.add_mul_mod_self_left, Nat.mul_zero, Nat.add_zero]

/-- Where nothing overflows, the probe comes back at the steps whose square the
capacity divides. -/
theorem probePath_back_iff {capacity : Nat} (positive : 1 ≤ capacity)
    (key : Int) {step : Nat} (small : capacity + step * step ≤ sizeRange) :
    probePath capacity key step = probePath capacity key 0 ↔
      capacity ∣ step * step := by
  have start : hashmapIntHash key % capacity < capacity :=
    Nat.mod_lt _ positive
  have noWrap : hashmapIntHash key % capacity + step * step < sizeRange := by
    omega
  rw [probePath_zero, probePath, probeIndex, Nat.mod_eq_of_lt noWrap,
    Nat.dvd_iff_mod_eq_zero]
  constructor
  · intro back
    have congruent : Nat.ModEq capacity
        (hashmapIntHash key % capacity + step * step)
        (hashmapIntHash key % capacity + 0) := by
      rw [Nat.ModEq, back, Nat.add_zero, Nat.mod_mod]
    exact Nat.ModEq.add_left_cancel' _ congruent
  · intro divides
    rw [Nat.add_mod, divides, Nat.add_zero, Nat.mod_mod, Nat.mod_mod]

/-! ### What the probe finds -/

namespace HashMap

variable {ν : Type}

/-- Key and value in a bucket. -/
def table (map : HashMap ν) (bucket : Nat) : Option (Int × ν) :=
  map.buckets[bucket]?.join.map fun node => (node.key, node.value)

theorem table_set (map : HashMap ν) {bucket : Nat} (cell : Option (HashNode ν))
    (inside : bucket < map.buckets.length) (size : Nat) :
    table { map with buckets := map.buckets.set bucket cell, size := size } =
      Function.update map.table bucket
        (cell.map fun node => (node.key, node.value)) := by
  funext place
  by_cases same : place = bucket
  · rw [same, Function.update_self, table,
      List.getElem?_set_self inside]
    rfl
  · rw [Function.update_of_ne same, table, table,
      List.getElem?_set_ne (Ne.symm same)]

end HashMap

theorem probeLoop_spec {ν : Type} {map : HashMap ν} (key : Int)
    (positive : 1 ≤ map.capacity) (room : map.buckets.length = map.capacity) :
    ∀ (fuel j : Nat), sizeRange ≤ fuel + j →
      Fresh (probePath map.capacity key) j →
      Passed map.table (probePath map.capacity key) key j →
      ∃ outcome, probeLoop map key (hashmapIntHash key % map.capacity) fuel
          (probePath map.capacity key j) (j + 1) = .ok outcome ∧
        Search map.table (probePath map.capacity key) key outcome := by
  intro fuel
  induction fuel with
  | zero =>
      intro j enough fresh passed
      rw [Nat.zero_add] at enough
      exact absurd (probePath_wraps map.capacity key)
        (fresh sizeRange (by decide) enough)
  | succ fuel ih =>
      intro j enough fresh passed
      have inside : probePath map.capacity key j < map.buckets.length :=
        room ▸ probePath_lt positive key j
      rw [probeLoop, List.getElem?_eq_getElem inside]
      cases cell : map.buckets[probePath map.capacity key j] with
      | none =>
          refine ⟨_, rfl, Search.empty j fresh passed ?_⟩
          rw [HashMap.table, List.getElem?_eq_getElem inside, cell]
          rfl
      | some node =>
          have here : map.table (probePath map.capacity key j) =
              some (node.key, node.value) := by
            rw [HashMap.table, List.getElem?_eq_getElem inside, cell]
            rfl
          by_cases same : node.key = key
          · refine ⟨.held (probePath map.capacity key j) node.value, ?_, ?_⟩
            · simp only [same, if_true]
            · rw [same] at here
              exact Search.held j node.value fresh passed here
          · simp only [same, if_false]
            have passed' := passed.succ here same
            by_cases back : probeIndex map.capacity
                (hashmapIntHash key % map.capacity) (j + 1) =
                  hashmapIntHash key % map.capacity
            · rw [if_pos back]
              refine ⟨_, rfl, Search.fullCircle (j + 1) (Nat.succ_pos j) ?_
                passed'⟩
              rw [probePath_zero]
              exact back
            · rw [if_neg back]
              have away : probePath map.capacity key (j + 1) ≠
                  probePath map.capacity key 0 := by
                rw [probePath_zero]
                exact back
              exact ih (j + 1) (by omega) (fresh.succ away) passed'

/-- The probe loop returns, with the outcome of a search along the probe path. -/
theorem probe_spec {ν : Type} {map : HashMap ν} (key : Int)
    (positive : 1 ≤ map.capacity) (room : map.buckets.length = map.capacity) :
    ∃ outcome, probe map key = .ok outcome ∧
      Search map.table (probePath map.capacity key) key outcome := by
  have start := probeLoop_spec key positive room sizeRange 0
    (Nat.le_refl _) (fun i above below => absurd above (Nat.not_lt.mpr below))
    (fun i below => absurd below (Nat.not_lt_zero i))
  rw [probePath_zero] at start
  exact start

/-- A lookup returns what the probe found. -/
theorem hashmapGet_of_probe {ν : Type} {map : HashMap ν} {key : Int}
    {outcome : Outcome ν Nat} (run : probe map key = .ok outcome) :
    hashmapGet map key = .ok outcome.value := by
  rw [hashmapGet, run, ok_bind]
  cases outcome <;> rfl

/-! ### The three operations

The guard of `hashmap_put` reads `size`, the search reads buckets.  That the two
agree is an invariant of its own, which says nothing about keys and survives every
operation, removals included.  The other half, that every key can be reached along
its probe path, is lost when a removal empties a bucket on the way to another
key.  `hashmap_put` needs both; when it fails the key's path has come back to its
start, or the table is full.
-/

namespace HashMap

variable {ν : Type} {map : HashMap ν}

/-- A map built by the three operations: `size` counts the nodes, and every key
can still be reached along its probe path. -/
structure Formed (map : HashMap ν) : Prop where
  positive : 1 ≤ map.capacity
  room : map.buckets.length = map.capacity
  counted : map.size = map.buckets.countP Option.isSome
  probed : Probed (probePath map.capacity) map.table

/-- The abstract map that a table stands for. -/
def Holds (map : HashMap ν) (held : Int → Option ν) : Prop :=
  ∀ key value, held key = some value ↔
    ∃ bucket, map.table bucket = some (key, value)

theorem table_create (capacity : Nat) :
    (hashmapCreate ν capacity).table = fun _ => none := by
  funext bucket
  rw [table, hashmapCreate, List.getElem?_replicate]
  by_cases inside : bucket < capacity
  · rw [if_pos inside]
    rfl
  · rw [if_neg inside]
    rfl

theorem table_eq_some {bucket : Nat} {key : Int} {value : ν} :
    map.table bucket = some (key, value) ↔
      map.buckets[bucket]? = some (some { key := key, value := value }) := by
  rw [table]
  cases map.buckets[bucket]? with
  | none => simp
  | some cell =>
      cases cell with
      | none => simp
      | some node =>
          cases node
          simp

theorem table_eq_none {bucket : Nat} (inside : bucket < map.buckets.length) :
    map.table bucket = none ↔ map.buckets[bucket]? = some none := by
  rw [table, List.getElem?_eq_getElem inside]
  cases map.buckets[bucket] <;> simp

/-- Writing a bucket changes the number of nodes by what the bucket gains or
loses. -/
theorem countP_set (map : HashMap ν) {bucket : Nat}
    (inside : bucket < map.buckets.length) (cell : Option (HashNode ν)) :
    (map.buckets.set bucket cell).countP Option.isSome =
      map.buckets.countP Option.isSome -
          (if (map.table bucket).isSome then 1 else 0) +
        (if cell.isSome then 1 else 0) := by
  rw [List.countP_set inside, table, List.getElem?_eq_getElem inside]
  cases map.buckets[bucket] <;> rfl

/-- Number of buckets that are not NULL. -/
def occupied (map : HashMap ν) : Nat := map.buckets.countP Option.isSome

/-- The counter agrees with the buckets.  Nothing is said about which key is
stored where. -/
structure Counted (map : HashMap ν) : Prop where
  positive : 1 ≤ map.capacity
  room : map.buckets.length = map.capacity
  size : map.size = map.occupied

theorem counted_create {capacity : Nat} (positive : 1 ≤ capacity) :
    (hashmapCreate ν capacity).Counted where
  positive := positive
  room := List.length_replicate
  size := by simp [occupied, hashmapCreate, List.countP_replicate]

namespace Counted

/-- There are no more nodes than buckets. -/
theorem le_capacity (counted : map.Counted) : map.size ≤ map.capacity := by
  rw [counted.size, ← counted.room]
  exact List.countP_le_length

/-- The guard of `hashmap_put` holds exactly when no bucket is NULL. -/
theorem full_iff (counted : map.Counted) :
    map.capacity ≤ map.size ↔ ∀ cell ∈ map.buckets, cell ≠ none := by
  have sharp : map.capacity ≤ map.size ↔ map.occupied = map.buckets.length := by
    have bound := counted.le_capacity
    rw [← counted.size, counted.room]
    omega
  rw [sharp, occupied, List.countP_eq_length]
  apply forall₂_congr
  intro cell _
  exact Option.isSome_iff_ne_none

/-- A node takes a NULL bucket, and the counter goes up. -/
theorem insert (counted : map.Counted) {index : Nat}
    (free : map.buckets[index]? = some none) (node : HashNode ν) :
    Counted { map with
      buckets := map.buckets.set index (some node)
      size := map.size + 1 } := by
  obtain ⟨inside, _⟩ := List.getElem?_eq_some_iff.mp free
  refine ⟨counted.positive, by simpa using counted.room, ?_⟩
  rw [occupied, map.countP_set inside, (table_eq_none inside).mpr free,
    counted.size]
  rfl

/-- A node takes the place of another one, and the counter stays. -/
theorem replace (counted : map.Counted) {index : Nat} {old : HashNode ν}
    (here : map.buckets[index]? = some (some old)) (node : HashNode ν) :
    Counted { map with buckets := map.buckets.set index (some node) } := by
  obtain ⟨inside, _⟩ := List.getElem?_eq_some_iff.mp here
  have nonzero : 1 ≤ map.occupied :=
    List.one_le_countP_iff.mpr ⟨_, List.mem_of_getElem? here, rfl⟩
  refine ⟨counted.positive, by simpa using counted.room, ?_⟩
  rw [occupied, map.countP_set inside, table_eq_some.mpr here, counted.size]
  exact (Nat.sub_add_cancel nonzero).symm

/-- A bucket becomes NULL, and the counter, which is not zero, goes down. -/
theorem erase (counted : map.Counted) {index : Nat} {old : HashNode ν}
    (here : map.buckets[index]? = some (some old)) :
    1 ≤ map.size ∧ Counted { map with
      buckets := map.buckets.set index none
      size := map.size - 1 } := by
  obtain ⟨inside, _⟩ := List.getElem?_eq_some_iff.mp here
  refine ⟨?_, counted.positive, by simpa using counted.room, ?_⟩
  · rw [counted.size]
    exact List.one_le_countP_iff.mpr ⟨_, List.mem_of_getElem? here, rfl⟩
  · rw [occupied, map.countP_set inside, table_eq_some.mpr here, counted.size]
    rfl

end Counted

theorem formed_create {capacity : Nat} (positive : 1 ≤ capacity) :
    (hashmapCreate ν capacity).Formed where
  positive := positive
  room := List.length_replicate
  counted := (counted_create positive).size
  probed := by
    rw [table_create]
    exact Probed.empty

theorem holds_create (capacity : Nat) :
    (hashmapCreate ν capacity).Holds fun _ => none := by
  intro key value
  simp [table_create]

namespace Formed

theorem toCounted (formed : map.Formed) : map.Counted :=
  ⟨formed.positive, formed.room, formed.counted⟩

/-- A full map has no empty bucket. -/
theorem lt_of_empty (formed : map.Formed) {bucket : Nat}
    (inside : bucket < map.buckets.length)
    (empty : map.table bucket = none) : map.size < map.capacity := by
  by_contra full
  apply formed.toCounted.full_iff.mp (Nat.le_of_not_lt full) none _ rfl
  exact List.mem_of_getElem? ((table_eq_none inside).mp empty)

/-- What the probe finds is what the abstract map holds. -/
theorem held_eq (formed : map.Formed) {held : Int → Option ν}
    (holds : map.Holds held) {key : Int} {outcome : Outcome ν Nat}
    (search : Search map.table (probePath map.capacity key) key outcome) :
    held key = outcome.value := by
  apply Option.ext
  intro value
  rw [holds key value, formed.probed.value_eq_some search]

/-- `hashmap_get` answers as the abstract map does. -/
theorem hashmapGet_spec (formed : map.Formed) {held : Int → Option ν}
    (holds : map.Holds held) (key : Int) :
    hashmapGet map key = .ok (held key) := by
  obtain ⟨outcome, run, search⟩ := probe_spec key formed.positive formed.room
  rw [hashmapGet_of_probe run, formed.held_eq holds search]

/-- Storing a key in the bucket the probe ended at keeps the map well formed. -/
theorem store (formed : map.Formed) {key : Int} {outcome : Outcome ν Nat}
    (search : Search map.table (probePath map.capacity key) key outcome)
    (value : ν) {bucket : Nat} (size : Nat)
    (ends : (∃ old, outcome = .held bucket old ∧ size = map.size) ∨
      (outcome = .empty bucket ∧ size = map.size + 1)) :
    Formed { map with
        buckets := map.buckets.set bucket (some { key := key, value := value })
        size := size } ∧
      table { map with
        buckets := map.buckets.set bucket (some { key := key, value := value })
        size := size } =
          Function.update map.table bucket (some (key, value)) := by
  rcases ends with ⟨old, found, count⟩ | ⟨empty, count⟩
  · subst found count
    cases search with
    | held j value' fresh passed here =>
        have inside : probePath map.capacity key j < map.buckets.length :=
          formed.room ▸ probePath_lt formed.positive key j
        have changed := table_set map
          (some { key := key, value := value }) inside map.size
        refine ⟨⟨formed.positive, ?_, ?_, ?_⟩, changed⟩
        · simpa using formed.room
        · exact (formed.toCounted.replace (table_eq_some.mp here) _).size
        · rw [changed]
          exact formed.probed.replace here value
  · subst empty count
    cases search with
    | empty j fresh passed here =>
        have inside : probePath map.capacity key j < map.buckets.length :=
          formed.room ▸ probePath_lt formed.positive key j
        have changed := table_set map
          (some { key := key, value := value }) inside (map.size + 1)
        refine ⟨⟨formed.positive, ?_, ?_, ?_⟩, changed⟩
        · simpa using formed.room
        · exact (formed.toCounted.insert ((table_eq_none inside).mp here) _).size
        · rw [changed]
          exact formed.probed.insert fresh passed here value

end Formed

/-- The abstract map after a value has been stored under a key. -/
theorem Holds.update {held : Int → Option ν} (holds : map.Holds held)
    {after : HashMap ν}
    {bucket : Nat} {key : Int} {value : ν}
    (changed : after.table =
      Function.update map.table bucket (some (key, value)))
    (place : ∀ other old, map.table bucket = some (other, old) → other = key)
    (home : ∀ other old, map.table other = some (key, old) → other = bucket) :
    after.Holds (Function.update held key (some value)) := by
  intro found stored
  by_cases same : found = key
  · rw [same, Function.update_self, changed]
    constructor
    · intro equal
      rw [Option.some.injEq] at equal
      exact ⟨bucket, by rw [Function.update_self, equal]⟩
    · rintro ⟨other, read⟩
      by_cases here : other = bucket
      · rw [here, Function.update_self] at read
        simpa using read
      · rw [Function.update_of_ne here] at read
        exact absurd (home other stored read) here
  · rw [Function.update_of_ne same, holds found stored, changed]
    constructor
    · rintro ⟨other, read⟩
      refine ⟨other, ?_⟩
      rw [Function.update_of_ne _, read]
      intro here
      exact same (place found stored (here ▸ read))
    · rintro ⟨other, read⟩
      by_cases here : other = bucket
      · rw [here, Function.update_self] at read
        simp only [Option.some.injEq, Prod.mk.injEq] at read
        exact absurd read.1.symm same
      · rw [Function.update_of_ne here] at read
        exact ⟨other, read⟩

/-- The abstract map after a bucket has been emptied. -/
theorem Holds.erase {held : Int → Option ν} (holds : map.Holds held)
    (probed : Probed (probePath map.capacity) map.table) {after : HashMap ν}
    {bucket : Nat} {key : Int} {old : ν}
    (stored : map.table bucket = some (key, old))
    (changed : after.table = Function.update map.table bucket none) :
    after.Holds (Function.update held key none) := by
  intro found value
  rw [changed]
  by_cases same : found = key
  · rw [same, Function.update_self]
    constructor
    · intro impossible
      cases impossible
    · rintro ⟨other, read⟩
      by_cases here : other = bucket
      · rw [here, Function.update_self] at read
        cases read
      · rw [Function.update_of_ne here] at read
        exact absurd (probed.unique read stored) here
  · rw [Function.update_of_ne same, holds found value]
    constructor
    · rintro ⟨other, read⟩
      refine ⟨other, ?_⟩
      rw [Function.update_of_ne _, read]
      intro here
      rw [here, stored] at read
      simp only [Option.some.injEq, Prod.mk.injEq] at read
      exact same read.1.symm
    · rintro ⟨other, read⟩
      by_cases here : other = bucket
      · rw [here, Function.update_self] at read
        cases read
      · rw [Function.update_of_ne here] at read
        exact ⟨other, read⟩

namespace Formed

/-- `hashmap_put` on a well-formed map.  A full map refuses every key.
Otherwise the key is stored exactly when its probe path meets, before it comes
back to its start, a bucket that is empty or holds the key; the result is 0
exactly for a key that was held. -/
theorem hashmapPut_spec (formed : map.Formed) {held : Int → Option ν}
    (holds : map.Holds held) (key : Int) (value : ν) :
    ∃ after status, hashmapPut map key value = .ok (after, status) ∧
      after.Formed ∧ after.capacity = map.capacity ∧
      after.Holds (if status = -1 then held
        else Function.update held key (some value)) ∧
      (status = -1 → after = map) ∧
      (map.capacity ≤ map.size → status = -1) ∧
      (map.size < map.capacity →
        (status = 0 ↔ (held key).isSome) ∧
        (status ≠ 0 → status ≠ 1 → status = -1) ∧
        (status ≠ -1 ↔ ∃ j, Fresh (probePath map.capacity key) j ∧
          ∀ entry, map.table (probePath map.capacity key j) = some entry →
            entry.1 = key)) := by
  obtain ⟨outcome, run, search⟩ := probe_spec key formed.positive formed.room
  have stops := search.stops_iff
  have decides : ∀ {bucket : Nat} {old : ν}, outcome = .held bucket old ↔
      map.table bucket = some (key, old) := formed.probed.search_iff search
  by_cases full : map.capacity ≤ map.size
  · refine ⟨map, -1, ?_, formed, rfl, ?_, fun _ => rfl, fun _ => rfl, ?_⟩
    · rw [hashmapPut, if_pos full]
    · rw [if_pos rfl]
      exact holds
    · intro room
      omega
  · have look := formed.held_eq holds search
    rw [hashmapPut, if_neg full, run]
    cases outcome with
    | held bucket old =>
        have stored := decides.mp rfl
        obtain ⟨formed', changed⟩ := formed.store search value
          map.size (Or.inl ⟨old, rfl, rfl⟩)
        refine ⟨_, 0, rfl, formed', rfl, ?_,
          fun failed => absurd failed (by decide), fun full' =>
          absurd full' full, fun _ => ⟨?_, ?_, ?_⟩⟩
        · rw [if_neg (by decide)]
          apply holds.update changed
          · intro other past read
            rw [stored] at read
            simp only [Option.some.injEq, Prod.mk.injEq] at read
            exact read.1.symm
          · intro other past read
            exact formed.probed.unique read stored
        · rw [look]
          exact ⟨fun _ => rfl, fun _ => rfl⟩
        · intro nonzero
          exact absurd rfl nonzero
        · rw [← stops]
          simp
    | empty bucket =>
        have free : map.table bucket = none := by
          cases search with
          | empty j fresh passed here => exact here
        obtain ⟨formed', changed⟩ := formed.store search value
          (map.size + 1) (Or.inr ⟨rfl, rfl⟩)
        refine ⟨_, 1, rfl, formed', rfl, ?_,
          fun failed => absurd failed (by decide), fun full' =>
          absurd full' full, fun _ => ⟨?_, ?_, ?_⟩⟩
        · rw [if_neg (by decide)]
          apply holds.update changed
          · intro other past read
            rw [free] at read
            cases read
          · intro other past read
            rw [(holds key past).mpr ⟨other, read⟩] at look
            cases look
        · rw [look]
          simp [Outcome.value]
        · intro _ notOne
          exact absurd rfl notOne
        · rw [← stops]
          simp
    | fullCircle =>
        refine ⟨map, -1, rfl, formed, rfl, ?_, fun _ => rfl, fun _ => rfl,
          fun _ => ⟨?_, fun _ _ => rfl, ?_⟩⟩
        · rw [if_pos rfl]
          exact holds
        · rw [look]
          simp [Outcome.value]
        · rw [← stops]
          simp

/-- `hashmap_remove` on a well-formed map: it removes exactly a held key, and
the map stays well formed exactly when no other key is reached through the
bucket that became empty. -/
theorem hashmapRemove_spec (formed : map.Formed) {held : Int → Option ν}
    (holds : map.Holds held) (key : Int) :
    (held key = none ∧ hashmapRemove map key = .ok (map, -1)) ∨
      ∃ bucket old after, map.table bucket = some (key, old) ∧
        held key = some old ∧ hashmapRemove map key = .ok (after, 0) ∧
        after.Holds (Function.update held key none) ∧
        after.table = Function.update map.table bucket none ∧
        after.capacity = map.capacity ∧
        after.buckets.length = after.capacity ∧
        (after.Formed ↔
          Probed.Detached (probePath map.capacity) map.table bucket) := by
  obtain ⟨outcome, run, search⟩ := probe_spec key formed.positive formed.room
  have decides : ∀ {bucket : Nat} {old : ν}, outcome = .held bucket old ↔
      map.table bucket = some (key, old) := formed.probed.search_iff search
  have look := formed.held_eq holds search
  rw [hashmapRemove, run]
  cases outcome with
  | empty bucket => exact Or.inl ⟨look, rfl⟩
  | fullCircle => exact Or.inl ⟨look, rfl⟩
  | held bucket old =>
      have stored := decides.mp rfl
      have inside : bucket < map.buckets.length := by
        cases search with
        | held j value fresh passed here =>
            exact formed.room ▸ probePath_lt formed.positive key j
      have changed := table_set map none inside (map.size - 1)
      refine Or.inr ⟨bucket, old, _, stored, look, rfl,
        holds.erase formed.probed stored changed, changed, rfl, ?_, ?_⟩
      · simpa using formed.room
      · rw [← formed.probed.erase_iff]
        constructor
        · intro formed'
          exact changed ▸ formed'.probed
        · intro probed
          refine ⟨formed.positive, by simpa using formed.room, ?_, ?_⟩
          · exact (formed.toCounted.erase (table_eq_some.mp stored)).2.size
          · rw [changed]
            exact probed

end Formed

end HashMap

end OsSim
