/-
Module: OsSim.HashMapOccupancy
Purpose: What `size` says about the buckets of a hash map over any history of
  insertions and removals, failed allocations included.
Trusted boundary: human-reviewed translation
Main exports:
  hashmapPutMalloc, MapUpdate, updateStep, HashMap.Written,
  HashMap.Counted.put_spec, HashMap.Counted.remove_spec, hashmap_occupancy
-/
import OsSim.HashMap

namespace OsSim

open PointerMemory
open OpenAddressing
open Trace

variable {ν : Type}

/-- `hashmap_put` when `malloc` returns a node or, if not `allocated`, NULL. -/
def hashmapPutMalloc (allocated : Bool) (map : HashMap ν) (key : Int)
    (value : ν) : Except Fault (HashMap ν × Int) :=
  if map.capacity ≤ map.size then
    .ok (map, -1)
  else do
    let node := { key := key, value := value }
    match ← probe map key with
    | .held index _ =>
        pure ({ map with buckets := map.buckets.set index (some node) }, 0)
    | .empty index =>
        if allocated then
          pure ({ map with
            buckets := map.buckets.set index (some node)
            size := map.size + 1 }, 1)
        else
          pure (map, -1)
    | .fullCircle => pure (map, -1)

/-- `hashmapPut` is the case in which the allocation succeeds. -/
theorem hashmapPutMalloc_true (map : HashMap ν) (key : Int) (value : ν) :
    hashmapPutMalloc true map key value = hashmapPut map key value := rfl

/-- One operation that may change a map. -/
inductive MapUpdate (ν : Type) where
  | put (allocated : Bool) (key : Int) (value : ν)
  | remove (key : Int)

/-- Perform one such operation. -/
def updateStep (map : HashMap ν) : MapUpdate ν → Except Fault (HashMap ν)
  | .put allocated key value => do
      let (map, _) ← hashmapPutMalloc allocated map key value
      pure map
  | .remove key => do
      let (map, _) ← hashmapRemove map key
      pure map

namespace HashMap

/-- What a call of `hashmap_put` did, by its result. -/
inductive Written (map : HashMap ν) (key : Int) (value : ν) :
    HashMap ν → Int → Prop where
  | failed : Written map key value map (-1)
  | replaced (index : Nat) (old : ν)
      (here : map.buckets[index]? = some (some { key := key, value := old })) :
      Written map key value
        { map with buckets :=
            map.buckets.set index (some { key := key, value := value }) } 0
  | inserted (index : Nat) (free : map.buckets[index]? = some none) :
      Written map key value
        { map with
          buckets := map.buckets.set index (some { key := key, value := value })
          size := map.size + 1 } 1

namespace Counted

variable {map : HashMap ν}

/-- Every insertion returns, writes as its result says, and keeps the count. -/
theorem put_spec (counted : map.Counted) (allocated : Bool) (key : Int)
    (value : ν) :
    ∃ after status,
      hashmapPutMalloc allocated map key value = .ok (after, status) ∧
      Written map key value after status ∧
      (map.capacity ≤ map.size → status = -1) ∧
      after.Counted ∧ after.capacity = map.capacity := by
  rw [hashmapPutMalloc]
  by_cases full : map.capacity ≤ map.size
  · rw [if_pos full]
    exact ⟨_, _, rfl, .failed, fun _ => rfl, counted, rfl⟩
  · obtain ⟨outcome, run, search⟩ :=
      probe_spec key counted.positive counted.room
    rw [if_neg full, run, ok_bind]
    cases search with
    | held j old fresh passed here =>
        have found := table_eq_some.mp here
        exact ⟨_, _, rfl, .replaced _ old found, fun never => absurd never full,
          counted.replace found _, rfl⟩
    | empty j fresh passed here =>
        have free := (table_eq_none
          (counted.room ▸ probePath_lt counted.positive key j)).mp here
        cases allocated with
        | true =>
            exact ⟨_, _, rfl, .inserted _ free, fun never => absurd never full,
              counted.insert free _, rfl⟩
        | false =>
            exact ⟨_, _, rfl, .failed, fun _ => rfl, counted, rfl⟩
    | fullCircle j later back passed =>
        exact ⟨_, _, rfl, .failed, fun _ => rfl, counted, rfl⟩

/-- Every removal returns and keeps the count, which does not wrap around. -/
theorem remove_spec (counted : map.Counted) (key : Int) :
    ∃ after status, hashmapRemove map key = .ok (after, status) ∧
      (status = 0 → 1 ≤ map.size) ∧
      after.Counted ∧ after.capacity = map.capacity := by
  obtain ⟨outcome, run, search⟩ := probe_spec key counted.positive counted.room
  rw [hashmapRemove, run, ok_bind]
  cases search with
  | held j old fresh passed here =>
      obtain ⟨nonzero, kept⟩ := counted.erase (table_eq_some.mp here)
      exact ⟨_, _, rfl, fun _ => nonzero, kept, rfl⟩
  | empty j fresh passed here =>
      exact ⟨_, _, rfl, fun removed => absurd removed (by decide), counted, rfl⟩
  | fullCircle j later back passed =>
      exact ⟨_, _, rfl, fun removed => absurd removed (by decide), counted, rfl⟩

/-- Every operation returns and keeps the count. -/
theorem step (counted : map.Counted) (update : MapUpdate ν) :
    ∃ after, updateStep map update = .ok after ∧ after.Counted ∧
      after.capacity = map.capacity := by
  cases update with
  | put allocated key value =>
      obtain ⟨after, status, run, _, _, kept, same⟩ :=
        counted.put_spec allocated key value
      exact ⟨after, by rw [updateStep, run]; rfl, kept, same⟩
  | remove key =>
      obtain ⟨after, status, run, _, kept, same⟩ := counted.remove_spec key
      exact ⟨after, by rw [updateStep, run]; rfl, kept, same⟩

end Counted

end HashMap

/-- After any history `size` is the number of buckets in use, so that the guard
of `hashmap_put` fires exactly on a table without NULL buckets, and a new key is
written to a bucket that was NULL. -/
theorem hashmap_occupancy (capacity : Nat) (positive : 1 ≤ capacity)
    (updates : List (MapUpdate ν)) :
    ∃ map, runs updateStep (hashmapCreate ν capacity) updates = .ok map ∧
      map.capacity = capacity ∧ map.buckets.length = capacity ∧
      map.size = map.occupied ∧ map.size ≤ map.capacity ∧
      (map.capacity ≤ map.size ↔ ∀ cell ∈ map.buckets, cell ≠ none) ∧
      (∀ key after, hashmapRemove map key = .ok (after, 0) → 1 ≤ map.size) ∧
      ∀ allocated key value, ∃ after status,
        hashmapPutMalloc allocated map key value = .ok (after, status) ∧
        (map.capacity ≤ map.size → status = -1 ∧ after = map) ∧
        (status = 0 → ∃ index old,
          map.buckets[index]? = some (some { key := key, value := old }) ∧
          after.buckets =
            map.buckets.set index (some { key := key, value := value })) ∧
        (status = 1 → ∃ index, map.buckets[index]? = some none ∧
          after.buckets =
            map.buckets.set index (some { key := key, value := value })) := by
  obtain ⟨map, run, counted, same⟩ :=
    total_of_steps
      (P := fun map : HashMap ν => map.Counted ∧ map.capacity = capacity)
      (fun map update kept => by
        obtain ⟨after, stepped, counted, same⟩ := kept.1.step update
        exact ⟨after, stepped, counted, same.trans kept.2⟩)
      ⟨HashMap.counted_create positive, rfl⟩ updates
  refine ⟨map, run, same, counted.room.trans same, counted.size,
    counted.le_capacity, counted.full_iff, ?_, ?_⟩
  · intro key after removed
    obtain ⟨after', status, removed', nonzero, _⟩ := counted.remove_spec key
    rw [removed', Except.ok.injEq, Prod.mk.injEq] at removed
    exact nonzero removed.2
  · intro allocated key value
    obtain ⟨after, status, put, written, guarded, _, _⟩ :=
      counted.put_spec allocated key value
    refine ⟨after, status, put, ?_, ?_, ?_⟩
    · intro full
      have failed := guarded full
      cases written with
      | failed => exact ⟨rfl, rfl⟩
      | replaced index old here => cases failed
      | inserted index free => cases failed
    · intro zero
      cases written with
      | failed => cases zero
      | replaced index old here => exact ⟨index, old, here, rfl⟩
      | inserted index free => cases zero
    · intro one
      cases written with
      | failed => cases one
      | replaced index old here => cases one
      | inserted index free => exact ⟨index, free, rfl⟩

/-- A map of three buckets through an insertion, a failed allocation, an update
and two removals. -/
theorem hashmap_occupancy_three :
    ∃ map, runs updateStep (hashmapCreate Nat 3)
        [.put true 1 10, .put false 2 20, .put true 1 11, .remove 1,
          .remove 7] = .ok map ∧
      map.capacity = 3 ∧ map.buckets.length = 3 ∧
      map.size = map.occupied ∧ map.size ≤ map.capacity ∧
      (map.capacity ≤ map.size ↔ ∀ cell ∈ map.buckets, cell ≠ none) ∧
      (∀ key after, hashmapRemove map key = .ok (after, 0) → 1 ≤ map.size) ∧
      ∀ allocated key value, ∃ after status,
        hashmapPutMalloc allocated map key value = .ok (after, status) ∧
        (map.capacity ≤ map.size → status = -1 ∧ after = map) ∧
        (status = 0 → ∃ index old,
          map.buckets[index]? = some (some { key := key, value := old }) ∧
          after.buckets =
            map.buckets.set index (some { key := key, value := value })) ∧
        (status = 1 → ∃ index, map.buckets[index]? = some none ∧
          after.buckets =
            map.buckets.set index (some { key := key, value := value })) :=
  hashmap_occupancy 3 (by decide) _

end OsSim
