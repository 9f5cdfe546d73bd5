/-
Module: OsSim.HashMapProbing
Purpose: How many buckets the probe loops of the hash map inspect, which ones,
  and which sums they form on the way.
Trusted boundary: human-reviewed translation
Main exports:
  Visit, probeLoopVisits, probeVisits, probeVisits_outcome, probe_terminates
-/
import OsSim.HashMap

namespace OsSim

open PointerMemory
open OpenAddressing

variable {ν : Type}

/-- One step of a probe loop: the sum `original_index + step * step` as it is
before `size_t` reduces it, and the bucket that is inspected then. -/
structure Visit where
  sum : Nat
  index : Nat
deriving Repr, DecidableEq

/-- `probeLoop`, with the visits that follow the bucket at `index`. -/
def probeLoopVisits (map : HashMap ν) (key : Int) (originalIndex : Nat) :
    Nat → Nat → Nat → Except Fault (Outcome ν Nat × List Visit)
  | 0, _, _ => .error .outOfFuel
  | fuel + 1, index, step =>
      match map.buckets[index]? with
      | none => .error .danglingPointer
      | some none => .ok (.empty index, [])
      | some (some node) =>
          if node.key = key then
            .ok (.held index node.value, [])
          else
            let next := probeIndex map.capacity originalIndex step
            let visit := { sum := originalIndex + step * step, index := next }
            -- The bucket is loaded once more before the circle is noticed.
            if next = originalIndex then
              .ok (.fullCircle, [visit])
            else do
              let (outcome, visits) ←
                probeLoopVisits map key originalIndex fuel next (step + 1)
              pure (outcome, visit :: visits)

/-- The visits of a probe loop after its first bucket, in at most `fuel` rounds. -/
def probeVisits (map : HashMap ν) (key : Int) (fuel : Nat) :
    Except Fault (Outcome ν Nat × List Visit) :=
  probeLoopVisits map key (hashmapIntHash key % map.capacity) fuel
    (hashmapIntHash key % map.capacity) 1

/-- Recording the visits changes nothing else. -/
theorem probeLoopVisits_outcome (map : HashMap ν) (key : Int)
    (originalIndex fuel index step : Nat) :
    (probeLoopVisits map key originalIndex fuel index step).map Prod.fst =
      probeLoop map key originalIndex fuel index step := by
  induction fuel generalizing index step with
  | zero => rfl
  | succ fuel ih =>
      rw [probeLoopVisits, probeLoop]
      cases map.buckets[index]? with
      | none => rfl
      | some cell =>
          cases cell with
          | none => rfl
          | some node =>
              dsimp only
              split
              next same => rfl
              next other =>
                split
                next back => rfl
                next away =>
                  rw [← ih]
                  cases probeLoopVisits map key originalIndex fuel
                    (probeIndex map.capacity originalIndex step) (step + 1) <;>
                    rfl

theorem probeVisits_outcome (map : HashMap ν) (key : Int) :
    (probeVisits map key sizeRange).map Prod.fst = probe map key :=
  probeLoopVisits_outcome ..

/-- No sum of the first `capacity` steps reaches the range of `size_t`. -/
theorem probe_sum_lt {capacity originalIndex step : Nat}
    (small : capacity < 2 ^ 32) (inside : originalIndex < capacity)
    (early : step ≤ capacity) : originalIndex + step * step < sizeRange := by
  have square : step * step ≤ capacity * capacity := Nat.mul_le_mul early early
  have wide : capacity * capacity ≤ (2 ^ 32 - 1) * (2 ^ 32 - 1) :=
    Nat.mul_le_mul (by omega) (by omega)
  rw [sizeRange]
  omega

/-- At the latest the step `capacity` comes back to the first bucket. -/
theorem probePath_capacity {capacity : Nat} (positive : 1 ≤ capacity)
    (small : capacity < 2 ^ 32) (key : Int) :
    probePath capacity key capacity = probePath capacity key 0 := by
  have wide : capacity - 1 + capacity * capacity < sizeRange :=
    probe_sum_lt small (by omega) (Nat.le_refl capacity)
  exact (probePath_back_iff positive key (by omega)).mpr
    (Nat.dvd_mul_right capacity capacity)

/-- The visit that follows the `j`-th bucket of a key's probe path. -/
def visitAfter (capacity : Nat) (key : Int) (j : Nat) : Visit :=
  { sum := hashmapIntHash key % capacity + (j + 1) * (j + 1)
    index := probePath capacity key (j + 1) }

/-- The loop goes past a bucket that holds another key. -/
theorem probeLoopVisits_other {map : HashMap ν} {key : Int} {j : Nat}
    {node : HashNode ν}
    (found : map.buckets[probePath map.capacity key j]? = some (some node))
    (other : node.key ≠ key) (fuel : Nat) :
    probeLoopVisits map key (hashmapIntHash key % map.capacity) (fuel + 1)
        (probePath map.capacity key j) (j + 1) =
      if probePath map.capacity key (j + 1) = probePath map.capacity key 0 then
        .ok (.fullCircle, [visitAfter map.capacity key j])
      else
        (probeLoopVisits map key (hashmapIntHash key % map.capacity) fuel
          (probePath map.capacity key (j + 1)) (j + 1 + 1)).map fun result =>
            (result.1, visitAfter map.capacity key j :: result.2) := by
  have next : probeIndex map.capacity (hashmapIntHash key % map.capacity)
      (j + 1) = probePath map.capacity key (j + 1) := rfl
  rw [probeLoopVisits, found, probePath_zero]
  simp only [other, if_false]
  rw [next]
  split
  next back => rfl
  next away =>
    cases probeLoopVisits map key (hashmapIntHash key % map.capacity) fuel
      (probePath map.capacity key (j + 1)) (j + 1 + 1) <;> rfl

/-- From step `j` on, the loop makes at most as many further visits as there
are steps left up to `capacity`. -/
theorem probeLoopVisits_spec {map : HashMap ν} (key : Int)
    (positive : 1 ≤ map.capacity) (small : map.capacity < 2 ^ 32)
    (room : map.buckets.length = map.capacity) :
    ∀ left j : Nat, left + j = map.capacity →
      (0 < j → probePath map.capacity key j ≠ probePath map.capacity key 0) →
      ∃ outcome visits,
        (∀ fuel, left ≤ fuel →
          probeLoopVisits map key (hashmapIntHash key % map.capacity) fuel
            (probePath map.capacity key j) (j + 1) = .ok (outcome, visits)) ∧
        visits.length ≤ left ∧
        ∀ visit ∈ visits,
          visit.index < map.capacity ∧ visit.sum < sizeRange := by
  intro left
  induction left with
  | zero =>
      intro j last away
      rw [Nat.zero_add] at last
      subst last
      exact absurd (probePath_capacity positive small key) (away positive)
  | succ left ih =>
      intro j between away
      have inside : probePath map.capacity key j < map.buckets.length :=
        room ▸ probePath_lt positive key j
      have here := List.getElem?_eq_getElem inside
      have visited : (visitAfter map.capacity key j).index < map.capacity ∧
          (visitAfter map.capacity key j).sum < sizeRange :=
        ⟨probePath_lt positive key (j + 1),
          probe_sum_lt small (Nat.mod_lt _ positive) (by omega)⟩
      cases cell : map.buckets[probePath map.capacity key j] with
      | none =>
          refine ⟨.empty (probePath map.capacity key j), [], ?_, by simp, by simp⟩
          intro fuel enough
          obtain ⟨fuel, rfl⟩ := Nat.exists_eq_add_of_lt enough
          rw [probeLoopVisits, here, cell]
      | some node =>
          rw [cell] at here
          by_cases same : node.key = key
          · refine ⟨.held (probePath map.capacity key j) node.value, [], ?_,
              by simp, by simp⟩
            intro fuel enough
            obtain ⟨fuel, rfl⟩ := Nat.exists_eq_add_of_lt enough
            rw [probeLoopVisits, here]
            simp only [same, if_true]
          · by_cases back : probePath map.capacity key (j + 1) =
                probePath map.capacity key 0
            · refine ⟨.fullCircle, [visitAfter map.capacity key j], ?_, by simp,
                by simpa using visited⟩
              intro fuel enough
              obtain ⟨fuel, rfl⟩ := Nat.exists_eq_add_of_lt enough
              rw [probeLoopVisits_other here same, if_pos back]
            · obtain ⟨outcome, visits, run, short, bounds⟩ :=
                ih (j + 1) (by omega) (fun _ => back)
              refine ⟨outcome, visitAfter map.capacity key j :: visits, ?_,
                Nat.succ_le_succ short, ?_⟩
              · intro fuel enough
                obtain ⟨fuel, rfl⟩ := Nat.exists_eq_add_of_lt enough
                rw [probeLoopVisits_other here same, if_neg back,
                  run (left + fuel) (Nat.le_add_right left fuel)]
                rfl
              · intro visit member
                rcases List.mem_cons.mp member with first | later
                · exact first ▸ visited
                · exact bounds visit later

/-- The search that starts an operation decides whether the operation returns. -/
theorem hashmapPut_returns {map : HashMap ν} {key : Int}
    {outcome : Outcome ν Nat} (run : probe map key = .ok outcome) (value : ν) :
    ∃ result, hashmapPut map key value = .ok result := by
  rw [hashmapPut]
  split
  next => exact ⟨_, rfl⟩
  next =>
    rw [run, ok_bind]
    cases outcome <;> exact ⟨_, rfl⟩

theorem hashmapRemove_returns {map : HashMap ν} {key : Int}
    {outcome : Outcome ν Nat} (run : probe map key = .ok outcome) :
    ∃ result, hashmapRemove map key = .ok result := by
  rw [hashmapRemove, run, ok_bind]
  cases outcome <;> exact ⟨_, rfl⟩

/-- Whatever the buckets hold, a probe loop ends after at most `capacity` visits
beyond the first bucket, all of them inside the array, and no sum it forms
leaves the range of `size_t`; so all three operations return. -/
theorem probe_terminates (map : HashMap ν) (positive : 1 ≤ map.capacity)
    (small : map.capacity < 2 ^ 32)
    (room : map.buckets.length = map.capacity) (key : Int) (value : ν) :
    ∃ outcome visits,
      (∀ fuel, map.capacity ≤ fuel →
        probeVisits map key fuel = .ok (outcome, visits)) ∧
      visits.length ≤ map.capacity ∧
      hashmapIntHash key % map.capacity < map.capacity ∧
      (∀ visit ∈ visits, visit.index < map.capacity ∧ visit.sum < sizeRange) ∧
      probe map key = .ok outcome ∧
      (∃ result, hashmapPut map key value = .ok result) ∧
      (∃ result, hashmapGet map key = .ok result) ∧
      ∃ result, hashmapRemove map key = .ok result := by
  obtain ⟨outcome, visits, run, short, bounds⟩ :=
    probeLoopVisits_spec key positive small room map.capacity 0 rfl
      (fun impossible => absurd impossible (Nat.lt_irrefl 0))
  rw [probePath_zero] at run
  have found : probe map key = .ok outcome := by
    have wide : map.capacity ≤ sizeRange := by
      rw [sizeRange]
      omega
    rw [← probeVisits_outcome, probeVisits, run sizeRange wide]
    rfl
  exact ⟨outcome, visits, run, short, Nat.mod_lt _ positive, bounds, found,
    hashmapPut_returns found value, ⟨_, hashmapGet_of_probe found⟩,
    hashmapRemove_returns found⟩

/-- Four full buckets and a key that none of them holds. -/
theorem probe_terminates_four :
    let map : HashMap Unit :=
      { buckets := [5, 1, 8, 2].map fun key => some { key := key, value := () }
        capacity := 4
        size := 4 }
    ∃ outcome visits,
      (∀ fuel, map.capacity ≤ fuel →
        probeVisits map 13 fuel = .ok (outcome, visits)) ∧
      visits.length ≤ map.capacity ∧
      hashmapIntHash 13 % map.capacity < map.capacity ∧
      (∀ visit ∈ visits, visit.index < map.capacity ∧ visit.sum < sizeRange) ∧
      probe map 13 = .ok outcome ∧
      (∃ result, hashmapPut map 13 () = .ok result) ∧
      (∃ result, hashmapGet map 13 = .ok result) ∧
      ∃ result, hashmapRemove map 13 = .ok result :=
  probe_terminates _ (by decide) (by decide) rfl 13 ()

end OsSim
