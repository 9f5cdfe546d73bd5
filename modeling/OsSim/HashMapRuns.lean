/-
Module: OsSim.HashMapRuns
Purpose: Sequences of operations on a hash map: when an insertion fails, and
  when the map answers as a finite map does.
Trusted boundary: none
Main exports:
  putStep, hashmapPut_stores_iff, MapOp, MapRun, Answers, ChainKept,
  hashmap_refines_iff
-/
import OsSim.HashMap

namespace OsSim

open PointerMemory
open OpenAddressing
open Trace

variable {ν : Type}

/-! ### Insertions only -/

/-- One `hashmap_put` of a sequence. -/
def putStep (map : HashMap ν) (entry : Int × ν) : Except Fault (HashMap ν) := do
  let (map, _) ← hashmapPut map entry.1 entry.2
  pure map

/-- A sequence of insertions returns, with a well-formed map. -/
theorem runs_putStep {capacity : Nat} (positive : 1 ≤ capacity)
    (entries : List (Int × ν)) :
    ∃ map, runs putStep (hashmapCreate ν capacity) entries = .ok map ∧
      (∃ held, map.Formed ∧ map.Holds held) ∧ map.capacity = capacity := by
  refine total_of_steps ?_ ?_ entries
  · rintro map entry ⟨⟨held, formed, holds⟩, same⟩
    obtain ⟨after, status, run, formed', same', holds', _⟩ :=
      formed.hashmapPut_spec holds entry.1 entry.2
    refine ⟨after, ?_, ⟨_, formed', holds'⟩, same'.trans same⟩
    rw [putStep, run]
    rfl
  · exact ⟨⟨_, HashMap.formed_create positive, HashMap.holds_create capacity⟩,
      rfl⟩

/-- In a map with room, `hashmap_put` fails exactly when every bucket on the
key's probe path, up to the step at which the path comes back to its first
bucket, holds another key. -/
theorem hashmapPut_stores_iff (capacity : Nat) (positive : 1 ≤ capacity)
    (entries : List (Int × ν)) :
    ∃ map, runs putStep (hashmapCreate ν capacity) entries = .ok map ∧
      ∀ key value, map.size < map.capacity →
        ∃ after status, hashmapPut map key value = .ok (after, status) ∧
          (status ≠ -1 ↔
            ∃ j, (∀ i, 0 < i → i ≤ j →
                probePath capacity key i ≠ probePath capacity key 0) ∧
              ∀ node, map.buckets[probePath capacity key j]? =
                some (some node) → node.key = key) := by
  obtain ⟨map, run, ⟨held, formed, holds⟩, same⟩ :=
    runs_putStep positive entries
  refine ⟨map, run, ?_⟩
  intro key value room
  obtain ⟨after, status, put, _, _, _, _, _, stores⟩ :=
    formed.hashmapPut_spec holds key value
  refine ⟨after, status, put, ?_⟩
  rw [(stores room).2.2, same]
  constructor
  · rintro ⟨j, fresh, stop⟩
    refine ⟨j, fresh, ?_⟩
    intro node found
    exact stop (node.key, node.value) (HashMap.table_eq_some.mpr found)
  · rintro ⟨j, fresh, stop⟩
    refine ⟨j, fresh, ?_⟩
    intro entry found
    exact stop { key := entry.1, value := entry.2 }
      (HashMap.table_eq_some.mp found)

/-- Three keys that start at the same bucket of a map with four buckets. -/
theorem hashmapPut_stores_iff_four :
    ∃ map, runs putStep (hashmapCreate Unit 4) [(1, ()), (8, ())] = .ok map ∧
      ∀ key value, map.size < map.capacity →
        ∃ after status, hashmapPut map key value = .ok (after, status) ∧
          (status ≠ -1 ↔
            ∃ j, (∀ i, 0 < i → i ≤ j →
                probePath 4 key i ≠ probePath 4 key 0) ∧
              ∀ node, map.buckets[probePath 4 key j]? =
                some (some node) → node.key = key) :=
  hashmapPut_stores_iff 4 (by decide) [(1, ()), (8, ())]

/-- A map of one hundred buckets, of which ten hold keys with the same first
bucket, refuses an eleventh such key. -/
theorem hashmapPut_full_circle :
    ¬ ∀ (capacity : Nat), 1 ≤ capacity → ∀ (entries : List (Int × Unit)) map,
      runs putStep (hashmapCreate Unit capacity) entries = .ok map →
      ∀ key value, map.size < map.capacity →
        ∀ after status, hashmapPut map key value = .ok (after, status) →
          status ≠ -1 := by
  intro never
  have replay : (do
      let map ← runs putStep (hashmapCreate Unit 100)
        ([13, 42, 157, 272, 416, 531, 646, 675, 790, 905].map
          fun key => (key, ()))
      let (_, status) ← hashmapPut map 934 ()
      pure (map.size, map.capacity, status)) = Except.ok (10, 100, -1) := by
    decide +kernel
  obtain ⟨map, run, rest⟩ := bind_eq_ok.mp replay
  obtain ⟨⟨after, status⟩, put, ends⟩ := bind_eq_ok.mp rest
  simp only [pure_eq_ok, Except.ok.injEq, Prod.mk.injEq] at ends
  obtain ⟨size, capacity, failed⟩ := ends
  exact never 100 (by decide) _ map run 934 () (by omega) after status put
    failed

/-! ### Insertions, lookups and removals

The map is compared with a finite map that changes as the returned statuses say.
On a map whose keys can all be reached an operation answers right exactly if it
keeps the chains.  One that does not keep them is found out at once: a value that
a full map refuses is missing in the next lookup, and so is a key that was
reached through the emptied bucket.  So the guard is exact at each step, and with
that along a run.
-/

/-- One operation on a map. -/
inductive MapOp (ν : Type) where
  | put (key : Int) (value : ν)
  | get (key : Int)
  | remove (key : Int)

/-- A hash map beside the finite map it should stand for. -/
structure MapRun (ν : Type) where
  map : HashMap ν
  held : Int → Option ν

namespace MapRun

def start (ν : Type) (capacity : Nat) : MapRun ν :=
  { map := hashmapCreate ν capacity, held := fun _ => none }

/-- The finite map after a `hashmap_put` that returned `status`. -/
def recordPut (held : Int → Option ν) (key : Int) (value : ν) (status : Int) :
    Int → Option ν :=
  if status = 0 ∨ status = 1 then
    Function.update held key (some value)
  else
    held

/-- The finite map after a `hashmap_remove` that returned `status`. -/
def recordRemove (held : Int → Option ν) (key : Int) (status : Int) :
    Int → Option ν :=
  if status = 0 then Function.update held key none else held

/-- Perform an operation on the map, and on the finite map what the returned
status says. -/
def step (run : MapRun ν) : MapOp ν → Except Fault (MapRun ν)
  | .put key value => do
      let (map, status) ← hashmapPut run.map key value
      pure { map := map, held := recordPut run.held key value status }
  | .get key => do
      let _ ← hashmapGet run.map key
      pure run
  | .remove key => do
      let (map, status) ← hashmapRemove run.map key
      pure { map := map, held := recordRemove run.held key status }

/-- The operation answers as the finite map does, and so does every lookup
after it. -/
def Answers (run : MapRun ν) : MapOp ν → Prop
  | .put key value =>
      ∃ after status, hashmapPut run.map key value = .ok (after, status) ∧
        (status = 0 ↔ (run.held key).isSome) ∧
        (status = 1 → run.held key = none) ∧
        ∀ other, hashmapGet after other =
          .ok (recordPut run.held key value status other)
  | .get key => hashmapGet run.map key = .ok (run.held key)
  | .remove key =>
      ∃ after status, hashmapRemove run.map key = .ok (after, status) ∧
        (status = 0 ↔ (run.held key).isSome) ∧
        ∀ other, hashmapGet after other =
          .ok (recordRemove run.held key status other)

/-- No held key is given a new value in a full map, and no bucket is emptied
that lies on the probe path of another key before that key's own bucket. -/
def ChainKept (run : MapRun ν) : MapOp ν → Prop
  | .put key _ => run.map.size < run.map.capacity ∨
      ∀ (bucket : Nat) (node : HashNode ν),
        run.map.buckets[bucket]? = some (some node) → node.key ≠ key
  | .get _ => True
  | .remove key => ∀ (bucket : Nat) (node : HashNode ν),
      run.map.buckets[bucket]? = some (some node) → node.key = key →
      ∀ (place : Nat) (other : HashNode ν),
        run.map.buckets[place]? = some (some other) → place ≠ bucket →
        ∀ j, probePath run.map.capacity other.key j = place →
          (∀ i < j, probePath run.map.capacity other.key i ≠ place) →
          ∀ i < j, probePath run.map.capacity other.key i ≠ bucket

/-- The map is well formed and stands for the finite map. -/
structure Sound (run : MapRun ν) : Prop where
  formed : run.map.Formed
  holds : run.map.Holds run.held

theorem sound_start {capacity : Nat} (positive : 1 ≤ capacity) :
    (start ν capacity).Sound where
  formed := HashMap.formed_create positive
  holds := HashMap.holds_create capacity

/-- The removal condition, in terms of the table. -/
theorem chainKept_remove_iff {run : MapRun ν} {key : Int} {bucket : Nat}
    {old : ν} (sound : run.Sound)
    (stored : run.map.table bucket = some (key, old)) :
    run.ChainKept (.remove key) ↔
      Probed.Detached (probePath run.map.capacity) run.map.table bucket := by
  constructor
  · intro kept place other value apart found j at_ first
    exact kept bucket { key := key, value := old }
      (HashMap.table_eq_some.mp stored) rfl place
      { key := other, value := value } (HashMap.table_eq_some.mp found) apart j
      at_ first
  · intro detached bucket' node found same place other found' apart
    have here : run.map.table bucket' = some (key, node.value) :=
      HashMap.table_eq_some.mpr (same ▸ found)
    have home : bucket' = bucket := sound.formed.probed.unique here stored
    subst home
    exact detached place other.key other.value apart
      (HashMap.table_eq_some.mpr found')

/-- What `recordPut` says in terms of failure. -/
theorem recordPut_eq (held : Int → Option ν) (key : Int) (value : ν)
    {status : Int} (possible : status = -1 ∨ status = 0 ∨ status = 1) :
    recordPut held key value status =
      if status = -1 then held else Function.update held key (some value) := by
  rw [recordPut]
  rcases possible with failed | replaced | added
  · rw [failed]
    rfl
  · rw [replaced]
    rfl
  · rw [added]
    rfl

/-- An operation that keeps the chains keeps the map sound. -/
theorem Sound.step {run next : MapRun ν} {op : MapOp ν} (sound : run.Sound)
    (kept : run.ChainKept op) (stepped : run.step op = .ok next) :
    next.Sound := by
  cases op with
  | put key value =>
      obtain ⟨after, status, put, formed, _, holds, _⟩ :=
        sound.formed.hashmapPut_spec sound.holds key value
      have record := recordPut_eq run.held key value (hashmapPut_status put)
      rw [MapRun.step, put] at stepped
      simp only [ok_bind, pure_eq_ok, Except.ok.injEq] at stepped
      subst stepped
      exact ⟨formed, record ▸ holds⟩
  | get key =>
      rw [MapRun.step, sound.formed.hashmapGet_spec sound.holds] at stepped
      simp only [ok_bind, pure_eq_ok, Except.ok.injEq] at stepped
      exact stepped ▸ sound
  | remove key =>
      rcases sound.formed.hashmapRemove_spec sound.holds key with
        ⟨absent, removed⟩ |
        ⟨bucket, old, after, stored, look, removed, holds, _, _, _, formed⟩
      · rw [MapRun.step, removed] at stepped
        simp only [ok_bind, pure_eq_ok, Except.ok.injEq] at stepped
        exact stepped ▸ sound
      · rw [MapRun.step, removed] at stepped
        simp only [ok_bind, pure_eq_ok, Except.ok.injEq] at stepped
        subst stepped
        exact ⟨formed.mpr ((chainKept_remove_iff sound stored).mp kept), holds⟩

/-- A held key stands in some bucket. -/
theorem Sound.stored {run : MapRun ν} (sound : run.Sound) {key : Int} :
    (run.held key).isSome ↔ ∃ (bucket : Nat) (node : HashNode ν),
      run.map.buckets[bucket]? = some (some node) ∧ node.key = key := by
  rw [Option.isSome_iff_exists]
  constructor
  · rintro ⟨value, look⟩
    obtain ⟨bucket, stored⟩ := (sound.holds key value).mp look
    exact ⟨bucket, { key := key, value := value },
      HashMap.table_eq_some.mp stored, rfl⟩
  · rintro ⟨bucket, node, found, same⟩
    refine ⟨node.value, (sound.holds key node.value).mpr ⟨bucket, ?_⟩⟩
    exact HashMap.table_eq_some.mpr (same ▸ found)

/-- On a sound map an insertion answers right exactly unless it gives a new
value to a held key of a full map. -/
theorem Sound.put_iff {run : MapRun ν} (sound : run.Sound) (key : Int)
    (value : ν) :
    run.ChainKept (.put key value) ↔ run.Answers (.put key value) := by
  obtain ⟨after, status, put, formed, _, holds, _, full, room⟩ :=
    sound.formed.hashmapPut_spec sound.holds key value
  have look := formed.hashmapGet_spec holds
  rcases Nat.lt_or_ge run.map.size run.map.capacity with free | none
  · obtain ⟨found, possible, _⟩ := room free
    have record := recordPut_eq run.held key value
      (show status = -1 ∨ status = 0 ∨ status = 1 by omega)
    constructor
    · intro _
      refine ⟨after, status, put, found, ?_, ?_⟩
      · intro added
        cases held : run.held key with
        | none => rfl
        | some old =>
            rw [held] at found
            have replaced := found.mpr rfl
            omega
      · intro other
        rw [record]
        exact look other
    · intro _
      exact Or.inl free
  · have failed := full none
    subst failed
    constructor
    · intro kept
      have absent : run.held key = Option.none := by
        cases held : run.held key with
        | none => rfl
        | some old =>
            obtain ⟨bucket, node, found, same⟩ := sound.stored.mp
              (Option.isSome_iff_exists.mpr ⟨old, held⟩)
            rcases kept with free | never
            · omega
            · exact absurd same (never bucket node found)
      refine ⟨after, -1, put, by simp [absent], fun _ => absent, ?_⟩
      intro other
      rw [recordPut_eq _ _ _ (Or.inl rfl)]
      exact look other
    · rintro ⟨after', status', put', found, _⟩
      rw [put, Except.ok.injEq, Prod.mk.injEq] at put'
      obtain ⟨_, rfl⟩ := put'
      refine Or.inr ?_
      intro bucket node here same
      have replaced := found.mpr (sound.stored.mpr ⟨bucket, node, here, same⟩)
      exact absurd replaced (by decide)

/-- On a sound map a removal answers right, itself and in the lookups after it,
exactly when the emptied bucket is on no other key's way. -/
theorem Sound.remove_iff {run : MapRun ν} (sound : run.Sound) (key : Int) :
    run.ChainKept (.remove key) ↔ run.Answers (.remove key) := by
  rcases sound.formed.hashmapRemove_spec sound.holds key with
    ⟨absent, removed⟩ |
    ⟨bucket, old, after, stored, look, removed, holds, changed, same, room,
      formed⟩
  · constructor
    · intro _
      refine ⟨run.map, -1, removed, by simp [absent], ?_⟩
      intro other
      rw [recordRemove, if_neg (by decide)]
      exact sound.formed.hashmapGet_spec sound.holds other
    · intro _ bucket node found here
      have held := sound.stored.mpr ⟨bucket, node, found, here⟩
      rw [absent] at held
      cases held
  · rw [chainKept_remove_iff sound stored]
    constructor
    · intro detached
      refine ⟨after, 0, removed, by simp [look], ?_⟩
      exact (formed.mpr detached).hashmapGet_spec holds
    · rintro ⟨after', status, removed', _, answers⟩
      rw [removed, Except.ok.injEq, Prod.mk.injEq] at removed'
      obtain ⟨rfl, rfl⟩ := removed'
      apply sound.formed.probed.detached_of_found
      intro place other value apart stored'
      have different : other ≠ key := by
        intro equal
        exact apart (sound.formed.probed.unique stored' (equal ▸ stored))
      obtain ⟨outcome, run', search⟩ :=
        probe_spec other (same ▸ sound.formed.positive) room
      rw [changed, same] at search
      refine ⟨outcome, search, ?_⟩
      have answer := answers other
      rw [hashmapGet_of_probe run', recordRemove, if_pos rfl,
        Function.update_of_ne different, Except.ok.injEq] at answer
      rw [answer]
      exact (sound.holds other value).mpr ⟨place, stored'⟩

/-- On a sound map an operation answers right exactly when it keeps the
chains. -/
theorem Sound.chainKept_iff {run : MapRun ν} (sound : run.Sound)
    (op : MapOp ν) : run.ChainKept op ↔ run.Answers op := by
  cases op with
  | put key value => exact sound.put_iff key value
  | get key =>
      exact ⟨fun _ => sound.formed.hashmapGet_spec sound.holds key,
        fun _ => trivial⟩
  | remove key => exact sound.remove_iff key

end MapRun

/-- A hash map answers every operation of a run, and every lookup in between, as
a finite map does, exactly when every operation keeps the probe chains. -/
theorem hashmap_refines_iff (capacity : Nat) (positive : 1 ≤ capacity)
    (ops : List (MapOp ν)) :
    Along MapRun.step MapRun.Answers (MapRun.start ν capacity) ops ↔
      Along MapRun.step MapRun.ChainKept (MapRun.start ν capacity) ops := by
  symm
  apply along_congr (P := MapRun.Sound)
  · intro run op next sound kept stepped
    exact sound.step kept stepped
  · intro run op sound
    exact sound.chainKept_iff op
  · exact MapRun.sound_start positive

/-- Two keys that start at the same bucket, and a value replaced while there is
room. -/
theorem hashmap_refines_iff_four :
    Along MapRun.step MapRun.Answers (MapRun.start Nat 4)
      [.put 1 10, .put 8 20, .put 8 21, .get 1] := by
  apply (hashmap_refines_iff 4 (by decide) _).mpr
  let allows : MapRun Nat → MapOp Nat → Bool := fun run op => match op with
    | .put _ _ => decide (run.map.size < run.map.capacity)
    | .get _ => true
    | .remove _ => false
  have room : Along MapRun.step (fun run op => allows run op = true)
      (MapRun.start Nat 4) [.put 1 10, .put 8 20, .put 8 21, .get 1] := by
    decide +kernel
  apply room.mono
  intro run op allowed
  cases op with
  | put key value => exact Or.inl (of_decide_eq_true allowed)
  | get key => trivial
  | remove key => cases allowed

/-- A removal hides a key that was stored after it in the same chain. -/
theorem hashmapRemove_hides :
    ¬ ∀ (capacity : Nat), 1 ≤ capacity → ∀ ops : List (MapOp Nat),
      Along MapRun.step MapRun.Answers (MapRun.start Nat capacity) ops := by
  intro always
  have answers := always 4 (by decide)
    ([.put 1 10, .put 8 20, .remove 1] ++ [.get 8])
  have replay : (do
      let run ← runs MapRun.step (MapRun.start Nat 4)
        [.put 1 10, .put 8 20, .remove 1]
      let found ← hashmapGet run.map 8
      pure (found, run.held 8)) = Except.ok (none, some 20) := by
    decide +kernel
  obtain ⟨run, reached, rest⟩ := bind_eq_ok.mp replay
  obtain ⟨found, get, ends⟩ := bind_eq_ok.mp rest
  simp only [pure_eq_ok, Except.ok.injEq, Prod.mk.injEq] at ends
  obtain ⟨missing, held⟩ := ends
  have answer := (along_cons.mp ((along_append.mp answers).2 run reached)).1
  rw [MapRun.Answers, get, missing, held] at answer
  cases answer

end OsSim
