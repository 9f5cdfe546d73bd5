/-
Module: OsSim.HashMapCells
Purpose: The hash map of `DS/hash_map.c` with its nodes in memory: an array of
  pointers, from `hashmap_create` to `hashmap_free`.
Trusted boundary: human-reviewed translation
Main exports:
  HashCells, HashCells.hashmapPut, HashCells.hashmapGet, HashCells.hashmapRemove,
  HashCells.hashmapFree, HashCells.view, HashCells.Represents,
  hash_cells_refine
-/
import OsSim.HashMapRuns
import OsSim.Library.Lifetime
import OsSim.Library.Simulation

namespace OsSim

open PointerMemory
open OpenAddressing
open Simulation

/-- `HashMap` as it lies in memory: `buckets` points to the nodes, which are
allocated one by one. -/
structure HashCells (ν : Type) where
  heap : Mem (HashNode ν)
  buckets : List (Option Addr)
  capacity : Nat
  size : Nat
deriving Repr, DecidableEq

namespace HashCells

variable {ν : Type}

/-- `hashmap_create` -/
def hashmapCreate (ν : Type) (capacity : Nat) : HashCells ν :=
  { heap := Mem.empty
    buckets := List.replicate capacity none
    capacity := capacity
    size := 0 }

/-- The probe loop, which reads the key through the pointer in a bucket.  What
it finds is the node's address. -/
def probeLoop (cells : HashCells ν) (key : Int) (originalIndex : Nat) :
    Nat → Nat → Nat → Except Fault (Outcome Addr Nat)
  | 0, _, _ => .error .outOfFuel
  | fuel + 1, index, step =>
      match cells.buckets[index]? with
      | none => .error .danglingPointer
      | some none => .ok (.empty index)
      | some (some current) => do
          let node ← deref cells.heap current
          if node.key = key then
            pure (.held index current)
          else
            let next := probeIndex cells.capacity originalIndex step
            if next = originalIndex then
              pure .fullCircle
            else
              probeLoop cells key originalIndex fuel next (step + 1)

/-- The search that the three operations start with. -/
def probe (cells : HashCells ν) (key : Int) : Except Fault (Outcome Addr Nat) :=
  probeLoop cells key (hashmapIntHash key % cells.capacity) sizeRange
    (hashmapIntHash key % cells.capacity) 1

/-- `hashmap_put`: a value is replaced in its node, a new key gets a new node. -/
def hashmapPut (cells : HashCells ν) (key : Int) (value : ν) :
    Except Fault (HashCells ν × Int) :=
  if cells.capacity ≤ cells.size then
    .ok (cells, -1)
  else do
    match ← cells.probe key with
    | .held _ current => do
        let heap ← update cells.heap current fun node =>
          { node with value := value }
        pure ({ cells with heap := heap }, 0)
    | .empty index =>
        let (heap, newNode) := cells.heap.malloc { key := key, value := value }
        pure ({ cells with
          heap := heap
          buckets := cells.buckets.set index (some newNode)
          size := cells.size + 1 }, 1)
    | .fullCircle => pure (cells, -1)

/-- `hashmap_get` -/
def hashmapGet (cells : HashCells ν) (key : Int) : Except Fault (Option ν) := do
  match ← cells.probe key with
  | .held _ current => do
      let node ← deref cells.heap current
      pure (some node.value)
  | .empty _ => pure none
  | .fullCircle => pure none

/-- `hashmap_remove`: the node is freed and its bucket set to NULL. -/
def hashmapRemove (cells : HashCells ν) (key : Int) :
    Except Fault (HashCells ν × Int) := do
  match ← cells.probe key with
  | .held index current => do
      let heap ← release cells.heap current
      pure ({ cells with
        heap := heap
        buckets := cells.buckets.set index none
        size := cells.size - 1 }, 0)
  | .empty _ => pure (cells, -1)
  | .fullCircle => pure (cells, -1)

/-- `hashmap_free`, with the memory of the nodes afterwards. -/
def hashmapFree (cells : HashCells ν) : Except Fault (Mem (HashNode ν)) :=
  freeSlots cells.heap cells.buckets

/-- The map that the cells stand for: the nodes in place of the pointers. -/
def view (cells : HashCells ν) : HashMap ν :=
  { buckets := cells.buckets.map fun slot => slot.bind cells.heap.load
    capacity := cells.capacity
    size := cells.size }

/-- The cells represent the map: no node is dangling, none belongs to two buckets,
and there are no others. -/
structure Represents (cells : HashCells ν) (map : HashMap ν) : Prop where
  view : cells.view = map
  owned : Exactly cells.heap cells.buckets.reduceOption
  counted : map.Counted

/-! ### Slots -/

section

variable {heap heap' : Mem (HashNode ν)} {slots : List (Option Addr)}

/-- A slot of an array, what is before it and what is behind it. -/
theorem split_slots {index : Nat} {slot : Option Addr}
    (at' : slots[index]? = some slot) :
    ∃ before after, slots = before ++ slot :: after ∧ before.length = index := by
  obtain ⟨inside, here⟩ := List.getElem?_eq_some_iff.mp at'
  refine ⟨slots.take index, slots.drop (index + 1), ?_, ?_⟩
  · rw [← here, ← List.set_eq_take_cons_drop _ inside, List.set_getElem_self]
  · rw [List.length_take, Nat.min_eq_left (Nat.le_of_lt inside)]

/-- What the slots lead to is the same in a memory that agrees on it. -/
theorem map_load_congr
    (same : ∀ a ∈ slots.reduceOption, heap'.load a = heap.load a) :
    (slots.map fun slot => slot.bind heap'.load) =
      slots.map fun slot => slot.bind heap.load := by
  apply List.map_congr_left
  intro slot member
  cases slot with
  | none => rfl
  | some a => exact same a (List.reduceOption_mem_iff.mpr member)

end

/-! ### The search

A pointer in a bucket leads to a node that belongs to this bucket alone.  Reading
the nodes in place of the pointers therefore gives a map of values, and both
searches take the same steps.  Their results differ in one point: the search
through the pointers also knows the address of the node, which the operations
write to or free.
-/

/-- The search through the pointers finds what the search through the nodes
does. -/
inductive Finds (cells : HashCells ν) (key : Int) :
    Except Fault (Outcome ν Nat) → Except Fault (Outcome Addr Nat) → Prop
  | held {index : Nat} {current : Addr} {value : ν}
      (slot : cells.buckets[index]? = some (some current))
      (node : cells.heap.load current = some { key := key, value := value }) :
      Finds cells key (.ok (.held index value)) (.ok (.held index current))
  | empty {index : Nat} (slot : cells.buckets[index]? = some none) :
      Finds cells key (.ok (.empty index)) (.ok (.empty index))
  | fullCircle : Finds cells key (.ok .fullCircle) (.ok .fullCircle)
  | fault (fault : Fault) : Finds cells key (.error fault) (.error fault)

namespace Represents

variable {cells : HashCells ν} {map : HashMap ν}

/-- The bucket of the map is what the slot leads to. -/
theorem bucket (represents : Represents cells map) (index : Nat) :
    map.buckets[index]? =
      (cells.buckets[index]?).map fun slot => slot.bind cells.heap.load := by
  rw [← represents.view, HashCells.view, List.getElem?_map]

/-- A pointer in a slot leads to a node. -/
theorem node (represents : Represents cells map) {index : Nat} {a : Addr}
    (slot : cells.buckets[index]? = some (some a)) :
    ∃ node, cells.heap.load a = some node :=
  represents.owned.load
    (List.reduceOption_mem_iff.mpr (List.mem_of_getElem? slot))

theorem finds_loop (represents : Represents cells map) (key : Int)
    (originalIndex : Nat) (fuel index step : Nat) :
    Finds cells key (OsSim.probeLoop map key originalIndex fuel index step)
      (cells.probeLoop key originalIndex fuel index step) := by
  have capacity : map.capacity = cells.capacity := by
    rw [← represents.view, HashCells.view]
  induction fuel generalizing index step with
  | zero => exact .fault _
  | succ fuel ih =>
      rw [OsSim.probeLoop, HashCells.probeLoop, represents.bucket]
      cases slot : cells.buckets[index]? with
      | none => exact .fault _
      | some pointer =>
          cases pointer with
          | none => exact .empty slot
          | some a =>
              obtain ⟨node, loaded⟩ := represents.node slot
              simp only [Option.map_some, Option.bind_some, loaded,
                deref_of_load loaded, ok_bind, pure_eq_ok, capacity]
              by_cases same : node.key = key
              · rw [if_pos same, if_pos same]
                exact .held slot (by rw [loaded, ← same])
              · rw [if_neg same, if_neg same]
                split
                · exact .fullCircle
                · exact ih _ _

/-- Both searches return, and find the same. -/
theorem finds (represents : Represents cells map) (key : Int) :
    Finds cells key (OsSim.probe map key) (cells.probe key) := by
  have capacity : map.capacity = cells.capacity := by
    rw [← represents.view, HashCells.view]
  rw [OsSim.probe, HashCells.probe, capacity]
  exact represents.finds_loop key _ _ _ _

/-- One slot is written to, and the memory of the others stays. -/
theorem write (represents : Represents cells map)
    {before after : List (Option Addr)} {slot slot' : Option Addr}
    (split : cells.buckets = before ++ slot :: after)
    {heap : Mem (HashNode ν)} {bucket : Option (HashNode ν)} {size : Nat}
    (kept : ∀ a ∈ before.reduceOption ++ after.reduceOption,
      heap.load a = cells.heap.load a)
    (here : slot'.bind heap.load = bucket)
    (owned : Exactly heap (before ++ slot' :: after).reduceOption)
    (counted : HashMap.Counted { map with
      buckets := map.buckets.set before.length bucket, size := size }) :
    Represents
      { cells with
        heap := heap
        buckets := cells.buckets.set before.length slot'
        size := size }
      { map with
        buckets := map.buckets.set before.length bucket, size := size } where
  view := by
    have left : (before.map fun slot => slot.bind heap.load) =
        before.map fun slot => slot.bind cells.heap.load :=
      map_load_congr fun a member => kept a (List.mem_append_left _ member)
    have right : (after.map fun slot => slot.bind heap.load) =
        after.map fun slot => slot.bind cells.heap.load :=
      map_load_congr fun a member => kept a (List.mem_append_right _ member)
    rw [← represents.view, HashCells.view, HashCells.view, split]
    simp [left, right, here]
  owned := by
    rw [split]
    simpa using owned
  counted := counted

/-- A new node is put into an empty slot. -/
theorem insert (represents : Represents cells map) {index : Nat}
    (slot : cells.buckets[index]? = some none) (node : HashNode ν) :
    Represents
      { cells with
        heap := (cells.heap.malloc node).1
        buckets := cells.buckets.set index (some (cells.heap.malloc node).2)
        size := cells.size + 1 }
      { map with
        buckets := map.buckets.set index (some node)
        size := map.size + 1 } := by
  have size : map.size = cells.size := by
    rw [← represents.view, HashCells.view]
  have free : map.buckets[index]? = some none := by
    rw [represents.bucket, slot]
    rfl
  obtain ⟨before, after, split, rfl⟩ := split_slots slot
  have owned := represents.owned
  rw [split, List.reduceOption_append, List.reduceOption_cons_of_none] at owned
  rw [← size]
  refine represents.write split ?_ (Mem.load_malloc_self _ _) ?_
    (represents.counted.insert free node)
  · intro a member
    obtain ⟨old, loaded⟩ := owned.load member
    rw [Mem.load_malloc_of_live loaded, loaded]
  · rw [List.reduceOption_append, List.reduceOption_cons_of_some]
    exact (owned.malloc node).perm List.perm_middle.symm

/-- The node that a slot leads to is overwritten. -/
theorem replace (represents : Represents cells map) {index : Nat} {a : Addr}
    (slot : cells.buckets[index]? = some (some a)) (node : HashNode ν) :
    Represents { cells with heap := cells.heap.put a node }
      { map with buckets := map.buckets.set index (some node) } := by
  obtain ⟨old, loaded⟩ := represents.node slot
  have size : map.size = cells.size := by
    rw [← represents.view, HashCells.view]
  have here : map.buckets[index]? = some (some old) := by
    rw [represents.bucket, slot, Option.map_some, Option.bind_some, loaded]
  obtain ⟨inside, same⟩ := List.getElem?_eq_some_iff.mp slot
  have stays : cells.buckets.set index (some a) = cells.buckets := by
    rw [← same, List.set_getElem_self]
  have owned := represents.owned
  obtain ⟨before, after, split, rfl⟩ := split_slots slot
  rw [split, List.reduceOption_append, List.reduceOption_cons_of_some] at owned
  have apart := (List.nodup_cons.mp
    (List.perm_middle.nodup_iff.mp owned.nodup)).1
  have written : Represents
      { cells with
        heap := cells.heap.put a node
        buckets := cells.buckets.set before.length (some a)
        size := map.size }
      { map with
        buckets := map.buckets.set before.length (some node)
        size := map.size } := by
    refine represents.write split ?_ (Mem.load_put_self loaded node) ?_
      (represents.counted.replace here node)
    · intro other member
      have different : other ≠ a := fun equal => apart (equal ▸ member)
      exact Mem.load_put_of_ne _ different _
    · rw [List.reduceOption_append, List.reduceOption_cons_of_some]
      exact owned.put loaded node
  rw [stays, size] at written
  rw [size]
  exact written

/-- The node that a slot leads to is freed, and the slot is emptied. -/
theorem erase (represents : Represents cells map) {index : Nat} {a : Addr}
    (slot : cells.buckets[index]? = some (some a)) :
    release cells.heap a = .ok (cells.heap.drop a) ∧
      Represents
        { cells with
          heap := cells.heap.drop a
          buckets := cells.buckets.set index none
          size := cells.size - 1 }
        { map with
          buckets := map.buckets.set index none
          size := map.size - 1 } := by
  obtain ⟨old, loaded⟩ := represents.node slot
  have size : map.size = cells.size := by
    rw [← represents.view, HashCells.view]
  have here : map.buckets[index]? = some (some old) := by
    rw [represents.bucket, slot, Option.map_some, Option.bind_some, loaded]
  have owned := represents.owned
  obtain ⟨before, after, split, rfl⟩ := split_slots slot
  rw [split, List.reduceOption_append, List.reduceOption_cons_of_some] at owned
  obtain ⟨released, rest⟩ := (owned.perm List.perm_middle).release
  have apart := (List.nodup_cons.mp
    (List.perm_middle.nodup_iff.mp owned.nodup)).1
  refine ⟨released, ?_⟩
  rw [← size]
  refine represents.write split ?_ rfl ?_ (represents.counted.erase here).2
  · intro other member
    exact Mem.load_drop_of_ne _ (fun equal => apart (equal ▸ member))
  · rw [List.reduceOption_append, List.reduceOption_cons_of_none]
    exact rest

theorem create {capacity : Nat} (positive : 1 ≤ capacity) :
    Represents (HashCells.hashmapCreate ν capacity)
      (OsSim.hashmapCreate ν capacity) where
  view := by simp [HashCells.view, HashCells.hashmapCreate, OsSim.hashmapCreate]
  owned := by
    rw [HashCells.hashmapCreate, List.reduceOption_replicate_none]
    exact Exactly.empty
  counted := HashMap.counted_create positive

/-- `hashmap_put` on the cells does what it does on the map. -/
theorem put (represents : Represents cells map) (key : Int) (value : ν) :
    ∃ cells' map' status, cells.hashmapPut key value = .ok (cells', status) ∧
      OsSim.hashmapPut map key value = .ok (map', status) ∧
      Represents cells' map' := by
  have capacity : map.capacity = cells.capacity := by
    rw [← represents.view, HashCells.view]
  have size : map.size = cells.size := by
    rw [← represents.view, HashCells.view]
  obtain ⟨outcome, run, _⟩ := probe_spec key represents.counted.positive
    represents.counted.room
  have finds := represents.finds key
  rw [run] at finds
  rw [HashCells.hashmapPut, OsSim.hashmapPut, run]
  by_cases full : map.capacity ≤ map.size
  · rw [if_pos full, if_pos (by omega)]
    exact ⟨_, _, _, rfl, rfl, represents⟩
  · rw [if_neg full, if_neg (by omega)]
    generalize probed : cells.probe key = result at finds
    cases finds with
    | held slot node =>
        refine ⟨_, _, _, ?_, rfl,
          represents.replace slot { key := key, value := value }⟩
        rw [ok_bind]
        dsimp only
        rw [update_of_load node, ok_bind]
        rfl
    | empty slot =>
        exact ⟨_, _, 1, rfl, rfl,
          represents.insert slot { key := key, value := value }⟩
    | fullCircle => exact ⟨_, _, _, rfl, rfl, represents⟩

/-- So does `hashmap_get`. -/
theorem get (represents : Represents cells map) (key : Int) :
    ∃ found, cells.hashmapGet key = .ok found ∧
      OsSim.hashmapGet map key = .ok found := by
  obtain ⟨outcome, run, _⟩ := probe_spec key represents.counted.positive
    represents.counted.room
  have finds := represents.finds key
  rw [run] at finds
  rw [HashCells.hashmapGet, OsSim.hashmapGet, run]
  generalize probed : cells.probe key = result at finds
  cases finds with
  | held slot node =>
      refine ⟨_, ?_, rfl⟩
      rw [ok_bind]
      dsimp only
      rw [deref_of_load node]
      rfl
  | empty slot => exact ⟨_, rfl, rfl⟩
  | fullCircle => exact ⟨_, rfl, rfl⟩

/-- So does `hashmap_remove`. -/
theorem remove (represents : Represents cells map) (key : Int) :
    ∃ cells' map' status, cells.hashmapRemove key = .ok (cells', status) ∧
      OsSim.hashmapRemove map key = .ok (map', status) ∧
      Represents cells' map' := by
  obtain ⟨outcome, run, _⟩ := probe_spec key represents.counted.positive
    represents.counted.room
  have finds := represents.finds key
  rw [run] at finds
  rw [HashCells.hashmapRemove, OsSim.hashmapRemove, run]
  generalize probed : cells.probe key = result at finds
  cases finds with
  | held slot node =>
      obtain ⟨released, erased⟩ := represents.erase slot
      refine ⟨_, _, _, ?_, rfl, erased⟩
      rw [ok_bind]
      dsimp only
      rw [released]
      rfl
  | empty slot => exact ⟨_, _, _, rfl, rfl, represents⟩
  | fullCircle => exact ⟨_, _, _, rfl, rfl, represents⟩

/-- As many nodes are allocated as `size` says. -/
theorem size_eq (represents : Represents cells map) :
    cells.size = cells.buckets.reduceOption.length := by
  have count := represents.counted.size
  rw [← represents.view, HashMap.occupied, HashCells.view, List.countP_map]
    at count
  rw [List.reduceOption_length_eq, ← List.countP_eq_length_filter]
  refine Eq.trans count (List.countP_congr ?_)
  intro slot member
  cases slot with
  | none => rfl
  | some a =>
      obtain ⟨node, loaded⟩ :=
        represents.owned.load (List.reduceOption_mem_iff.mpr member)
      simp [loaded]

/-- `hashmap_free` frees every node once. -/
theorem free (represents : Represents cells map) :
    ∃ heap, cells.hashmapFree = .ok heap ∧ ∀ a, heap.load a = none := by
  have owned := represents.owned
  rw [← List.append_nil cells.buckets.reduceOption] at owned
  obtain ⟨heap, run, rest⟩ := owned.freeSlots_eq
  exact ⟨heap, run, rest.drained⟩

end Represents

end HashCells

/-! ### Sequences of operations -/

/-- What an operation on a map returns. -/
inductive MapAnswer (ν : Type) where
  | status (status : Int)
  | found (value : Option ν)
deriving Repr, DecidableEq

/-- One operation on a map, with its answer. -/
def HashMap.answer {ν : Type} (map : HashMap ν) :
    MapOp ν → Except Fault (HashMap ν × MapAnswer ν)
  | .put key value => do
      let (map, status) ← hashmapPut map key value
      pure (map, .status status)
  | .get key => do
      let value ← hashmapGet map key
      pure (map, .found value)
  | .remove key => do
      let (map, status) ← hashmapRemove map key
      pure (map, .status status)

/-- The same operation on the cells. -/
def HashCells.answer {ν : Type} (cells : HashCells ν) :
    MapOp ν → Except Fault (HashCells ν × MapAnswer ν)
  | .put key value => do
      let (cells, status) ← cells.hashmapPut key value
      pure (cells, .status status)
  | .get key => do
      let value ← cells.hashmapGet key
      pure (cells, .found value)
  | .remove key => do
      let (cells, status) ← cells.hashmapRemove key
      pure (cells, .status status)

theorem HashCells.simulates {ν : Type} :
    Simulates (@HashCells.Represents ν) HashCells.answer
      HashMap.answer := by
  intro cells map op represents
  cases op with
  | put key value =>
      obtain ⟨cells', map', status, run, run', represents'⟩ :=
        represents.put key value
      refine ⟨cells', map', .status status, ?_, ?_, represents'⟩
      · rw [HashCells.answer, run]
        rfl
      · rw [HashMap.answer, run']
        rfl
  | get key =>
      obtain ⟨found, run, run'⟩ := represents.get key
      refine ⟨cells, map, .found found, ?_, ?_, represents⟩
      · rw [HashCells.answer, run]
        rfl
      · rw [HashMap.answer, run']
        rfl
  | remove key =>
      obtain ⟨cells', map', status, run, run', represents'⟩ :=
        represents.remove key
      refine ⟨cells', map', .status status, ?_, ?_, represents'⟩
      · rw [HashCells.answer, run]
        rfl
      · rw [HashMap.answer, run']
        rfl

/-- The nodes and pointers of the hash map refine the map of values.  From
`hashmap_create` on, every sequence of operations returns, with the answers that
the map of values gives; as many nodes are allocated as `size` says, one for each
bucket that is not NULL; and `hashmap_free` frees each of them once. -/
theorem hash_cells_refine {ν : Type} (capacity : Nat) (positive : 1 ≤ capacity)
    (ops : List (MapOp ν)) :
    ∃ cells map answers,
      outputs HashCells.answer (.hashmapCreate ν capacity) ops =
        .ok (cells, answers) ∧
      outputs HashMap.answer (hashmapCreate ν capacity) ops =
        .ok (map, answers) ∧
      cells.view = map ∧
      (∀ a, cells.heap.load a ≠ none ↔ some a ∈ cells.buckets) ∧
      cells.buckets.reduceOption.Nodup ∧
      cells.size = cells.buckets.reduceOption.length ∧
      ∃ heap, cells.hashmapFree = .ok heap ∧ ∀ a, heap.load a = none := by
  obtain ⟨cells, map, answers, run, run', represents⟩ :=
    HashCells.simulates.outputs (HashCells.Represents.create positive) ops
  refine ⟨cells, map, answers, run, run', represents.view, ?_,
    represents.owned.nodup, represents.size_eq, represents.free⟩
  intro a
  rw [represents.owned.live, List.reduceOption_mem_iff]

/-- Two keys that share their first bucket in a map of four; the second one is
found behind the first, until that one has been removed. -/
private def sharing : List (MapOp Nat) :=
  [.put 1 7, .put 8 9, .get 8, .remove 1, .get 8]

theorem hash_cells_refine_sharing :
    ∃ cells map,
      outputs HashCells.answer (.hashmapCreate Nat 4) sharing = .ok (cells,
        [.status 1, .status 1, .found (some 9), .status 0, .found none]) ∧
      cells.view = map ∧ cells.size = 1 ∧
      ∃ heap, cells.hashmapFree = .ok heap ∧ ∀ a, heap.load a = none := by
  obtain ⟨cells, map, answers, run, _, view, _, _, _, free⟩ :=
    hash_cells_refine 4 (by decide) sharing
  have known : (do
      let ends ← outputs HashCells.answer (.hashmapCreate Nat 4) sharing
      pure (ends.2, ends.1.size)) = Except.ok
        ([.status 1, .status 1, .found (some 9), .status 0, .found none], 1) := by
    decide +kernel
  rw [run, ok_bind, pure_eq_ok, Except.ok.injEq, Prod.mk.injEq] at known
  exact ⟨cells, map, known.1 ▸ run, view, known.2, free⟩

end OsSim
