/-
Module: OsSim.MemoryLedger
Purpose: Runs of admissions and exits of the memory manager, and when every
  allocated block belongs to exactly one live process.
Trusted boundary: none
Main exports:
  Tenants, TenantCall, Tenants.Legal, Tenants.NoLeak, Tenants.Roomy, Ledger,
  memory_leak_free_iff
-/
import OsSim.MemoryManager

namespace OsSim

open PointerMemory
open OpenAddressing
open Trace

/-- The memory manager, with the pids admitted so far and those among them that
have not exited. -/
structure Tenants where
  manager : MemoryManager
  admitted : List Int
  alive : List Int
deriving Repr, DecidableEq

/-- An admission of a process that asks for `size`, or the exit of a process, at
a time. -/
inductive TenantCall where
  | arrive (clk size : Int) (process : PCB)
  | exit (clk pid : Int)
deriving Repr, DecidableEq

namespace Tenants

def init : Tenants :=
  { manager := initMemoryManager, admitted := [], alive := [] }

def step (state : Tenants) : TenantCall → Except Fault Tenants
  | .arrive clk size process => do
      let (manager, block) ← allocateProcessMemory state.manager size
      match block with
      | none => pure { state with manager := manager }
      | some block => do
          let (manager, process) ←
            assignMemoryBlockToProcess manager clk process (some block)
          pure { manager := manager
                 admitted := process.pid :: state.admitted
                 alive := process.pid :: state.alive }
  | .exit clk pid => do
      let (manager, _) ← deallocateProcessMemory state.manager clk pid
      pure { state with manager := manager, alive := state.alive.erase pid }

/-- The allocator has a block for this size. -/
def fits (state : Tenants) (size : Int) : Bool :=
  match allocateProcessMemory state.manager size with
  | .ok (_, some _) => true
  | _ => false

/-- Admissions are for at least one byte, get a block, and are under a positive
pid that was not used before; every admitted pid exits at most once. -/
def Legal (state : Tenants) : TenantCall → Prop
  | .arrive _ size process =>
      1 ≤ size ∧ 0 < process.pid ∧ process.pid ∉ state.admitted ∧
        state.fits size = true
  | .exit _ pid => pid ∈ state.alive

instance (state : Tenants) (call : TenantCall) :
    Decidable (state.Legal call) := by
  cases call
  · exact inferInstanceAs (Decidable (_ ∧ _))
  · exact inferInstanceAs (Decidable (_ ∈ _))

/-- The memory map records the block for the pid. -/
def Records (state : Tenants) (pid : Int) (block : Addr) : Prop :=
  ∃ record, hashmapGet state.manager.memoryMap pid = .ok (some record) ∧
    record.memory = block

/-- Every allocated block is recorded for exactly one live pid, and without live
pids the memory is one free block. -/
def NoLeak (state : Tenants) : Prop :=
  ∃ nodes, state.manager.blocks = .ok nodes ∧
    (∀ node ∈ nodes, node.2.allocated ≠ 0 →
      ∃ pid, (pid ∈ state.alive ∧ state.Records pid node.1) ∧
        ∀ other, other ∈ state.alive → state.Records other node.1 →
          other = pid) ∧
    (state.alive = [] →
      tiles nodes = [{ start := 0, size := maxSize, allocated := 0 }])

/-- The call returns, in a state without a leak. -/
def KeepsNoLeak (state : Tenants) (call : TenantCall) : Prop :=
  ∃ next, state.step call = .ok next ∧ next.NoLeak

/-- One of the ten buckets on the probe path of an admitted pid is empty. -/
def Roomy (state : Tenants) : TenantCall → Prop
  | .arrive _ _ process =>
      ∃ i < 10, state.manager.memoryMap.buckets[
        (hashmapIntHash process.pid % 100 + i * i) % 100]? = some none
  | .exit _ _ => True

instance (state : Tenants) (call : TenantCall) :
    Decidable (state.Roomy call) := by
  cases call
  · exact inferInstanceAs (Decidable (∃ i < 10, _))
  · exact inferInstanceAs (Decidable True)

end Tenants

/-! ### The probe path of the memory map -/

/-- With a hundred buckets a probe path comes back after ten steps. -/
theorem fresh_hundred (key : Int) (j : Nat) :
    Fresh (probePath 100 key) j ↔ j < 10 := by
  constructor
  · intro fresh
    by_contra late
    apply fresh 10 (by decide) (by omega)
    exact (probePath_back_iff (by decide) key (by decide)).mpr (by decide)
  · intro early i positive bound back
    have less : i * i < 10 * 10 :=
      Nat.mul_self_lt_mul_self (Nat.lt_of_le_of_lt bound early)
    have divides := (probePath_back_iff (by decide) key
      (by rw [sizeRange]; omega)).mp back
    have square : 0 < i * i := Nat.mul_pos positive positive
    exact Nat.not_dvd_of_pos_of_lt square less divides

/-- The buckets of that path. -/
theorem probePath_hundred (key : Int) {i : Nat} (early : i < 10) :
    probePath 100 key i = (hashmapIntHash key % 100 + i * i) % 100 := by
  have less : i * i < 10 * 10 := Nat.mul_self_lt_mul_self early
  have start : hashmapIntHash key % 100 < 100 := Nat.mod_lt _ (by decide)
  have noWrap : hashmapIntHash key % 100 + i * i < sizeRange := by
    rw [sizeRange]
    omega
  rw [probePath, probeIndex, Nat.mod_eq_of_lt noWrap]

/-- One of the ten buckets on a path is empty exactly when the path meets an
empty bucket before it comes back. -/
theorem empty_bucket_iff {map : HashMap ProcessMemory} (formed : map.Formed)
    (capacity : map.capacity = 100) (key : Int) :
    (∃ i < 10, map.buckets[(hashmapIntHash key % 100 + i * i) % 100]? =
        some none) ↔
      ∃ j, Fresh (probePath map.capacity key) j ∧
        map.table (probePath map.capacity key j) = none := by
  rw [capacity]
  have inside : ∀ i, probePath 100 key i < map.buckets.length := by
    intro i
    rw [formed.room, capacity]
    exact probePath_lt (by decide) key i
  constructor
  · rintro ⟨i, early, empty⟩
    rw [← probePath_hundred key early] at empty
    exact ⟨i, (fresh_hundred key i).mpr early,
      (HashMap.table_eq_none (inside i)).mpr empty⟩
  · rintro ⟨j, fresh, empty⟩
    have early := (fresh_hundred key j).mp fresh
    refine ⟨j, early, ?_⟩
    rw [← probePath_hundred key early]
    exact (HashMap.table_eq_none (inside j)).mp empty

/-- No bucket holds a new key, so its search can only stop at an empty one. -/
theorem stops_iff_empty {map : HashMap ProcessMemory}
    {held : Int → Option ProcessMemory} (holds : map.Holds held) {key : Int}
    (new : held key = none) :
    (∃ j, Fresh (probePath map.capacity key) j ∧
        ∀ entry, map.table (probePath map.capacity key j) = some entry →
          entry.1 = key) ↔
      ∃ j, Fresh (probePath map.capacity key) j ∧
        map.table (probePath map.capacity key j) = none := by
  constructor
  · rintro ⟨j, fresh, stop⟩
    refine ⟨j, fresh, ?_⟩
    cases cell : map.table (probePath map.capacity key j) with
    | none => rfl
    | some entry =>
        have same := stop entry cell
        have look := (holds key entry.2).mpr ⟨_, by rw [cell, ← same]⟩
        rw [new] at look
        cases look
  · rintro ⟨j, fresh, empty⟩
    refine ⟨j, fresh, ?_⟩
    intro entry found
    rw [empty] at found
    cases found

/-! ### The ledger of owners

Three structures have to say the same: the block list, which blocks are allocated;
the memory map, which block belongs to which pid; and the processes, which pids
are alive.  The map is only added to.  It still holds the records of processes that
have exited, so its entries alone do not show who owns what.  The ledger lists the
live pids with their blocks, and these are exactly the allocated ones.
-/

/-- The invariant of admissions and exits.  `owners` lists the live pids, each
with the block recorded for it, and these blocks are the allocated ones. -/
structure Ledger (state : Tenants) (nodes : List (Addr × Tile))
    (held : Int → Option ProcessMemory) (owners : List (Int × Addr)) :
    Prop where
  buddy : BuddyInvariant state.manager.buddy nodes
  formed : state.manager.memoryMap.Formed
  capacity : state.manager.memoryMap.capacity = 100
  holds : state.manager.memoryMap.Holds held
  known : ∀ pid, held pid ≠ none → pid ∈ state.admitted
  alive : owners.map Prod.fst = state.alive
  nodup : state.alive.Nodup
  admitted : ∀ pid ∈ state.alive, pid ∈ state.admitted
  recorded : ∀ owner ∈ owners, ∃ record, held owner.1 = some record ∧
    record.memory = owner.2
  matched : (owners.map Prod.snd).Perm ((live nodes).map Prod.fst)

/-- The addresses of the allocated blocks are distinct. -/
theorem BuddyInvariant.nodup_live {state : BuddyHeap}
    {nodes : List (Addr × Tile)} (invariant : BuddyInvariant state nodes) :
    ((live nodes).map Prod.fst).Nodup :=
  invariant.blocks.linked.nodup.sublist
    (List.filter_sublist.map Prod.fst)

namespace Ledger

variable {state : Tenants} {nodes : List (Addr × Tile)}
variable {held : Int → Option ProcessMemory} {owners : List (Int × Addr)}

theorem initial :
    Ledger Tenants.init
      [(initMemory.2, { start := 0, size := maxSize, allocated := 0 })]
      (fun _ => none) [] where
  buddy := BuddyInvariant.initial
  formed := HashMap.formed_create (by decide)
  capacity := rfl
  holds := HashMap.holds_create 100
  known := fun _ some => absurd rfl some
  alive := rfl
  nodup := List.nodup_nil
  admitted := fun _ member => absurd member List.not_mem_nil
  recorded := fun _ member => absurd member List.not_mem_nil
  matched := by
    have none : live
        [(initMemory.2, { start := 0, size := maxSize, allocated := 0 })] =
          [] := by
      decide
    rw [none]
    exact List.Perm.refl []

/-- What the memory map records, in terms of the abstract map. -/
theorem records_iff (ledger : Ledger state nodes held owners) {pid : Int}
    {block : Addr} :
    state.Records pid block ↔
      ∃ record, held pid = some record ∧ record.memory = block := by
  simp only [Tenants.Records, ledger.formed.hashmapGet_spec ledger.holds,
    Except.ok.injEq]

/-- A live pid is listed, and with the block recorded for it. -/
theorem owner_of_alive (ledger : Ledger state nodes held owners) {pid : Int}
    (alive : pid ∈ state.alive) :
    ∃ block record, (pid, block) ∈ owners ∧ held pid = some record ∧
      record.memory = block := by
  rw [← ledger.alive] at alive
  obtain ⟨⟨owner, block⟩, member, same⟩ := List.mem_map.mp alive
  obtain ⟨record, look, place⟩ := ledger.recorded _ member
  have equal : owner = pid := same
  subst equal
  exact ⟨block, record, member, look, place⟩

/-- Two owners of one block are the same. -/
theorem owner_unique (ledger : Ledger state nodes held owners)
    {one other : Int} {block : Addr} (first : (one, block) ∈ owners)
    (second : (other, block) ∈ owners) : one = other := by
  have distinct : (owners.map Prod.snd).Nodup :=
    ledger.matched.nodup_iff.mpr ledger.buddy.nodup_live
  have same := List.inj_on_of_nodup_map distinct first second rfl
  exact congrArg Prod.fst same

/-- A state with a ledger has no leak. -/
theorem noLeak (ledger : Ledger state nodes held owners) : state.NoLeak := by
  refine ⟨nodes, ledger.buddy.blocks_eq, ?_, ?_⟩
  · intro node member used
    have inLive : node.1 ∈ (live nodes).map Prod.fst :=
      List.mem_map_of_mem (mem_live.mpr ⟨member, used⟩)
    obtain ⟨⟨pid, block⟩, owns, same⟩ :=
      List.mem_map.mp (ledger.matched.mem_iff.mpr inLive)
    have place : block = node.1 := same
    subst place
    obtain ⟨record, look, here⟩ := ledger.recorded _ owns
    refine ⟨pid, ⟨?_, ledger.records_iff.mpr ⟨record, look, here⟩⟩, ?_⟩
    · rw [← ledger.alive]
      exact List.mem_map_of_mem owns
    · intro other alive records
      obtain ⟨block', record', owns', look', place'⟩ :=
        ledger.owner_of_alive alive
      obtain ⟨record'', look'', here'⟩ := ledger.records_iff.mp records
      rw [look', Option.some.injEq] at look''
      subst look''
      exact ledger.owner_unique (place'.symm.trans here' ▸ owns') owns
  · intro none
    apply ledger.buddy.tiles_of_live_nil
    have nobody : owners = [] := by
      rw [← List.map_eq_nil_iff (f := Prod.fst), ledger.alive, none]
    have matched := ledger.matched
    rw [nobody, List.map_nil] at matched
    exact List.map_eq_nil_iff.mp (List.nil_perm.mp matched)

end Ledger

/-! ### One call

An admission marks a block before it asks the map to record it, and goes on when
the map refuses.  The block is then allocated, and no lookup leads to it.  Nothing
else can break the ledger: an exit finds the record of its pid, and the block in
it is still the one that was recorded, since no other live pid has it.
-/

/-- Logging an event about a block of the list returns. -/
theorem logMemoryEvent_ok (manager : MemoryManager)
    {nodes : List (Addr × Tile)}
    (blocks : BlocksAt manager.heap manager.memory nodes)
    {node : Addr × Tile} (member : node ∈ nodes) (clk id : Int)
    (type : MemoryEventType) :
    ∃ log, logMemoryEvent manager clk id node.1 type =
      .ok { manager with memoryLog := log } := by
  obtain ⟨block, loaded, _⟩ := blocks.load member
  rw [logMemoryEvent, deref_of_load loaded]
  exact ⟨_, rfl⟩

/-- Assigning a block of the list returns; apart from the log, only the map
changes. -/
theorem assignMemoryBlockToProcess_ok (manager : MemoryManager)
    {nodes : List (Addr × Tile)}
    (blocks : BlocksAt manager.heap manager.memory nodes) {block : Addr}
    {tile : Tile} (member : (block, tile) ∈ nodes) (clk : Int) {process : PCB}
    {after : HashMap ProcessMemory} {status : Int}
    (put : hashmapPut manager.memoryMap process.pid
      { memory := block, id := process.pdata.id } = .ok (after, status)) :
    ∃ log process',
      assignMemoryBlockToProcess manager clk process (some block) =
        .ok ({ manager with memoryMap := after, memoryLog := log }, process') ∧
      process'.pid = process.pid := by
  rw [assignMemoryBlockToProcess]
  simp only [put, ok_bind, pure_eq_ok]
  by_cases added : status > 0
  · obtain ⟨log, logged⟩ := logMemoryEvent_ok
      { manager with memoryMap := after } blocks member clk
      process.pdata.id .allocated
    rw [if_pos added, logged, ok_bind]
    exact ⟨_, _, rfl, rfl⟩
  · rw [if_neg added]
    exact ⟨manager.memoryLog, _, rfl, rfl⟩

/-- A legal admission takes a free block; what becomes of the record is up to
`hashmap_put`. -/
theorem Tenants.arrive_eq {state : Tenants} {nodes : List (Addr × Tile)}
    (invariant : BuddyInvariant state.manager.buddy nodes) {clk size : Int}
    {process : PCB} (legal : state.Legal (.arrive clk size process)) :
    ∃ heap' nodes' block tile,
      state.manager.buddy.call (.allocate size) =
        .ok { state.manager.buddy with heap := heap' } ∧
      BuddyInvariant { state.manager.buddy with heap := heap' } nodes' ∧
      (block, tile) ∈ nodes' ∧ tile.allocated ≠ 0 ∧
      block ∉ (live nodes).map Prod.fst ∧
      (live nodes').Perm ((block, tile) :: live nodes) ∧
      ∀ after status,
        hashmapPut state.manager.memoryMap process.pid
            { memory := block, id := process.pdata.id } = .ok (after, status) →
        ∃ log, state.step (.arrive clk size process) =
          .ok { manager := { state.manager with
                             heap := heap'
                             memoryMap := after
                             memoryLog := log }
                admitted := process.pid :: state.admitted
                alive := process.pid :: state.alive } := by
  obtain ⟨positive, _, _, fits⟩ := legal
  rcases invariant.allocate_live positive with
    ⟨run, _⟩ |
    ⟨heap', nodes', block, tile, run, _, kept, inside, asked, unowned, grown⟩
  · have failed : allocateMemory state.manager.heap state.manager.memory size =
        .ok (state.manager.heap, none) := run
    rw [Tenants.fits, allocateProcessMemory, failed] at fits
    cases fits
  · have allocated : allocateMemory state.manager.heap state.manager.memory
        size = .ok (heap', some block) := run
    refine ⟨heap', nodes', block, tile, ?_, kept, inside, ?_, unowned, grown,
      ?_⟩
    · rw [BuddyHeap.call, run]
      rfl
    · rw [asked]
      omega
    · intro after status put
      obtain ⟨log, process', assigned, pid⟩ := assignMemoryBlockToProcess_ok
        { state.manager with heap := heap' } kept.blocks inside clk put
      refine ⟨log, ?_⟩
      rw [Tenants.step, allocateProcessMemory, allocated]
      simp only [ok_bind, pure_eq_ok, assigned, pid]

namespace Ledger

variable {state : Tenants} {nodes : List (Addr × Tile)}
variable {held : Int → Option ProcessMemory} {owners : List (Int × Addr)}

/-- A new pid is recorded exactly when one of the ten buckets on its path is
empty. -/
theorem put_iff (ledger : Ledger state nodes held owners) {pid : Int}
    (new : held pid = none) (record : ProcessMemory) :
    ∃ after status,
      hashmapPut state.manager.memoryMap pid record = .ok (after, status) ∧
        after.Formed ∧ after.capacity = 100 ∧
        after.Holds (if status = -1 then held
          else Function.update held pid (some record)) ∧
        (status = -1 ∨ status = 1) ∧
        (status = 1 ↔ ∃ i < 10, state.manager.memoryMap.buckets[
          (hashmapIntHash pid % 100 + i * i) % 100]? = some none) := by
  obtain ⟨after, status, put, formed, same, holds, _, full, room⟩ :=
    ledger.formed.hashmapPut_spec ledger.holds pid record
  refine ⟨after, status, put, formed, same.trans ledger.capacity, holds, ?_⟩
  rw [empty_bucket_iff ledger.formed ledger.capacity]
  rcases Nat.lt_or_ge state.manager.memoryMap.size
      state.manager.memoryMap.capacity with free | none
  · obtain ⟨replaced, possible, stores⟩ := room free
    have notHeld : status ≠ 0 := by
      intro zero
      have some := replaced.mp zero
      rw [new] at some
      cases some
    rw [← stops_iff_empty ledger.holds new, ← stores]
    by_cases failed : status = -1
    · exact ⟨Or.inl failed, by omega⟩
    · have one : status = 1 := by
        by_contra other
        exact failed (possible notHeld other)
      exact ⟨Or.inr one, by omega⟩
  · have failed := full none
    refine ⟨Or.inl failed, ?_⟩
    constructor
    · intro one
      omega
    · rintro ⟨j, _, empty⟩
      have inside : probePath state.manager.memoryMap.capacity pid j <
          state.manager.memoryMap.buckets.length := by
        rw [ledger.formed.room]
        exact probePath_lt ledger.formed.positive pid j
      have free := ledger.formed.lt_of_empty inside empty
      omega

/-- An admission takes a free block.  It is recorded exactly when there is room
on the pid's probe path; otherwise the block is left without an owner. -/
theorem arrive (ledger : Ledger state nodes held owners) {clk size : Int}
    {process : PCB} (legal : state.Legal (.arrive clk size process)) :
    ∃ next nodes', state.step (.arrive clk size process) = .ok next ∧
      (state.Roomy (.arrive clk size process) →
        ∃ held' owners', Ledger next nodes' held' owners') ∧
      (¬ state.Roomy (.arrive clk size process) → ¬ next.NoLeak) := by
  have new : process.pid ∉ state.admitted := legal.2.2.1
  have unheld : held process.pid = none := by
    by_contra some
    exact new (ledger.known _ some)
  obtain ⟨heap', nodes', block, tile, _, kept, inside, used, unowned, grown,
    admits⟩ := Tenants.arrive_eq ledger.buddy legal
  obtain ⟨after, status, put, formed, capacity, holds, possible, stored⟩ :=
    ledger.put_iff unheld { memory := block, id := process.pdata.id }
  obtain ⟨log, stepped⟩ := admits after status put
  let next : Tenants :=
    { manager := { state.manager with
                   heap := heap', memoryMap := after, memoryLog := log }
      admitted := process.pid :: state.admitted
      alive := process.pid :: state.alive }
  refine ⟨next, nodes', stepped, ?_, ?_⟩
  · intro room
    have one := stored.mpr room
    rw [if_neg (by omega)] at holds
    refine ⟨_, (process.pid, block) :: owners, kept, formed, capacity,
      holds, ?_, ?_, ?_, ?_, ?_, ?_⟩
    · intro pid some
      by_cases same : pid = process.pid
      · exact same ▸ List.mem_cons_self
      · rw [Function.update_of_ne same] at some
        exact List.mem_cons_of_mem _ (ledger.known pid some)
    · rw [List.map_cons, ledger.alive]
    · exact List.nodup_cons.mpr
        ⟨fun alive => new (ledger.admitted _ alive), ledger.nodup⟩
    · intro pid alive
      rcases List.mem_cons.mp alive with same | older
      · exact same ▸ List.mem_cons_self
      · exact List.mem_cons_of_mem _ (ledger.admitted pid older)
    · intro owner owns
      rcases List.mem_cons.mp owns with same | older
      · rw [same, Function.update_self]
        exact ⟨_, rfl, rfl⟩
      · obtain ⟨record, look, place⟩ := ledger.recorded owner older
        refine ⟨record, ?_, place⟩
        rw [Function.update_of_ne _, look]
        intro same
        rw [same, unheld] at look
        cases look
    · exact (ledger.matched.cons block).trans (grown.map Prod.fst).symm
  · -- The record is refused: the block is allocated, and no live pid has it.
    rintro full ⟨found, read, owned, _⟩
    have failed : status = -1 := by
      rcases possible with failed | one
      · exact failed
      · exact absurd (stored.mp one) full
    have same : nodes' = found := kept.unique read
    subst same
    obtain ⟨pid, ⟨alive, record, look, place⟩, _⟩ :=
      owned (block, tile) inside used
    rw [if_pos failed] at holds
    have read : hashmapGet next.manager.memoryMap pid = .ok (held pid) :=
      formed.hashmapGet_spec holds pid
    rw [read, Except.ok.injEq] at look
    rcases List.mem_cons.mp alive with same | older
    · rw [same, unheld] at look
      cases look
    · obtain ⟨block', record', owns, look', place'⟩ :=
        ledger.owner_of_alive older
      rw [look', Option.some.injEq] at look
      have here : block' = block := by
        rw [← place', look, place]
      apply unowned
      rw [← here]
      exact ledger.matched.mem_iff.mp (List.mem_map_of_mem owns)

/-- The exit of a live pid gives its block back. -/
theorem exit (ledger : Ledger state nodes held owners) (clk : Int) {pid : Int}
    (alive : pid ∈ state.alive) :
    ∃ next nodes' owners', state.step (.exit clk pid) = .ok next ∧
      Ledger next nodes' held owners' := by
  obtain ⟨block, record, owns, look, place⟩ := ledger.owner_of_alive alive
  have allocated : block ∈ (live nodes).map Prod.fst :=
    ledger.matched.mem_iff.mp (List.mem_map_of_mem owns)
  obtain ⟨⟨block', tile⟩, inLive, same⟩ := List.mem_map.mp allocated
  have equal : block' = block := same
  subst equal
  obtain ⟨log, logged⟩ := logMemoryEvent_ok state.manager ledger.buddy.blocks
    (mem_live.mp inLive).1 clk record.id .deallocated
  obtain ⟨heap', nodes', run, kept, shrunk⟩ :=
    ledger.buddy.deallocate_live inLive
  obtain ⟨before, after, split⟩ := List.append_of_mem owns
  have listed := ledger.alive
  rw [split, List.map_append, List.map_cons] at listed
  have distinct := ledger.nodup
  rw [← listed] at distinct
  have notBefore : pid ∉ before.map Prod.fst := fun member =>
    (List.nodup_append.mp distinct).2.2 pid member pid List.mem_cons_self rfl
  have remaining : state.alive.erase pid = (before ++ after).map Prod.fst := by
    rw [← listed, List.erase_append_right _ notBefore, List.erase_cons_head,
      List.map_append]
  let next : Tenants :=
    { state with
      manager := { state.manager with heap := heap', memoryLog := log }
      alive := state.alive.erase pid }
  refine ⟨next, nodes', before ++ after, ?_, kept, ledger.formed,
    ledger.capacity, ledger.holds, ledger.known, remaining.symm,
    ledger.nodup.erase pid, ?_, ?_, ?_⟩
  · have found := ledger.formed.hashmapGet_spec ledger.holds pid
    have given : deallocateMemory state.manager.memory state.manager.heap
        (some block') = .ok heap' := run
    rw [Tenants.step, deallocateProcessMemory, found, look]
    simp only [ok_bind, place, logged, given, pure_eq_ok]
    rfl
  · intro other still
    exact ledger.admitted other (List.mem_of_mem_erase still)
  · intro owner member
    apply ledger.recorded owner
    rw [split]
    rcases List.mem_append.mp member with left | right
    · exact List.mem_append_left _ left
    · exact List.mem_append_right _ (List.mem_cons_of_mem _ right)
  · have matched := ledger.matched
    rw [split, List.map_append, List.map_cons] at matched
    have all := (List.perm_middle.symm.trans matched).trans
      (shrunk.map Prod.fst)
    rw [List.map_append]
    exact all.cons_inv

/-- A legal call keeps the ledger exactly when it leaves no leak, and that is
when there is room. -/
theorem call_iff (ledger : Ledger state nodes held owners) {call : TenantCall}
    (legal : state.Legal call) :
    state.KeepsNoLeak call ↔ state.Roomy call := by
  cases call with
  | arrive clk size process =>
      obtain ⟨next, nodes', stepped, kept, lost⟩ := ledger.arrive legal
      constructor
      · rintro ⟨next', stepped', noLeak⟩
        rw [stepped, Except.ok.injEq] at stepped'
        subst stepped'
        by_contra full
        exact lost full noLeak
      · intro room
        obtain ⟨_, _, kept⟩ := kept room
        exact ⟨next, stepped, kept.noLeak⟩
  | exit clk pid =>
      obtain ⟨next, nodes', owners', stepped, kept⟩ := ledger.exit clk legal
      exact ⟨fun _ => trivial, fun _ => ⟨next, stepped, kept.noLeak⟩⟩

/-- A legal call with room keeps the ledger. -/
theorem preserved (ledger : Ledger state nodes held owners) {call : TenantCall}
    (legal : state.Legal call) (room : state.Roomy call) {next : Tenants}
    (stepped : state.step call = .ok next) :
    ∃ nodes' held' owners', Ledger next nodes' held' owners' := by
  cases call with
  | arrive clk size process =>
      obtain ⟨next', nodes', stepped', kept, _⟩ := ledger.arrive legal
      rw [stepped, Except.ok.injEq] at stepped'
      subst stepped'
      exact ⟨nodes', kept room⟩
  | exit clk pid =>
      obtain ⟨next', nodes', owners', stepped', kept⟩ := ledger.exit clk legal
      rw [stepped, Except.ok.injEq] at stepped'
      subst stepped'
      exact ⟨nodes', held, owners', kept⟩

end Ledger

/-- In a run of admissions and exits no state has a leak exactly when at every
admission one of the ten buckets on the pid's probe path is empty. -/
theorem memory_leak_free_iff (calls : List TenantCall)
    (legal : Along Tenants.step Tenants.Legal Tenants.init calls) :
    Tenants.init.NoLeak ∧
      (Along Tenants.step Tenants.KeepsNoLeak Tenants.init calls ↔
        Along Tenants.step Tenants.Roomy Tenants.init calls) := by
  refine ⟨Ledger.initial.noLeak, ?_⟩
  apply Iff.symm
  apply along_congr_of_allowed
    (P := fun state => ∃ nodes held owners, Ledger state nodes held owners)
    ?_ ?_ ⟨_, _, _, Ledger.initial⟩ legal
  · rintro state call next ⟨_, _, _, ledger⟩ allowed room stepped
    exact ledger.preserved allowed room stepped
  · rintro state call ⟨_, _, _, ledger⟩ allowed
    exact (ledger.call_iff allowed).symm

/-- The admission of a process that asks for half of the memory. -/
private def arriveHalf (pid : Int) : TenantCall :=
  .arrive 0 512 (newPcb pid
    { id := pid, arrivalTime := 0, runtime := 1, priority := 0,
      memorySize := 512 })

/-- Three processes whose pids start at the same bucket come and go. -/
theorem memory_leak_free_sample :
    Along Tenants.step Tenants.KeepsNoLeak Tenants.init
      [arriveHalf 13, arriveHalf 42, .exit 1 13, arriveHalf 157, .exit 2 157,
        .exit 3 42] :=
  (memory_leak_free_iff _ (by decide +kernel)).2.mpr (by decide +kernel)

/-- Ten processes whose pids start at the same bucket come and go; the block of
an eleventh such process is never given back. -/
theorem memory_leak_eleventh :
    ¬ ∀ calls : List TenantCall,
      Along Tenants.step Tenants.Legal Tenants.init calls →
      Along Tenants.step Tenants.KeepsNoLeak Tenants.init calls := by
  intro always
  let pids : List Int := [13, 42, 157, 272, 416, 531, 646, 675, 790, 905]
  let calls := (pids.flatMap fun pid => [arriveHalf pid, .exit 1 pid]) ++
    [arriveHalf 934]
  have legal : Along Tenants.step Tenants.Legal Tenants.init
      (calls ++ [.exit 1 934]) := by
    decide +kernel
  have replay : (do
      let state ← runs Tenants.step Tenants.init calls
      let last ← state.step (.exit 1 934)
      let tiles ← last.manager.buddy.tiles
      pure (last.alive, tiles.head?)) =
        Except.ok ([], some { start := 0, size := 512, allocated := 512 }) := by
    decide +kernel
  obtain ⟨state, run, rest⟩ := bind_eq_ok.mp replay
  obtain ⟨last, stepped, rest⟩ := bind_eq_ok.mp rest
  obtain ⟨found, read, ends⟩ := bind_eq_ok.mp rest
  simp only [pure_eq_ok, Except.ok.injEq, Prod.mk.injEq] at ends
  obtain ⟨nobody, leaked⟩ := ends
  obtain ⟨next, stepped', nodes, blocks, _, single⟩ :=
    (along_cons.mp ((along_append.mp (always _ legal)).2 state run)).1
  rw [stepped, Except.ok.injEq] at stepped'
  subst stepped'
  have blocks' : blockList last.manager.heap last.manager.memory = .ok nodes :=
    blocks
  have found' : tiles nodes = found := by
    rw [BuddyHeap.tiles, printMemo] at read
    change (blockList last.manager.heap last.manager.memory >>= fun blocks =>
      pure (blocks.map Prod.snd)) = .ok found at read
    rw [blocks', ok_bind, pure_eq_ok, Except.ok.injEq] at read
    exact read
  rw [← found', single nobody] at leaked
  cases leaked

end OsSim
