/-
Module: OsSim.MemoryAssignment
Purpose: When an assignment of a block to a process either happens altogether or
  not at all.
Trusted boundary: none
Main exports:
  AssignmentSucceeds, AssignmentFails, NoStaleRecord, assignment_atomic_iff,
  assignment_half_done
-/
import OsSim.MemoryRecords

namespace OsSim

open PointerMemory
open Trace

/-- The record that an assignment of the block to the process puts. -/
def assignedRecord (process : PCB) (block : Addr) : ProcessMemory :=
  { memory := block, id := process.pdata.id }

/-- The process has got the block: a lookup finds it, `memory_block` points to it
and the allocation has been logged. -/
def AssignmentSucceeds (manager : MemoryManager) (clk : Int) (process : PCB)
    (block : Addr) (manager' : MemoryManager) (process' : PCB) : Prop :=
  (∃ record, hashmapGet manager'.memoryMap process.pid = .ok (some record) ∧
    record.memory = block) ∧
  process'.memoryBlock = some block ∧
  ∃ cell, manager.heap.load block = some cell ∧
    manager'.memoryLog = manager.memoryLog ++
      [{ time := clk, type := .allocated, bytes := cell.allocated,
         process := process.pdata.id, first := cell.start,
         last := cell.start + cell.size - 1 }]

/-- Nothing has happened. -/
def AssignmentFails (manager : MemoryManager) (process : PCB)
    (manager' : MemoryManager) (process' : PCB) : Prop :=
  manager'.memoryMap = manager.memoryMap ∧ process' = process ∧
    manager'.memoryLog = manager.memoryLog

/-- The memory map is full, or holds nothing for the pid but the very record that
is to be put. -/
def NoStaleRecord (manager : MemoryManager) (process : PCB) (block : Addr) :
    Prop :=
  manager.memoryMap.capacity ≤ manager.memoryMap.size ∨
    ∀ record, hashmapGet manager.memoryMap process.pid = .ok (some record) →
      record = assignedRecord process block

/-- A pid is assigned a block when it is new, or when its process has been
deallocated. -/
def RecordedManager.ReusesReleased (state : RecordedManager) :
    ManagerCall → Prop
  | .assign _ process _ => latestPut state.puts process.pid = none ∨
      process.pid ∈ state.released
  | .allocate _ | .deallocate _ _ => True

instance (state : RecordedManager) :
    ∀ call, Decidable (state.ReusesReleased call)
  | .assign _ _ _ => inferInstanceAs (Decidable (_ ∨ _))
  | .allocate _ | .deallocate _ _ => inferInstanceAs (Decidable True)

/-- What an assignment does, by the status of its `hashmap_put`. -/
theorem assignMemoryBlockToProcess_eq {manager : MemoryManager}
    {process : PCB} {block : Addr} {cell : Block}
    (loaded : manager.heap.load block = some cell) (clk : Int)
    {after : HashMap ProcessMemory} {status : Int}
    (put : hashmapPut manager.memoryMap process.pid
      (assignedRecord process block) = .ok (after, status)) :
    assignMemoryBlockToProcess manager clk process (some block) =
      if 0 < status then
        .ok ({ manager with
          memoryMap := after
          memoryLog := manager.memoryLog ++
            [{ time := clk, type := .allocated, bytes := cell.allocated,
               process := process.pdata.id, first := cell.start,
               last := cell.start + cell.size - 1 }] },
          { process with memoryBlock := some block })
      else
        .ok ({ manager with memoryMap := after }, process) := by
  rw [assignedRecord] at put
  rw [assignMemoryBlockToProcess]
  simp only [put, ok_bind, pure_eq_ok, gt_iff_lt]
  split
  · rw [logMemoryEvent, deref_of_load loaded]
    rfl
  · rfl

namespace HashMap

variable {ν : Type} {map after : HashMap ν} {held : Int → Option ν}
  {key status : Int} {value : ν}

/-- A put of the value that is held already changes nothing. -/
theorem put_held (formed : map.Formed) (holds : map.Holds held)
    (same : held key = some value)
    (put : hashmapPut map key value = .ok (after, status)) : after = map := by
  obtain ⟨outcome, run, search⟩ := probe_spec key formed.positive formed.room
  rw [hashmapPut] at put
  split at put
  · simp only [Except.ok.injEq, Prod.mk.injEq] at put
    exact put.1.symm
  · rw [run, ok_bind] at put
    have found := formed.held_eq holds search
    rw [same] at found
    cases outcome with
    | held bucket old =>
        simp only [pure_eq_ok, Except.ok.injEq, Prod.mk.injEq] at put
        have stored := table_eq_some.mp ((formed.probed.search_iff search).mp rfl)
        have equal : value = old := Option.some.inj found
        obtain ⟨inside, cell⟩ := List.getElem?_eq_some_iff.mp stored
        rw [← put.1, equal, ← cell, List.set_getElem_self]
    | empty | fullCircle => cases found

/-- A put that replaces a value yields the same map only if the value is the
same. -/
theorem held_of_put (holds : map.Holds held)
    (holds' : map.Holds (Function.update held key (some value))) :
    held key = some value := by
  apply (holds key value).mpr
  exact (holds' key value).mp (Function.update_self key (some value) held)

end HashMap

/-- After every history of calls, pids reused or not, the assignment of a block
that has not been released returns; and it happens altogether or not at all
exactly if the map is full or holds no other record for the pid. -/
theorem assignment_atomic_iff (calls : List ManagerCall)
    (state : RecordedManager)
    (run : runs RecordedManager.step RecordedManager.init calls = .ok state)
    (clk : Int) (process : PCB) (block : Addr)
    (loaded : (state.manager.heap.load block).isSome) :
    ∃ manager' process',
      assignMemoryBlockToProcess state.manager clk process (some block) =
        .ok (manager', process') ∧
      ((AssignmentSucceeds state.manager clk process block manager' process' ∨
          AssignmentFails state.manager process manager' process') ↔
        NoStaleRecord state.manager process block) := by
  have recorded := recorded_of_runs run
  obtain ⟨cell, load⟩ := Option.isSome_iff_exists.mp loaded
  obtain ⟨after, status, put, formed, _, holds, unchanged, full, room⟩ :=
    recorded.formed.hashmapPut_spec recorded.holds process.pid
      (assignedRecord process block)
  have look := recorded.lookup process.pid
  have outcome := assignMemoryBlockToProcess_eq load clk put
  rcases hashmapPut_status put with failed | updated | inserted
  · -- The map refuses the record.
    subst failed
    rw [if_neg (by decide)] at outcome
    refine ⟨_, _, outcome, iff_of_true (Or.inr ⟨unchanged rfl, rfl, rfl⟩) ?_⟩
    by_cases isFull : state.manager.memoryMap.capacity ≤
        state.manager.memoryMap.size
    · exact Or.inl isFull
    · have known := (room (by omega)).1
      refine Or.inr fun record found => ?_
      rw [look, Except.ok.injEq] at found
      rw [found] at known
      exact absurd (known.mpr rfl) (by decide)
  · -- The map has a record for the pid, and replaces it.
    subst updated
    rw [if_neg (by decide)] at outcome holds
    have notFull : ¬ state.manager.memoryMap.capacity ≤
        state.manager.memoryMap.size := by
      intro isFull
      exact absurd (full isFull) (by decide)
    obtain ⟨old, held⟩ :=
      Option.isSome_iff_exists.mp ((room (by omega)).1.mp rfl)
    refine ⟨_, _, outcome, ?_⟩
    constructor
    · rintro (⟨_, _, _, _, logged⟩ | ⟨unchanged, _, _⟩)
      · simp at logged
      · have same : after = state.manager.memoryMap := unchanged
        refine Or.inr fun record found => ?_
        have kept := HashMap.held_of_put recorded.holds (same ▸ holds)
        rw [look, kept, Except.ok.injEq, Option.some.injEq] at found
        exact found.symm
    · rintro (isFull | fresh)
      · exact absurd isFull notFull
      · have equal : old = assignedRecord process block :=
          fresh old (by rw [look, held])
        exact Or.inr ⟨HashMap.put_held recorded.formed recorded.holds
          (equal ▸ held) put, rfl, rfl⟩
  · -- The record is new.
    subst inserted
    rw [if_pos (by decide)] at outcome
    rw [if_neg (by decide)] at holds
    have notFull : ¬ state.manager.memoryMap.capacity ≤
        state.manager.memoryMap.size := by
      intro isFull
      exact absurd (full isFull) (by decide)
    refine ⟨_, _, outcome, iff_of_true (Or.inl ⟨⟨assignedRecord process block,
      ?_, rfl⟩, rfl, cell, load, rfl⟩) ?_⟩
    · have found := formed.hashmapGet_spec holds process.pid
      rw [Function.update_self] at found
      exact found
    · refine Or.inr fun record found => ?_
      rw [look, Except.ok.injEq] at found
      have known := (room (by omega)).1
      rw [found] at known
      exact absurd (known.mpr rfl) (by decide)

/-- The process with this id, under the pid 10. -/
private def tenth (id : Int) : PCB :=
  newPcb 10 { id := id, arrivalTime := 0, runtime := 1, priority := 0,
              memorySize := 512 }

/-- Both halves of the memory are allocated; the process with pid 10 gets the
first one, and exits. -/
private def halves : List ManagerCall :=
  [.allocate 512, .allocate 512, .assign 0 (tenth 1) (some 0), .deallocate 3 10]

/-- Before any history the block of the whole memory can be assigned. -/
theorem assignment_atomic_iff_first :
    ∃ manager' process',
      assignMemoryBlockToProcess initMemoryManager 0 (tenth 1) (some 0) =
        .ok (manager', process') ∧
      ((AssignmentSucceeds initMemoryManager 0 (tenth 1) 0 manager' process' ∨
          AssignmentFails initMemoryManager (tenth 1) manager' process') ↔
        NoStaleRecord initMemoryManager (tenth 1) 0) :=
  assignment_atomic_iff [] RecordedManager.init rfl 0 (tenth 1) 0 (by decide)

/-- A new process under pid 10 gets the second half: the map records it, but
`memory_block` is not set and nothing is logged. -/
theorem assignment_half_done :
    ¬ ∀ (calls : List ManagerCall) (state : RecordedManager),
      Along RecordedManager.step RecordedManager.Legal RecordedManager.init
        calls →
      Along RecordedManager.step RecordedManager.ReusesReleased
        RecordedManager.init calls →
      runs RecordedManager.step RecordedManager.init calls = .ok state →
      ∀ clk process block,
        state.Legal (.assign clk process (some block)) →
        state.ReusesReleased (.assign clk process (some block)) →
        ∀ manager' process',
          assignMemoryBlockToProcess state.manager clk process (some block) =
            .ok (manager', process') →
          AssignmentSucceeds state.manager clk process block manager' process' ∨
            AssignmentFails state.manager process manager' process' := by
  intro atomic
  have replay : (do
      let state ← runs RecordedManager.step RecordedManager.init halves
      let after ←
        assignMemoryBlockToProcess state.manager 4 (tenth 2) (some 1)
      pure (decide (state.Legal (.assign 4 (tenth 2) (some 1)) ∧
        state.ReusesReleased (.assign 4 (tenth 2) (some 1)) ∧
        after.2.memoryBlock = none ∧
        after.1.memoryMap ≠ state.manager.memoryMap))) = Except.ok true := by
    decide +kernel
  obtain ⟨state, run, rest⟩ := bind_eq_ok.mp replay
  obtain ⟨⟨manager', process'⟩, assigned, ends⟩ := bind_eq_ok.mp rest
  simp only [pure_eq_ok, Except.ok.injEq, decide_eq_true_eq] at ends
  obtain ⟨legal, released, unset, changed⟩ := ends
  rcases atomic halves state (by decide +kernel) (by decide +kernel) run 4
      (tenth 2) 1 legal released manager' process' assigned with
    ⟨_, set, _⟩ | ⟨same, _, _⟩
  · rw [unset] at set
    cases set
  · exact changed same

end OsSim
