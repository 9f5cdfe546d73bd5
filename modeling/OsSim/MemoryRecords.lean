/-
Module: OsSim.MemoryRecords
Purpose: Histories of the memory manager's calls: which record a lookup finds,
  and what a second release of a pid does.
Trusted boundary: none
Main exports:
  Put, latestPut, RecordedManager, ManagerCall, Recorded, lookup_finds_latest,
  released_pid_not_refused
-/
import OsSim.HashMapRuns
import OsSim.MemoryManager

namespace OsSim

open PointerMemory
open Trace

/-- A `hashmap_put` on the memory map, with the status it returned. -/
structure Put where
  pid : Int
  record : ProcessMemory
  status : Int
deriving Repr, DecidableEq

/-- The put returned 0 or 1. -/
def Put.stored (put : Put) : Bool := put.status = 0 ∨ put.status = 1

/-- The record of the pid's latest put that returned 0 or 1.  The list has the
newest put first. -/
def latestPut (puts : List Put) (pid : Int) : Option ProcessMemory :=
  (puts.find? fun put => put.pid = pid ∧ put.stored).map Put.record

/-- The memory manager, with the puts made so far and the pids whose
deallocation returned 1 and that no assignment succeeded for since. -/
structure RecordedManager where
  manager : MemoryManager
  puts : List Put
  released : List Int
deriving Repr, DecidableEq

/-- A call of the memory manager's interface. -/
inductive ManagerCall where
  | allocate (size : Int)
  | assign (clk : Int) (process : PCB) (block : Option Addr)
  | deallocate (clk pid : Int)
deriving Repr, DecidableEq

/-- The put that `assign_memory_block_to_process` makes, if it makes one. -/
def assignPut (manager : MemoryManager) (process : PCB) (block : Option Addr) :
    Except Fault (Option Put) :=
  match block with
  | none => .ok none
  | some block => do
      let record := { memory := block, id := process.pdata.id }
      let (_, status) ← hashmapPut manager.memoryMap process.pid record
      pure (some { pid := process.pid, record := record, status := status })

namespace RecordedManager

def init : RecordedManager :=
  { manager := initMemoryManager, puts := [], released := [] }

def step (state : RecordedManager) :
    ManagerCall → Except Fault RecordedManager
  | .allocate size => do
      let (manager, _) ← allocateProcessMemory state.manager size
      pure { state with manager := manager }
  | .assign clk process block => do
      let put ← assignPut state.manager process block
      let (manager, _) ←
        assignMemoryBlockToProcess state.manager clk process block
      -- `assign_memory_block_to_process` takes only a status above 0 as success
      let succeeded := put.any fun put => 0 < put.status
      pure { manager := manager
             puts := put.toList ++ state.puts
             released := if succeeded then
               state.released.filter (· ≠ process.pid) else state.released }
  | .deallocate clk pid => do
      let (manager, result) ← deallocateProcessMemory state.manager clk pid
      pure { state with
        manager := manager
        released := if result = 1 then pid :: state.released
          else state.released }

/-- Allocations are for at least one byte, and the blocks assigned are
allocated ones. -/
def Legal (state : RecordedManager) : ManagerCall → Prop
  | .allocate size => 1 ≤ size
  | .assign _ _ (some block) => state.manager.buddy.isAllocated block = true
  | .assign _ _ none => True
  | .deallocate _ _ => True

instance (state : RecordedManager) (call : ManagerCall) :
    Decidable (state.Legal call) :=
  match call with
  | .allocate _ => inferInstanceAs (Decidable (_ ≤ _))
  | .assign _ _ (some _) => inferInstanceAs (Decidable (_ = _))
  | .assign _ _ none => inferInstanceAs (Decidable True)
  | .deallocate _ _ => inferInstanceAs (Decidable True)

/-- Every lookup yields the record of the pid's latest put that returned 0 or
1, and NULL when there is none. -/
def FindsLatest (state : RecordedManager) : Prop :=
  ∀ pid, hashmapGet state.manager.memoryMap pid =
    .ok (latestPut state.puts pid)

/-- Whatever is put next, the put returns, and a put that returns -1 changes no
bucket. -/
def RefusalKeepsBuckets (state : RecordedManager) : Prop :=
  ∀ pid record, ∃ after status,
    hashmapPut state.manager.memoryMap pid record = .ok (after, status) ∧
      (status = -1 → after.buckets = state.manager.memoryMap.buckets)

/-- Another deallocation for the pid returns 0 and leaves the block list. -/
def RefusesRelease (state : RecordedManager) (clk pid : Int) : Prop :=
  ∃ manager, deallocateProcessMemory state.manager clk pid =
      .ok (manager, 0) ∧
    manager.blocks = state.manager.blocks

end RecordedManager

/-! ### Calls and the memory map -/

/-- A deallocation that returns leaves the memory map as it is; it returns 0
where nothing is recorded for the pid, and 1 otherwise. -/
theorem deallocateProcessMemory_map {manager manager' : MemoryManager}
    {clk pid result : Int} {found : Option ProcessMemory}
    (look : hashmapGet manager.memoryMap pid = .ok found)
    (run : deallocateProcessMemory manager clk pid = .ok (manager', result)) :
    manager'.memoryMap = manager.memoryMap ∧
      result = if found.isSome then 1 else 0 := by
  rcases deallocateProcessMemory_inv run with
    ⟨none, rfl, rfl⟩ | ⟨record, heap, log, some, _, rfl, rfl⟩
  · rw [look, Except.ok.injEq] at none
    rw [none]
    exact ⟨rfl, rfl⟩
  · rw [look, Except.ok.injEq] at some
    rw [some]
    exact ⟨rfl, rfl⟩

/-- The map after an assignment is the one its put returned. -/
theorem assignMemoryBlockToProcess_map {manager manager' : MemoryManager}
    {clk : Int} {process process' : PCB} {block : Addr}
    {after : HashMap ProcessMemory} {status : Int}
    (put : hashmapPut manager.memoryMap process.pid
      { memory := block, id := process.pdata.id } = .ok (after, status))
    (run : assignMemoryBlockToProcess manager clk process (some block) =
      .ok (manager', process')) :
    manager'.memoryMap = after := by
  obtain ⟨after', result, log, found, put', rfl, _⟩ :=
    assignMemoryBlockToProcess_inv run
  have same := Except.ok.inj (put'.symm.trans put)
  exact congrArg Prod.fst same

/-- A put in front changes what is found for its own pid only, and only when it
was stored. -/
theorem latestPut_cons (put : Put) (puts : List Put)
    (possible : put.status = -1 ∨ put.status = 0 ∨ put.status = 1) :
    latestPut (put :: puts) =
      if put.status = -1 then latestPut puts
      else Function.update (latestPut puts) put.pid (some put.record) := by
  funext pid
  by_cases failed : put.status = -1
  · have refused : put.stored = false := by simp [Put.stored, failed]
    rw [if_pos failed, latestPut, latestPut,
      List.find?_cons_of_neg (by simp [refused])]
  · have kept : put.stored = true := by
      simp only [Put.stored, decide_eq_true_eq]
      omega
    rw [if_neg failed]
    by_cases same : pid = put.pid
    · rw [same, Function.update_self, latestPut,
        List.find?_cons_of_pos (by simp [kept])]
      rfl
    · rw [Function.update_of_ne same, latestPut, latestPut,
        List.find?_cons_of_neg (by simp [Ne.symm same])]

/-! ### The invariant of the calls

`deallocate_process_memory` never writes to the memory map.  So the map always
stands for the puts alone, and the record of a released pid is still there.  A
second release finds it and goes ahead, with a pointer to a block that may by then
belong to somebody else.
-/

/-- The memory map stands for the latest stored puts, and a released pid still
has its record. -/
structure Recorded (state : RecordedManager) : Prop where
  formed : state.manager.memoryMap.Formed
  holds : state.manager.memoryMap.Holds (latestPut state.puts)
  released : ∀ pid ∈ state.released, (latestPut state.puts pid).isSome

namespace Recorded

theorem initial : Recorded RecordedManager.init where
  formed := HashMap.formed_create (by decide)
  holds := HashMap.holds_create 100
  released := fun _ member => absurd member List.not_mem_nil

variable {state next : RecordedManager}

theorem lookup (recorded : Recorded state) (pid : Int) :
    hashmapGet state.manager.memoryMap pid = .ok (latestPut state.puts pid) :=
  recorded.formed.hashmapGet_spec recorded.holds pid

theorem assign (recorded : Recorded state) {clk : Int} {process : PCB}
    {block : Option Addr}
    (stepped : state.step (.assign clk process block) = .ok next) :
    Recorded next := by
  obtain ⟨made, put, rest⟩ := bind_eq_ok.mp stepped
  obtain ⟨⟨manager, process'⟩, run, ends⟩ := bind_eq_ok.mp rest
  cases block with
  | none =>
      simp only [assignPut, Except.ok.injEq] at put
      rw [assignMemoryBlockToProcess] at run
      simp only [Except.ok.injEq, Prod.mk.injEq] at run
      subst put
      simp only [pure_eq_ok, Except.ok.injEq] at ends
      rw [← ends, ← run.1]
      exact recorded
  | some block =>
      obtain ⟨after, status, stored, formed, _, holds, _⟩ :=
        recorded.formed.hashmapPut_spec recorded.holds process.pid
          { memory := block, id := process.pdata.id }
      have possible := hashmapPut_status stored
      rw [assignPut] at put
      simp only [stored, ok_bind, pure_eq_ok, Except.ok.injEq] at put
      subst put
      have map := assignMemoryBlockToProcess_map stored run
      have latest := latestPut_cons
        { pid := process.pid
          record := { memory := block, id := process.pdata.id }
          status := status } state.puts possible
      simp only [pure_eq_ok, Except.ok.injEq] at ends
      subst ends
      refine ⟨map ▸ formed, ?_, ?_⟩
      · simp only [Option.toList, List.singleton_append, latest]
        exact map ▸ holds
      · intro pid member
        have before : pid ∈ state.released := by
          simp only at member
          split at member
          · exact (List.mem_filter.mp member).1
          · exact member
        have known := recorded.released pid before
        simp only [Option.toList, List.singleton_append, latest]
        by_cases failed : status = -1
        · rw [if_pos failed]
          exact known
        · rw [if_neg failed]
          by_cases same : pid = process.pid
          · rw [same, Function.update_self]
            rfl
          · rw [Function.update_of_ne same]
            exact known

theorem step (recorded : Recorded state) {call : ManagerCall}
    (stepped : state.step call = .ok next) : Recorded next := by
  cases call with
  | allocate size =>
      obtain ⟨⟨manager, block⟩, run, ends⟩ := bind_eq_ok.mp stepped
      obtain ⟨heap, _, rfl⟩ := allocateProcessMemory_inv run
      simp only [pure_eq_ok, Except.ok.injEq] at ends
      subst ends
      exact ⟨recorded.formed, recorded.holds, recorded.released⟩
  | assign clk process block => exact recorded.assign stepped
  | deallocate clk pid =>
      obtain ⟨⟨manager, result⟩, run, ends⟩ := bind_eq_ok.mp stepped
      obtain ⟨same, answer⟩ :=
        deallocateProcessMemory_map (recorded.lookup pid) run
      simp only [pure_eq_ok, Except.ok.injEq] at ends
      subst ends
      refine ⟨same ▸ recorded.formed, same ▸ recorded.holds, ?_⟩
      intro other member
      simp only at member
      by_cases found : (latestPut state.puts pid).isSome
      · rw [if_pos found] at answer
        rw [if_pos answer] at member
        rcases List.mem_cons.mp member with here | there
        · rw [here]
          exact found
        · exact recorded.released other there
      · rw [if_neg found] at answer
        rw [if_neg (by omega)] at member
        exact recorded.released other member

end Recorded

/-- A history of calls leads to states with the invariant only. -/
theorem recorded_of_runs {calls : List ManagerCall} {state : RecordedManager}
    (run : runs RecordedManager.step RecordedManager.init calls = .ok state) :
    Recorded state :=
  invariant_of_steps (fun _ _ _ recorded stepped => recorded.step stepped)
    Recorded.initial run

/-- In every state of every history a lookup yields the record of the pid's
latest stored put, and a refused put changes no bucket. -/
theorem lookup_finds_latest (calls : List ManagerCall) :
    Throughout RecordedManager.step
      (fun state => state.FindsLatest ∧ state.RefusalKeepsBuckets)
      RecordedManager.init calls := by
  rintro before _ state run
  have recorded := recorded_of_runs run
  refine ⟨recorded.lookup, ?_⟩
  intro pid record
  obtain ⟨after, status, put, _, _, _, same, _⟩ :=
    recorded.formed.hashmapPut_spec recorded.holds pid record
  refine ⟨after, status, put, ?_⟩
  intro refused
  rw [same refused]

/-- After every history another deallocation for a released pid is not refused:
the record is still in the map. -/
theorem released_pid_not_refused (calls : List ManagerCall)
    (state : RecordedManager)
    (run : runs RecordedManager.step RecordedManager.init calls = .ok state)
    (clk pid : Int) (released : pid ∈ state.released) :
    ¬ state.RefusesRelease clk pid := by
  rintro ⟨manager, again, _⟩
  have recorded := recorded_of_runs run
  have answer :=
    (deallocateProcessMemory_map (recorded.lookup pid) again).2
  rw [if_pos (recorded.released pid released)] at answer
  cases answer

/-- A process that is given the whole memory. -/
private def wholeMemory (pid : Int) : List ManagerCall :=
  [.allocate 1024,
   .assign 0 (newPcb pid
     { id := pid, arrivalTime := 0, runtime := 1, priority := 0,
       memorySize := 1024 }) (some initMemory.2)]

/-- The whole memory goes from pid 10 to pid 11. -/
private def handedOn : List ManagerCall :=
  wholeMemory 10 ++ .deallocate 1 10 :: wholeMemory 11

/-- Pid 10, released once, is deallocated again. -/
theorem released_pid_not_refused_ten :
    ∃ state, runs RecordedManager.step RecordedManager.init handedOn =
      .ok state ∧ ¬ state.RefusesRelease 2 10 := by
  have replay : (do
      let state ← runs RecordedManager.step RecordedManager.init handedOn
      pure (decide (10 ∈ state.released))) = Except.ok true := by
    decide +kernel
  obtain ⟨state, run, ends⟩ := bind_eq_ok.mp replay
  simp only [pure_eq_ok, Except.ok.injEq, decide_eq_true_eq] at ends
  exact ⟨state, run, released_pid_not_refused _ state run 2 10 ends⟩

/-- The second deallocation for pid 10 returns 1, and gives back the memory that
pid 11 still has. -/
theorem release_again_frees_other :
    ¬ ∀ (calls : List ManagerCall) (state : RecordedManager),
      Along RecordedManager.step RecordedManager.Legal RecordedManager.init
        calls →
      runs RecordedManager.step RecordedManager.init calls = .ok state →
      ∀ clk pid, pid ∈ state.released → state.RefusesRelease clk pid := by
  intro refused
  have replay : (do
      let state ← runs RecordedManager.step RecordedManager.init handedOn
      let again ← deallocateProcessMemory state.manager 2 10
      let tiles ← again.1.buddy.tiles
      pure (decide (10 ∈ state.released ∧ again.2 = 1 ∧
        state.manager.buddy.isAllocated initMemory.2 = true ∧
        tiles = [{ start := 0, size := 1024, allocated := 0 }]))) =
      Except.ok true := by
    decide +kernel
  obtain ⟨state, run, rest⟩ := bind_eq_ok.mp replay
  obtain ⟨⟨manager, result⟩, again, rest⟩ := bind_eq_ok.mp rest
  obtain ⟨tiles, _, ends⟩ := bind_eq_ok.mp rest
  simp only [pure_eq_ok, Except.ok.injEq, decide_eq_true_eq] at ends
  obtain ⟨released, one, _, _⟩ := ends
  obtain ⟨manager', again', _⟩ :=
    refused _ state (by decide +kernel) run 2 10 released
  rw [again, Except.ok.injEq, Prod.mk.injEq] at again'
  rw [one] at again'
  exact absurd again'.2 (by decide)

end OsSim
