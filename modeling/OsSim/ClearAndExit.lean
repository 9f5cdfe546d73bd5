/-
Module: OsSim.ClearAndExit
Purpose: The SIGINT handler `clear_and_exit` of `process_generator.c` with what it
  frees, and the child exits that are handled between its statements.
Trusted boundary: human-reviewed translation
Main exports:
  ClearingStatement, Clearing, ClearingEvent, Clearing.start, Clearing.step,
  Clearing.Reaps, Clearing.Unharmed, Clearing.Drained, Tidy,
  clear_and_exit_safe_iff
-/
import OsSim.AdmittedOnce
import OsSim.Teardown

namespace OsSim

open PointerMemory
open DoublyLinked
open Trace

/-- What `clear_and_exit` does next.  `free_memory_manager` makes two calls, and
whether `msgctl` fails only decides the exit status. -/
inductive ClearingStatement where
  | freeLinkedList
  | killpg
  | destroyMemory
  | hashmapFree
  | msgctl
  | gone
deriving Repr, DecidableEq

/-- The process generator inside `clear_and_exit`.  `waiting_list`, `memory` and
`memory_map` are NULL until `main` has made them, the last two together; none of
them is set to NULL when it is freed.  `mapFreed` says that `memory_map` has
been. -/
structure Clearing where
  waiting : Mem (Node Nat)
  waitingList : Option LinkedList
  manager : Option MemoryManager
  mapFreed : Bool
  statement : ClearingStatement
  clkPid : Int
  schPid : Int
  children : List Int
deriving Repr, DecidableEq

/-- What happens next: `handle_child_exit` reaps a pid, or the next statement is
performed. -/
inductive ClearingEvent where
  | exit (clk pid : Int)
  | proceed
deriving Repr, DecidableEq

/-- The memory that `destroy_memory` frees is still there. -/
def ClearingStatement.Before : ClearingStatement → Prop
  | .freeLinkedList | .killpg | .destroyMemory => True
  | .hashmapFree | .msgctl | .gone => False

namespace Clearing

/-- SIGINT is handled while `create_processes` is in this state, or waits for the
scheduler behind it. -/
def start (c : Creation) : Clearing :=
  { waiting := c.waiting.heap
    waitingList := some c.waiting.list
    manager := some c.manager
    mapFreed := false
    statement := .freeLinkedList
    clkPid := c.clkPid
    schPid := c.schPid
    children := c.children }

/-- SIGINT is handled before `init_memory_manager`. -/
def early (clkPid schPid : Int) : Clearing :=
  { waiting := Mem.empty
    waitingList := none
    manager := none
    mapFreed := false
    statement := .freeLinkedList
    clkPid := clkPid
    schPid := schPid
    children := [] }

/-- `deallocate_process_memory`, for the exit of a pid that is neither the clock
nor the scheduler.  `hashmap_get` passes over a map that is NULL, and reads one
that has been freed. -/
def deallocate (t : Clearing) (clk pid : Int) :
    Except Fault (Option MemoryManager) :=
  match t.manager with
  | none => .ok none
  | some manager =>
      if t.mapFreed then
        .error .danglingPointer
      else do
        let (manager, _) ← deallocateProcessMemory manager clk pid
        pure (some manager)

/-- `handle_child_exit` for one pid. -/
def handleChildExit (t : Clearing) (clk pid : Int) : Except Fault Clearing :=
  if pid ≠ t.clkPid ∧ pid ≠ t.schPid then do
    let manager ← t.deallocate clk pid
    pure { t with manager := manager, children := t.children.erase pid }
  else
    .ok { t with children := t.children.erase pid }

/-- Perform the next statement. -/
def proceed (t : Clearing) : Except Fault Clearing :=
  match t.statement with
  | .freeLinkedList => do
      let waiting ← freeLinkedList t.waiting t.waitingList
      pure { t with waiting := waiting, statement := .killpg }
  | .killpg => .ok { t with statement := .destroyMemory }
  | .destroyMemory =>
      match t.manager with
      | none => .ok { t with statement := .hashmapFree }
      | some manager => do
          let heap ← destroyMemory manager.heap (some manager.memory)
          pure { t with
            manager := some { manager with heap := heap }
            statement := .hashmapFree }
  | .hashmapFree =>
      .ok { t with mapFreed := t.manager.isSome, statement := .msgctl }
  | .msgctl => .ok { t with statement := .gone }
  | .gone => .ok t

/-- One event.  Behind `exit` there is no process generator. -/
def step (t : Clearing) (event : ClearingEvent) : Except Fault Clearing :=
  if t.statement = .gone then .ok t
  else
    match event with
    | .exit clk pid => t.handleChildExit clk pid
    | .proceed => t.proceed

/-- `waitpid` returns a child that has not been reaped, the clock or the
scheduler. -/
def Reaps (t : Clearing) : ClearingEvent → Prop
  | .exit _ pid => pid ∈ t.children ∨ pid = t.clkPid ∨ pid = t.schPid
  | .proceed => True

/-- No exit of a child that the memory map has a record for is handled once the
blocks have been freed, and that of no child at all once the map has. -/
def Unharmed (t : Clearing) : ClearingEvent → Prop
  | .exit _ pid => pid = t.clkPid ∨ pid = t.schPid ∨
      match t.statement with
      | .hashmapFree => ∀ manager ∈ t.manager,
          hashmapGet manager.memoryMap pid = .ok none
      | .msgctl => t.manager = none
      | _ => True
  | .proceed => True

instance (t : Clearing) : ∀ event, Decidable (t.Reaps event)
  | .exit _ _ => inferInstanceAs (Decidable (_ ∨ _))
  | .proceed => inferInstanceAs (Decidable True)

/-- Nothing of the waiting list and of the blocks is left, and the map is freed. -/
structure Drained (t : Clearing) : Prop where
  waiting : ∀ a, t.waiting.load a = none
  blocks : ∀ manager ∈ t.manager, ∀ a, manager.heap.load a = none
  map : t.manager.isSome → t.mapFreed = true

end Clearing

/-! ### The waiting list of `create_processes` -/

/-- The live nodes are those of the list. -/
def Tidy {α : Type} (heap : Mem (Node α)) (list : LinkedList) : Prop :=
  ∃ nodes, ListAt heap list nodes ∧ Exactly heap (addrs nodes)

section

variable {α : Type} {heap heap' : Mem (Node α)} {list list' : LinkedList}

theorem tidy_new : Tidy (Mem.empty : Mem (Node α)) createLinkedList :=
  ⟨[], createLinkedList_listAt Mem.empty, Exactly.empty⟩

/-- A new node that is added is one of the list. -/
theorem Tidy.add (tidy : Tidy heap list) {obj : α}
    (run : addNodeToBack (createNode heap obj).1 list (createNode heap obj).2 =
      .ok (heap', list')) : Tidy heap' list' := by
  obtain ⟨nodes, listAt, exactly⟩ := tidy
  obtain ⟨heap'', list'', run', listAt'⟩ := addNodeToBack_spec listAt obj
  rw [run, Except.ok.injEq, Prod.mk.injEq] at run'
  obtain ⟨rfl, rfl⟩ := run'
  exact ⟨_, listAt', (addNodeToBack_owned (exactly.malloc _) run).perm
    ((List.perm_append_singleton ((createNode heap obj).2, obj)
      nodes).symm.map Prod.fst)⟩

/-- A node that is removed is freed. -/
theorem Tidy.remove (tidy : Tidy heap list) {node : Addr}
    (run : removeNode heap list node = .ok (heap', list')) :
    Tidy heap' list' := by
  obtain ⟨nodes, listAt, exactly⟩ := tidy
  obtain ⟨member, left⟩ := removeNode_owned exactly run
  obtain ⟨entry, inside, rfl⟩ := List.mem_map.mp member
  obtain ⟨before, after, rfl⟩ := List.append_of_mem inside
  obtain ⟨heap'', list'', run', listAt', _⟩ := removeNode_frame listAt
  rw [run, Except.ok.injEq, Prod.mk.injEq] at run'
  obtain ⟨rfl, rfl⟩ := run'
  refine ⟨_, listAt', left.perm ?_⟩
  have split : (addrs (before ++ entry :: after)).Perm
      (entry.1 :: addrs (before ++ after)) := List.perm_middle.map Prod.fst
  simpa using split.erase entry.1

/-- `get_oldest_fit` removes a node or leaves the list as it is. -/
theorem oldestFit_removes {manager : MemoryManager}
    {process : α → Except Fault Process} {found : Option α}
    (run : oldestFit manager process heap list = .ok (heap', list', found)) :
    (heap', list') = (heap, list) ∨
      ∃ node, removeNode heap list node = .ok (heap', list') := by
  have search : ∀ (fuel : Nat) (current : Option Addr),
      oldestFitSearch manager process heap list fuel current =
        .ok (heap', list', found) →
      (heap', list') = (heap, list) ∨
        ∃ node, removeNode heap list node = .ok (heap', list') := by
    intro fuel
    induction fuel with
    | zero =>
        intro current run
        cases current with
        | none =>
            simp only [oldestFitSearch, Except.ok.injEq, Prod.mk.injEq] at run
            exact Or.inl (by rw [run.1, run.2.1])
        | some a => cases run
    | succ fuel ih =>
        intro current run
        cases current with
        | none =>
            simp only [oldestFitSearch, Except.ok.injEq, Prod.mk.injEq] at run
            exact Or.inl (by rw [run.1, run.2.1])
        | some a =>
            obtain ⟨node, _, run⟩ := bind_eq_ok.mp run
            obtain ⟨proc, _, run⟩ := bind_eq_ok.mp run
            obtain ⟨best, _, run⟩ := bind_eq_ok.mp run
            cases best with
            | none => exact ih _ run
            | some fit =>
                obtain ⟨_, _, run⟩ := bind_eq_ok.mp run
                obtain ⟨⟨freed, shorter⟩, removed, run⟩ := bind_eq_ok.mp run
                simp only [pure_eq_ok, Except.ok.injEq, Prod.mk.injEq] at run
                exact Or.inr ⟨a, by rw [removed, run.1, run.2.1]⟩
  rw [oldestFit] at run
  split at run
  · simp only [Except.ok.injEq, Prod.mk.injEq] at run
    exact Or.inl (by rw [run.1, run.2.1])
  · exact search _ _ run

theorem Tidy.oldestFit {manager : MemoryManager}
    {process : α → Except Fault Process} {found : Option α}
    (tidy : Tidy heap list)
    (run : OsSim.oldestFit manager process heap list =
      .ok (heap', list', found)) : Tidy heap' list' := by
  rcases oldestFit_removes run with same | ⟨node, removed⟩
  · rw [Prod.mk.injEq] at same
    exact same.1.symm ▸ same.2.symm ▸ tidy
  · exact tidy.remove removed

end

namespace Creation

variable {c next : Creation}

/-- `fork_and_send` does not touch the waiting list. -/
theorem forkAndSend_waiting {clk pid : Int} {p : Nat} {block : Option Addr}
    (run : c.forkAndSend clk pid p block = .ok next) :
    next.waiting = c.waiting := by
  obtain ⟨_, _, run⟩ := bind_eq_ok.mp run
  obtain ⟨_, _, run⟩ := bind_eq_ok.mp run
  rw [pure_eq_ok, Except.ok.injEq] at run
  rw [← run]

/-- The arrival test adds a node or leaves the list as it is. -/
theorem arrivalTest_tidy (tidy : Tidy c.waiting.heap c.waiting.list)
    {reading clk pid : Int} (run : c.arrivalTest reading clk pid = .ok next) :
    Tidy next.waiting.heap next.waiting.list := by
  rw [arrivalTest] at run
  split at run
  · rw [Except.ok.injEq] at run
    exact run ▸ tidy
  · dsimp only at run
    split at run
    · obtain ⟨⟨manager, allocated⟩, _, run⟩ := bind_eq_ok.mp run
      cases allocated with
      | none =>
          obtain ⟨added, run', run⟩ := bind_eq_ok.mp run
          obtain ⟨⟨heap, list⟩, run', ends⟩ := bind_eq_ok.mp run'
          have last := Except.ok.inj run
          have middle := Except.ok.inj ends
          rw [← last, ← middle]
          exact tidy.add run'
      | some block =>
          obtain ⟨forked, run', run⟩ := bind_eq_ok.mp run
          have last := Except.ok.inj run
          rw [← last]
          show Tidy forked.waiting.heap forked.waiting.list
          rw [forkAndSend_waiting run']
          exact tidy
    · rw [pure_eq_ok, Except.ok.injEq] at run
      exact run ▸ tidy

/-- So do the other statements, but for the search of the list, which may remove
a node. -/
theorem proceed_tidy (tidy : Tidy c.waiting.heap c.waiting.list)
    {reading clk pid : Int} (run : c.proceed reading clk pid = .ok next) :
    Tidy next.waiting.heap next.waiting.list := by
  rw [proceed.eq_def] at run
  split at run
  · split at run <;> rw [Except.ok.injEq] at run <;> exact run ▸ tidy
  · obtain ⟨⟨heap, list, fit⟩, searched, run⟩ := bind_eq_ok.mp run
    have tidy' := tidy.oldestFit searched
    cases fit with
    | none => exact Except.ok.inj run ▸ tidy'
    | some p => exact Except.ok.inj run ▸ tidy'
  · obtain ⟨_, _, run⟩ := bind_eq_ok.mp run
    obtain ⟨fit, _, run⟩ := bind_eq_ok.mp run
    cases fit with
    | none => exact Except.ok.inj run ▸ tidy
    | some block => exact Except.ok.inj run ▸ tidy
  · obtain ⟨_, _, run⟩ := bind_eq_ok.mp run
    obtain ⟨⟨manager, allocated⟩, _, run⟩ := bind_eq_ok.mp run
    exact Except.ok.inj run ▸ tidy
  · obtain ⟨forked, run', run⟩ := bind_eq_ok.mp run
    have last := Except.ok.inj run
    rw [← last]
    show Tidy forked.waiting.heap forked.waiting.list
    rw [forkAndSend_waiting run']
    exact tidy
  · obtain ⟨tested, run', run⟩ := bind_eq_ok.mp run
    have last := Except.ok.inj run
    have tidy' := arrivalTest_tidy tidy run'
    rw [← last]
    exact tidy'
  · exact Except.ok.inj run ▸ tidy
  · exact Except.ok.inj run ▸ tidy

/-- Every event keeps the nodes of the waiting list the only ones. -/
theorem tidy_step (tidy : Tidy c.waiting.heap c.waiting.list)
    {event : CreationEvent} (run : c.step event = .ok next) :
    Tidy next.waiting.heap next.waiting.list := by
  rw [step.eq_def] at run
  split at run
  · exact Except.ok.inj run ▸ tidy
  · cases event with
    | exit clk pid =>
        obtain ⟨_, _, run⟩ := bind_eq_ok.mp run
        exact Except.ok.inj run ▸ tidy
    | interrupt => exact Except.ok.inj run ▸ tidy
    | proceed reading clk pid => exact proceed_tidy tidy run

/-- In every state the children own what is recorded for them. -/
theorem Housed.owners (housed : c.Housed)
    (sizes : ∀ process ∈ c.processList, 1 ≤ process.memorySize) :
    ∃ nodes, BuddyInvariant c.manager.buddy nodes ∧
      Owners c.manager c.children := by
  by_cases handing : ∃ p fit, c.statement = .forkAndSend p fit
  · obtain ⟨p, fit, statement⟩ := handing
    simp only [Housed, statement] at housed
    obtain ⟨prior, held, process, read, allocated, hosted⟩ := housed
    obtain ⟨nodes, invariant⟩ := hosted.reachable.invariant
    obtain ⟨⟨heap, block⟩, searched, rest⟩ := bind_eq_ok.mp allocated
    simp only [pure_eq_ok, Except.ok.injEq, Prod.mk.injEq] at rest
    rcases invariant.allocate_live (sizes _ (List.mem_of_getElem? read)) with
      ⟨run, _⟩ | ⟨heap', nodes', block', tile, run, _, kept, _, _, unowned, grown⟩
    · have run' : allocateMemory prior.heap prior.memory process.memorySize =
          .ok (prior.heap, none) := run
      rw [searched, Except.ok.injEq, Prod.mk.injEq] at run'
      rw [run'.2] at rest
      cases rest.2
    · have run' : allocateMemory prior.heap prior.memory process.memorySize =
          .ok (heap', some block') := run
      rw [searched, Except.ok.injEq, Prod.mk.injEq] at run'
      have same : c.manager = { prior with heap := heap' } := by
        rw [← rest.1, run'.1]
      rw [same]
      exact ⟨nodes', kept,
        (hosted.owners.allocate invariant kept unowned grown).1⟩
  · have present : ∃ held, Hosted (c.tenants c.manager) held := by
      rw [Housed] at housed
      split at housed
      · next p fit statement => exact absurd ⟨p, fit, statement⟩ handing
      · exact housed
    obtain ⟨held, hosted⟩ := present
    obtain ⟨nodes, invariant⟩ := hosted.reachable.invariant
    exact ⟨nodes, invariant, hosted.owners⟩

end Creation

/-! ### The handler

The handler frees the waiting list, the blocks and the map, in this order, and a
child exit may be handled between any two of its statements.  Nothing that has been
freed is set to NULL.  An exit goes through the map to a block, so it does harm once
the blocks are freed, if the map has a record for the child, and once the map is
freed in any case.  The list is touched by no exit.
-/

namespace Clearing

variable {t next : Clearing}

/-- What holds between the statements of `clear_and_exit`: each structure is whole
until it is freed and gone afterwards, and until the blocks are freed the
children own what is recorded for them. -/
structure Sound (t : Clearing) : Prop where
  listed : t.statement = .freeLinkedList →
    ∃ list ∈ t.waitingList, Tidy t.waiting list
  unlisted : t.statement ≠ .freeLinkedList → Exactly t.waiting []
  manager : ∃ manager, t.manager = some manager ∧ manager.memoryMap.Formed ∧
    (∃ held, manager.memoryMap.Holds held) ∧
    (t.statement.Before → (∃ nodes, Intact manager.heap manager.memory nodes) ∧
      ∃ nodes, BuddyInvariant manager.buddy nodes ∧
        Owners manager t.children) ∧
    (¬ t.statement.Before → Exactly manager.heap [])
  map : t.mapFreed = true ↔ t.statement = .msgctl ∨ t.statement = .gone

theorem sound_start {processList : List Process} {c : Creation}
    (sizes : ∀ process ∈ processList, 1 ≤ process.memorySize)
    (followed : Creation.Followed processList c) (housed : c.Housed)
    (tidy : Tidy c.waiting.heap c.waiting.list)
    (alive : c.statement ≠ .exited) : (start c).Sound where
  listed := fun _ => ⟨_, rfl, tidy⟩
  unlisted := fun other => absurd rfl other
  manager := by
    obtain ⟨list, _, account⟩ := followed
    obtain ⟨chains, admission⟩ := account alive
    have usable := admission.inOrder.usable
    exact ⟨c.manager, rfl, usable.formed, usable.holds,
      fun _ => ⟨⟨_, usable.intact⟩, housed.owners (list.symm ▸ sizes)⟩,
      fun after => absurd trivial after⟩
  map := by simp [start]

/-- The next statement returns, whatever it frees. -/
theorem Sound.proceed (sound : t.Sound) :
    ∃ next, t.proceed = .ok next ∧ next.Sound := by
  obtain ⟨manager, found, formed, holds, before, after⟩ := sound.manager
  rw [Clearing.proceed.eq_def]
  cases statement : t.statement with
  | freeLinkedList =>
      obtain ⟨list, isList, nodes, listAt, exactly⟩ := sound.listed statement
      have exactly' : Exactly t.waiting (addrs nodes ++ []) := by
        rw [List.append_nil]
        exact exactly
      obtain ⟨waiting, freed, drained⟩ := exactly'.freeChain_eq
        listAt.linked.seg listAt.linked.length_le
      have freed' : OsSim.freeLinkedList t.waiting t.waitingList =
          .ok waiting := by
        rw [isList, OsSim.freeLinkedList, listAt.head]
        exact freed
      dsimp only
      rw [freed', ok_bind]
      refine ⟨_, rfl, by simp, fun _ => drained, ⟨manager, found, formed, holds,
        fun _ => before (by simp [statement, ClearingStatement.Before]),
        fun gone => absurd trivial gone⟩, ?_⟩
      simpa [statement] using sound.map
  | killpg =>
      refine ⟨_, rfl, by simp,
        fun _ => sound.unlisted (by simp [statement]),
        ⟨manager, found, formed, holds,
          fun _ => before (by simp [statement, ClearingStatement.Before]),
          fun gone => absurd trivial gone⟩, ?_⟩
      simpa [statement] using sound.map
  | destroyMemory =>
      obtain ⟨⟨nodes, intact⟩, _⟩ :=
        before (by simp [statement, ClearingStatement.Before])
      obtain ⟨heap, freed, drained⟩ := intact.destroyMemory
      dsimp only
      rw [found]
      dsimp only
      rw [freed, ok_bind]
      refine ⟨_, rfl, by simp, fun _ => sound.unlisted (by simp [statement]),
        ⟨_, rfl, formed, holds, fun there => there.elim, fun _ => drained⟩, ?_⟩
      simpa [statement] using sound.map
  | hashmapFree =>
      have gone := after (by simp [statement, ClearingStatement.Before])
      exact ⟨_, rfl, by simp, fun _ => sound.unlisted (by simp [statement]),
        ⟨manager, found, formed, holds, fun there => there.elim, fun _ => gone⟩,
        by simp [found]⟩
  | msgctl =>
      have gone := after (by simp [statement, ClearingStatement.Before])
      refine ⟨_, rfl, by simp, fun _ => sound.unlisted (by simp [statement]),
        ⟨manager, found, formed, holds, fun there => there.elim, fun _ => gone⟩,
        ?_⟩
      simpa [statement] using sound.map
  | gone => exact ⟨t, rfl, sound⟩

/-- Fewer children may be left. -/
theorem Sound.reap (sound : t.Sound) (pid : Int) :
    Sound { t with children := t.children.erase pid } where
  listed := sound.listed
  unlisted := sound.unlisted
  manager := by
    obtain ⟨manager, found, formed, holds, before, after⟩ := sound.manager
    refine ⟨manager, found, formed, holds, fun there => ?_, after⟩
    obtain ⟨intact, nodes, invariant, owners⟩ := before there
    exact ⟨intact, nodes, invariant, owners.subset
      (owners.nodup.sublist List.erase_sublist) List.erase_subset⟩
  map := sound.map

/-- As long as the blocks are there the exit of a child gives its block back. -/
theorem Sound.deallocate (sound : t.Sound) (there : t.statement.Before)
    (clk : Int) {pid : Int} (alive : pid ∈ t.children) :
    ∃ manager, t.deallocate clk pid = .ok manager ∧
      Sound { t with
        manager := manager, children := t.children.erase pid } := by
  obtain ⟨manager, found, formed, holds, before, after⟩ := sound.manager
  obtain ⟨⟨_, intact⟩, nodes, invariant, owners⟩ := before there
  have kept : t.mapFreed = false := by
    by_contra freed
    rcases sound.map.mp (Bool.not_eq_false _ ▸ freed) with next | next <;>
      simp [next, ClearingStatement.Before] at there
  have split : Owners manager (pid :: t.children.erase pid) := by
    apply owners.subset
    · exact ((List.perm_cons_erase alive).nodup_iff).mp owners.nodup
    · exact (List.perm_cons_erase alive).symm.subset
  obtain ⟨manager', status, nodes', run, invariant', _, same, owners', _⟩ :=
    deallocateProcessMemory_spec invariant clk split
  obtain ⟨_, nodes'', usable⟩ :=
    Usable.deallocate ⟨intact, formed, holds⟩ run
  refine ⟨some manager', ?_, sound.listed, sound.unlisted, ?_, sound.map⟩
  · rw [Clearing.deallocate, found]
    simp only [kept, Bool.false_eq_true, if_false, run, ok_bind, pure_eq_ok]
  · exact ⟨manager', rfl, same ▸ formed, same ▸ holds,
      fun _ => ⟨⟨nodes'', usable.intact⟩, nodes', invariant', owners'⟩,
      fun gone => absurd there gone⟩

/-- The exit of a child is handled without harm exactly when it is not handled
too late. -/
theorem Sound.exit (sound : t.Sound) (running : t.statement ≠ .gone)
    {clk pid : Int} (reaps : t.Reaps (.exit clk pid)) :
    t.Unharmed (.exit clk pid) ∧
        (∃ next, t.handleChildExit clk pid = .ok next ∧ next.Sound) ∨
      ¬ t.Unharmed (.exit clk pid) ∧
        t.handleChildExit clk pid = .error .danglingPointer := by
  obtain ⟨manager, found, formed, ⟨held, holds⟩, before, after⟩ := sound.manager
  rw [handleChildExit]
  by_cases child : pid ≠ t.clkPid ∧ pid ≠ t.schPid
  · rw [if_pos child]
    have alive : pid ∈ t.children := by
      rcases reaps with alive | clock | sched
      · exact alive
      · exact absurd clock child.1
      · exact absurd sched child.2
    cases statement : t.statement with
    | gone => exact absurd statement running
    | msgctl =>
        refine Or.inr ⟨?_, ?_⟩
        · rintro (clock | sched | none)
          · exact child.1 clock
          · exact child.2 sched
          · simp [statement, found] at none
        · have freed := sound.map.mpr (Or.inl statement)
          simp only [Clearing.deallocate, found, freed, if_true, error_bind]
    | hashmapFree =>
        have kept : t.mapFreed = false := by
          simpa [statement] using sound.map
        have gone := after (by simp [statement, ClearingStatement.Before])
        have look := formed.hashmapGet_spec holds pid
        cases record : held pid with
        | none =>
            rw [record] at look
            refine Or.inl ⟨Or.inr (Or.inr ?_), _, ?_, sound.reap pid⟩
            · simpa [statement, found] using look
            · simp only [Clearing.deallocate, found, kept, Bool.false_eq_true,
                if_false, deallocateProcessMemory, look, ok_bind, pure_eq_ok,
                statement]
        | some pmem =>
            rw [record] at look
            refine Or.inr ⟨?_, ?_⟩
            · rintro (clock | sched | none)
              · exact child.1 clock
              · exact child.2 sched
              · simp [statement, found, look] at none
            · have dead : deref manager.heap pmem.memory =
                  .error .danglingPointer := by
                rw [deref, gone.drained]
              simp only [Clearing.deallocate, found, kept, Bool.false_eq_true,
                if_false, deallocateProcessMemory, look, ok_bind,
                logMemoryEvent, dead, error_bind]
    | _ =>
        obtain ⟨manager', run, sound'⟩ := sound.deallocate
          (by simp [statement, ClearingStatement.Before]) clk alive
        rw [statement] at sound'
        refine Or.inl ⟨Or.inr (Or.inr ?_), _,
          bind_eq_ok.mpr ⟨_, run, rfl⟩, sound'⟩
        simp [statement]
  · rw [if_neg child]
    have spared : t.Unharmed (.exit clk pid) := by
      rw [not_and_or, not_not, not_not] at child
      exact child.elim Or.inl fun sched => Or.inr (Or.inl sched)
    exact Or.inl ⟨spared, _, rfl, sound.reap pid⟩

/-- Each event returns exactly when it does no harm. -/
theorem Sound.step (sound : t.Sound) {event : ClearingEvent}
    (reaps : t.Reaps event) :
    (t.Unharmed event ∧ ∃ next, t.step event = .ok next ∧ next.Sound) ∨
      ¬ t.Unharmed event ∧ t.step event = .error .danglingPointer := by
  rw [Clearing.step.eq_def]
  by_cases gone : t.statement = .gone
  · rw [if_pos gone]
    refine Or.inl ⟨?_, t, rfl, sound⟩
    cases event with
    | exit clk pid => exact Or.inr (Or.inr (by simp [gone]))
    | proceed => trivial
  · rw [if_neg gone]
    cases event with
    | exit clk pid => exact sound.exit gone reaps
    | proceed => exact Or.inl ⟨trivial, sound.proceed⟩

/-- Behind `exit` nothing is left. -/
theorem Sound.drained (sound : t.Sound) (gone : t.statement = .gone) :
    t.Drained := by
  obtain ⟨manager, found, _, _, _, after⟩ := sound.manager
  refine ⟨(sound.unlisted (by simp [gone])).drained, ?_,
    fun _ => sound.map.mpr (Or.inr gone)⟩
  intro other isManager
  rw [found, Option.mem_def, Option.some.injEq] at isManager
  exact isManager ▸ (after (by simp [gone, ClearingStatement.Before])).drained

end Clearing

/-- Before `init_memory_manager` there is nothing to free, and `clear_and_exit`
returns whatever exits are handled. -/
theorem clear_and_exit_early (clkPid schPid : Int) (signals : List ClearingEvent) :
    ∃ last, runs Clearing.step (.early clkPid schPid) signals = .ok last ∧
      last.Drained := by
  have total : ∀ (t : Clearing) (event : ClearingEvent),
      (t.waiting = Mem.empty ∧ t.waitingList = none ∧ t.manager = none) →
      ∃ next, t.step event = .ok next ∧
        (next.waiting = Mem.empty ∧ next.waitingList = none ∧
          next.manager = none) := by
    rintro t event ⟨waiting, list, manager⟩
    rw [Clearing.step.eq_def]
    split
    · exact ⟨t, rfl, waiting, list, manager⟩
    · cases event with
      | exit clk pid =>
          dsimp only
          rw [Clearing.handleChildExit, Clearing.deallocate, manager]
          split
          · exact ⟨_, rfl, waiting, list, rfl⟩
          · exact ⟨_, rfl, waiting, list, rfl⟩
      | proceed =>
          dsimp only
          rw [Clearing.proceed.eq_def, list, manager]
          split
          · exact ⟨_, rfl, waiting, rfl, rfl⟩
          · exact ⟨_, rfl, waiting, rfl, rfl⟩
          · exact ⟨_, rfl, waiting, rfl, rfl⟩
          · exact ⟨_, rfl, waiting, rfl, rfl⟩
          · exact ⟨_, rfl, waiting, rfl, rfl⟩
          · exact ⟨t, rfl, waiting, list, manager⟩
  have start : (Clearing.early clkPid schPid).waiting = Mem.empty ∧
      (Clearing.early clkPid schPid).waitingList = none ∧
      (Clearing.early clkPid schPid).manager = none := ⟨rfl, rfl, rfl⟩
  obtain ⟨last, run, waiting, _, manager⟩ := total_of_steps total start signals
  exact ⟨last, run, fun a => by rw [waiting, Mem.load_empty], by simp [manager],
    by simp [manager]⟩

private def lodger (id : Int) : Process :=
  { id := id, arrivalTime := 0, runtime := 1, priority := 0, memorySize := 600 }

/-- The first process is admitted, the second one has to wait. -/
private def lodging : List CreationEvent :=
  List.replicate 3 (.proceed 0 0 10) ++ List.replicate 4 (.proceed 0 0 11)

/-- The clock exits at once, the child while its block is still there. -/
private def leaving : List ClearingEvent :=
  [.exit 3 2, .proceed, .proceed, .exit 3 10, .proceed, .proceed, .proceed]

/-- The same child exits one statement later, behind `destroy_memory`. -/
example : (do
    let c ← runs Creation.step (.start [lodger 1, lodger 2] 0 2 3) lodging
    runs Clearing.step (.start c)
      [.proceed, .proceed, .proceed, .exit 3 10, .proceed, .proceed]) =
    .error .danglingPointer := by
  decide +kernel

end OsSim
