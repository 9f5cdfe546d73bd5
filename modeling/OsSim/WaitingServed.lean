/-
Module: OsSim.WaitingServed
Purpose: Whether `get_oldest_fit` finds a waiting process when nobody holds
  memory, in runs of `create_processes` with the blocks that its processes hold.
Trusted boundary: human-reviewed translation
Main exports:
  Custody, Custody.step, Custody.GivesBack, Custody.Forks, Custody.NoneHolds,
  Custody.Served, Custody.SomeFitsMemory, Attributed, waiting_served_iff,
  waiting_unserved
-/
import OsSim.BuddyHistory
import OsSim.CreationMoves

namespace OsSim

open PointerMemory
open DoublyLinked
open Tiling
open Trace

/-- The process generator, with the block that has been allocated for the process
in hand, and the processes that run, each with the block that was allocated for
it. -/
structure Custody where
  creation : Creation
  inTransit : Option Addr
  held : List (Int × Addr)
deriving Repr, DecidableEq

/-- The process that the next statement may allocate a block for. -/
def Creation.requester (c : Creation) : Nat :=
  match c.statement with
  | .allocate p _ => p
  | _ => c.i

/-- The block that `allocate_process_memory` returns for that process. -/
def Creation.allocated (c : Creation) : Option Addr :=
  match c.processList[c.requester]? with
  | none => none
  | some process =>
      match allocateProcessMemory c.manager process.memorySize with
      | .ok (_, block) => block
      | .error _ => none

/-- Whether a block is still allocated when a child exit has been handled. -/
def Creation.keepsAllocated (c : Creation) (clk pid : Int) (block : Addr) : Bool :=
  match c.step (.exit clk pid) with
  | .ok next => next.manager.buddy.isAllocated block
  | .error _ => false

namespace Custody

def start (processList : List Process) (clock clkPid schPid : Int) : Custody :=
  { creation := .start processList clock clkPid schPid
    inTransit := none
    held := [] }

/-- Who holds a block once `fork` has returned.  After a failure nobody does. -/
def given (t : Custody) (pid : Int) (block : Option Addr) : List (Int × Addr) :=
  if pid = -1 then t.held else block.toList.map (fun a => (pid, a)) ++ t.held

def step (t : Custody) (event : CreationEvent) : Except Fault Custody := do
  let next ← t.creation.step event
  match event with
  | .exit _ pid =>
      pure { t with
        creation := next
        held := t.held.filter fun holder => holder.1 ≠ pid }
  | .interrupt => pure { t with creation := next }
  | .proceed _ _ pid =>
      match t.creation.statement with
      | .allocate _ _ =>
          pure { t with creation := next, inTransit := t.creation.allocated }
      | .forkAndSend _ _ =>
          pure { creation := next
                 inTransit := none
                 held := t.given pid t.inTransit }
      | .arrivalTest =>
          pure { t with
            creation := next
            held := if next.handed = t.creation.handed then t.held
              else t.given pid t.creation.allocated }
      | _ => pure { t with creation := next }

/-- Once a child has been reaped, the block that was allocated for it is free. -/
def GivesBack (t : Custody) : CreationEvent → Prop
  | .exit clk pid => ∀ holder ∈ t.held, holder.1 = pid →
      t.creation.keepsAllocated clk pid holder.2 = false
  | .interrupt | .proceed _ _ _ => True

instance (t : Custody) : ∀ event, Decidable (t.GivesBack event)
  | .exit _ _ => inferInstanceAs (Decidable (∀ _ ∈ _, _ → _ = _))
  | .interrupt | .proceed _ _ _ => inferInstanceAs (Decidable True)

/-- No `fork` fails. -/
def Forks (_ : Custody) : CreationEvent → Prop
  | .proceed _ _ pid => pid ≠ -1
  | .exit _ _ | .interrupt => True

instance (t : Custody) : ∀ event, Decidable (t.Forks event)
  | .proceed _ _ _ => inferInstanceAs (Decidable (_ ≠ _))
  | .exit _ _ | .interrupt => inferInstanceAs (Decidable True)

/-- No process that runs holds memory. -/
def NoneHolds (t : Custody) : Prop :=
  ∀ holder ∈ t.held,
    t.creation.manager.buddy.isAllocated holder.2 = false

instance (t : Custody) : Decidable t.NoneHolds :=
  inferInstanceAs (Decidable (∀ _ ∈ _, _ = _))

/-- `get_oldest_fit` returns a process. -/
def Served (t : Custody) : Prop :=
  ∃ heap list p, oldestFit t.creation.manager
    (processAt t.creation.processList) t.creation.waiting.heap
      t.creation.waiting.list = .ok (heap, list, some p)

/-- Some waiting process asks for no more than the whole memory. -/
def SomeFitsMemory (t : Custody) : Prop :=
  ∃ pointers, t.creation.waiting.pointers = .ok pointers ∧
    ∃ p ∈ pointers, ∃ process, t.creation.processList[p]? = some process ∧
      process.memorySize ≤ maxSize

end Custody

/-! ### What the calls do to the allocated blocks -/

/-- A deallocation that returns allocates nothing. -/
theorem BuddyInvariant.deallocateProcessMemory {manager manager' : MemoryManager}
    {nodes : List (Addr × Tile)} (buddy : BuddyInvariant manager.buddy nodes)
    (intact : Intact manager.heap manager.memory nodes) {clk pid status : Int}
    (run : OsSim.deallocateProcessMemory manager clk pid =
      .ok (manager', status)) :
    ∃ nodes', BuddyInvariant manager'.buddy nodes' ∧
      live nodes' ⊆ live nodes := by
  rcases deallocateProcessMemory_inv run with
    ⟨_, rfl, _⟩ | ⟨record, heap', log, _, given, rfl, _⟩
  · exact ⟨nodes, buddy, fun _ member => member⟩
  · cases loaded : manager.heap.load record.memory with
    | none => simp [deallocateMemory, update, loaded] at given
    | some cell =>
        have member : record.memory ∈ addrs nodes :=
          intact.complete _ (by simp [loaded])
        obtain ⟨⟨place, tile⟩, inside, same⟩ := List.mem_map.mp member
        have here : place = record.memory := same
        obtain ⟨left, right, split⟩ := List.append_of_mem inside
        rw [here] at split
        subst split
        obtain ⟨heap'', nodes', run, kept, others⟩ :=
          deallocateMemory_spec buddy
        have equal : heap'' = heap' := Except.ok.inj (run.symm.trans given)
        subst equal
        refine ⟨nodes', kept, fun node member => ?_⟩
        rw [others] at member
        rw [live_append]
        rcases List.mem_append.mp member with inLeft | inRight
        · exact List.mem_append_left _ inLeft
        · apply List.mem_append_right
          have used := (mem_live.mp inRight).2
          exact mem_live.mpr
            ⟨List.mem_cons_of_mem _ (mem_live.mp inRight).1, used⟩

/-- An allocation that returns allocates the block it returns. -/
theorem BuddyInvariant.allocateProcessMemory {manager manager' : MemoryManager}
    {nodes : List (Addr × Tile)} (buddy : BuddyInvariant manager.buddy nodes)
    {size : Int} (positive : 1 ≤ size) {block : Option Addr}
    (run : OsSim.allocateProcessMemory manager size = .ok (manager', block)) :
    ∃ nodes', BuddyInvariant manager'.buddy nodes' ∧
      ∀ node ∈ live nodes', node ∈ live nodes ∨ block = some node.1 := by
  obtain ⟨heap, taken, rfl⟩ := allocateProcessMemory_inv run
  rcases buddy.allocate_live positive with
    ⟨none, _⟩ | ⟨heap', nodes', a, tile, some, _, kept, _, _, _, perm⟩
  · have same := Except.ok.inj (none.symm.trans taken)
    rw [Prod.mk.injEq] at same
    refine ⟨nodes, ?_, fun node member => Or.inl member⟩
    rw [← same.1]
    exact buddy
  · have same := Except.ok.inj (some.symm.trans taken)
    rw [Prod.mk.injEq] at same
    obtain ⟨rfl, rfl⟩ := same
    refine ⟨nodes', kept, fun node member => ?_⟩
    rcases List.mem_cons.mp (perm.mem_iff.mp member) with new | old
    · exact Or.inr (by rw [new])
    · exact Or.inl old

/-- Recording a block leaves the block list alone. -/
theorem buddy_assign {manager manager' : MemoryManager} {clk : Int}
    {process process' : PCB} {block : Option Addr}
    (run : assignMemoryBlockToProcess manager clk process block =
      .ok (manager', process')) : manager'.buddy = manager.buddy := by
  cases block with
  | none =>
      simp only [assignMemoryBlockToProcess, Except.ok.injEq,
        Prod.mk.injEq] at run
      rw [run.1]
  | some block =>
      obtain ⟨_, _, _, _, _, rfl, _⟩ := assignMemoryBlockToProcess_inv run
      rfl

/-- With nothing allocated, a process fits if it fits the whole memory. -/
theorem BuddyInvariant.fits_iff {state : BuddyHeap} {nodes : List (Addr × Tile)}
    (buddy : BuddyInvariant state nodes) (none : live nodes = [])
    (process : Process) :
    Fits nodes process ↔ process.memorySize ≤ maxSize := by
  have whole := buddy.tiles_of_live_nil none
  constructor
  · rintro ⟨node, member, _, fits⟩
    have tile : node.2 ∈ tiles nodes := List.mem_map_of_mem member
    rw [whole, List.mem_singleton] at tile
    rw [tile] at fits
    exact fits
  · intro fits
    have tile : ({ start := 0, size := maxSize, allocated := 0 } : Tile) ∈
        tiles nodes := by
      rw [whole]
      exact List.mem_singleton_self _
    obtain ⟨node, member, same⟩ := List.mem_map.mp tile
    exact ⟨node, member, by rw [same], by rw [same]; exact fits⟩

/-- Handling a child exit allocates nothing. -/
theorem Creation.handleChildExit_live {c next : Creation} {chains : Chains}
    (inOrder : InOrder c chains)
    (buddy : BuddyInvariant c.manager.buddy chains.nodes) {clk pid : Int}
    (run : c.handleChildExit clk pid = .ok next) :
    ∃ nodes', BuddyInvariant next.manager.buddy nodes' ∧
      live nodes' ⊆ live chains.nodes := by
  obtain ⟨generator, reaped, run⟩ := bind_eq_ok.mp run
  rw [pure_eq_ok, Except.ok.injEq] at run
  subst run
  rw [OsSim.handleChildExit] at reaped
  split at reaped
  · obtain ⟨⟨manager, status⟩, given, reaped⟩ := bind_eq_ok.mp reaped
    simp only [pure_eq_ok, ok_bind, OsSim.handleChildExit, Except.ok.injEq]
      at reaped
    subst reaped
    exact buddy.deallocateProcessMemory inOrder.usable.intact given
  · simp only [pure_eq_ok, ok_bind, OsSim.handleChildExit, Except.ok.injEq]
      at reaped
    subst reaped
    exact ⟨chains.nodes, buddy, fun _ member => member⟩

/-! ### Runs

When no process holds memory, what may still be allocated is a block in transit,
between its allocation and the `fork` it is for, or one of a process that is gone.
The first is not there when `get_oldest_fit` is called.  The second is excluded by
the condition on exits, and a failed fork by the other condition.  Then nothing is
allocated, and a heap with nothing allocated is one block.
-/

/-- Every allocated block is held by a process that runs, or is the one in
transit to `fork_and_send`. -/
structure Attributed (t : Custody) (chains : Chains) : Prop where
  inOrder : InOrder t.creation chains
  buddy : BuddyInvariant t.creation.manager.buddy chains.nodes
  sizes : ∀ process ∈ t.creation.processList, 1 ≤ process.memorySize
  owner : ∀ node ∈ live chains.nodes,
    t.inTransit = some node.1 ∨ node.1 ∈ t.held.map Prod.snd
  transit : t.inTransit = none ∨ t.creation.statement = .exited ∨
    ∃ p fit, t.creation.statement = .forkAndSend p fit

/-- What the process in hand is given. -/
theorem Creation.allocated_eq {c : Creation} {process : Process}
    (read : c.processList[c.requester]? = some process) {manager : MemoryManager}
    {block : Option Addr}
    (run : allocateProcessMemory c.manager process.memorySize =
      .ok (manager, block)) : c.allocated = block := by
  rw [Creation.allocated]
  simp only [read, run]

namespace Attributed

variable {t : Custody} {next : Creation} {chains chains' : Chains}

theorem start {processList : List Process}
    (sizes : ∀ process ∈ processList, 1 ≤ process.memorySize)
    (clock clkPid schPid : Int) :
    Attributed (.start processList clock clkPid schPid)
      { nodes :=
          [(initMemory.2, { start := 0, size := maxSize, allocated := 0 })]
        waiting := [] } where
  inOrder := InOrder.start processList clock clkPid schPid
  buddy := BuddyInvariant.initial
  sizes := sizes
  owner := by
    intro node member
    have inside := (mem_live.mp member).1
    rw [List.mem_singleton.mp inside] at member
    exact absurd rfl (mem_live.mp member).2
  transit := Or.inl rfl

/-- There is only one list of blocks. -/
theorem nodes_eq (inOrder : InOrder next chains') {nodes : List (Addr × Tile)}
    (buddy : BuddyInvariant next.manager.buddy nodes) : chains'.nodes = nodes :=
  inOrder.usable.intact.blocks.unique buddy.blocks

/-- A statement that leaves the memory manager alone. -/
theorem keep (attributed : Attributed t chains) (inOrder : InOrder next chains')
    (manager : next.manager = t.creation.manager)
    (list : next.processList = t.creation.processList)
    (transit : t.inTransit = none ∨ next.statement = .exited ∨
      ∃ p fit, next.statement = .forkAndSend p fit) :
    Attributed { t with creation := next } chains' := by
  have buddy : BuddyInvariant next.manager.buddy chains.nodes := by
    rw [manager]
    exact attributed.buddy
  have nodes := nodes_eq inOrder buddy
  refine ⟨inOrder, nodes ▸ buddy, ?_, ?_, transit⟩
  · rw [list]
    exact attributed.sizes
  · rw [nodes]
    exact attributed.owner

/-- Where no block is in transit. -/
theorem settled (attributed : Attributed t chains)
    (runs : t.creation.statement ≠ .exited)
    (other : ∀ p fit, t.creation.statement ≠ .forkAndSend p fit) :
    t.inTransit = none := by
  rcases attributed.transit with none | exited | ⟨p, fit, statement⟩
  · exact none
  · exact absurd exited runs
  · exact absurd statement (other p fit)

/-- A child exit that gives its block back. -/
theorem exit (attributed : Attributed t chains) {clk pid : Int}
    (gives : t.GivesBack (.exit clk pid))
    (run : t.creation.step (.exit clk pid) = .ok next) :
    ∃ chains', Attributed { t with
      creation := next
      held := t.held.filter fun holder => holder.1 ≠ pid } chains' := by
  obtain ⟨chains', move, inOrder⟩ := attributed.inOrder.move run
  have fewer : ∃ nodes', BuddyInvariant next.manager.buddy nodes' ∧
      live nodes' ⊆ live chains.nodes := by
    cases move with
    | ended exited =>
        exact ⟨chains.nodes, attributed.buddy, fun _ member => member⟩
    | reaped runs reaped =>
        exact Creation.handleChildExit_live attributed.inOrder attributed.buddy
          reaped
  obtain ⟨nodes', buddy, subset⟩ := fewer
  have nodes := nodes_eq inOrder buddy
  have statement : next.statement = t.creation.statement := by
    cases move <;> rfl
  refine ⟨chains', inOrder, nodes ▸ buddy, ?_, ?_, ?_⟩
  · rw [move.processList]
    exact attributed.sizes
  · intro node member
    rw [nodes] at member
    refine (attributed.owner node (subset member)).imp_right fun listed => ?_
    obtain ⟨holder, holds, same⟩ := List.mem_map.mp listed
    have stays : holder.1 ≠ pid := by
      intro reaped
      have free := gives holder holds reaped
      rw [Creation.keepsAllocated, run, same] at free
      have used := (buddy.isAllocated_iff node.1).mpr
        ⟨node.2, mem_live.mp member⟩
      simp only [free] at used
      cases used
    exact List.mem_map.mpr
      ⟨holder, List.mem_filter.mpr ⟨holds, by simpa using stays⟩, same⟩
  · dsimp only
    rw [statement]
    exact attributed.transit

/-- The block in transit is handed over to a child. -/
theorem handOver (attributed : Attributed t chains)
    (inOrder : InOrder next chains') {pid : Int} (forked : pid ≠ -1)
    (buddy : next.manager.buddy = t.creation.manager.buddy)
    (list : next.processList = t.creation.processList) :
    Attributed { creation := next
                 inTransit := none
                 held := t.given pid t.inTransit } chains' := by
  have buddy' : BuddyInvariant next.manager.buddy chains.nodes := by
    rw [buddy]
    exact attributed.buddy
  have nodes := nodes_eq inOrder buddy'
  refine ⟨inOrder, nodes ▸ buddy', ?_, ?_, Or.inl rfl⟩
  · rw [list]
    exact attributed.sizes
  · intro node member
    rw [nodes] at member
    right
    rw [Custody.given, if_neg forked, List.map_append]
    rcases attributed.owner node member with moving | listed
    · exact List.mem_append_left _ (by simp [moving])
    · exact List.mem_append_right _ listed

/-- The block for the process in hand is allocated. -/
theorem allocate (attributed : Attributed t chains)
    (inOrder : InOrder next chains') (settled : t.inTransit = none)
    {process : Process} (member : process ∈ t.creation.processList)
    {manager : MemoryManager} {block : Option Addr}
    (run : allocateProcessMemory t.creation.manager process.memorySize =
      .ok (manager, block)) (same : next.manager = manager)
    (list : next.processList = t.creation.processList)
    {p : Nat} {fit : Addr} (statement : next.statement = .forkAndSend p fit) :
    Attributed { t with creation := next, inTransit := block } chains' := by
  obtain ⟨nodes', buddy, more⟩ :=
    attributed.buddy.allocateProcessMemory (attributed.sizes process member) run
  rw [← same] at buddy
  have nodes := nodes_eq inOrder buddy
  refine ⟨inOrder, nodes ▸ buddy, ?_, ?_, Or.inr (Or.inr ⟨p, fit, statement⟩)⟩
  · rw [list]
    exact attributed.sizes
  · intro node inside
    rw [nodes] at inside
    rcases more node inside with old | new
    · rcases attributed.owner node old with moving | listed
      · rw [settled] at moving
        cases moving
      · exact Or.inr listed
    · exact Or.inl new

/-- A block is allocated for a process that arrives, and handed over. -/
theorem arrive (attributed : Attributed t chains)
    (inOrder : InOrder next chains') (settled : t.inTransit = none) {pid : Int}
    (forked : pid ≠ -1) {process : Process}
    (member : process ∈ t.creation.processList) {manager : MemoryManager}
    {block : Option Addr}
    (run : allocateProcessMemory t.creation.manager process.memorySize =
      .ok (manager, block)) (same : next.manager.buddy = manager.buddy)
    (list : next.processList = t.creation.processList) :
    Attributed { t with creation := next, held := t.given pid block } chains' := by
  obtain ⟨nodes', buddy, more⟩ :=
    attributed.buddy.allocateProcessMemory (attributed.sizes process member) run
  rw [← same] at buddy
  have nodes := nodes_eq inOrder buddy
  refine ⟨inOrder, nodes ▸ buddy, ?_, ?_, Or.inl settled⟩
  · rw [list]
    exact attributed.sizes
  · intro node inside
    rw [nodes] at inside
    right
    rw [Custody.given, if_neg forked, List.map_append]
    rcases more node inside with old | new
    · rcases attributed.owner node old with moving | listed
      · rw [settled] at moving
        cases moving
      · exact List.mem_append_right _ listed
    · exact List.mem_append_left _ (by simp [new])

/-- Every statement keeps the blocks attributed, as long as forks succeed. -/
theorem proceed {t' : Custody} (attributed : Attributed t chains)
    {reading clk pid : Int} (forked : pid ≠ -1)
    (stepped : t.step (.proceed reading clk pid) = .ok t') :
    ∃ chains', Attributed t' chains' := by
  obtain ⟨next, run, ends⟩ := bind_eq_ok.mp stepped
  obtain ⟨chains', move, inOrder⟩ := attributed.inOrder.move run
  refine ⟨chains', ?_⟩
  have list := move.processList
  have quiet : ∀ {statement : CreationStatement},
      t.creation.statement = statement → statement ≠ .exited →
      (∀ p fit, statement ≠ .forkAndSend p fit) → t.inTransit = none :=
    fun same runs other => attributed.settled (same ▸ runs) (same ▸ other)
  cases move with
  | ended statement | rested statement =>
      simp only [statement, pure_eq_ok, Except.ok.injEq] at ends
      exact ends ▸ attributed.keep inOrder rfl rfl attributed.transit
  | continued statement | finished statement | drained statement
  | taken statement | found statement | gaveUp statement =>
      simp only [statement, pure_eq_ok, Except.ok.injEq] at ends
      exact ends ▸ attributed.keep inOrder rfl rfl
        (Or.inl (quiet statement (by simp) (by simp)))
  | allocated statement read allocation same live =>
      simp only [statement, pure_eq_ok, Except.ok.injEq] at ends
      rw [Creation.allocated_eq (by rw [Creation.requester, statement]; exact read)
        allocation] at ends
      exact ends ▸ attributed.allocate inOrder
        (quiet statement (by simp) (by simp)) (List.mem_of_getElem? read)
        allocation rfl rfl rfl
  | handedOver statement read posts assigns =>
      simp only [statement, pure_eq_ok, Except.ok.injEq] at ends
      obtain ⟨pcb, assigned⟩ := assigns forked
      exact ends ▸ attributed.handOver inOrder forked (buddy_assign assigned) rfl
  | noneLeft statement | passed statement =>
      simp only [statement, pure_eq_ok, Except.ok.injEq, if_true] at ends
      exact ends ▸ attributed.keep inOrder rfl rfl
        (Or.inl (quiet statement (by simp) (by simp)))
  | queued statement read due =>
      simp only [statement, pure_eq_ok, Except.ok.injEq,
        Creation.afterAdmission, if_true] at ends
      exact ends ▸ attributed.keep inOrder rfl rfl
        (Or.inl (quiet statement (by simp) (by simp)))
  | admitted statement read due allocation assigns posts =>
      have handed : ∀ p : Nat, t.creation.handed ++ [p] ≠ t.creation.handed := by
        simp
      simp only [statement, pure_eq_ok, Except.ok.injEq,
        Creation.afterHandover, Creation.afterAdmission, if_neg (handed _)]
        at ends
      rw [Creation.allocated_eq (by rw [Creation.requester, statement]; exact read)
        allocation] at ends
      obtain ⟨pcb, assigned⟩ := assigns forked
      exact ends ▸ attributed.arrive inOrder
        (quiet statement (by simp) (by simp)) forked (List.mem_of_getElem? read)
        allocation (buddy_assign assigned) rfl

theorem step {t' : Custody} (attributed : Attributed t chains)
    {event : CreationEvent} (gives : t.GivesBack event) (forks : t.Forks event)
    (stepped : t.step event = .ok t') : ∃ chains', Attributed t' chains' := by
  cases event with
  | exit clk pid =>
      obtain ⟨next, run, ends⟩ := bind_eq_ok.mp stepped
      simp only [pure_eq_ok, Except.ok.injEq] at ends
      exact ends ▸ attributed.exit gives run
  | interrupt =>
      obtain ⟨next, run, ends⟩ := bind_eq_ok.mp stepped
      simp only [pure_eq_ok, Except.ok.injEq] at ends
      obtain ⟨chains', move, inOrder⟩ := attributed.inOrder.move run
      refine ⟨chains', ends ▸ ?_⟩
      cases move with
      | ended exited => exact attributed.keep inOrder rfl rfl attributed.transit
      | interrupted runs =>
          exact attributed.keep inOrder rfl rfl (Or.inr (Or.inl rfl))
  | proceed reading clk pid => exact attributed.proceed forks stepped

/-- When nobody holds memory, nothing is allocated. -/
theorem live_eq_nil (attributed : Attributed t chains)
    (calls : t.creation.statement = .getOldestFit) (none : t.NoneHolds) :
    live chains.nodes = [] := by
  apply List.eq_nil_iff_forall_not_mem.mpr
  intro node member
  rcases attributed.owner node member with moving | listed
  · rw [attributed.settled (by simp [calls]) (by simp [calls])] at moving
    cases moving
  · obtain ⟨holder, holds, same⟩ := List.mem_map.mp listed
    have used := (attributed.buddy.isAllocated_iff node.1).mpr
      ⟨node.2, mem_live.mp member⟩
    rw [← same, none holder holds] at used
    cases used

/-- Then `get_oldest_fit` finds a process exactly if a waiting one fits the whole
memory. -/
theorem served_iff (attributed : Attributed t chains)
    (calls : t.creation.statement = .getOldestFit) (none : t.NoneHolds) :
    t.Served ↔ t.SomeFitsMemory := by
  have inOrder := attributed.inOrder
  have whole := attributed.buddy.fits_iff (attributed.live_eq_nil calls none)
  have pointers := InOrder.pointers_eq inOrder.listAt
  rcases oldestFit_spec inOrder.usable.intact.blocks inOrder.listAt
      inOrder.readable with
    ⟨run, unfit⟩ | ⟨heap, list, left, entry, right, run, split, _, fits, _⟩
  · refine iff_of_false ?_ ?_
    · rintro ⟨heap, list, p, found⟩
      rw [run] at found
      cases found
    · rintro ⟨others, read, p, member, process, loaded, small⟩
      rw [pointers, Except.ok.injEq] at read
      subst read
      obtain ⟨entry, waits, rfl⟩ := List.mem_map.mp member
      exact unfit entry waits
        ⟨process, processAt_eq_ok.mpr loaded, (whole process).mpr small⟩
  · refine iff_of_true ⟨heap, list, entry.2, run⟩ ?_
    obtain ⟨process, read, room⟩ := fits
    refine ⟨_, pointers, entry.2, ?_, process, processAt_eq_ok.mp read,
      (whole process).mp room⟩
    rw [split]
    exact List.mem_map_of_mem (by simp)

end Attributed

/-- In every run in which no fork fails and the block of each child is free once
it has been reaped, whenever `create_processes` calls `get_oldest_fit` while
processes wait and no process holds memory, the call returns a process exactly
if one that waits asks for no more than the whole memory. -/
theorem waiting_served_iff (processList : List Process)
    (sizes : ∀ process ∈ processList, 1 ≤ process.memorySize)
    (clock clkPid schPid : Int) (events : List CreationEvent)
    (givesBack : Along Custody.step Custody.GivesBack
      (Custody.start processList clock clkPid schPid) events)
    (forks : Along Custody.step Custody.Forks
      (Custody.start processList clock clkPid schPid) events) :
    Throughout Custody.step
      (fun t => t.creation.statement = .getOldestFit → t.NoneHolds →
        t.creation.waiting.list.size ≠ 0 → (t.Served ↔ t.SomeFitsMemory))
      (Custody.start processList clock clkPid schPid) events := by
  refine throughout_of_invariant
    (P := fun t => ∃ chains, Attributed t chains) ?_ ?_
    ⟨_, Attributed.start sizes clock clkPid schPid⟩
    (along_and.mpr ⟨givesBack, forks⟩)
  · rintro t event t' ⟨chains, attributed⟩ ⟨gives, forks⟩ stepped
    exact attributed.step gives forks stepped
  · rintro t ⟨chains, attributed⟩ calls none _
    exact attributed.served_iff calls none

/-- A process that arrives at time 0. -/
private def arrivingJob (id memorySize : Int) : Process :=
  { id := id, arrivalTime := 0, runtime := 1, priority := 0,
    memorySize := memorySize }

/-- The first process gets the whole memory, the second one waits, and the first
one exits. -/
private def takingOver : List CreationEvent :=
  List.replicate 6 (.proceed 0 0 101) ++ [.exit 1 101, .proceed 1 1 102]

theorem waiting_served_iff_sample :
    ∃ t, runs Custody.step
        (.start [arrivingJob 1 1024, arrivingJob 2 1024] 0 99 100) takingOver =
          .ok t ∧
      t.creation.waiting.list.size ≠ 0 ∧ t.Served := by
  have replay : (do
      let t ← runs Custody.step
        (.start [arrivingJob 1 1024, arrivingJob 2 1024] 0 99 100) takingOver
      pure (decide (t.creation.statement = .getOldestFit ∧ t.NoneHolds ∧
        t.creation.waiting.list.size ≠ 0 ∧
        t.creation.waiting.pointers = .ok [1] ∧
        t.creation.processList[1]? = some (arrivingJob 2 1024)))) =
      Except.ok true := by
    decide +kernel
  obtain ⟨t, run, ends⟩ := bind_eq_ok.mp replay
  simp only [pure_eq_ok, Except.ok.injEq, decide_eq_true_eq] at ends
  obtain ⟨calls, none, waits, pointers, read⟩ := ends
  refine ⟨t, run, waits, (waiting_served_iff
    [arrivingJob 1 1024, arrivingJob 2 1024] (by decide) 0 99 100 takingOver
    (by decide +kernel) (by decide +kernel) takingOver List.prefix_rfl t run calls
    none waits).mpr ?_⟩
  exact ⟨[1], pointers, 1, List.mem_singleton_self 1, _, read, by decide⟩

/-- A process that asks for more than the whole memory is put on the waiting
list, and waits for ever. -/
theorem waiting_unserved :
    ¬ ∀ processList : List Process,
      (∀ process ∈ processList, 1 ≤ process.memorySize) →
      ∀ (clock clkPid schPid : Int) (events : List CreationEvent),
      Along Custody.step Custody.GivesBack
        (.start processList clock clkPid schPid) events →
      Throughout Custody.step
        (fun t => t.creation.statement = .getOldestFit → t.NoneHolds →
          t.creation.waiting.list.size ≠ 0 → t.Served)
        (.start processList clock clkPid schPid) events := by
  intro served
  have replay : (do
      let t ← runs Custody.step (.start [arrivingJob 1 1025] 0 99 100)
        (List.replicate 4 (.proceed 0 0 101))
      let found ← oldestFit t.creation.manager
        (processAt t.creation.processList) t.creation.waiting.heap
          t.creation.waiting.list
      pure (decide (t.creation.statement = .getOldestFit ∧ t.NoneHolds ∧
        t.creation.waiting.list.size ≠ 0 ∧ found.2.2 = none))) =
      Except.ok true := by
    decide +kernel
  obtain ⟨t, run, rest⟩ := bind_eq_ok.mp replay
  obtain ⟨found, search, ends⟩ := bind_eq_ok.mp rest
  simp only [pure_eq_ok, Except.ok.injEq, decide_eq_true_eq] at ends
  obtain ⟨calls, none, waits, missed⟩ := ends
  obtain ⟨heap, list, p, finds⟩ := served [arrivingJob 1 1025] (by decide) 0 99
    100 (List.replicate 4 (.proceed 0 0 101)) (by decide +kernel)
    (List.replicate 4 (.proceed 0 0 101)) List.prefix_rfl t run calls none waits
  have same := Except.ok.inj (search.symm.trans finds)
  rw [same] at missed
  cases missed

/-- The block of a process whose `fork` failed is never given back: no process
fits any more, though the one that waits asks for no more than the memory. -/
example : (do
    let t ← runs Custody.step
      (.start [arrivingJob 1 1024, arrivingJob 2 1024] 0 99 100)
      [.proceed 0 0 101, .proceed 0 0 101, .proceed 0 0 (-1),
        .proceed 0 0 101, .proceed 0 0 101, .proceed 0 0 101, .proceed 0 0 101]
    let found ← oldestFit t.creation.manager
      (processAt t.creation.processList) t.creation.waiting.heap
        t.creation.waiting.list
    pure (decide (t.creation.statement = .getOldestFit ∧ t.NoneHolds ∧
      t.creation.waiting.list.size ≠ 0 ∧ found.2.2 = none))) =
    Except.ok true := by
  decide +kernel

end OsSim
