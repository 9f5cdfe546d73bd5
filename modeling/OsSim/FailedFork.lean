/-
Module: OsSim.FailedFork
Purpose: What a branch of `create_processes` leaves behind when the `fork` in
  `fork_and_send` fails.
Trusted boundary: human-reviewed translation
Main exports:
  Creation.Pending, Creation.LeftIntact, FailingBranch, Underway,
  failed_fork_not_undone, failed_fork_loses_process
-/
import OsSim.BuddyAllocation
import OsSim.WaitingServed

namespace OsSim

open PointerMemory
open DoublyLinked
open Trace

namespace Creation

/-- The process at `p` is still to be admitted: it is at index `i` or in the
waiting list. -/
def Pending (c : Creation) (p : Nat) : Prop :=
  p = c.i ∨ ∃ pointers, c.waiting.pointers = .ok pointers ∧ p ∈ pointers

/-- What should hold after a branch whose `fork` failed. -/
def LeftIntact (before after : Creation) (p : Nat) : Prop :=
  after.manager.blocks = before.manager.blocks ∧ after.Pending p

end Creation

/-- The branches of `create_processes` whose `fork` fails for the process at
`p`, each from its `allocate_process_memory` on: the admission of a process that
has arrived and for which there is a block, and the handover of a process taken
from the waiting list, with child exits handled in between. -/
inductive FailingBranch (c : Creation) (p : Nat) : List CreationEvent → Prop
  | arrival {process : Process} {clk : Int} (statement : c.statement = .arrivalTest)
      (next : p = c.i) (read : c.processList[p]? = some process)
      (taken : c.allocated ≠ none) :
      FailingBranch c p [.proceed process.arrivalTime clk (-1)]
  | waiting {fit : Addr} {reading reading' clk clk' pid : Int}
      (statement : c.statement = .allocate p fit) (exits : List (Int × Int)) :
      FailingBranch c p (.proceed reading clk pid ::
        (exits.map (fun reaped => .exit reaped.1 reaped.2) ++
          [.proceed reading' clk' (-1)]))

/-! ### The block list -/

namespace Creation

variable {c next : Creation} {chains : Chains}

/-- The block list, the waiting list and the input index are the same. -/
def SamePlaces (c next : Creation) : Prop :=
  next.manager.buddy = c.manager.buddy ∧ next.waiting = c.waiting ∧ next.i = c.i

/-- `fork_and_send` leaves them alone. -/
theorem forkAndSend_places {clk pid : Int} {p : Nat} {block : Addr}
    (run : c.forkAndSend clk pid p (some block) = .ok next) :
    c.SamePlaces next := by
  obtain ⟨process, _, run⟩ := bind_eq_ok.mp run
  obtain ⟨generator, forked, run⟩ := bind_eq_ok.mp run
  rw [pure_eq_ok, Except.ok.injEq] at run
  rw [← run]
  rw [OsSim.forkAndSend] at forked
  refine ⟨?_, rfl, rfl⟩
  by_cases failed : pid = -1
  · rw [if_pos failed, Except.ok.injEq] at forked
    rw [← forked]
    rfl
  · rw [if_neg failed] at forked
    obtain ⟨⟨manager, pcb⟩, assigned, forked⟩ := bind_eq_ok.mp forked
    simp only [pure_eq_ok, Except.ok.injEq] at forked
    rw [← forked]
    exact buddy_assign assigned

/-- So does the handover of a process from the waiting list. -/
theorem handover_places {reading clk pid : Int} {p : Nat} {fit : Addr}
    (statement : c.statement = .forkAndSend p fit)
    (run : c.proceed reading clk pid = .ok next) : c.SamePlaces next := by
  rw [Creation.proceed] at run
  simp only [statement] at run
  obtain ⟨after, sent, run⟩ := bind_eq_ok.mp run
  rw [pure_eq_ok, Except.ok.injEq] at run
  obtain ⟨buddy, waiting, i⟩ := forkAndSend_places sent
  rw [← run]
  exact ⟨buddy, waiting, i⟩

/-- The admission of a process for which there is a block changes the block list
as its allocation does, and goes on to the next process. -/
theorem admission_places (inOrder : InOrder c chains) {clk pid : Int}
    {process : Process} {manager : MemoryManager} {block : Addr}
    (statement : c.statement = .arrivalTest)
    (read : c.processList[c.i]? = some process)
    (allocated : allocateProcessMemory c.manager process.memorySize =
      .ok (manager, some block))
    (run : c.proceed process.arrivalTime clk pid = .ok next) :
    next.manager.buddy = manager.buddy ∧ next.waiting = c.waiting ∧
      next.i = c.i + 1 := by
  obtain ⟨left, _⟩ := List.getElem?_eq_some_iff.mp read
  rw [Creation.proceed] at run
  simp only [statement] at run
  obtain ⟨after, arrived, run⟩ := bind_eq_ok.mp run
  rw [pure_eq_ok, Except.ok.injEq] at run
  have marks := inOrder.unprocessed left
  rw [Creation.arrivalTest] at arrived
  simp only [read, marks, and_self, if_true, Creation.admission, allocated,
    ok_bind] at arrived
  obtain ⟨sent, forked, arrived⟩ := bind_eq_ok.mp arrived
  rw [pure_eq_ok, Except.ok.injEq] at arrived
  obtain ⟨buddy, waiting, i⟩ := forkAndSend_places forked
  rw [← run, ← arrived]
  exact ⟨buddy, waiting, by rw [i]⟩

end Creation

/-- An allocation that succeeds changes the block list. -/
theorem blocks_ne_of_allocated {manager manager' : MemoryManager}
    {nodes : List (Addr × Tile)} (buddy : BuddyInvariant manager.buddy nodes)
    {size : Int} (positive : 1 ≤ size) {block : Addr}
    (run : allocateProcessMemory manager size = .ok (manager', some block)) :
    manager'.blocks ≠ manager.blocks := by
  obtain ⟨heap, taken, rfl⟩ := allocateProcessMemory_inv run
  obtain ⟨after, old, tile, buddy', _, wasFree, free, placed, asked, _⟩ :=
    buddy.allocate_kept positive taken
  intro same
  have read : manager.buddy.blocks = .ok after := same.symm.trans buddy'.blocks_eq
  have equal : nodes = after := buddy.unique read
  -- One address would hold a free block and an allocated one.
  have isUsed : (block, tile) ∈ nodes := equal ▸ placed.1
  have clash := List.inj_on_of_nodup_map buddy.blocks.linked.nodup wasFree
    isUsed rfl
  have tileEq : old = tile := congrArg Prod.snd clash
  rw [tileEq, asked] at free
  omega

/-- A deallocation leaves room for whatever there was room for. -/
theorem fits_of_fewer {state next : BuddyHeap} {nodes nodes' : List (Addr × Tile)}
    (buddy : BuddyInvariant state nodes) (buddy' : BuddyInvariant next nodes')
    (fewer : live nodes' ⊆ live nodes) {process : Process}
    (positive : 1 ≤ process.memorySize) (fits : Fits nodes process) :
    Fits nodes' process := by
  obtain ⟨power, least⟩ := LeastPower.exists_of_pos positive
  obtain ⟨node, member, free, large⟩ := fits
  obtain ⟨k, inside, unused⟩ := buddy.region_of_free least member free large
  refine buddy'.exists_free_of_region least (k := k) ⟨inside, ?_⟩
  intro other listed used
  have old := mem_live.mp (fewer (mem_live.mpr ⟨listed, used⟩))
  exact unused other old.1 old.2

/-! ### Runs -/

/-- The pointers in hand and in the waiting list. -/
def Creation.carried (c : Creation) (chains : Chains) : List Nat :=
  c.statement.inHand ++ chains.waiting.map Prod.snd

/-- No process is in hand or in the waiting list twice, those that are have been
reached, and one that memory is about to be allocated for fits. -/
structure Underway (c : Creation) (chains : Chains) : Prop where
  inOrder : InOrder c chains
  buddy : BuddyInvariant c.manager.buddy chains.nodes
  sizes : ∀ process ∈ c.processList, 1 ≤ process.memorySize
  distinct : (c.carried chains).Nodup
  below : ∀ p ∈ c.carried chains, p < c.i
  fits : ∀ p fit, c.statement = .allocate p fit →
    FitsAt (processAt c.processList) chains.nodes p

namespace Underway

variable {c next : Creation} {chains chains' : Chains} {event : CreationEvent}

theorem start {processList : List Process}
    (sizes : ∀ process ∈ processList, 1 ≤ process.memorySize)
    (clock clkPid schPid : Int) :
    Underway (.start processList clock clkPid schPid)
      { nodes :=
          [(initMemory.2, { start := 0, size := maxSize, allocated := 0 })]
        waiting := [] } where
  inOrder := InOrder.start processList clock clkPid schPid
  buddy := BuddyInvariant.initial
  sizes := sizes
  distinct := List.nodup_nil
  below := by simp [Creation.carried, Creation.start, CreationStatement.inHand]
  fits := by
    intro p fit statement
    cases statement

/-- An event keeps the block list a good one. -/
theorem buddy_move (underway : Underway c chains)
    (move : CreationMove c chains event next chains')
    (run : c.step event = .ok next) :
    ∃ nodes, BuddyInvariant next.manager.buddy nodes := by
  have buddy := underway.buddy
  have inOrder := underway.inOrder
  cases move with
  | reaped _ reaped =>
      obtain ⟨nodes, buddy', _⟩ :=
        Creation.handleChildExit_live inOrder buddy reaped
      exact ⟨nodes, buddy'⟩
  | allocated _ read taken =>
      obtain ⟨nodes, buddy', _⟩ := buddy.allocateProcessMemory
        (underway.sizes _ (List.mem_of_getElem? read)) taken
      exact ⟨nodes, buddy'⟩
  | handedOver statement =>
      simp only [Creation.step, statement, reduceCtorEq, if_false] at run
      rw [(Creation.handover_places statement run).1]
      exact ⟨_, buddy⟩
  | admitted statement read due taken =>
      subst due
      simp only [Creation.step, statement, reduceCtorEq, if_false] at run
      rw [(Creation.admission_places inOrder statement read taken run).1]
      obtain ⟨nodes, buddy', _⟩ := buddy.allocateProcessMemory
        (underway.sizes _ (List.mem_of_getElem? read)) taken
      exact ⟨nodes, buddy'⟩
  | ended | interrupted | continued | finished | rested | drained | taken
  | found | gaveUp | noneLeft | passed | queued => exact ⟨_, buddy⟩

/-- An event carries no process twice, and none that has not been reached. -/
theorem carried_move (underway : Underway c chains)
    (move : CreationMove c chains event next chains') :
    (next.carried chains').Nodup ∧ ∀ p ∈ next.carried chains', p < next.i := by
  have distinct := underway.distinct
  have below := underway.below
  simp only [Creation.carried] at distinct below ⊢
  cases move with
  | ended | reaped | rested => exact ⟨distinct, below⟩
  | interrupted =>
      refine ⟨(List.nodup_append.mp distinct).2.1, ?_⟩
      intro p member
      exact below p (List.mem_append_right _ member)
  | continued statement | finished statement | drained statement
  | noneLeft statement | passed statement =>
      rw [statement] at distinct below
      exact ⟨distinct, below⟩
  | found statement | allocated statement =>
      rw [statement] at distinct below
      exact ⟨distinct, below⟩
  | gaveUp statement | handedOver statement =>
      rw [statement] at distinct below
      refine ⟨(List.nodup_append.mp distinct).2.1, ?_⟩
      intro p member
      exact below p (List.mem_append_right _ member)
  | @taken _ _ _ left right entry _ statement split =>
      rw [statement, split] at distinct below
      have same : ([entry.2] ++ (left ++ right).map Prod.snd).Perm
          ([] ++ (left ++ entry :: right).map Prod.snd) := by
        simp only [List.map_append, List.map_cons, List.nil_append,
          List.singleton_append]
        exact List.perm_middle.symm
      refine ⟨same.nodup_iff.mpr distinct, ?_⟩
      intro p member
      exact below p (same.mem_iff.mp member)
  | queued statement =>
      rw [statement] at distinct below
      simp only [CreationStatement.inHand, List.nil_append, List.map_append,
        List.map_cons, List.map_nil, Creation.afterAdmission] at distinct below ⊢
      constructor
      · refine List.nodup_append.mpr ⟨distinct, List.nodup_singleton _, ?_⟩
        intro p member q last same
        have reached := below p member
        rw [same, List.mem_singleton.mp last] at reached
        omega
      · intro p member
        rcases List.mem_append.mp member with waits | last
        · have reached := below p waits
          omega
        · rw [List.mem_singleton.mp last]
          omega
  | admitted statement =>
      rw [statement] at distinct below
      refine ⟨distinct, ?_⟩
      intro p member
      exact Nat.lt_succ_of_lt (below p member)

/-- Whatever memory is about to be allocated for fits. -/
theorem fits_move (underway : Underway c chains)
    (move : CreationMove c chains event next chains')
    (buddy' : BuddyInvariant next.manager.buddy chains'.nodes) :
    ∀ p fit, next.statement = .allocate p fit →
      FitsAt (processAt next.processList) chains'.nodes p := by
  intro p fit allocates
  cases move with
  | ended | rested => exact underway.fits p fit allocates
  | reaped _ reaped =>
      obtain ⟨process, read, room⟩ := underway.fits p fit allocates
      obtain ⟨nodes, buddy, fewer⟩ :=
        Creation.handleChildExit_live underway.inOrder underway.buddy reaped
      have same := buddy'.blocks.unique buddy.blocks
      dsimp only at same
      refine ⟨process, read, fits_of_fewer underway.buddy buddy' ?_ ?_ room⟩
      · rw [same]
        exact fewer
      · exact underway.sizes process
          (List.mem_of_getElem? (processAt_eq_ok.mp read))
  | found _ read best =>
      cases allocates
      exact ⟨_, processAt_eq_ok.mpr read, best.fits.2⟩
  | interrupted | continued | finished | drained | taken | gaveUp | allocated
  | handedOver | noneLeft | passed | queued | admitted => cases allocates

theorem step (underway : Underway c chains) (run : c.step event = .ok next) :
    ∃ chains', Underway next chains' := by
  obtain ⟨chains', move, inOrder⟩ := underway.inOrder.move run
  obtain ⟨nodes, buddy⟩ := underway.buddy_move move run
  have same := Attributed.nodes_eq inOrder buddy
  have buddy' : BuddyInvariant next.manager.buddy chains'.nodes := same ▸ buddy
  obtain ⟨distinct, below⟩ := underway.carried_move move
  refine ⟨chains', inOrder, buddy', ?_, distinct, below,
    underway.fits_move move buddy'⟩
  rw [move.processList]
  exact underway.sizes

theorem of_runs (underway : Underway c chains) {events : List CreationEvent}
    (run : runs Creation.step c events = .ok next) :
    ∃ chains', Underway next chains' :=
  invariant_of_steps (P := fun c => ∃ chains, Underway c chains)
    (fun _ _ _ ⟨_, underway⟩ stepped => underway.step stepped)
    ⟨chains, underway⟩ run

end Underway

/-! ### A failed fork

By the time `fork` is called the process has left the place it was admitted from:
`i` has gone on, or the node has been taken out of the waiting list.  It is in hand,
and nothing that is in hand is pending, as no pointer is carried twice.  A failed
fork returns without putting it back, and its block stays allocated.  What
remains to be shown is that the allocation before did succeed, so that there is a
block to be left behind.
-/

namespace Creation

variable {c next : Creation} {chains : Chains}

/-- What may be pending. -/
theorem pending_iff (inOrder : InOrder c chains) (p : Nat) :
    c.Pending p ↔ p = c.i ∨ p ∈ chains.waiting.map Prod.snd := by
  rw [Pending, InOrder.pointers_eq inOrder.listAt]
  constructor
  · rintro (index | ⟨pointers, read, member⟩)
    · exact Or.inl index
    · rw [Except.ok.injEq] at read
      exact Or.inr (read ▸ member)
  · rintro (index | member)
    · exact Or.inl index
    · exact Or.inr ⟨_, rfl, member⟩

/-- The same holds where the waiting list and the index are the same. -/
theorem pending_congr (waiting : next.waiting = c.waiting) (i : next.i = c.i)
    (p : Nat) : next.Pending p ↔ c.Pending p := by
  rw [Pending, Pending, waiting, i]

/-- An allocation that returns a block. -/
theorem exists_of_allocated (taken : c.allocated ≠ none) :
    ∃ process manager block, c.processList[c.requester]? = some process ∧
      allocateProcessMemory c.manager process.memorySize =
        .ok (manager, some block) := by
  rw [allocated] at taken
  cases read : c.processList[c.requester]? with
  | none => simp [read] at taken
  | some process =>
      simp only [read] at taken
      cases run : allocateProcessMemory c.manager process.memorySize with
      | error fault => simp [run] at taken
      | ok result =>
          obtain ⟨manager, found⟩ := result
          simp only [run] at taken
          obtain ⟨block, rfl⟩ := Option.ne_none_iff_exists'.mp taken
          exact ⟨process, manager, block, rfl, run⟩

/-- Child exits do not change what the generator does next. -/
theorem statement_of_exits (exits : List (Int × Int)) {c next : Creation}
    (run : runs step c
      (exits.map fun reaped => .exit reaped.1 reaped.2) = .ok next) :
    next.statement = c.statement := by
  induction exits generalizing c with
  | nil =>
      simp only [List.map_nil, runs_nil, Except.ok.injEq] at run
      rw [run]
  | cons reaped exits ih =>
      obtain ⟨middle, stepped, run⟩ := runs_cons_ok.mp run
      refine (ih run).trans ?_
      simp only [step] at stepped
      split at stepped
      next => rw [← Except.ok.inj stepped]
      next =>
        obtain ⟨generator, _, ends⟩ := bind_eq_ok.mp stepped
        rw [← Except.ok.inj ends]

end Creation

namespace Underway

variable {c next : Creation} {chains : Chains}

/-- A process that is in hand is not pending. -/
theorem not_pending (underway : Underway c chains) {p : Nat}
    (inHand : p ∈ c.statement.inHand) : ¬ c.Pending p := by
  rw [Creation.pending_iff underway.inOrder]
  rintro (index | waits)
  · have reached := underway.below p (List.mem_append_left _ inHand)
    omega
  · exact (List.nodup_append.mp underway.distinct).2.2 p inHand p waits rfl

/-- The allocation for a process from the waiting list succeeds. -/
theorem allocates (underway : Underway c chains) {p : Nat} {fit : Addr}
    (statement : c.statement = .allocate p fit) {reading clk pid : Int}
    (run : c.step (.proceed reading clk pid) = .ok next) :
    next.manager.blocks ≠ c.manager.blocks ∧
      next.statement = .forkAndSend p fit := by
  obtain ⟨process, read, room⟩ := underway.fits p fit statement
  have positive := underway.sizes process
    (List.mem_of_getElem? (processAt_eq_ok.mp read))
  simp only [Creation.step, statement, reduceCtorEq, if_false,
    Creation.proceed, read, ok_bind] at run
  obtain ⟨⟨manager, found⟩, taken, run⟩ := bind_eq_ok.mp run
  rw [pure_eq_ok, Except.ok.injEq] at run
  rw [← run]
  refine ⟨?_, rfl⟩
  rcases underway.inOrder.usable.allocate process.memorySize with
    ⟨_, none⟩ | ⟨node, heap, nodes, _, some, _, _⟩
  · exact absurd room (not_fits_iff.mpr none)
  · have same := Except.ok.inj (some.symm.trans taken)
    rw [Prod.mk.injEq] at same
    obtain ⟨rfl, rfl⟩ := same
    exact blocks_ne_of_allocated underway.buddy positive taken

end Underway

/-- In every run, when a fork fails, the process is not pending after the
branch; and where no child exits meanwhile the block list differs from the one
before `allocate_process_memory`. -/
theorem failed_fork_not_undone (processList : List Process)
    (sizes : ∀ process ∈ processList, 1 ≤ process.memorySize)
    (clock clkPid schPid : Int) (events : List CreationEvent) (c : Creation)
    (reached : runs Creation.step (.start processList clock clkPid schPid)
      events = .ok c)
    (p : Nat) (branch : List CreationEvent) (fails : FailingBranch c p branch)
    (next : Creation) (run : runs Creation.step c branch = .ok next) :
    ¬ c.LeftIntact next p ∧ ¬ next.Pending p ∧
      ((∀ clk pid, .exit clk pid ∉ branch) →
        next.manager.blocks ≠ c.manager.blocks) := by
  obtain ⟨chains, underway⟩ :=
    (Underway.start sizes clock clkPid schPid).of_runs reached
  suffices lost : ¬ next.Pending p ∧ ((∀ clk pid, .exit clk pid ∉ branch) →
      next.manager.blocks ≠ c.manager.blocks) from
    ⟨fun intact => lost.1 intact.2, lost⟩
  cases fails with
  | @arrival process clk statement index read taken =>
      subst index
      obtain ⟨middle, stepped, ends⟩ := runs_cons_ok.mp run
      rw [runs_nil, Except.ok.injEq] at ends
      subst ends
      simp only [Creation.step, statement, reduceCtorEq, if_false] at stepped
      obtain ⟨process', manager, block, read', allocated⟩ :=
        Creation.exists_of_allocated taken
      have same : some process' = some process := by
        rw [← read, ← read', Creation.requester, statement]
      obtain rfl := Option.some.inj same
      obtain ⟨buddy, waiting, i⟩ := Creation.admission_places underway.inOrder
        statement read allocated stepped
      constructor
      · rintro (index | ⟨pointers, listed, member⟩)
        · omega
        · rw [waiting, InOrder.pointers_eq underway.inOrder.listAt,
            Except.ok.injEq] at listed
          have old := underway.below c.i
            (List.mem_append_right _ (listed ▸ member))
          omega
      · intro _
        have changed := blocks_ne_of_allocated underway.buddy
          (underway.sizes _ (List.mem_of_getElem? read)) allocated
        rw [MemoryManager.blocks, buddy]
        exact changed
  | @waiting fit reading reading' clk clk' pid statement exits =>
      obtain ⟨first, stepped, run⟩ := runs_cons_ok.mp run
      obtain ⟨second, exited, run⟩ := runs_append_ok.mp run
      obtain ⟨third, handed, ends⟩ := runs_cons_ok.mp run
      rw [runs_nil, Except.ok.injEq] at ends
      subst ends
      obtain ⟨changed, atHandover⟩ := underway.allocates statement stepped
      have stillThere := (Creation.statement_of_exits exits exited).trans atHandover
      obtain ⟨chains', underway'⟩ := underway.of_runs
        (runs_cons_ok.mpr ⟨first, stepped, exited⟩)
      simp only [Creation.step, stillThere, reduceCtorEq, if_false] at handed
      obtain ⟨buddy, waiting, i⟩ := Creation.handover_places stillThere handed
      constructor
      · rw [Creation.pending_congr waiting i]
        apply underway'.not_pending
        rw [stillThere]
        exact List.mem_singleton_self p
      · intro quiet
        cases exits with
        | nil =>
            rw [List.map_nil, runs_nil, Except.ok.injEq] at exited
            subst exited
            rw [MemoryManager.blocks, buddy]
            exact changed
        | cons reaped exits =>
            exact absurd (by simp) (quiet reaped.1 reaped.2)

/-- A process of one byte that arrives at time 0. -/
private def oneByte : Process :=
  { id := 1, arrivalTime := 0, runtime := 3, priority := 0, memorySize := 1 }

/-- Its admission is reached after the loop test and the search of the waiting
list, and its fork fails. -/
private theorem oneByte_fails :
    ∃ c next, runs Creation.step (.start [oneByte] 0 99 100)
        [.proceed 0 0 1, .proceed 0 0 1] = .ok c ∧
      FailingBranch c 0 [.proceed 0 0 (-1)] ∧
      runs Creation.step c [.proceed 0 0 (-1)] = .ok next ∧
      next.i = 1 ∧ next.waiting.pointers = .ok [] := by
  have replay : (do
      let c ← runs Creation.step (.start [oneByte] 0 99 100)
        [.proceed 0 0 1, .proceed 0 0 1]
      let next ← runs Creation.step c [.proceed 0 0 (-1)]
      pure (decide (c.statement = .arrivalTest ∧ 0 = c.i ∧
        c.processList[0]? = some oneByte ∧ c.allocated ≠ none ∧
        next.i = 1 ∧ next.waiting.pointers = .ok []))) = Except.ok true := by
    decide +kernel
  obtain ⟨c, reached, ends⟩ := bind_eq_ok.mp replay
  obtain ⟨next, run, ends⟩ := bind_eq_ok.mp ends
  simp only [pure_eq_ok, Except.ok.injEq, decide_eq_true_eq] at ends
  obtain ⟨statement, index, read, taken, i, empty⟩ := ends
  exact ⟨c, next, reached, .arrival statement index read taken, run, i, empty⟩

theorem failed_fork_not_undone_sample :
    ∃ c next, runs Creation.step c [.proceed 0 0 (-1)] = .ok next ∧
      ¬ c.LeftIntact next 0 ∧ ¬ next.Pending 0 ∧
      next.manager.blocks ≠ c.manager.blocks := by
  obtain ⟨c, next, reached, fails, run, _, _⟩ := oneByte_fails
  obtain ⟨damaged, lost, changed⟩ := failed_fork_not_undone [oneByte]
    (by decide) 0 99 100 [.proceed 0 0 1, .proceed 0 0 1] c reached 0
    [.proceed 0 0 (-1)] fails next run
  exact ⟨c, next, run, damaged, lost, changed (by simp)⟩

/-- The process of one byte is neither at the input index nor in the waiting
list once its fork has failed. -/
theorem failed_fork_loses_process :
    ¬ ∀ processList : List Process,
      (∀ process ∈ processList, 1 ≤ process.memorySize) →
      ∀ (clock clkPid schPid : Int) (events : List CreationEvent) (c : Creation),
      runs Creation.step (.start processList clock clkPid schPid) events =
        .ok c →
      ∀ (p : Nat) (branch : List CreationEvent), FailingBranch c p branch →
      ∀ next, runs Creation.step c branch = .ok next →
        c.LeftIntact next p := by
  intro holds
  obtain ⟨c, next, reached, fails, run, i, empty⟩ := oneByte_fails
  obtain ⟨_, index | ⟨pointers, listed, member⟩⟩ := holds [oneByte] (by decide)
    0 99 100 [.proceed 0 0 1, .proceed 0 0 1] c reached 0 [.proceed 0 0 (-1)]
    fails next run
  · omega
  · rw [empty, Except.ok.injEq] at listed
    rw [← listed] at member
    cases member

end OsSim
