/-
Module: OsSim.CreationMoves
Purpose: What each statement of `create_processes`, and each signal handled
  between two of them, does to the process generator.
Trusted boundary: none
Main exports:
  Usable, InOrder, CreationMove, InOrder.start, InOrder.arrivalTest, InOrder.move
-/
import OsSim.CreateProcesses
import OsSim.WaitingBranch

namespace OsSim

open PointerMemory
open DoublyLinked

/-! ### The memory manager -/

/-- The block list is intact and the memory map is one that its functions
leave. -/
structure Usable (manager : MemoryManager) (nodes : List (Addr × Tile)) :
    Prop where
  intact : Intact manager.heap manager.memory nodes
  formed : manager.memoryMap.Formed
  holds : ∃ held, manager.memoryMap.Holds held

namespace Usable

variable {manager : MemoryManager} {nodes : List (Addr × Tile)}

theorem initial :
    Usable initMemoryManager
      [(initMemory.2, { start := 0, size := maxSize, allocated := 0 })] where
  intact := Intact.initial
  formed := HashMap.formed_create (by decide)
  holds := ⟨_, HashMap.holds_create 100⟩

/-- An allocation returns, with the block that a search would find. -/
theorem allocate (usable : Usable manager nodes) (size : Int) :
    (allocateProcessMemory manager size = .ok (manager, none) ∧
        Best size nodes none) ∨
      ∃ node heap' nodes', Best size nodes (some node) ∧
        allocateProcessMemory manager size =
          .ok ({ manager with heap := heap' }, some node.1) ∧
        Usable { manager with heap := heap' } nodes' ∧
        node.1 ∈ addrs nodes' := by
  rcases usable.intact.allocate size with
    ⟨run, none⟩ | ⟨node, heap', nodes', best, run, intact, inside⟩
  · refine Or.inl ⟨?_, none⟩
    rw [allocateProcessMemory, run]
    rfl
  · refine Or.inr ⟨node, heap', nodes', best, ?_,
      ⟨intact, usable.formed, usable.holds⟩, inside⟩
    rw [allocateProcessMemory, run]
    rfl

/-- A deallocation that returns leaves a usable memory manager, and the map as
it was. -/
theorem deallocate (usable : Usable manager nodes) {clk pid : Int}
    {manager' : MemoryManager} {status : Int}
    (run : deallocateProcessMemory manager clk pid = .ok (manager', status)) :
    manager'.memoryMap = manager.memoryMap ∧
      ∃ nodes', Usable manager' nodes' := by
  rcases deallocateProcessMemory_inv run with
    ⟨_, rfl, _⟩ | ⟨record, heap', log, _, given, rfl, _⟩
  · exact ⟨rfl, nodes, usable⟩
  · obtain ⟨nodes', intact⟩ := usable.intact.deallocate given
    exact ⟨rfl, nodes', intact, usable.formed, usable.holds⟩

/-- Recording a block that has not been released returns. -/
theorem assign_total (usable : Usable manager nodes) (clk : Int)
    (process : PCB) {block : Addr} (live : block ∈ addrs nodes) :
    ∃ result, assignMemoryBlockToProcess manager clk process (some block) =
      .ok result := by
  obtain ⟨held, holds⟩ := usable.holds
  obtain ⟨after, status, put, _⟩ := usable.formed.hashmapPut_spec holds
    process.pid { memory := block, id := process.pdata.id }
  obtain ⟨⟨address, tile⟩, inside, same⟩ := List.mem_map.mp live
  have equal : address = block := same
  subst equal
  obtain ⟨log, process', run, _⟩ := assignMemoryBlockToProcess_ok manager
    usable.intact.blocks inside clk put
  exact ⟨_, run⟩

/-- Recording a block keeps the block list, and of the control block only
`memory_block` changes. -/
theorem assign (usable : Usable manager nodes) {clk : Int} {process : PCB}
    {block : Addr} {manager' : MemoryManager} {process' : PCB}
    (run : assignMemoryBlockToProcess manager clk process (some block) =
      .ok (manager', process')) :
    Usable manager' nodes ∧
      ∃ found, process' = { process with memoryBlock := found } := by
  obtain ⟨held, holds⟩ := usable.holds
  obtain ⟨after, status, put, formed, _, holds', _⟩ :=
    usable.formed.hashmapPut_spec holds process.pid
      { memory := block, id := process.pdata.id }
  obtain ⟨after', result, log, found, put', rfl, rfl⟩ :=
    assignMemoryBlockToProcess_inv run
  have same := Except.ok.inj (put.symm.trans put')
  rw [Prod.mk.injEq] at same
  obtain ⟨rfl, rfl⟩ := same
  exact ⟨⟨usable.intact, formed, _, holds'⟩, found, rfl⟩

end Usable

/-! ### The state of `create_processes` -/

theorem processAt_eq_ok {processList : List Process} {p : Nat}
    {process : Process} :
    processAt processList p = .ok process ↔ processList[p]? = some process := by
  rw [processAt]
  cases processList[p]? <;> simp

/-- What is sent for a process, once `fork` has returned. -/
inductive Posted (pid : Int) (process : Process) : List PCB → Prop
  | failed (failed : pid = -1) : Posted pid process []
  | sent (forked : pid ≠ -1) (found : Option Addr) :
      Posted pid process [{ newPcb pid process with memoryBlock := found }]

/-- After a `fork` that succeeded the block has been assigned to the child. -/
def Assigns (manager : MemoryManager) (clk pid : Int) (process : Process)
    (block : Addr) (manager' : MemoryManager) : Prop :=
  pid ≠ -1 → ∃ pcb, assignMemoryBlockToProcess manager clk (newPcb pid process)
    (some block) = .ok (manager', pcb)

/-- The pointer that is in hand, on its way from the waiting list to
`fork_and_send`. -/
def CreationStatement.inHand : CreationStatement → List Nat
  | .getSmallestBlock p => [p]
  | .allocate p _ => [p]
  | .forkAndSend p _ => [p]
  | _ => []

/-- The lists that the generator's pointers represent. -/
structure Chains where
  nodes : List (Addr × Tile)
  waiting : List (Addr × Nat)

/-- What holds in every state of `create_processes`: the memory manager and the
waiting list are usable, every pointer points into `process_list`, and the
processes below `i` are the processed ones. -/
structure InOrder (c : Creation) (chains : Chains) : Prop where
  usable : Usable c.manager chains.nodes
  listAt : ListAt c.waiting.heap c.waiting.list chains.waiting
  waiting : ∀ entry ∈ chains.waiting, entry.2 < c.processList.length
  inHand : ∀ p ∈ c.statement.inHand, p < c.processList.length
  reached : c.i ≤ c.processList.length
  processed : c.processed = List.replicate c.i true ++
    List.replicate (c.processList.length - c.i) false

namespace Creation

variable {c next : Creation} {chains : Chains}

/-- The state after `fork_and_send` on `p`. -/
def afterHandover (c : Creation) (manager : MemoryManager) (pid : Int) (p : Nat)
    (posted : List PCB) : Creation :=
  { c with
    manager := manager
    messages := c.messages ++ posted
    handed := c.handed ++ [p]
    forked := if pid = -1 then c.forked else pid :: c.forked
    children := if pid = -1 then c.children else pid :: c.children }

/-- `fork_and_send` returns when the block has not been released. -/
theorem forkAndSend_total {nodes : List (Addr × Tile)}
    (usable : Usable c.manager nodes) (clk pid : Int) {p : Nat}
    (inside : p < c.processList.length) {block : Addr}
    (live : block ∈ addrs nodes) :
    ∃ next, c.forkAndSend clk pid p (some block) = .ok next := by
  have read : processAt c.processList p = .ok c.processList[p] :=
    processAt_eq_ok.mpr (List.getElem?_eq_getElem inside)
  rw [forkAndSend, read, ok_bind, OsSim.forkAndSend]
  split
  · exact ⟨_, rfl⟩
  · obtain ⟨⟨manager, pcb⟩, run⟩ :=
      usable.assign_total clk (newPcb pid c.processList[p]) live
    have run' : assignMemoryBlockToProcess c.generator.manager clk
        (newPcb pid c.processList[p]) (some block) = .ok (manager, pcb) := run
    rw [run']
    exact ⟨_, rfl⟩

/-- What `fork_and_send` does when it returns. -/
theorem forkAndSend_eq {nodes : List (Addr × Tile)}
    (usable : Usable c.manager nodes) {clk pid : Int} {p : Nat} {block : Addr}
    (run : c.forkAndSend clk pid p (some block) = .ok next) :
    ∃ process manager posted, c.processList[p]? = some process ∧
      Usable manager nodes ∧ Posted pid process posted ∧
      Assigns c.manager clk pid process block manager ∧
      next = c.afterHandover manager pid p posted := by
  obtain ⟨process, read, run⟩ := bind_eq_ok.mp run
  obtain ⟨generator, forked, run⟩ := bind_eq_ok.mp run
  rw [pure_eq_ok, Except.ok.injEq] at run
  refine ⟨process, generator.manager, ?_⟩
  rw [OsSim.forkAndSend] at forked
  by_cases failed : pid = -1
  · rw [if_pos failed, Except.ok.injEq] at forked
    subst forked
    refine ⟨[], processAt_eq_ok.mp read, usable, .failed failed,
      fun forked => absurd failed forked, ?_⟩
    rw [← run, afterHandover, List.append_nil]
    rfl
  · rw [if_neg failed] at forked
    obtain ⟨⟨manager, pcb⟩, assigned, forked⟩ := bind_eq_ok.mp forked
    simp only [pure_eq_ok, Except.ok.injEq] at forked
    subst forked
    have assigned' : assignMemoryBlockToProcess c.manager clk
        (newPcb pid process) (some block) = .ok (manager, pcb) := assigned
    obtain ⟨usable', found, same⟩ := usable.assign assigned'
    subst same
    exact ⟨_, processAt_eq_ok.mp read, usable', .sent failed found,
      fun _ => ⟨_, assigned'⟩, run.symm⟩

/-- What `handle_child_exit` does when it returns. -/
theorem handleChildExit_eq {nodes : List (Addr × Tile)}
    (usable : Usable c.manager nodes) {clk pid : Int}
    (run : c.handleChildExit clk pid = .ok next) :
    ∃ manager nodes', Usable manager nodes' ∧
      manager.memoryMap = c.manager.memoryMap ∧
      next = { c with
        manager := manager, children := c.children.erase pid } := by
  obtain ⟨generator, reaped, run⟩ := bind_eq_ok.mp run
  rw [pure_eq_ok, Except.ok.injEq] at run
  rw [OsSim.handleChildExit] at reaped
  split at reaped
  · obtain ⟨⟨manager, status⟩, given, reaped⟩ := bind_eq_ok.mp reaped
    simp only [pure_eq_ok, ok_bind, OsSim.handleChildExit, Except.ok.injEq]
      at reaped
    subst reaped
    have given' : deallocateProcessMemory c.manager clk pid =
        .ok (manager, status) := given
    obtain ⟨same, nodes', usable'⟩ := usable.deallocate given'
    exact ⟨manager, nodes', usable', same, run.symm⟩
  · simp only [pure_eq_ok, ok_bind, OsSim.handleChildExit, Except.ok.injEq]
      at reaped
    subst reaped
    exact ⟨c.manager, nodes, usable, rfl, run.symm⟩

/-- A pointer that is added to the waiting list becomes its last one. -/
theorem addToWaiting_eq {waiting : List (Addr × Nat)}
    (listAt : ListAt c.waiting.heap c.waiting.list waiting) (p : Nat) :
    ∃ pointers a, c.addToWaiting p = .ok { c with waiting := pointers } ∧
      ListAt pointers.heap pointers.list (waiting ++ [(a, p)]) := by
  obtain ⟨heap', list', run, listAt'⟩ := addNodeToBack_spec listAt p
  refine ⟨{ heap := heap', list := list' }, _, ?_, listAt'⟩
  rw [addToWaiting]
  dsimp only
  rw [run]
  rfl

/-- The state after the arrival test has admitted the process, apart from where
the process went. -/
def afterAdmission (c : Creation) (reading : Int) : Creation :=
  { c with
    clock := reading, processed := c.processed.set c.i true, i := c.i + 1 }

end Creation

namespace InOrder

variable {c next : Creation} {chains : Chains}

theorem start (processList : List Process) (clock clkPid schPid : Int) :
    InOrder (.start processList clock clkPid schPid)
      { nodes :=
          [(initMemory.2, { start := 0, size := maxSize, allocated := 0 })]
        waiting := [] } where
  usable := Usable.initial
  listAt := createLinkedList_listAt Mem.empty
  waiting := by simp
  inHand := by simp [Creation.start, CreationStatement.inHand]
  reached := Nat.zero_le _
  processed := rfl

/-- The pointers in the waiting list can be followed. -/
theorem readable (inOrder : InOrder c chains) :
    ∀ entry ∈ chains.waiting,
      ∃ process, processAt c.processList entry.2 = .ok process := by
  intro entry member
  exact ⟨_, processAt_eq_ok.mpr
    (List.getElem?_eq_getElem (inOrder.waiting entry member))⟩

/-- Process `i` has not been processed. -/
theorem unprocessed (inOrder : InOrder c chains)
    (left : c.i < c.processList.length) : c.processed[c.i]? = some false := by
  rw [inOrder.processed, List.getElem?_append_right (by simp)]
  simp [Nat.sub_pos_of_lt left]

/-- Marking process `i` keeps the processed ones those below `i`. -/
theorem mark (inOrder : InOrder c chains) (left : c.i < c.processList.length) :
    c.processed.set c.i true = List.replicate (c.i + 1) true ++
      List.replicate (c.processList.length - (c.i + 1)) false := by
  obtain ⟨rest, split⟩ :
      ∃ rest, c.processList.length - c.i = rest + 1 :=
    ⟨c.processList.length - c.i - 1, by omega⟩
  have fewer : c.processList.length - (c.i + 1) = rest := by omega
  rw [inOrder.processed, fewer, split, List.replicate_succ,
    List.set_append_right _ _ (by simp), List.length_replicate, Nat.sub_self,
    List.set_cons_zero, List.replicate_succ', List.append_assoc]
  rfl

/-- The arrival test returns.  It admits the process exactly when the reading is
its arrival time: with a block if there is one, else into the waiting list. -/
theorem arrivalTest (inOrder : InOrder c chains) (reading clk pid : Int) :
    (c.processList[c.i]? = none ∧ c.arrivalTest reading clk pid = .ok c) ∨
    ∃ process, c.processList[c.i]? = some process ∧
      ((reading ≠ process.arrivalTime ∧ c.arrivalTest reading clk pid =
          .ok { c with clock := reading }) ∨
        (reading = process.arrivalTime ∧
          ((Best process.memorySize chains.nodes none ∧
              ∃ pointers a, c.arrivalTest reading clk pid =
                  .ok { c.afterAdmission reading with waiting := pointers } ∧
                ListAt pointers.heap pointers.list
                  (chains.waiting ++ [(a, c.i)])) ∨
            ∃ heap block manager nodes' posted,
              allocateProcessMemory c.manager process.memorySize =
                .ok ({ c.manager with heap := heap }, some block) ∧
              Assigns { c.manager with heap := heap } clk pid process block
                manager ∧
              Usable manager nodes' ∧ Posted pid process posted ∧
              c.arrivalTest reading clk pid =
                .ok ((c.afterAdmission reading).afterHandover manager pid c.i
                  posted)))) := by
  rw [Creation.arrivalTest]
  cases read : c.processList[c.i]? with
  | none => exact Or.inl ⟨rfl, rfl⟩
  | some process =>
      obtain ⟨left, _⟩ := List.getElem?_eq_some_iff.mp read
      refine Or.inr ⟨process, rfl, ?_⟩
      by_cases due : reading = process.arrivalTime
      · refine Or.inr ⟨due, ?_⟩
        let marked : Creation :=
          { c with clock := reading, processed := c.processed.set c.i true }
        simp only
        rw [if_pos ⟨due, inOrder.unprocessed left⟩, Creation.admission]
        rcases inOrder.usable.allocate process.memorySize with
          ⟨run, none⟩ | ⟨node, heap', nodes', _, run, usable', live⟩
        · have listAt : ListAt marked.waiting.heap marked.waiting.list
              chains.waiting := inOrder.listAt
          obtain ⟨pointers, a, added, listAt'⟩ :=
            Creation.addToWaiting_eq listAt c.i
          refine Or.inl ⟨none, pointers, a, ?_, listAt'⟩
          have added' : Creation.addToWaiting
              { marked with manager := c.manager } c.i = _ := added
          simp only [run, ok_bind]
          rw [added']
          rfl
        · have usable'' : Usable
              ({ marked with manager := { c.manager with heap := heap' } } :
                Creation).manager nodes' := usable'
          obtain ⟨after, sent⟩ :=
            Creation.forkAndSend_total usable'' clk pid left live
          obtain ⟨process', manager, posted, read', kept, made, assigns,
              same⟩ :=
            Creation.forkAndSend_eq usable'' sent
          have equal : some process' = some process := read'.symm.trans read
          rw [Option.some.injEq] at equal
          subst equal
          refine Or.inr ⟨heap', node.1, manager, nodes', posted, run, assigns,
            kept, made, ?_⟩
          simp only [run, ok_bind]
          rw [sent, same]
          rfl
      · refine Or.inl ⟨due, ?_⟩
        simp only
        rw [if_neg (fun both => due both.1)]
        rfl

end InOrder

/-! ### One event

The statements of `create_processes` are analysed once, here.  Each event that does
not fault is one of a few moves, named after what it does to the pointers, and
the later results go through these cases and never through the statements.
-/

/-- What an event does, one case for each way the code goes. -/
inductive CreationMove (c : Creation) (chains : Chains) :
    CreationEvent → Creation → Chains → Prop
  | ended {event : CreationEvent} (exited : c.statement = .exited) :
      CreationMove c chains event c chains
  | reaped {clk pid : Int} {manager : MemoryManager}
      {nodes : List (Addr × Tile)} (runs : c.statement ≠ .exited)
      (run : c.handleChildExit clk pid = .ok { c with
        manager := manager, children := c.children.erase pid }) :
      CreationMove c chains (.exit clk pid)
        { c with manager := manager, children := c.children.erase pid }
        { chains with nodes := nodes }
  | interrupted (runs : c.statement ≠ .exited) :
      CreationMove c chains .interrupt
        { c with interrupted := true, statement := .exited } chains
  | continued {reading clk pid : Int} (statement : c.statement = .loopTest)
      (more : c.i < c.processList.length ∨ chains.waiting ≠ [])
      (wanted : c.interrupted = false) :
      CreationMove c chains (.proceed reading clk pid)
        { c with statement := .getOldestFit } chains
  | finished {reading clk pid : Int} (statement : c.statement = .loopTest)
      (stops : ¬ ((c.i < c.processList.length ∨ chains.waiting ≠ []) ∧
        c.interrupted = false)) {endSent : Bool} :
      CreationMove c chains (.proceed reading clk pid)
        { c with statement := .finished, endSent := endSent } chains
  | rested {reading clk pid : Int} (statement : c.statement = .finished) :
      CreationMove c chains (.proceed reading clk pid) c chains
  | drained {reading clk pid : Int} (statement : c.statement = .getOldestFit)
      (unfit : ∀ entry ∈ chains.waiting,
        ¬ FitsAt (processAt c.processList) chains.nodes entry.2) :
      CreationMove c chains (.proceed reading clk pid)
        { c with statement := .arrivalTest } chains
  | taken {reading clk pid : Int} {left right : List (Addr × Nat)}
      {entry : Addr × Nat} {pointers : WaitingPointers}
      (statement : c.statement = .getOldestFit)
      (split : chains.waiting = left ++ entry :: right)
      (fits : FitsAt (processAt c.processList) chains.nodes entry.2) :
      CreationMove c chains (.proceed reading clk pid)
        { c with waiting := pointers, statement := .getSmallestBlock entry.2 }
        { chains with waiting := left ++ right }
  | found {reading clk pid : Int} {p : Nat} {process : Process}
      {node : Addr × Tile} (statement : c.statement = .getSmallestBlock p)
      (read : c.processList[p]? = some process)
      (best : Best process.memorySize chains.nodes (some node)) :
      CreationMove c chains (.proceed reading clk pid)
        { c with statement := .allocate p node.1 } chains
  | gaveUp {reading clk pid : Int} {p : Nat} {process : Process}
      (statement : c.statement = .getSmallestBlock p)
      (read : c.processList[p]? = some process)
      (unfit : Best process.memorySize chains.nodes none) :
      CreationMove c chains (.proceed reading clk pid)
        { c with statement := .getOldestFit, dropped := c.dropped ++ [p] }
        chains
  | allocated {reading clk pid : Int} {p : Nat} {fit : Addr} {process : Process}
      {manager : MemoryManager} {block : Option Addr}
      {nodes : List (Addr × Tile)} (statement : c.statement = .allocate p fit)
      (read : c.processList[p]? = some process)
      (run : allocateProcessMemory c.manager process.memorySize =
        .ok (manager, block))
      (same : ∀ node, Best process.memorySize chains.nodes (some node) →
        block = some node.1)
      (live : ∀ node, Best process.memorySize chains.nodes (some node) →
        node.1 ∈ addrs nodes) :
      CreationMove c chains (.proceed reading clk pid)
        { c with manager := manager, statement := .forkAndSend p fit }
        { chains with nodes := nodes }
  | handedOver {reading clk pid : Int} {p : Nat} {fit : Addr} {process : Process}
      {manager : MemoryManager} {posted : List PCB}
      (statement : c.statement = .forkAndSend p fit)
      (read : c.processList[p]? = some process)
      (posts : Posted pid process posted)
      (assigns : Assigns c.manager clk pid process fit manager) :
      CreationMove c chains (.proceed reading clk pid)
        { c.afterHandover manager pid p posted with
          statement := .getOldestFit }
        chains
  | noneLeft {reading clk pid : Int} (statement : c.statement = .arrivalTest)
      (none : c.processList[c.i]? = none) :
      CreationMove c chains (.proceed reading clk pid)
        { c with statement := .loopTest } chains
  | passed {reading clk pid : Int} {process : Process}
      (statement : c.statement = .arrivalTest)
      (read : c.processList[c.i]? = some process)
      (other : reading ≠ process.arrivalTime) :
      CreationMove c chains (.proceed reading clk pid)
        { c with clock := reading, statement := .loopTest } chains
  | queued {reading clk pid : Int} {process : Process}
      {pointers : WaitingPointers} {a : Addr}
      (statement : c.statement = .arrivalTest)
      (read : c.processList[c.i]? = some process)
      (due : reading = process.arrivalTime) :
      CreationMove c chains (.proceed reading clk pid)
        { c.afterAdmission reading with
          waiting := pointers, statement := .loopTest }
        { chains with waiting := chains.waiting ++ [(a, c.i)] }
  | admitted {reading clk pid : Int} {process : Process}
      {heap : Mem Block} {block : Addr} {manager : MemoryManager}
      {nodes : List (Addr × Tile)} {posted : List PCB}
      (statement : c.statement = .arrivalTest)
      (read : c.processList[c.i]? = some process)
      (due : reading = process.arrivalTime)
      (run : allocateProcessMemory c.manager process.memorySize =
        .ok ({ c.manager with heap := heap }, some block))
      (assigns : Assigns { c.manager with heap := heap } clk pid process block
        manager)
      (posts : Posted pid process posted) :
      CreationMove c chains (.proceed reading clk pid)
        { (c.afterAdmission reading).afterHandover manager pid c.i posted with
          statement := .loopTest }
        { chains with nodes := nodes }

/-- The list of processes is never written to. -/
theorem CreationMove.processList {c next : Creation} {chains chains' : Chains}
    {event : CreationEvent} (move : CreationMove c chains event next chains') :
    next.processList = c.processList := by
  cases move <;> rfl

namespace InOrder

variable {c next : Creation} {chains : Chains}

/-- What the waiting list holds is what following its pointers yields. -/
theorem pointers_eq {waiting : WaitingPointers} {nodes : List (Addr × Nat)}
    (listAt : ListAt waiting.heap waiting.list nodes) :
    waiting.pointers = .ok (nodes.map Prod.snd) := by
  rw [WaitingPointers.pointers, listAt.head,
    listAt.linked.follow_eq (Nat.le_refl _)]
  rfl

/-- The size of the waiting list tells whether a process waits. -/
theorem size_ne_zero_iff (inOrder : InOrder c chains) :
    c.waiting.list.size ≠ 0 ↔ chains.waiting ≠ [] := by
  rw [inOrder.listAt.size, Ne, Int.natCast_eq_zero, List.length_eq_zero_iff]

/-- Only the statement and what the other statements do not read have changed. -/
theorem congr (inOrder : InOrder c chains) (manager : next.manager = c.manager)
    (waiting : next.waiting = c.waiting)
    (list : next.processList = c.processList) (i : next.i = c.i)
    (processed : next.processed = c.processed)
    (inHand : ∀ p ∈ next.statement.inHand, p < c.processList.length) :
    InOrder next chains where
  usable := manager ▸ inOrder.usable
  listAt := waiting ▸ inOrder.listAt
  waiting := list ▸ inOrder.waiting
  inHand := list ▸ inHand
  reached := by
    rw [list, i]
    exact inOrder.reached
  processed := by
    rw [list, i, processed]
    exact inOrder.processed

/-- A call of `fork_and_send` for a process from the waiting list. -/
theorem handover_move (inOrder : InOrder c chains) {p : Nat} {fit : Addr}
    (statement : c.statement = .forkAndSend p fit) {reading clk pid : Int}
    (run : c.proceed reading clk pid = .ok next) :
    CreationMove c chains (.proceed reading clk pid) next chains ∧
      InOrder next chains := by
  rw [Creation.proceed] at run
  simp only [statement] at run
  obtain ⟨after, sent, run⟩ := bind_eq_ok.mp run
  rw [pure_eq_ok, Except.ok.injEq] at run
  obtain ⟨process, manager, posted, read, usable, posts, assigns, same⟩ :=
    Creation.forkAndSend_eq inOrder.usable sent
  subst same
  rw [← run]
  exact ⟨.handedOver statement read posts assigns, usable, inOrder.listAt,
    inOrder.waiting, by simp [CreationStatement.inHand], inOrder.reached,
    inOrder.processed⟩

/-- The arrival test, with the step back to the loop test. -/
theorem arrival_move (inOrder : InOrder c chains)
    (statement : c.statement = .arrivalTest) (reading clk pid : Int) :
    ∃ next chains', c.proceed reading clk pid = .ok next ∧
      CreationMove c chains (.proceed reading clk pid) next chains' ∧
      InOrder next chains' := by
  rw [Creation.proceed]
  simp only [statement]
  rcases inOrder.arrivalTest reading clk pid with
    ⟨none, run⟩ | ⟨process, read, ⟨other, run⟩ | ⟨due, rest⟩⟩
  · rw [run]
    exact ⟨_, chains, rfl, .noneLeft statement none,
      inOrder.congr rfl rfl rfl rfl rfl (by simp [CreationStatement.inHand])⟩
  · rw [run]
    exact ⟨_, chains, rfl, .passed statement read other,
      inOrder.congr rfl rfl rfl rfl rfl (by simp [CreationStatement.inHand])⟩
  · obtain ⟨left, _⟩ := List.getElem?_eq_some_iff.mp read
    rcases rest with
      ⟨_, pointers, a, run, listAt⟩ | ⟨heap, block, manager, nodes, posted,
        allocated, assigns, usable, posts, run⟩
    · rw [run]
      refine ⟨_, _, rfl, .queued statement read due, inOrder.usable, listAt, ?_,
        by simp [CreationStatement.inHand], left, inOrder.mark left⟩
      intro entry member
      rcases List.mem_append.mp member with old | new
      · exact inOrder.waiting entry old
      · rw [List.mem_singleton.mp new]
        exact left
    · rw [run]
      exact ⟨_, _, rfl, .admitted statement read due allocated assigns posts,
        usable, inOrder.listAt, inOrder.waiting,
        by simp [CreationStatement.inHand], left, inOrder.mark left⟩

/-- The search of the waiting list, which takes out what it finds. -/
theorem oldest_move (inOrder : InOrder c chains)
    (statement : c.statement = .getOldestFit) (reading clk pid : Int) :
    ∃ next chains', c.proceed reading clk pid = .ok next ∧
      CreationMove c chains (.proceed reading clk pid) next chains' ∧
      InOrder next chains' := by
  rw [Creation.proceed]
  simp only [statement]
  rcases oldestFit_spec inOrder.usable.intact.blocks inOrder.listAt
      inOrder.readable with
    ⟨run, unfit⟩ | ⟨heap', list', left, entry, right, run, split, _, fits,
      listAt⟩
  · simp only [run, ok_bind]
    exact ⟨_, chains, rfl, .drained statement unfit,
      inOrder.congr rfl rfl rfl rfl rfl
        (by simp [CreationStatement.inHand])⟩
  · simp only [run, ok_bind]
    refine ⟨_, _, rfl, .taken statement split fits,
      inOrder.usable, listAt, ?_, ?_, inOrder.reached, inOrder.processed⟩
    · intro other member
      apply inOrder.waiting other
      rw [split]
      simp only [List.mem_append, List.mem_cons] at member ⊢
      rcases member with inLeft | inRight
      · exact Or.inl inLeft
      · exact Or.inr (Or.inr inRight)
    · intro p member
      rw [List.mem_singleton.mp member]
      exact inOrder.waiting entry (by simp [split])

/-- The search for a block, for a process from the waiting list. -/
theorem search_move (inOrder : InOrder c chains) {p : Nat}
    (statement : c.statement = .getSmallestBlock p) (reading clk pid : Int) :
    ∃ next chains', c.proceed reading clk pid = .ok next ∧
      CreationMove c chains (.proceed reading clk pid) next chains' ∧
      InOrder next chains' := by
  have inside : p < c.processList.length :=
    inOrder.inHand p (by simp [statement, CreationStatement.inHand])
  have read := List.getElem?_eq_getElem inside
  obtain ⟨best, search, isBest⟩ := getSmallestBlockAvailable_spec
    inOrder.usable.intact.blocks c.processList[p].memorySize
  rw [Creation.proceed]
  simp only [statement, processAt_eq_ok.mpr read, ok_bind,
    OsSim.getSmallestBlock, search]
  cases best with
  | none =>
      exact ⟨_, chains, rfl, .gaveUp statement read isBest,
        inOrder.congr rfl rfl rfl rfl rfl
          (by simp [CreationStatement.inHand])⟩
  | some node =>
      exact ⟨_, chains, rfl, .found statement read isBest,
        inOrder.congr rfl rfl rfl rfl rfl
          (by simpa [CreationStatement.inHand] using inside)⟩

/-- The allocation for a process from the waiting list. -/
theorem allocate_move (inOrder : InOrder c chains) {p : Nat} {fit : Addr}
    (statement : c.statement = .allocate p fit) (reading clk pid : Int) :
    ∃ next chains', c.proceed reading clk pid = .ok next ∧
      CreationMove c chains (.proceed reading clk pid) next chains' ∧
      InOrder next chains' := by
  have inside : p < c.processList.length :=
    inOrder.inHand p (by simp [statement, CreationStatement.inHand])
  have read := List.getElem?_eq_getElem inside
  rw [Creation.proceed]
  simp only [statement, processAt_eq_ok.mpr read, ok_bind]
  rcases inOrder.usable.allocate c.processList[p].memorySize with
    ⟨run, none⟩ | ⟨node, heap', nodes', best, run, usable, inside'⟩
  · rw [run]
    refine ⟨_, chains, rfl, .allocated statement read run ?_ ?_,
      inOrder.congr rfl rfl rfl rfl rfl
        (by simpa [CreationStatement.inHand] using inside)⟩
    · intro other best
      cases none.unique best
    · intro other best
      cases none.unique best
  · rw [run]
    refine ⟨_, _, rfl, .allocated statement read run ?_ ?_, usable,
      inOrder.listAt, inOrder.waiting,
      by simpa [CreationStatement.inHand] using inside, inOrder.reached,
      inOrder.processed⟩
    · intro other best'
      cases best.unique best'
      rfl
    · intro other best'
      cases best.unique best'
      exact inside'

/-- Every statement returns, provided `fork_and_send` is not given a block that
has been released. -/
theorem proceed_total (inOrder : InOrder c chains) (reading clk pid : Int)
    (live : ∀ p fit, c.statement = .forkAndSend p fit →
      fit ∈ addrs chains.nodes) :
    ∃ next chains', c.proceed reading clk pid = .ok next ∧
      CreationMove c chains (.proceed reading clk pid) next chains' ∧
      InOrder next chains' := by
  cases statement : c.statement with
  | loopTest =>
      rw [Creation.proceed]
      simp only [statement, inOrder.size_ne_zero_iff]
      split
      next more =>
        exact ⟨_, chains, rfl, .continued statement more.1 more.2,
          inOrder.congr rfl rfl rfl rfl rfl
            (by simp [CreationStatement.inHand])⟩
      next stops =>
        exact ⟨_, chains, rfl, .finished statement stops,
          inOrder.congr rfl rfl rfl rfl rfl
            (by simp [CreationStatement.inHand])⟩
  | getOldestFit => exact inOrder.oldest_move statement reading clk pid
  | getSmallestBlock p => exact inOrder.search_move statement reading clk pid
  | allocate p fit => exact inOrder.allocate_move statement reading clk pid
  | forkAndSend p fit =>
      have inside : p < c.processList.length :=
        inOrder.inHand p (by simp [statement, CreationStatement.inHand])
      obtain ⟨after, sent⟩ := Creation.forkAndSend_total inOrder.usable clk pid
        inside (live p fit statement)
      have run : c.proceed reading clk pid =
          .ok { after with statement := .getOldestFit } := by
        rw [Creation.proceed]
        simp only [statement, sent, ok_bind, pure_eq_ok]
      obtain ⟨move, kept⟩ := inOrder.handover_move statement run
      exact ⟨_, chains, run, move, kept⟩
  | arrivalTest => exact inOrder.arrival_move statement reading clk pid
  | finished =>
      refine ⟨c, chains, ?_, .rested statement, inOrder⟩
      simp only [Creation.proceed, statement]
  | exited =>
      refine ⟨c, chains, ?_, .ended statement, inOrder⟩
      simp only [Creation.proceed, statement]

/-- Every event that does not touch a released block is one of the moves, and
keeps the state in order. -/
theorem move (inOrder : InOrder c chains) {event : CreationEvent}
    (run : c.step event = .ok next) :
    ∃ chains', CreationMove c chains event next chains' ∧
      InOrder next chains' := by
  unfold Creation.step at run
  by_cases exited : c.statement = .exited
  · rw [if_pos exited, Except.ok.injEq] at run
    exact ⟨chains, run ▸ .ended exited, run ▸ inOrder⟩
  · rw [if_neg exited] at run
    cases event with
    | exit clk pid =>
        obtain ⟨manager, nodes, usable, _, same⟩ :=
          Creation.handleChildExit_eq inOrder.usable run
        subst same
        exact ⟨_, .reaped exited run, usable, inOrder.listAt, inOrder.waiting,
          inOrder.inHand, inOrder.reached, inOrder.processed⟩
    | interrupt =>
        simp only [Except.ok.injEq] at run
        rw [← run]
        exact ⟨chains, .interrupted exited,
          inOrder.congr rfl rfl rfl rfl rfl
            (by simp [CreationStatement.inHand])⟩
    | proceed reading clk pid =>
        by_cases hands : ∃ p fit, c.statement = .forkAndSend p fit
        · obtain ⟨p, fit, statement⟩ := hands
          obtain ⟨move, kept⟩ := inOrder.handover_move statement run
          exact ⟨chains, move, kept⟩
        · obtain ⟨next', chains', run', move, kept⟩ :=
            inOrder.proceed_total reading clk pid
              (fun p fit statement => absurd ⟨p, fit, statement⟩ hands)
          have same : next' = next := Except.ok.inj (run'.symm.trans run)
          exact ⟨chains', same ▸ move, same ▸ kept⟩

end InOrder

end OsSim
