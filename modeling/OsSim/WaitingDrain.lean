/-
Module: OsSim.WaitingDrain
Purpose: The loop of `create_processes` that drains the waiting list serves it
  greedily, oldest process first.
Trusted boundary: human-reviewed translation
Main exports:
  grantMemory, Drain, Drain.step, DrainAt, waiting_list_drained_greedily
-/
import OsSim.HashMapRuns
import OsSim.Library.Greedy
import OsSim.WaitingServed

namespace OsSim

open PointerMemory
open DoublyLinked
open Trace
open Greedy

/-- What the reference does for one waiting process: `allocate_memory` for its
size, with the heap and the block if it succeeds. -/
def grantMemory (processList : List Process) (state : BuddyHeap)
    (entry : Addr × Nat) : Option (BuddyHeap × Addr) :=
  match processList[entry.2]? with
  | none => none
  | some process =>
      match allocateMemory state.heap state.memory process.memorySize with
      | .ok (heap, some block) => some ({ state with heap := heap }, block)
      | .ok (_, none) | .error _ => none

/-- The process generator in the loop that drains the waiting list, with the
processes handed to `fork_and_send` so far, each with its block. -/
structure Drain where
  creation : Creation
  sent : List (Nat × Addr)
deriving Repr, DecidableEq

/-- The statements of that loop. -/
def CreationStatement.draining : CreationStatement → Bool
  | .getOldestFit | .getSmallestBlock _ | .allocate _ _ | .forkAndSend _ _ =>
      true
  | .loopTest | .arrivalTest | .finished | .exited => false

namespace Drain

/-- The next statement of the loop, if it has not ended. -/
def step (d : Drain) (event : CreationEvent) : Except Fault Drain :=
  if d.creation.statement.draining then do
    let next ← d.creation.step event
    let passed := match d.creation.statement with
      | .forkAndSend p fit => [(p, fit)]
      | _ => []
    pure { creation := next, sent := d.sent ++ passed }
  else
    pure d

end Drain

/-- A statement that is performed, with a `fork` that succeeds. -/
def CreationEvent.Succeeds : CreationEvent → Prop
  | .proceed _ _ pid => pid ≠ -1
  | .exit _ _ | .interrupt => False

instance : ∀ event : CreationEvent, Decidable event.Succeeds
  | .proceed _ _ _ => inferInstanceAs (Decidable (_ ≠ _))
  | .exit _ _ | .interrupt => inferInstanceAs (Decidable False)

theorem CreationEvent.Succeeds.proceeds {event : CreationEvent}
    (succeeds : event.Succeeds) :
    ∃ reading clk pid, event = .proceed reading clk pid ∧ pid ≠ -1 := by
  cases event with
  | proceed reading clk pid => exact ⟨reading, clk, pid, rfl, succeeds⟩
  | exit | interrupt => cases succeeds

/-! ### The heap -/

/-- A history of allocations and deallocations leaves the block list intact. -/
theorem BuddyHeap.Reachable.intact {state : BuddyHeap}
    (reachable : state.Reachable) :
    ∃ nodes, Intact state.heap state.memory nodes := by
  obtain ⟨calls, _, run⟩ := reachable
  refine invariant_of_steps
    (P := fun s : BuddyHeap => ∃ nodes, Intact s.heap s.memory nodes)
    ?_ ⟨_, Intact.initial⟩ run
  rintro s (size | block) next ⟨nodes, intact⟩ called
  · obtain ⟨⟨heap, found⟩, taken, ends⟩ := bind_eq_ok.mp called
    simp only [pure_eq_ok, Except.ok.injEq] at ends
    rw [← ends]
    rcases intact.allocate size with
      ⟨run, _⟩ | ⟨node, heap', nodes', _, run, intact', _⟩
    · rw [run, Except.ok.injEq, Prod.mk.injEq] at taken
      exact ⟨nodes, taken.1 ▸ intact⟩
    · rw [run, Except.ok.injEq, Prod.mk.injEq] at taken
      exact ⟨nodes', taken.1 ▸ intact'⟩
  · obtain ⟨heap, given, ends⟩ := bind_eq_ok.mp called
    rw [pure_eq_ok, Except.ok.injEq] at ends
    rw [← ends]
    exact intact.deallocate given

/-! ### One round

The reference knows nothing of pointers: it takes the earliest process of a list
that an allocation succeeds for, and repeats that.  One round of the loop does the
same in three calls.  The search and the allocation agree on the block because
nothing happens to the heap in between, and as each round takes one process out
of the list, the loop ends.
-/

namespace Drain

variable {c next : Creation} {event : CreationEvent}

/-- A statement of the loop before the handover. -/
theorem step_before (draining : c.statement.draining = true)
    (before : ∀ p fit, c.statement ≠ .forkAndSend p fit)
    (run : c.step event = .ok next) (sent : List (Nat × Addr)) :
    step { creation := c, sent := sent } event =
      .ok { creation := next, sent := sent } := by
  rw [step, if_pos draining, run, ok_bind]
  cases statement : c.statement with
  | forkAndSend p fit => exact absurd statement (before p fit)
  | _ => simp only [pure_eq_ok, List.append_nil]

theorem step_handover {p : Nat} {fit : Addr}
    (statement : c.statement = .forkAndSend p fit)
    (run : c.step event = .ok next) (sent : List (Nat × Addr)) :
    step { creation := c, sent := sent } event =
      .ok { creation := next, sent := sent ++ [(p, fit)] } := by
  have draining : c.statement.draining = true := by rw [statement]; rfl
  rw [step, if_pos draining, run, ok_bind, statement]
  rfl

/-- The loop that has ended stays so. -/
theorem runs_ended {d : Drain} (ended : d.creation.statement.draining = false)
    (events : List CreationEvent) : runs step d events = .ok d := by
  induction events with
  | nil => rfl
  | cons event events ih =>
      refine runs_cons_ok.mpr ⟨d, ?_, ih⟩
      rw [step, if_neg (by simp [ended])]
      rfl

end Drain

/-- What the loop needs: a usable memory manager, and a waiting list of processes
that ask for at least one byte. -/
structure DrainAt (c : Creation) (nodes : List (Addr × Tile))
    (waiting : List (Addr × Nat)) : Prop where
  usable : Usable c.manager nodes
  buddy : BuddyInvariant c.manager.buddy nodes
  listAt : ListAt c.waiting.heap c.waiting.list waiting
  sized : ∀ entry ∈ waiting, ∃ process,
    c.processList[entry.2]? = some process ∧ 1 ≤ process.memorySize

namespace DrainAt

variable {c : Creation} {nodes : List (Addr × Tile)}
  {waiting : List (Addr × Nat)}

/-- The pointers in the waiting list can be followed. -/
theorem readable (drainAt : DrainAt c nodes waiting) :
    ∀ entry ∈ waiting,
      ∃ process, processAt c.processList entry.2 = .ok process := by
  intro entry member
  obtain ⟨process, read, _⟩ := drainAt.sized entry member
  exact ⟨process, processAt_eq_ok.mpr read⟩

/-- The reference grants a waiting process memory exactly if some free block
fits, and then the block that a search finds. -/
theorem grant_cases (drainAt : DrainAt c nodes waiting) {entry : Addr × Nat}
    (member : entry ∈ waiting) :
    (¬ FitsAt (processAt c.processList) nodes entry.2 ∧
        grantMemory c.processList c.manager.buddy entry = none) ∨
      ∃ process node heap nodes', c.processList[entry.2]? = some process ∧
        Best process.memorySize nodes (some node) ∧
        allocateProcessMemory c.manager process.memorySize =
          .ok ({ c.manager with heap := heap }, some node.1) ∧
        grantMemory c.processList c.manager.buddy entry =
          some ({ c.manager.buddy with heap := heap }, node.1) ∧
        Usable { c.manager with heap := heap } nodes' ∧
        BuddyInvariant { c.manager.buddy with heap := heap } nodes' ∧
        node.1 ∈ addrs nodes' := by
  obtain ⟨process, read, positive⟩ := drainAt.sized entry member
  rcases drainAt.usable.allocate process.memorySize with
    ⟨run, none⟩ | ⟨node, heap, nodes', best, run, usable, live⟩
  · left
    obtain ⟨heap', taken, same⟩ := allocateProcessMemory_inv run
    constructor
    · rintro ⟨process', read', room⟩
      have equal := (processAt_eq_ok.mp read').symm.trans read
      obtain rfl := Option.some.inj equal
      exact absurd room (not_fits_iff.mpr none)
    · have taken' : allocateMemory c.manager.buddy.heap c.manager.buddy.memory
          process.memorySize = .ok (heap', Option.none) := taken
      simp only [grantMemory, read, taken']
  · right
    obtain ⟨heap', taken, same⟩ := allocateProcessMemory_inv run
    have equal : heap = heap' := congrArg MemoryManager.heap same
    subst equal
    obtain ⟨after, buddy, _⟩ :=
      drainAt.buddy.allocateProcessMemory positive run
    have one : nodes' = after := usable.intact.blocks.unique buddy.blocks
    have taken' : allocateMemory c.manager.buddy.heap c.manager.buddy.memory
        process.memorySize = .ok (heap, some node.1) := taken
    refine ⟨process, node, heap, nodes', read, best, run, ?_, usable,
      one ▸ buddy, live⟩
    simp only [grantMemory, read, taken']

/-- Where a free block fits, the reference grants memory. -/
theorem grants (drainAt : DrainAt c nodes waiting) {entry : Addr × Nat}
    (member : entry ∈ waiting)
    (fits : FitsAt (processAt c.processList) nodes entry.2) :
    ∃ granted,
      grantMemory c.processList c.manager.buddy entry = some granted := by
  rcases drainAt.grant_cases member with
    ⟨unfit, _⟩ | ⟨_, _, _, _, _, _, _, granted, _⟩
  · exact absurd fits unfit
  · exact ⟨_, granted⟩

/-- The search of the waiting list.  It finds nobody, and the loop ends, when the
reference grants nobody memory; else it takes the earliest process that the
reference grants memory. -/
theorem search (drainAt : DrainAt c nodes waiting)
    (calls : c.statement = .getOldestFit) (reading clk pid : Int) :
    ((∀ entry ∈ waiting,
        grantMemory c.processList c.manager.buddy entry = none) ∧
      c.step (.proceed reading clk pid) =
        .ok { c with statement := .arrivalTest }) ∨
    ∃ left entry right pointers, waiting = left ++ entry :: right ∧
      (∀ older ∈ left,
        grantMemory c.processList c.manager.buddy older = none) ∧
      FitsAt (processAt c.processList) nodes entry.2 ∧
      c.step (.proceed reading clk pid) =
        .ok { c with
          waiting := pointers, statement := .getSmallestBlock entry.2 } ∧
      ListAt pointers.heap pointers.list (left ++ right) := by
  have refused : ∀ entry ∈ waiting,
      ¬ FitsAt (processAt c.processList) nodes entry.2 →
      grantMemory c.processList c.manager.buddy entry = none := by
    intro entry member unfit
    rcases drainAt.grant_cases member with
      ⟨_, none⟩ | ⟨process, node, _, _, read, best, _⟩
    · exact none
    · exact absurd ⟨process, processAt_eq_ok.mpr read, best.fits.2⟩ unfit
  rcases oldestFit_spec drainAt.usable.intact.blocks drainAt.listAt
      drainAt.readable with
    ⟨run, unfit⟩ | ⟨heap, list, left, entry, right, run, split, older, fits,
      listAt⟩
  · refine Or.inl ⟨fun entry member => refused entry member (unfit entry member),
      ?_⟩
    simp only [Creation.step, calls, reduceCtorEq, if_false, Creation.proceed,
      run, ok_bind, pure_eq_ok]
  · refine Or.inr ⟨left, entry, right, { heap := heap, list := list }, split, ?_,
      fits, ?_, listAt⟩
    · intro other member
      exact refused other (by simp [split, member]) (older other member)
    · simp only [Creation.step, calls, reduceCtorEq, if_false,
        Creation.proceed, run, ok_bind, pure_eq_ok]

/-- The handover of a block that has not been released. -/
theorem handsOver {c : Creation} {nodes : List (Addr × Tile)} {p : Nat}
    {process : Process} {fit : Addr} (usable : Usable c.manager nodes)
    (statement : c.statement = .forkAndSend p fit)
    (read : c.processList[p]? = some process) (live : fit ∈ addrs nodes)
    {reading clk pid : Int} (forks : pid ≠ -1) :
    ∃ manager pcb, c.step (.proceed reading clk pid) =
        .ok { c.afterHandover manager pid p [pcb] with
          statement := .getOldestFit } ∧
      Usable manager nodes ∧ manager.buddy = c.manager.buddy ∧
      pcb.pdata = process := by
  obtain ⟨inside, _⟩ := List.getElem?_eq_some_iff.mp read
  obtain ⟨next, sent⟩ :=
    Creation.forkAndSend_total usable clk pid inside live
  obtain ⟨process', manager, posted, read', usable', posts, assigns, same⟩ :=
    Creation.forkAndSend_eq usable sent
  obtain rfl : process' = process := Option.some.inj (read'.symm.trans read)
  obtain ⟨pcb, assigned⟩ := assigns forks
  cases posts with
  | failed failed => exact absurd failed forks
  | sent _ found =>
      refine ⟨manager, { newPcb pid process' with memoryBlock := found }, ?_,
        usable', buddy_assign assigned, rfl⟩
      simp only [Creation.step, statement, reduceCtorEq, if_false,
        Creation.proceed, sent, ok_bind, pure_eq_ok, same]

/-- One round of the loop: the process that was found is handed over with the
block that the reference gives it. -/
theorem round (drainAt : DrainAt c nodes waiting)
    {left right : List (Addr × Nat)} {entry : Addr × Nat}
    {pointers : WaitingPointers} (split : waiting = left ++ entry :: right)
    (fits : FitsAt (processAt c.processList) nodes entry.2)
    (listAt : ListAt pointers.heap pointers.list (left ++ right))
    {searched second third fourth : CreationEvent}
    (calls : c.statement = .getOldestFit)
    (found : c.step searched = .ok { c with
      waiting := pointers, statement := .getSmallestBlock entry.2 })
    (secondOk : second.Succeeds) (thirdOk : third.Succeeds)
    (fourthOk : fourth.Succeeds) (sent : List (Nat × Addr)) :
    ∃ state block next nodes' pcb,
      grantMemory c.processList c.manager.buddy entry = some (state, block) ∧
      runs Drain.step { creation := c, sent := sent }
        [searched, second, third, fourth] =
          .ok { creation := next, sent := sent ++ [(entry.2, block)] } ∧
      next.statement = .getOldestFit ∧ next.manager.buddy = state ∧
      next.processList = c.processList ∧
      DrainAt next nodes' (left ++ right) ∧
      next.messages = c.messages ++ [pcb] ∧
      c.processList[entry.2]? = some pcb.pdata := by
  have member : entry ∈ waiting := by simp [split]
  rcases drainAt.grant_cases member with
    ⟨unfit, _⟩ | ⟨process, node, heap, nodes', read, best, allocated, granted,
      usable, buddy, live⟩
  · exact absurd fits unfit
  obtain ⟨_, _, _, rfl, _⟩ := secondOk.proceeds
  obtain ⟨_, _, _, rfl, _⟩ := thirdOk.proceeds
  obtain ⟨_, _, pid, rfl, forks⟩ := fourthOk.proceeds
  obtain ⟨best', lookup, isBest⟩ := getSmallestBlockAvailable_spec
    drainAt.usable.intact.blocks process.memorySize
  have same : best' = some node := isBest.unique best
  rw [same, Option.map_some] at lookup
  let taken : Creation := { c with
    waiting := pointers, statement := .getSmallestBlock entry.2 }
  let chosen : Creation := { taken with statement := .allocate entry.2 node.1 }
  let ready : Creation := { taken with
    manager := { c.manager with heap := heap }
    statement := .forkAndSend entry.2 node.1 }
  have choose : ∀ reading clk pid,
      taken.step (.proceed reading clk pid) = .ok chosen := by
    intro reading clk pid
    simp only [taken, chosen, Creation.step, reduceCtorEq, if_false,
      Creation.proceed, processAt_eq_ok.mpr read, ok_bind,
      OsSim.getSmallestBlock, lookup, pure_eq_ok]
  have allocate : ∀ reading clk pid,
      chosen.step (.proceed reading clk pid) = .ok ready := by
    intro reading clk pid
    simp only [taken, chosen, ready, Creation.step, reduceCtorEq, if_false,
      Creation.proceed, processAt_eq_ok.mpr read, ok_bind, allocated,
      pure_eq_ok]
  obtain ⟨manager, pcb, handed, usable', sameBuddy, data⟩ :=
    handsOver (c := ready) usable rfl read live forks
  refine ⟨{ c.manager.buddy with heap := heap }, node.1,
    { ready.afterHandover manager pid entry.2 [pcb] with
      statement := .getOldestFit }, nodes', pcb, granted, ?_, rfl, sameBuddy, rfl,
    ⟨usable', ?_, listAt, ?_⟩, rfl, data ▸ read⟩
  · refine runs_cons_ok.mpr ⟨{ creation := taken, sent := sent }, ?_,
      runs_cons_ok.mpr ⟨{ creation := chosen, sent := sent }, ?_,
        runs_cons_ok.mpr ⟨{ creation := ready, sent := sent }, ?_,
          runs_cons_ok.mpr ⟨_, ?_, rfl⟩⟩⟩⟩
    · exact Drain.step_before (by rw [calls]; rfl) (by simp [calls]) found sent
    · exact Drain.step_before rfl (by simp [taken]) (choose _ _ _) sent
    · exact Drain.step_before rfl (by simp [chosen]) (allocate _ _ _) sent
    · exact Drain.step_handover rfl handed sent
  · have equal : manager.buddy = { c.manager.buddy with heap := heap } :=
      sameBuddy
    show BuddyInvariant manager.buddy nodes'
    rw [equal]
    exact buddy
  · intro other waits
    apply drainAt.sized other
    rw [split]
    rcases List.mem_append.mp waits with inLeft | inRight
    · exact List.mem_append_left _ inLeft
    · exact List.mem_append_right _ (List.mem_cons_of_mem _ inRight)

/-- The loop has ended in `d`, and has done to `c` what the reference does. -/
structure Drained (c : Creation) (sent : List (Nat × Addr))
    (outcome : Outcome BuddyHeap (Addr × Nat) Addr) (d : Drain) : Prop where
  ended : d.creation.statement = .arrivalTest
  sent : d.sent = sent ++ outcome.served.map (fun each => (each.1.2, each.2))
  heap : d.creation.manager.buddy = outcome.final
  list : d.creation.processList = c.processList
  rest : ∃ nodes, DrainAt d.creation nodes outcome.rest
  messages : d.creation.messages.map (fun pcb => some pcb.pdata) =
    c.messages.map (fun pcb => some pcb.pdata) ++
      outcome.served.map (fun each => c.processList[each.1.2]?)

/-- Where the reference serves nobody, the loop ends at its first search. -/
theorem drained_none (drainAt : DrainAt c nodes waiting) {first : CreationEvent}
    (calls : c.statement = .getOldestFit)
    (found : c.step first = .ok { c with statement := .arrivalTest })
    (events : List CreationEvent) (sent : List (Nat × Addr)) :
    ∃ d, runs Drain.step { creation := c, sent := sent } (first :: events) =
        .ok d ∧
      Drained c sent
        { served := [], rest := waiting, final := c.manager.buddy } d := by
  refine ⟨{ creation := { c with statement := .arrivalTest }, sent := sent },
    runs_cons_ok.mpr ⟨_, ?_, Drain.runs_ended rfl events⟩, rfl, ?_, rfl, rfl,
    ⟨nodes, drainAt.usable, drainAt.buddy, drainAt.listAt, drainAt.sized⟩, ?_⟩
  · exact Drain.step_before (by rw [calls]; rfl) (by simp [calls]) found sent
  · rw [List.map_nil, List.append_nil]
  · rw [List.map_nil, List.append_nil]

/-- A round and the rest of the loop. -/
theorem Drained.cons {next : Creation} {sent : List (Nat × Addr)}
    {entry : Addr × Nat} {block : Addr} {pcb : PCB}
    {outcome : Outcome BuddyHeap (Addr × Nat) Addr} {d : Drain}
    (drained : Drained next (sent ++ [(entry.2, block)]) outcome d)
    (list : next.processList = c.processList)
    (messages : next.messages = c.messages ++ [pcb])
    (read : c.processList[entry.2]? = some pcb.pdata) :
    Drained c sent
      { outcome with served := (entry, block) :: outcome.served } d where
  ended := drained.ended
  sent := by
    rw [drained.sent, List.append_assoc]
    rfl
  heap := drained.heap
  list := drained.list.trans list
  rest := drained.rest
  messages := by
    rw [drained.messages, messages, list, List.map_append, List.append_assoc]
    simp [read]

/-- The loop, with the reference for a bound on the rounds. -/
theorem drained (bound : Nat) {c : Creation} {nodes : List (Addr × Tile)}
    {waiting : List (Addr × Nat)} (drainAt : DrainAt c nodes waiting)
    (enough : waiting.length ≤ bound) (calls : c.statement = .getOldestFit)
    {events : List CreationEvent} (succeed : ∀ event ∈ events, event.Succeeds)
    (sent : List (Nat × Addr))
    (long : 4 * (drain (grantMemory c.processList) bound c.manager.buddy
      waiting).served.length + 1 ≤ events.length) :
    ∃ d, runs Drain.step { creation := c, sent := sent } events = .ok d ∧
      Drained c sent
        (drain (grantMemory c.processList) bound c.manager.buddy waiting) d := by
  induction bound generalizing c nodes waiting events sent with
  | zero =>
      obtain ⟨first, events, rfl⟩ :=
        List.exists_cons_of_length_pos (Nat.lt_of_lt_of_le (Nat.succ_pos _) long)
      obtain ⟨reading, clk, pid, rfl, _⟩ :=
        (succeed first List.mem_cons_self).proceeds
      have empty := List.length_eq_zero_iff.mp (Nat.le_zero.mp enough)
      rcases drainAt.search calls reading clk pid with
        ⟨refused, found⟩ | ⟨left, entry, right, _, split, _⟩
      · exact drainAt.drained_none calls found events sent
      · simp [empty] at split
  | succ bound ih =>
      obtain ⟨first, events, rfl⟩ :=
        List.exists_cons_of_length_pos (Nat.lt_of_lt_of_le (Nat.succ_pos _) long)
      obtain ⟨reading, clk, pid, rfl, _⟩ :=
        (succeed first List.mem_cons_self).proceeds
      rcases drainAt.search calls reading clk pid with
        ⟨refused, found⟩ | ⟨left, entry, right, pointers, split, refused, fits,
          found, listAt⟩
      · rw [drain_nil _ refused]
        exact drainAt.drained_none calls found events sent
      · have member : entry ∈ waiting := by simp [split]
        obtain ⟨⟨state, block⟩, granted⟩ := drainAt.grants member fits
        rw [split, drain_cons bound refused granted] at long ⊢
        rw [List.length_cons, List.length_cons] at long
        obtain ⟨second, third, fourth, events, rfl⟩ :
            ∃ second third fourth rest,
              events = second :: third :: fourth :: rest := by
          match events, long with
          | second :: third :: fourth :: rest, _ =>
            exact ⟨second, third, fourth, rest, rfl⟩
          | [], long | [_], long | [_, _], long =>
            simp only [List.length_nil, List.length_cons] at long
            omega
        obtain ⟨state', block', next, nodes', pcb, granted', run, calls', buddy,
          list, drainAt', messages, read⟩ :=
          drainAt.round split fits listAt calls found
            (succeed second (by simp)) (succeed third (by simp))
            (succeed fourth (by simp)) sent
        have same := granted.symm.trans granted'
        rw [Option.some.injEq, Prod.mk.injEq] at same
        obtain ⟨rfl, rfl⟩ := same
        rw [← list, ← buddy] at long ⊢
        have shorter : (left ++ right).length ≤ bound := by
          rw [split, List.length_append, List.length_cons] at enough
          rw [List.length_append]
          omega
        have later : ∀ event ∈ events, event.Succeeds :=
          fun event inside => succeed event (by simp [inside])
        have enough' : 4 * (drain (grantMemory next.processList) bound
            next.manager.buddy (left ++ right)).served.length + 1 ≤
              events.length := by
          simp only [List.length_cons] at long
          omega
        obtain ⟨d, run', drained⟩ := ih drainAt' shorter calls' later
          (sent ++ [(entry.2, block)]) enough'
        refine ⟨d, ?_, drained.cons list messages read⟩
        exact runs_append_ok.mpr ⟨_, run, run'⟩

end DrainAt

/-- For every reachable heap, every memory map that puts lead to and every
waiting list of processes that ask for at least one byte, the loop that drains
the waiting list ends, and does what the reference does: it sends the same
processes, in the same order and with the same blocks, and leaves the others in
the list as they were, none of which the final heap has a block for. -/
theorem waiting_list_drained_greedily (c : Creation)
    (calls : c.statement = .getOldestFit)
    (reachable : c.manager.buddy.Reachable)
    (puts : List (Int × ProcessMemory))
    (mapped : runs putStep (hashmapCreate ProcessMemory 100) puts =
      .ok c.manager.memoryMap)
    (waiting : List (Addr × Nat))
    (listAt : ListAt c.waiting.heap c.waiting.list waiting)
    (sized : ∀ entry ∈ waiting, ∃ process,
      c.processList[entry.2]? = some process ∧ 1 ≤ process.memorySize)
    (outcome : Outcome BuddyHeap (Addr × Nat) Addr)
    (reference : outcome = drain (grantMemory c.processList) waiting.length
      c.manager.buddy waiting)
    (events : List CreationEvent) (succeed : ∀ event ∈ events, event.Succeeds)
    (long : 4 * outcome.served.length + 1 ≤ events.length) :
    ∃ d, runs Drain.step { creation := c, sent := [] } events = .ok d ∧
      d.creation.statement = .arrivalTest ∧
      d.sent = outcome.served.map (fun each => (each.1.2, each.2)) ∧
      d.creation.messages.map (fun pcb => some pcb.pdata) =
        c.messages.map (fun pcb => some pcb.pdata) ++
          outcome.served.map (fun each => c.processList[each.1.2]?) ∧
      d.creation.manager.buddy = outcome.final ∧
      ListAt d.creation.waiting.heap d.creation.waiting.list outcome.rest ∧
      outcome.rest.Sublist waiting ∧
      ∀ entry ∈ outcome.rest, ∃ process,
        c.processList[entry.2]? = some process ∧
        allocateMemory d.creation.manager.heap d.creation.manager.memory
          process.memorySize = .ok (d.creation.manager.heap, none) := by
  obtain ⟨nodes, intact⟩ := reachable.intact
  obtain ⟨nodes', buddy⟩ := reachable.invariant
  have same : nodes = nodes' := intact.blocks.unique buddy.blocks
  subst same
  obtain ⟨map, run, ⟨held, formed, holds⟩, _⟩ :=
    runs_putStep (by decide : 1 ≤ 100) puts
  obtain rfl : map = c.manager.memoryMap :=
    Except.ok.inj (run.symm.trans mapped)
  have drainAt : DrainAt c nodes waiting :=
    ⟨⟨intact, formed, held, holds⟩, buddy, listAt, sized⟩
  subst reference
  obtain ⟨d, run, drained⟩ := drainAt.drained waiting.length (Nat.le_refl _)
    calls succeed [] long
  obtain ⟨final, drainAt'⟩ := drained.rest
  refine ⟨d, run, drained.ended, drained.sent, drained.messages, drained.heap,
    drainAt'.listAt, drain_sublist _ _ _, ?_⟩
  intro entry waits
  have refused := drain_refused _ _ _ (Nat.le_refl _) entry waits
  rw [← drained.heap, ← drained.list] at refused
  obtain ⟨process, read, _⟩ := drainAt'.sized entry waits
  refine ⟨process, drained.list ▸ read, ?_⟩
  rcases drainAt'.usable.intact.allocate process.memorySize with
    ⟨run, _⟩ | ⟨node, heap, _, _, run, _⟩
  · exact run
  · have taken : allocateMemory d.creation.manager.buddy.heap
        d.creation.manager.buddy.memory process.memorySize =
          .ok (heap, some node.1) := run
    simp only [grantMemory, read, taken] at refused
    cases refused

/-- A process that arrives at time 0. -/
private def earlyJob (id memorySize : Int) : Process :=
  { id := id, arrivalTime := 0, runtime := 1, priority := 0,
    memorySize := memorySize }

/-- The first process gets the whole memory and exits; by then two others wait. -/
private def twoWait : List CreationEvent :=
  List.replicate 9 (.proceed 0 0 101) ++ [.exit 1 101, .proceed 1 1 102]

theorem waiting_list_drained_greedily_two :
    ∃ (c : Creation) (waiting : List (Addr × Nat))
      (outcome : Outcome BuddyHeap (Addr × Nat) Addr) (d : Drain),
      waiting.map Prod.snd = [1, 2] ∧
      outcome = drain (grantMemory c.processList) waiting.length
        c.manager.buddy waiting ∧
      runs Drain.step { creation := c, sent := [] }
        (List.replicate (4 * outcome.served.length + 1) (.proceed 2 2 103)) =
          .ok d ∧
      d.creation.statement = .arrivalTest ∧
      d.sent = outcome.served.map (fun each => (each.1.2, each.2)) := by
  let jobs := [earlyJob 1 1024, earlyJob 2 600, earlyJob 3 300]
  have replay : (do
      let c ← runs Creation.step (.start jobs 0 99 100) twoWait
      pure (decide (c.statement = .getOldestFit ∧ c.processList = jobs ∧
        c.waiting.pointers = .ok [1, 2] ∧
        runs BuddyHeap.call BuddyHeap.init [.allocate 1024, .deallocate 0] =
          .ok c.manager.buddy ∧
        runs putStep (hashmapCreate ProcessMemory 100)
          [(101, { memory := 0, id := 1 })] = .ok c.manager.memoryMap))) =
      Except.ok true := by
    decide +kernel
  obtain ⟨c, run, ends⟩ := bind_eq_ok.mp replay
  simp only [pure_eq_ok, Except.ok.injEq, decide_eq_true_eq] at ends
  obtain ⟨calls, list, pointers, heap, map⟩ := ends
  obtain ⟨chains, inOrder⟩ := invariant_of_steps
    (P := fun c => ∃ chains, InOrder c chains)
    (fun _ _ _ ⟨_, inOrder⟩ stepped => by
      obtain ⟨chains, _, kept⟩ := inOrder.move stepped
      exact ⟨chains, kept⟩)
    ⟨_, InOrder.start jobs 0 99 100⟩ run
  rw [InOrder.pointers_eq inOrder.listAt, Except.ok.injEq] at pointers
  have positive : ∀ process ∈ jobs, 1 ≤ process.memorySize := by decide
  have sized : ∀ entry ∈ chains.waiting, ∃ process,
      c.processList[entry.2]? = some process ∧ 1 ≤ process.memorySize := by
    intro entry member
    have read := List.getElem?_eq_getElem (inOrder.waiting entry member)
    exact ⟨_, read, positive _ (list ▸ List.mem_of_getElem? read)⟩
  obtain ⟨d, run', ended, sent, _⟩ := waiting_list_drained_greedily c calls
    ⟨_, by decide +kernel, heap⟩ _ map chains.waiting inOrder.listAt sized _ rfl
    (List.replicate _ (.proceed 2 2 103))
    (by
      intro event member
      rw [List.eq_of_mem_replicate member]
      decide)
    (by rw [List.length_replicate])
  exact ⟨c, chains.waiting, _, d, pointers, rfl, run', ended, sent⟩

end OsSim
