/-
Module: OsSim.AdmittedOnce
Purpose: Every process is admitted exactly once: between two rounds of the outer
  loop of `create_processes` those below `i` have been passed to `fork_and_send`
  or wait, and none is lost on its way from the waiting list.
Trusted boundary: none
Main exports:
  Creation.BetweenRounds, Admission, Creation.RoundAccounted,
  admission_exactly_once
-/
import OsSim.CreationMoves

namespace OsSim

open PointerMemory
open DoublyLinked
open Trace

namespace Creation

/-- Forks succeed, and child exits are handled between two rounds of the outer
loop, or after it. -/
def BetweenRounds (c : Creation) : CreationEvent → Prop
  | .exit _ _ => c.statement = .loopTest ∨ c.statement = .finished
  | .interrupt => True
  | .proceed _ _ pid => pid ≠ -1

instance (c : Creation) : ∀ event, Decidable (c.BetweenRounds event)
  | .exit _ _ => inferInstanceAs (Decidable (_ ∨ _))
  | .interrupt => inferInstanceAs (Decidable True)
  | .proceed _ _ _ => inferInstanceAs (Decidable (_ ≠ _))

/-- What is known of the process in hand: a block fits it, the block that was
looked up is the one that an allocation takes, or that block is in the list. -/
def Ahead (c : Creation) (chains : Chains) : Prop :=
  match c.statement with
  | .getSmallestBlock p => FitsAt (processAt c.processList) chains.nodes p
  | .allocate p fit => ∃ process node, c.processList[p]? = some process ∧
      Best process.memorySize chains.nodes (some node) ∧ node.1 = fit
  | .forkAndSend _ fit => fit ∈ addrs chains.nodes
  | _ => True

end Creation

/-- The processes below `i` are those handed over, the one in hand and those
waiting, each of them once, and none has been dropped. -/
structure Admission (c : Creation) (chains : Chains) : Prop where
  inOrder : InOrder c chains
  partition : (c.handed ++ (c.statement.inHand ++
    chains.waiting.map Prod.snd)).Perm (List.range c.i)
  ordered : (chains.waiting.map Prod.snd).Pairwise (· < ·)
  kept : c.dropped = []
  posted : c.messages.map (fun pcb => some pcb.pdata) =
    c.handed.map fun p => c.processList[p]?
  ahead : c.Ahead chains
  wanted : c.interrupted = false
  complete : c.statement = .finished →
    c.i = c.processList.length ∧ chains.waiting = []

namespace Admission

variable {c next : Creation} {chains chains' : Chains}

theorem start (processList : List Process) (clock clkPid schPid : Int) :
    Admission (.start processList clock clkPid schPid)
      { nodes :=
          [(initMemory.2, { start := 0, size := maxSize, allocated := 0 })]
        waiting := [] } where
  inOrder := InOrder.start processList clock clkPid schPid
  partition := List.Perm.refl []
  ordered := List.Pairwise.nil
  kept := rfl
  posted := rfl
  ahead := trivial
  wanted := rfl
  complete := by
    intro exited
    cases exited

/-- The waiting processes are below `i`. -/
theorem waiting_lt (admission : Admission c chains) {entry : Addr × Nat}
    (member : entry ∈ chains.waiting) : entry.2 < c.i := by
  have listed : entry.2 ∈ c.handed ++ (c.statement.inHand ++
      chains.waiting.map Prod.snd) := by
    simp only [List.mem_append]
    exact Or.inr (Or.inr (List.mem_map_of_mem member))
  exact List.mem_range.mp (admission.partition.mem_iff.mp listed)

/-- A block fits the process for which the smallest one is looked up. -/
theorem fits (admission : Admission c chains) {p : Nat}
    (statement : c.statement = .getSmallestBlock p) :
    FitsAt (processAt c.processList) chains.nodes p := by
  have ahead := admission.ahead
  simpa only [Creation.Ahead, statement] using ahead

/-- The block that was looked up is the best one for the process. -/
theorem best (admission : Admission c chains) {p : Nat} {fit : Addr}
    (statement : c.statement = .allocate p fit) {process : Process}
    (read : c.processList[p]? = some process) :
    ∃ node, Best process.memorySize chains.nodes (some node) ∧ node.1 = fit := by
  have ahead := admission.ahead
  simp only [Creation.Ahead, statement] at ahead
  obtain ⟨_, node, read', best, same⟩ := ahead
  rw [read, Option.some.injEq] at read'
  exact ⟨node, read' ▸ best, same⟩

/-- A statement that moves no process keeps the account. -/
theorem congr (admission : Admission c chains) (inOrder : InOrder next chains')
    (waiting : chains'.waiting = chains.waiting)
    (handed : next.handed = c.handed) (messages : next.messages = c.messages)
    (inHand : next.statement.inHand = c.statement.inHand)
    (list : next.processList = c.processList) (i : next.i = c.i)
    (dropped : next.dropped = c.dropped)
    (interrupted : next.interrupted = c.interrupted)
    (ahead : next.Ahead chains')
    (complete : next.statement = .finished →
      c.i = c.processList.length ∧ chains.waiting = []) :
    Admission next chains' where
  inOrder := inOrder
  partition := by
    rw [handed, inHand, waiting, i]
    exact admission.partition
  ordered := waiting ▸ admission.ordered
  kept := dropped ▸ admission.kept
  posted := by
    rw [messages, handed, list]
    exact admission.posted
  ahead := ahead
  wanted := interrupted.trans admission.wanted
  complete := by
    rw [i, list, waiting]
    exact complete

/-- Handing over the process in hand, or the next one of the list, moves it to
the end of the processes handed over. -/
theorem posts (admission : Admission c chains) {pid : Int} (forked : pid ≠ -1)
    {p : Nat} {process : Process} {posted : List PCB}
    (read : c.processList[p]? = some process)
    (posts : Posted pid process posted) :
    (c.messages ++ posted).map (fun pcb => some pcb.pdata) =
      (c.handed ++ [p]).map fun p => c.processList[p]? := by
  cases posts with
  | failed failed => exact absurd failed forked
  | sent _ found =>
      rw [List.map_append, List.map_append, admission.posted]
      simp [read, newPcb]

/-- Every event between rounds, and every statement, keeps the account, until
the process generator exits. -/
theorem move (admission : Admission c chains) {event : CreationEvent}
    (between : c.BetweenRounds event)
    (move : CreationMove c chains event next chains')
    (inOrder : InOrder next chains') (runs : next.statement ≠ .exited) :
    Admission next chains' := by
  have partition := admission.partition
  cases move with
  | ended exited => exact admission
  | reaped _ run =>
      refine admission.congr inOrder rfl rfl rfl rfl rfl rfl rfl rfl ?_
        admission.complete
      rcases between with loops | exited
      · simp [Creation.Ahead, loops]
      · simp [Creation.Ahead, exited]
  | interrupted => exact absurd rfl runs
  | continued statement more wanted =>
      exact admission.congr inOrder rfl rfl rfl (by rw [statement]; rfl) rfl
        rfl rfl rfl trivial (by rintro ⟨⟩)
  | finished statement stops =>
      refine admission.congr inOrder rfl rfl rfl (by rw [statement]; rfl) rfl
        rfl rfl rfl trivial ?_
      intro _
      have reached := admission.inOrder.reached
      constructor
      · by_contra left
        exact stops ⟨Or.inl (by omega), admission.wanted⟩
      · by_contra waits
        exact stops ⟨Or.inr waits, admission.wanted⟩
  | rested => exact admission
  | drained statement unfit =>
      exact admission.congr inOrder rfl rfl rfl (by rw [statement]; rfl) rfl
        rfl rfl rfl trivial (by rintro ⟨⟩)
  | @taken _ _ _ left right entry _ statement split fits =>
      have ordered := admission.ordered
      rw [statement, split] at partition
      rw [split] at ordered
      refine ⟨inOrder, ?_, ?_, admission.kept, admission.posted, fits,
        admission.wanted, by rintro ⟨⟩⟩
      · refine List.Perm.trans (List.Perm.append_left _ ?_) partition
        simp only [CreationStatement.inHand, List.map_append, List.map_cons,
          List.cons_append, List.nil_append]
        exact List.perm_middle.symm
      · simp only [List.map_append, List.map_cons] at ordered ⊢
        exact ordered.sublist (List.Sublist.append_left
          (List.sublist_cons_self _ _) _)
  | found statement read best =>
      exact admission.congr inOrder rfl rfl rfl (by rw [statement]; rfl) rfl
        rfl rfl rfl ⟨_, _, read, best, rfl⟩ (by rintro ⟨⟩)
  | gaveUp statement read unfit =>
      obtain ⟨process, read', fits⟩ := admission.fits statement
      have same := (processAt_eq_ok.mp read').symm.trans read
      rw [Option.some.injEq] at same
      exact absurd (same ▸ fits) (not_fits_iff.mpr unfit)
  | allocated statement read run same live =>
      obtain ⟨node, best, rfl⟩ := admission.best statement read
      exact admission.congr inOrder rfl rfl rfl (by rw [statement]; rfl) rfl
        rfl rfl rfl (live node best) (by rintro ⟨⟩)
  | handedOver statement read posts assigns =>
      rw [statement] at partition
      refine ⟨inOrder, ?_, admission.ordered, admission.kept,
        admission.posts between read posts, trivial, admission.wanted,
        by rintro ⟨⟩⟩
      simpa [CreationStatement.inHand, Creation.afterHandover] using partition
  | noneLeft statement none =>
      exact admission.congr inOrder rfl rfl rfl (by rw [statement]; rfl) rfl
        rfl rfl rfl trivial (by rintro ⟨⟩)
  | passed statement read other =>
      exact admission.congr inOrder rfl rfl rfl (by rw [statement]; rfl) rfl
        rfl rfl rfl trivial (by rintro ⟨⟩)
  | queued statement read due =>
      rw [statement] at partition
      refine ⟨inOrder, ?_, ?_, admission.kept, admission.posted, trivial,
        admission.wanted, by rintro ⟨⟩⟩
      · simp only [CreationStatement.inHand, Creation.afterAdmission,
          List.map_append, List.map_cons, List.map_nil, List.nil_append,
          List.range_succ] at partition ⊢
        rw [← List.append_assoc]
        exact partition.append_right _
      · rw [List.map_append, List.pairwise_append]
        refine ⟨admission.ordered, List.pairwise_singleton _ _, ?_⟩
        intro older member last isLast
        obtain ⟨entry, inside, rfl⟩ := List.mem_map.mp member
        rw [List.mem_singleton.mp isLast]
        exact admission.waiting_lt inside
  | admitted statement read due run assigns posts =>
      rw [statement] at partition
      refine ⟨inOrder, ?_, admission.ordered, admission.kept,
        admission.posts between read posts, trivial, admission.wanted,
        by rintro ⟨⟩⟩
      simp only [CreationStatement.inHand, Creation.afterHandover,
        Creation.afterAdmission, List.nil_append, List.range_succ]
        at partition ⊢
      rw [List.append_assoc]
      refine List.Perm.trans (List.Perm.append_left _ List.perm_append_comm) ?_
      rw [← List.append_assoc]
      exact partition.append_right _

end Admission

/-! ### Child exits return -/

namespace Creation

variable {c next : Creation} {chains chains' : Chains}

/-- The generator's memory manager, with the pids as its tenants. -/
def tenants (c : Creation) (manager : MemoryManager) : Tenants :=
  { manager := manager, admitted := c.forked, alive := c.children }

/-- `fork` returns a pid that no child had before, and `waitpid` returns a child
that has not been reaped, the clock or the scheduler. -/
def FreshPids (c : Creation) : CreationEvent → Prop
  | .exit _ pid => pid ∈ c.children ∨ pid = c.clkPid ∨ pid = c.schPid
  | .interrupt => True
  | .proceed _ _ pid => 0 < pid ∧ pid ∉ c.forked

instance (c : Creation) : ∀ event, Decidable (c.FreshPids event)
  | .exit _ _ => inferInstanceAs (Decidable (_ ∨ _))
  | .interrupt => inferInstanceAs (Decidable True)
  | .proceed _ _ _ => inferInstanceAs (Decidable (_ ∧ _))

/-- The children are tenants; between an allocation and `fork_and_send` they are
so in the memory from before the allocation. -/
def Housed (c : Creation) : Prop :=
  match c.statement with
  | .forkAndSend p fit => ∃ prior held process,
      c.processList[p]? = some process ∧
      allocateProcessMemory prior process.memorySize =
        .ok (c.manager, some fit) ∧
      Hosted (c.tenants prior) held
  | _ => ∃ held, Hosted (c.tenants c.manager) held

/-- Between two rounds the children are tenants of the present memory. -/
theorem housed_between (between : c.statement = .loopTest ∨
    c.statement = .finished) :
    c.Housed ↔ ∃ held, Hosted (c.tenants c.manager) held := by
  rcases between with loops | stops
  · rw [Housed, loops]
  · rw [Housed, stops]

/-- Assigning a block does not change whose control block it is. -/
theorem assign_pid {manager manager' : MemoryManager} {clk : Int}
    {process process' : PCB} {block : Addr}
    (run : assignMemoryBlockToProcess manager clk process (some block) =
      .ok (manager', process')) : process'.pid = process.pid := by
  obtain ⟨_, _, _, _, _, _, rfl⟩ := assignMemoryBlockToProcess_inv run
  rfl

/-- An allocation and the `fork_and_send` behind it make the child a tenant. -/
theorem hosted_handover {prior manager manager' : MemoryManager}
    {held : Int → Option ProcessMemory} {process : Process} {block : Addr}
    (hosted : Hosted (c.tenants prior) held)
    (positive : 1 ≤ process.memorySize) {clk pid : Int}
    (fresh : 0 < pid ∧ pid ∉ c.forked)
    (allocated : allocateProcessMemory prior process.memorySize =
      .ok (manager, some block))
    (assigns : Assigns manager clk pid process block manager') :
    ∃ held', Hosted
      { manager := manager'
        admitted := pid :: c.forked
        alive := pid :: c.children } held' := by
  obtain ⟨pcb, assigned⟩ := assigns (by omega)
  have legal : (c.tenants prior).Legal
      (.arrive clk process.memorySize (newPcb pid process)) := by
    refine ⟨positive, fresh.1, fresh.2, ?_⟩
    rw [Tenants.fits, tenants, allocated]
  apply hosted.arrive legal
  rw [Tenants.step, tenants, allocated, ok_bind]
  dsimp only
  rw [assigned, ok_bind, assign_pid assigned]
  rfl

/-- Reaping a child returns, and so does reaping the clock or the scheduler. -/
theorem handleChildExit_total {held : Int → Option ProcessMemory}
    (hosted : Hosted (c.tenants c.manager) held) {clk pid : Int}
    (known : pid ∈ c.children ∨ pid = c.clkPid ∨ pid = c.schPid) :
    ∃ next, c.handleChildExit clk pid = .ok next ∧
      next.statement = c.statement ∧
      ∃ held, Hosted (next.tenants next.manager) held := by
  by_cases child : pid ≠ c.generator.clkPid ∧ pid ≠ c.generator.schPid
  · have alive : pid ∈ (c.tenants c.manager).alive := by
      rcases known with alive | clock | sched
      · exact alive
      · exact absurd clock child.1
      · exact absurd sched child.2
    obtain ⟨after, stepped, hosted'⟩ := hosted.exit clk alive
    obtain ⟨⟨manager, status⟩, given, rest⟩ := bind_eq_ok.mp stepped
    have given' : deallocateProcessMemory c.generator.manager clk pid =
        .ok (manager, status) := given
    simp only [pure_eq_ok, Except.ok.injEq] at rest
    refine ⟨{ c with manager := manager, children := c.children.erase pid }, ?_,
      rfl, held, ?_⟩
    · rw [handleChildExit, OsSim.handleChildExit, if_pos child, given']
      rfl
    · rw [← rest] at hosted'
      exact hosted'
  · refine ⟨{ c with children := c.children.erase pid }, ?_, rfl, held,
      hosted.fewer List.erase_sublist⟩
    rw [handleChildExit, OsSim.handleChildExit, if_neg child]
    rfl

/-- Every event keeps the children tenants, until the process generator exits. -/
theorem housed_move (housed : c.Housed) (admission : Admission c chains)
    (sizes : ∀ process ∈ c.processList, 1 ≤ process.memorySize)
    {event : CreationEvent} (between : c.BetweenRounds event)
    (fresh : c.FreshPids event)
    (move : CreationMove c chains event next chains')
    (runs : next.statement ≠ .exited) : next.Housed := by
  have positive : ∀ {p : Nat} {process : Process},
      c.processList[p]? = some process → 1 ≤ process.memorySize :=
    fun read => sizes _ (List.mem_of_getElem? read)
  cases move with
  | ended exited => exact absurd exited runs
  | reaped _ run =>
      obtain ⟨held, hosted⟩ := (housed_between between).mp housed
      obtain ⟨after, run', _, held', hosted'⟩ :=
        handleChildExit_total hosted fresh
      rw [run, Except.ok.injEq] at run'
      rw [← run'] at hosted'
      refine (housed_between ?_).mpr ⟨held', hosted'⟩
      exact between
  | interrupted => exact absurd rfl runs
  | rested => exact housed
  | allocated statement read run same live =>
      obtain ⟨node, best, rfl⟩ := admission.best statement read
      simp only [Housed, statement] at housed
      obtain ⟨held, hosted⟩ := housed
      exact ⟨c.manager, held, _, read, same node best ▸ run, hosted⟩
  | handedOver statement read posts assigns =>
      simp only [Housed, statement] at housed
      obtain ⟨prior, held, process, read', allocated, hosted⟩ := housed
      have equal := read'.symm.trans read
      rw [Option.some.injEq] at equal
      subst equal
      have forked := hosted_handover hosted (positive read) fresh allocated
        assigns
      simpa only [Housed, tenants, afterHandover, if_neg between] using forked
  | admitted statement read due run assigns posts =>
      simp only [Housed, statement] at housed
      obtain ⟨held, hosted⟩ := housed
      have forked := hosted_handover hosted (positive read) fresh run assigns
      simpa only [Housed, tenants, afterHandover, afterAdmission,
        if_neg between] using forked
  | continued statement =>
      simpa only [Housed, tenants, statement] using housed
  | finished statement =>
      simpa only [Housed, tenants, statement] using housed
  | drained statement =>
      simpa only [Housed, tenants, statement] using housed
  | taken statement =>
      simpa only [Housed, tenants, statement] using housed
  | found statement =>
      simpa only [Housed, tenants, statement] using housed
  | gaveUp statement =>
      simpa only [Housed, tenants, statement] using housed
  | noneLeft statement =>
      simpa only [Housed, tenants, statement] using housed
  | passed statement =>
      simpa only [Housed, tenants, statement] using housed
  | queued statement =>
      simpa only [Housed, tenants, afterAdmission, statement] using housed

end Creation

/-! ### Whole runs

Child exits between rounds leave alone what a round has looked up.  A process that
was found to fit is then given a block, so it is never put back or dropped, and
the processes below `i` are always those handed over, the one in hand and those
waiting.  At the loop test none is in hand.
-/

namespace Creation

variable {c next : Creation} {chains chains' : Chains}

/-- The processes below `i` are those passed to `fork_and_send` and those in the
waiting list, each of them once; the waiting ones are in the order of the list,
as many as the list says, and for the others a message has been sent. -/
def RoundAccounted (c : Creation) : Prop :=
  ∃ waiting, c.waiting.pointers = .ok waiting ∧
    (c.handed ++ waiting).Perm (List.range c.i) ∧
    waiting.Pairwise (· < ·) ∧ c.waiting.list.size = waiting.length ∧
    c.messages.map (fun pcb => some pcb.pdata) =
      c.handed.map fun p => c.processList[p]?

/-- What is asked of every state of a run on this list. -/
structure ExactlyOnce (processList : List Process) (c : Creation) : Prop where
  list : c.processList = processList
  round : c.statement = .loopTest → c.RoundAccounted
  kept : c.dropped = []
  complete : c.statement = .finished →
    c.RoundAccounted ∧ c.handed.Perm (List.range processList.length)
  returns : ∀ reading clk pid, ∃ next,
    c.step (.proceed reading clk pid) = .ok next

/-- Before `clear_and_exit` the account holds; behind it nothing happens. -/
def Followed (processList : List Process) (c : Creation) : Prop :=
  c.processList = processList ∧ c.dropped = [] ∧
    (c.statement ≠ .exited → ∃ chains, Admission c chains)

/-- Behind `clear_and_exit` nothing happens. -/
theorem step_exited (exited : c.statement = .exited) (event : CreationEvent) :
    c.step event = .ok c := by
  rw [step.eq_def, if_pos exited]

theorem followed_step {processList : List Process}
    (followed : Followed processList c) {event : CreationEvent}
    (between : c.BetweenRounds event) (run : c.step event = .ok next) :
    Followed processList next := by
  obtain ⟨list, kept, account⟩ := followed
  by_cases runs : c.statement = .exited
  · rw [step_exited runs, Except.ok.injEq] at run
    exact run ▸ ⟨list, kept, account⟩
  · obtain ⟨chains, admission⟩ := account runs
    obtain ⟨chains', move, inOrder⟩ := admission.inOrder.move run
    have list' := move.processList.trans list
    by_cases exited : next.statement = .exited
    · refine ⟨list', ?_, fun runs => absurd exited runs⟩
      cases move with
      | interrupted => exact kept
      | ended exited => exact kept
      | reaped => exact kept
      | rested => exact kept
      | _ => cases exited
    · have admission' := admission.move between move inOrder exited
      exact ⟨list', admission'.kept, fun _ => ⟨chains', admission'⟩⟩

/-- Each statement returns. -/
theorem followed_returns {processList : List Process}
    (followed : Followed processList c) (reading clk pid : Int) :
    ∃ next, c.step (.proceed reading clk pid) = .ok next := by
  by_cases runs : c.statement = .exited
  · exact ⟨c, step_exited runs _⟩
  · obtain ⟨chains, admission⟩ := followed.2.2 runs
    obtain ⟨next, _, run, _⟩ := admission.inOrder.proceed_total reading clk pid
      (fun p fit statement => by
        have ahead := admission.ahead
        simpa only [Ahead, statement] using ahead)
    refine ⟨next, ?_⟩
    rw [step.eq_def, if_neg runs]
    exact run

/-- With fresh pids every event returns. -/
theorem followed_total {processList : List Process}
    (followed : Followed processList c)
    (housed : c.statement ≠ .exited → c.Housed) {event : CreationEvent}
    (between : c.BetweenRounds event) (fresh : c.FreshPids event) :
    ∃ next, c.step event = .ok next := by
  by_cases runs : c.statement = .exited
  · exact ⟨c, step_exited runs event⟩
  · cases event with
    | proceed reading clk pid => exact followed_returns followed reading clk pid
    | interrupt => exact ⟨_, if_neg runs⟩
    | exit clk pid =>
        obtain ⟨held, hosted⟩ := (housed_between between).mp (housed runs)
        obtain ⟨next, run, _⟩ := handleChildExit_total hosted fresh
        refine ⟨next, ?_⟩
        rw [step.eq_def, if_neg runs]
        exact run

/-- With sizes of at least one the children stay tenants. -/
theorem housed_step {processList : List Process}
    (sizes : ∀ process ∈ processList, 1 ≤ process.memorySize)
    (followed : Followed processList c)
    (housed : c.statement ≠ .exited → c.Housed) {event : CreationEvent}
    (between : c.BetweenRounds event) (fresh : c.FreshPids event)
    (run : c.step event = .ok next) (runs : next.statement ≠ .exited) :
    next.Housed := by
  by_cases exited : c.statement = .exited
  · rw [step_exited exited, Except.ok.injEq] at run
    exact absurd (run ▸ exited) runs
  · obtain ⟨chains, admission⟩ := followed.2.2 exited
    obtain ⟨chains', move, _⟩ := admission.inOrder.move run
    exact housed_move (housed exited) admission (followed.1.symm ▸ sizes) between
      fresh move runs

/-- The account, read at the loop test. -/
theorem exactlyOnce_of_followed {processList : List Process}
    (followed : Followed processList c) : ExactlyOnce processList c := by
  have account : ∀ {statement}, c.statement = statement →
      statement ≠ .exited → statement.inHand = [] → c.RoundAccounted := by
    rintro _ rfl runs none
    obtain ⟨chains, admission⟩ := followed.2.2 runs
    refine ⟨_, InOrder.pointers_eq admission.inOrder.listAt, ?_,
      admission.ordered, ?_, admission.posted⟩
    · have partition := admission.partition
      rw [none, List.nil_append] at partition
      exact partition
    · rw [admission.inOrder.listAt.size, List.length_map]
  refine ⟨followed.1, fun loops => account loops nofun rfl, followed.2.1, ?_,
    fun _ _ _ => followed_returns followed _ _ _⟩
  intro stops
  refine ⟨account stops nofun rfl, ?_⟩
  obtain ⟨chains, admission⟩ := followed.2.2 (by simp [stops])
  obtain ⟨all, none⟩ := admission.complete stops
  have partition := admission.partition
  rw [stops, none, all, followed.1] at partition
  simpa [CreationStatement.inHand] using partition

end Creation

/-- Every process is admitted exactly once.  Throughout a run in which forks
succeed and child exits are handled between rounds, the processes below `i` are
accounted for at the loop test, no process taken off the waiting list is dropped,
every statement returns, and at the end all processes have been handed over; and
when the pids are fresh, child exits return too. -/
theorem admission_exactly_once (processList : List Process)
    (sizes : ∀ process ∈ processList, 1 ≤ process.memorySize)
    (clock clkPid schPid : Int) (events : List CreationEvent)
    (between : Along Creation.step Creation.BetweenRounds
      (.start processList clock clkPid schPid) events) :
    Throughout Creation.step (Creation.ExactlyOnce processList)
        (.start processList clock clkPid schPid) events ∧
      (Along Creation.step Creation.FreshPids
          (.start processList clock clkPid schPid) events →
        ∃ last, runs Creation.step (.start processList clock clkPid schPid)
          events = .ok last) := by
  have starts : Creation.Followed processList
      (.start processList clock clkPid schPid) :=
    ⟨rfl, rfl, fun _ => ⟨_, Admission.start processList clock clkPid schPid⟩⟩
  constructor
  · exact throughout_of_invariant
      (fun _ _ _ followed allowed run =>
        Creation.followed_step followed allowed run)
      (fun _ followed => Creation.exactlyOnce_of_followed followed) starts
      between
  · intro fresh
    have housed : (Creation.start processList clock clkPid schPid).Housed :=
      ⟨_, Hosted.initial⟩
    obtain ⟨last, run, _⟩ := total_of_runs
      (P := fun c => Creation.Followed processList c ∧
        (c.statement ≠ .exited → c.Housed))
      (fun c event holds allowed => by
        obtain ⟨next, run⟩ := Creation.followed_total holds.1 holds.2 allowed.1
          allowed.2
        exact ⟨next, run, Creation.followed_step holds.1 allowed.1 run,
          Creation.housed_step sizes holds.1 holds.2 allowed.1 allowed.2 run⟩)
      ⟨starts, fun _ => housed⟩ (along_and.mpr ⟨between, fresh⟩)
    exact ⟨last, run⟩

private def client (id arrivalTime memorySize : Int) : Process :=
  { id := id, arrivalTime := arrivalTime, runtime := 2, priority := 0,
    memorySize := memorySize }

/-- The statements of a round in which nothing leaves the waiting list. -/
private def quietRound (reading pid : Int) : List CreationEvent :=
  [.proceed reading reading pid, .proceed reading reading pid,
    .proceed reading reading pid]

/-- The second of two processes waits until the child of the first one has
exited; then the waiting list is drained. -/
private def waitingTurn : List CreationEvent :=
  quietRound 0 10 ++ quietRound 1 11 ++ [.exit 3 10] ++
    [.proceed 3 3 11, .proceed 3 3 11, .proceed 3 3 11, .proceed 3 3 11,
      .proceed 3 3 11, .proceed 3 3 12, .proceed 3 3 12, .proceed 3 3 12]

theorem admission_exactly_once_sample :
    ∃ last, runs Creation.step
        (.start [client 1 0 600, client 2 1 500] 0 2 3) waitingTurn =
          .ok last ∧ last.ExactlyOnce [client 1 0 600, client 2 1 500] := by
  obtain ⟨throughout, returns⟩ := admission_exactly_once
    [client 1 0 600, client 2 1 500] (by decide) 0 2 3 waitingTurn
    (by decide +kernel)
  obtain ⟨last, run⟩ := returns (by decide +kernel)
  exact ⟨last, run, throughout waitingTurn List.prefix_rfl last run⟩

/-- In that run both processes are handed over. -/
example : (do
    let last ← runs Creation.step
      (.start [client 1 0 600, client 2 1 500] 0 2 3) waitingTurn
    pure (last.statement, last.handed)) =
      Except.ok (.finished, [0, 1]) := by
  decide +kernel

end OsSim
