/-
Module: OsSim.WaitingBranch
Purpose: The block that the waiting-list branch of `create_processes` hands to
  `fork_and_send`, when children exit between its calls.
Trusted boundary: none
Main exports:
  Owners, deallocateProcessMemory_spec, handleChildExit_spec,
  Tenants.owners_of_run, handed_block_iff
-/
import OsSim.MemoryLedger
import OsSim.OldestFit
import OsSim.ProcessGenerator

namespace OsSim

open PointerMemory
open DoublyLinked
open Trace

/-! ### Child exits

Each gap of the branch is open to the exits of any live children.  An exit gives
back the block of its own child, so all other allocated blocks stay.  The free
ones may not: one of them may be merged into its buddy, and a smaller one that
fits may appear.  Live pids own different allocated blocks, and those that have
not exited go on doing so.
-/

/-- The pids are live: what the memory map records for them are allocated
blocks, a different one for each. -/
structure Owners (manager : MemoryManager) (pids : List Int) : Prop where
  nodup : pids.Nodup
  recorded : ∀ pid ∈ pids, ∃ found,
    hashmapGet manager.memoryMap pid = .ok found ∧
      ∀ record, found = some record →
        manager.buddy.isAllocated record.memory = true
  distinct : ∀ one ∈ pids, ∀ other ∈ pids, ∀ a b,
    hashmapGet manager.memoryMap one = .ok (some a) →
    hashmapGet manager.memoryMap other = .ok (some b) →
    a.memory = b.memory → one = other

/-- Fewer pids are live as well. -/
theorem Owners.subset {manager : MemoryManager} {pids fewer : List Int}
    (owners : Owners manager pids) (nodup : fewer.Nodup)
    (subset : fewer ⊆ pids) : Owners manager fewer where
  nodup := nodup
  recorded := fun pid member => owners.recorded pid (subset member)
  distinct := fun one oneMember other otherMember =>
    owners.distinct one (subset oneMember) other (subset otherMember)

theorem Owners.tail {manager : MemoryManager} {pid : Int} {rest : List Int}
    (owners : Owners manager (pid :: rest)) : Owners manager rest :=
  owners.subset (List.nodup_cons.mp owners.nodup).2 (List.subset_cons_self _ _)

/-- The memory map records the block for one of the pids. -/
def OwnedBy (manager : MemoryManager) (pids : List Int) (block : Addr) : Prop :=
  ∃ pid ∈ pids, ∃ record,
    hashmapGet manager.memoryMap pid = .ok (some record) ∧
      record.memory = block

/-- Giving back the block of a live pid keeps the other pids live, and the
other allocated blocks. -/
theorem deallocateProcessMemory_spec {manager : MemoryManager}
    {nodes : List (Addr × Tile)}
    (invariant : BuddyInvariant manager.buddy nodes) (clk : Int) {pid : Int}
    {rest : List Int} (owners : Owners manager (pid :: rest)) :
    ∃ manager' status nodes',
      deallocateProcessMemory manager clk pid = .ok (manager', status) ∧
      BuddyInvariant manager'.buddy nodes' ∧
      (manager.buddy.Reachable → manager'.buddy.Reachable) ∧
      manager'.memoryMap = manager.memoryMap ∧
      Owners manager' rest ∧
      ∀ node ∈ live nodes, ¬ OwnedBy manager [pid] node.1 →
        node ∈ live nodes' := by
  have others := owners.tail
  obtain ⟨found, look, allocated⟩ := owners.recorded pid (by simp)
  cases found with
  | none =>
      refine ⟨manager, 0, nodes, ?_, invariant, id, rfl, others,
        fun _ member _ => member⟩
      rw [deallocateProcessMemory, look]
      rfl
  | some record =>
      obtain ⟨tile, inside, used⟩ :=
        (invariant.isAllocated_iff record.memory).mp (allocated record rfl)
      obtain ⟨log, logged⟩ :=
        logMemoryEvent_ok manager invariant.blocks inside clk record.id .deallocated
      obtain ⟨heap', nodes', run, kept, shrunk⟩ :=
        invariant.deallocate_live (mem_live.mpr ⟨inside, used⟩)
      have given : deallocateMemory manager.memory manager.heap
          (some record.memory) = .ok heap' := run
      have remains : ∀ node ∈ live nodes, node.1 ≠ record.memory →
          node ∈ live nodes' := by
        intro node member apart
        rcases List.mem_cons.mp (shrunk.mem_iff.mp member) with same | other
        · exact absurd (congrArg Prod.fst same) apart
        · exact other
      refine ⟨{ manager with heap := heap', memoryLog := log }, 1, nodes', ?_,
        kept, ?_, rfl, ⟨others.nodup, ?_, others.distinct⟩, ?_⟩
      · rw [deallocateProcessMemory, look]
        simp only [ok_bind, logged, given, pure_eq_ok]
      · intro reachable
        apply reachable.call (.deallocate record.memory)
          (allocated record rfl)
        rw [BuddyHeap.call, run]
        rfl
      · intro other member
        obtain ⟨found', look', allocated'⟩ := others.recorded other member
        refine ⟨found', look', ?_⟩
        intro record' same
        obtain ⟨tile', inside', used'⟩ :=
          (invariant.isAllocated_iff _).mp (allocated' record' same)
        have apart : record'.memory ≠ record.memory := by
          intro equal
          have one := owners.distinct other (List.mem_cons_of_mem _ member) pid
            (by simp) record' record (same ▸ look') look equal
          exact (List.nodup_cons.mp owners.nodup).1 (one ▸ member)
        have still := remains (record'.memory, tile')
          (mem_live.mpr ⟨inside', used'⟩) apart
        exact (kept.isAllocated_iff _).mpr ⟨tile', mem_live.mp still⟩
      · intro node member unowned
        apply remains node member
        intro same
        exact unowned ⟨pid, by simp, record, look, same.symm⟩

/-- Handling the exits of live pids keeps the pids live that exit later, and the
allocated blocks of no exited one. -/
theorem handleChildExit_spec (generator : Generator)
    {nodes : List (Addr × Tile)}
    (invariant : BuddyInvariant generator.manager.buddy nodes)
    (exits : List (Int × Int)) {later : List Int}
    (owners : Owners generator.manager (exits.map Prod.snd ++ later)) :
    ∃ manager' nodes',
      handleChildExit generator exits =
        .ok { generator with manager := manager' } ∧
      BuddyInvariant manager'.buddy nodes' ∧
      manager'.memoryMap = generator.manager.memoryMap ∧
      Owners manager' later ∧
      ∀ node ∈ live nodes,
        ¬ OwnedBy generator.manager (exits.map Prod.snd) node.1 →
          node ∈ live nodes' := by
  induction exits generalizing generator nodes with
  | nil =>
      exact ⟨generator.manager, nodes, rfl, invariant, rfl, owners,
        fun _ member _ => member⟩
  | cons exit exits ih =>
      obtain ⟨clk, exitedPid⟩ := exit
      obtain ⟨manager, status, nodes', run, kept, _, same, owners', remains⟩ :=
        deallocateProcessMemory_spec invariant clk owners
      by_cases child : exitedPid ≠ generator.clkPid ∧
          exitedPid ≠ generator.schPid
      · obtain ⟨manager', nodes'', run', kept', same', owners'', remains'⟩ :=
          ih { generator with manager := manager } kept owners'
        refine ⟨manager', nodes'', ?_, kept', same'.trans same, owners'', ?_⟩
        · rw [handleChildExit, if_pos child, run]
          exact run'
        · intro node member unowned
          apply remains' node (remains node member _)
          · rintro ⟨pid, owner, record, look, place⟩
            rw [same] at look
            exact unowned ⟨pid, List.mem_cons_of_mem _ owner, record, look,
              place⟩
          · rintro ⟨pid, owner, record, look, place⟩
            rw [List.mem_singleton.mp owner] at look
            exact unowned ⟨exitedPid, by simp, record, look, place⟩
      · obtain ⟨manager', nodes'', run', kept', same', owners'', remains'⟩ :=
          ih generator invariant owners.tail
        refine ⟨manager', nodes'', ?_, kept', same', owners'', ?_⟩
        · rw [handleChildExit, if_neg child]
          exact run'
        · intro node member unowned
          apply remains' node member
          rintro ⟨pid, owner, record, look, place⟩
          exact unowned ⟨pid, List.mem_cons_of_mem _ owner, record, look, place⟩

/-- An allocation keeps live pids live, and none of them owns the new block. -/
theorem Owners.allocate {manager : MemoryManager} {pids : List Int}
    {nodes nodes' : List (Addr × Tile)} {heap' : Mem Block} {block : Addr}
    {tile : Tile} (owners : Owners manager pids)
    (invariant : BuddyInvariant manager.buddy nodes)
    (kept : BuddyInvariant { manager.buddy with heap := heap' } nodes')
    (unowned : block ∉ (live nodes).map Prod.fst)
    (grown : (live nodes').Perm ((block, tile) :: live nodes)) :
    Owners { manager with heap := heap' } pids ∧
      ¬ OwnedBy { manager with heap := heap' } pids block := by
  refine ⟨⟨owners.nodup, ?_, owners.distinct⟩, ?_⟩
  · intro pid member
    obtain ⟨found, look, allocated⟩ := owners.recorded pid member
    refine ⟨found, look, ?_⟩
    intro record same
    obtain ⟨old, inside, used⟩ :=
      (invariant.isAllocated_iff _).mp (allocated record same)
    have still : (record.memory, old) ∈ live nodes' := by
      rw [grown.mem_iff]
      exact List.mem_cons_of_mem _ (mem_live.mpr ⟨inside, used⟩)
    exact (kept.isAllocated_iff _).mpr ⟨old, mem_live.mp still⟩
  · rintro ⟨pid, member, record, look, place⟩
    obtain ⟨found, look', allocated⟩ := owners.recorded pid member
    have look'' : hashmapGet manager.memoryMap pid = .ok (some record) := look
    rw [look', Except.ok.injEq] at look''
    obtain ⟨old, inside, used⟩ :=
      (invariant.isAllocated_iff _).mp (allocated record look'')
    apply unowned
    rw [← place]
    exact List.mem_map_of_mem (f := Prod.fst) (mem_live.mpr ⟨inside, used⟩)

/-- A new pid joins live ones, whether its record was stored or not, if the map
records for it nothing but an allocated block that none of them owns. -/
theorem Owners.cons {manager manager' : MemoryManager} {pids : List Int}
    {pid : Int} {block : Addr} (owners : Owners manager pids)
    (apart : ¬ OwnedBy manager pids block) (new : pid ∉ pids)
    (buddy : manager'.buddy = manager.buddy)
    (allocated : manager.buddy.isAllocated block = true)
    (others : ∀ other, other ≠ pid →
      hashmapGet manager'.memoryMap other = hashmapGet manager.memoryMap other)
    (own : ∃ found, hashmapGet manager'.memoryMap pid = .ok found ∧
      ∀ record, found = some record → record.memory = block) :
    Owners manager' (pid :: pids) := by
  have older : ∀ {found}, found ∈ pid :: pids → found ≠ pid → found ∈ pids :=
    fun member different => (List.mem_cons.mp member).resolve_left different
  have mine : ∀ record, hashmapGet manager'.memoryMap pid = .ok (some record) →
      record.memory = block := by
    obtain ⟨found, look, place⟩ := own
    intro record read
    rw [look, Except.ok.injEq] at read
    exact place record read
  -- The new block is nobody else's.
  have only : ∀ found ∈ pid :: pids, ∀ record,
      hashmapGet manager'.memoryMap found = .ok (some record) →
      record.memory = block → found = pid := by
    intro found member record look place
    by_contra different
    rw [others found different] at look
    exact apart ⟨found, older member different, record, look, place⟩
  constructor
  · exact List.nodup_cons.mpr ⟨new, owners.nodup⟩
  · intro found member
    rw [buddy]
    by_cases same : found = pid
    · obtain ⟨first, look, place⟩ := own
      subst same
      refine ⟨first, look, ?_⟩
      intro record stored
      rw [place record stored]
      exact allocated
    · rw [others found same]
      exact owners.recorded found (older member same)
  · intro one oneMember other otherMember a b oneRead otherRead equal
    by_cases oneNew : one = pid
    · have place : b.memory = block :=
        equal.symm.trans (mine a (oneNew ▸ oneRead))
      rw [oneNew, only other otherMember b otherRead place]
    · by_cases otherNew : other = pid
      · have place : a.memory = block :=
          equal.trans (mine b (otherNew ▸ otherRead))
        exact absurd (only one oneMember a oneRead place) oneNew
      · rw [others one oneNew] at oneRead
        rw [others other otherNew] at otherRead
        exact owners.distinct one (older oneMember oneNew) other
          (older otherMember otherNew) a b oneRead otherRead equal

/-! ### Runs of the memory manager -/

/-- What every run of admissions and exits keeps, with or without leaks: the heap
is reachable and the pids that have not exited are live. -/
structure Hosted (state : Tenants) (held : Int → Option ProcessMemory) :
    Prop where
  reachable : state.manager.buddy.Reachable
  formed : state.manager.memoryMap.Formed
  holds : state.manager.memoryMap.Holds held
  known : ∀ pid, held pid ≠ none → pid ∈ state.admitted
  admitted : ∀ pid ∈ state.alive, pid ∈ state.admitted
  owners : Owners state.manager state.alive

namespace Hosted

variable {state next : Tenants} {held : Int → Option ProcessMemory}

theorem initial : Hosted Tenants.init (fun _ => none) where
  reachable := ⟨[], trivial, rfl⟩
  formed := HashMap.formed_create (by decide)
  holds := HashMap.holds_create 100
  known := fun _ some => absurd rfl some
  admitted := fun _ member => absurd member List.not_mem_nil
  owners := ⟨List.nodup_nil, fun _ member => absurd member List.not_mem_nil,
    fun _ member => absurd member List.not_mem_nil⟩

/-- An admission makes its pid live, recorded or not. -/
theorem arrive (hosted : Hosted state held) {clk size : Int} {process : PCB}
    (legal : state.Legal (.arrive clk size process))
    (stepped : state.step (.arrive clk size process) = .ok next) :
    ∃ held', Hosted next held' := by
  have new : process.pid ∉ state.admitted := legal.2.2.1
  have unheld : held process.pid = none := by
    by_contra some
    exact new (hosted.known _ some)
  obtain ⟨nodes, invariant⟩ := hosted.reachable.invariant
  obtain ⟨heap', nodes', block, tile, called, kept, inside, used, unowned,
    grown, admits⟩ := Tenants.arrive_eq invariant legal
  obtain ⟨owners, apart⟩ :=
    hosted.owners.allocate invariant kept unowned grown
  obtain ⟨after, status, put, formed, _, holds, _, _, _⟩ :=
    hosted.formed.hashmapPut_spec hosted.holds process.pid
      { memory := block, id := process.pdata.id }
  obtain ⟨log, stepped'⟩ := admits after status put
  rw [stepped', Except.ok.injEq] at stepped
  subst stepped
  generalize mapEq : (if status = -1 then held else
    Function.update held process.pid
      (some { memory := block, id := process.pdata.id })) = held' at holds
  have others : ∀ pid, pid ≠ process.pid → held' pid = held pid := by
    intro pid different
    rw [← mapEq]
    split
    · rfl
    · rw [Function.update_of_ne different]
  have own : ∀ record, held' process.pid = some record →
      record.memory = block := by
    intro record look
    rw [← mapEq] at look
    split at look
    · rw [unheld] at look
      cases look
    · rw [Function.update_self, Option.some.injEq] at look
      rw [← look]
  have read := formed.hashmapGet_spec holds
  refine ⟨held', hosted.reachable.call (.allocate size) legal.1 called, formed,
    holds, ?_, ?_, ?_⟩
  · intro found some
    by_cases same : found = process.pid
    · exact same ▸ List.mem_cons_self
    · rw [others found same] at some
      exact List.mem_cons_of_mem _ (hosted.known found some)
  · intro found alive
    rcases List.mem_cons.mp alive with same | older
    · exact same ▸ List.mem_cons_self
    · exact List.mem_cons_of_mem _ (hosted.admitted found older)
  · apply owners.cons apart (fun alive => new (hosted.admitted _ alive))
    · rfl
    · exact (kept.isAllocated_iff block).mpr ⟨tile, inside, used⟩
    · intro other different
      have before := hosted.formed.hashmapGet_spec hosted.holds other
      exact (read other).trans ((others other different) ▸ before.symm)
    · exact ⟨held' process.pid, read process.pid, own⟩

/-- With fewer live pids nothing else changes. -/
theorem fewer (hosted : Hosted state held) {pids : List Int}
    (sublist : pids.Sublist state.alive) :
    Hosted { state with alive := pids } held where
  reachable := hosted.reachable
  formed := hosted.formed
  holds := hosted.holds
  known := hosted.known
  admitted := fun pid alive => hosted.admitted pid (sublist.subset alive)
  owners := hosted.owners.subset (hosted.owners.nodup.sublist sublist)
    sublist.subset

/-- An exit returns and leaves the other pids live. -/
theorem exit (hosted : Hosted state held) (clk : Int) {pid : Int}
    (alive : pid ∈ state.alive) :
    ∃ next, state.step (.exit clk pid) = .ok next ∧ Hosted next held := by
  obtain ⟨nodes, invariant⟩ := hosted.reachable.invariant
  have nodup := hosted.owners.nodup
  have split : Owners state.manager (pid :: state.alive.erase pid) := by
    apply hosted.owners.subset
    · exact ((List.perm_cons_erase alive).nodup_iff).mp nodup
    · exact (List.perm_cons_erase alive).symm.subset
  obtain ⟨manager', status, nodes', run, kept, reachable, same, owners, _⟩ :=
    deallocateProcessMemory_spec invariant clk split
  refine ⟨{ state with manager := manager', alive := state.alive.erase pid },
    ?_, reachable hosted.reachable, same ▸ hosted.formed, same ▸ hosted.holds,
    hosted.known, ?_, owners⟩
  · rw [Tenants.step, run]
    rfl
  · intro other still
    exact hosted.admitted other (List.mem_of_mem_erase still)

end Hosted

/-- In every run of admissions and exits the heap is reachable and the pids that
have not exited are live. -/
theorem Tenants.owners_of_run {calls : List TenantCall} {state : Tenants}
    (legal : Along Tenants.step Tenants.Legal Tenants.init calls)
    (run : runs Tenants.step Tenants.init calls = .ok state) :
    state.manager.buddy.Reachable ∧ Owners state.manager state.alive := by
  have kept : ∃ held, Hosted state held := by
    apply invariant_of_runs (P := fun state => ∃ held, Hosted state held) _
      ⟨_, Hosted.initial⟩ legal run
    rintro state call next ⟨held, hosted⟩ allowed stepped
    cases call with
    | arrive clk size process => exact hosted.arrive allowed stepped
    | exit clk pid =>
        obtain ⟨next', stepped', hosted'⟩ := hosted.exit clk allowed
        have same : next' = next := Except.ok.inj (stepped'.symm.trans stepped)
        exact ⟨held, same ▸ hosted'⟩
  obtain ⟨held, hosted⟩ := kept
  exact ⟨hosted.reachable, hosted.owners⟩

/-! ### The block handed over -/

/-- The second half of the branch, on a block that was looked up before. -/
theorem waitingAllocate_spec (generator : Generator)
    {nodes : List (Addr × Tile)}
    (invariant : BuddyInvariant generator.manager.buddy nodes)
    {waitedFit : Process} (positive : 1 ≤ waitedFit.memorySize) (fit : Addr)
    (third : List (Int × Int))
    (owners : Owners generator.manager (third.map Prod.snd)) :
    ∃ handed handover,
      waitingAllocate generator waitedFit fit third = .ok (handed, handover) ∧
      ((handover.allocatedBlock = some handover.fitMemoryBlock ∧
          ∃ handedNodes tile, handed.manager.blocks = .ok handedNodes ∧
            (handover.fitMemoryBlock, tile) ∈ handedNodes ∧
            tile.allocated = waitedFit.memorySize) ↔
        ∃ left tile right, nodes = left ++ (fit, tile) :: right ∧
          FirstSmallest waitedFit.memorySize left (fit, tile) right) := by
  rcases invariant.allocate_live positive with
    ⟨run, noFit⟩ | ⟨heap', nodes', block, tile, run,
      ⟨before, free, after, split, first⟩, kept, inside, asked, unowned, grown⟩
  · have failed : allocateMemory generator.manager.heap generator.manager.memory
        waitedFit.memorySize = .ok (generator.manager.heap, none) := run
    rw [← List.append_nil (third.map Prod.snd)] at owners
    obtain ⟨manager', nodes', exited, _⟩ :=
      handleChildExit_spec generator invariant third owners
    refine ⟨{ generator with manager := manager' },
      { waitedFit := waitedFit
        fitMemoryBlock := fit
        allocatedBlock := none }, ?_, ?_⟩
    · rw [waitingAllocate, allocateProcessMemory, failed]
      simp only [ok_bind, pure_eq_ok, exited]
    · constructor
      · rintro ⟨impossible, _⟩
        cases impossible
      · rintro ⟨left, tile, right, place, first⟩
        exact absurd first.fits
          (noFit (fit, tile) (by simp [place]) first.free)
  · have allocated : allocateMemory generator.manager.heap
        generator.manager.memory waitedFit.memorySize =
          .ok (heap', some block) := run
    obtain ⟨owners', apart⟩ := owners.allocate invariant kept unowned grown
    rw [← List.append_nil (third.map Prod.snd)] at owners'
    obtain ⟨manager', nodes'', exited, kept', _, _, remains⟩ :=
      handleChildExit_spec { generator with
          manager := { generator.manager with heap := heap' } } kept third
        owners'
    refine ⟨{ generator with manager := manager' },
      { waitedFit := waitedFit
        fitMemoryBlock := fit
        allocatedBlock := some block }, ?_, ?_⟩
    · rw [waitingAllocate, allocateProcessMemory, allocated]
      simp only [ok_bind, pure_eq_ok, exited]
    · constructor
      · rintro ⟨same, _⟩
        have equal : block = fit := Option.some.inj same
        subst equal
        exact ⟨before, free, after, split, first⟩
      · rintro ⟨left, found, right, place, first'⟩
        have equal := first.unique first' (split.symm.trans place)
        rw [Prod.mk.injEq] at equal
        refine ⟨by rw [equal.1], nodes'', tile, kept'.blocks_eq, ?_, asked⟩
        have used : tile.allocated ≠ 0 := by
          rw [asked]
          omega
        rw [← equal.1]
        exact (mem_live.mp (remains (block, tile)
          (mem_live.mpr ⟨inside, used⟩) apart)).1

/-- A branch that finds a process and a block for it ends with the call of
`fork_and_send` that the handover is for. -/
theorem waitingBranch_handed {generator searched handed : Generator}
    {first second third : List (Int × Int)} {clk pid : Int} {waitedFit : Process}
    {fit : Addr} {handover : Handover}
    (search : waitingSearch generator first second =
      .ok (searched, some (waitedFit, fit)))
    (allocate : waitingAllocate searched waitedFit fit third =
      .ok (handed, handover)) :
    waitingBranch generator first second third clk pid =
      forkAndSend handed clk pid handover.waitedFit
        (some handover.fitMemoryBlock) := by
  rw [waitingBranch, search, ok_bind]
  dsimp only
  rw [allocate, ok_bind]

/-- A branch that finds none ends with the search. -/
theorem waitingBranch_none {generator searched : Generator}
    {first second : List (Int × Int)}
    (search : waitingSearch generator first second = .ok (searched, none))
    (third : List (Int × Int)) (clk pid : Int) :
    waitingBranch generator first second third clk pid = .ok searched := by
  rw [waitingBranch, search, ok_bind]
  rfl

/-- The branch returns.  The block it hands to `fork_and_send` is the block that
was allocated, and allocated in the list, exactly when at the call of
`allocate_process_memory` it is still in the list and the first of the smallest
free blocks that fit. -/
theorem handed_block_iff (generator : Generator)
    (waiting : List (Addr × Process)) (first second third : List (Int × Int))
    (reachable : generator.manager.buddy.Reachable)
    (listAt : ListAt generator.waitingList.heap generator.waitingList.list
      waiting)
    (sizes : ∀ entry ∈ waiting, 1 ≤ entry.2.memorySize)
    (owners : Owners generator.manager
      ((first ++ second ++ third).map Prod.snd)) :
    ∃ searched found,
      waitingSearch generator first second = .ok (searched, found) ∧
      ∀ waitedFit fit, found = some (waitedFit, fit) →
        ∃ nodes handed handover, searched.manager.blocks = .ok nodes ∧
          waitingAllocate searched waitedFit fit third =
            .ok (handed, handover) ∧
          ((handover.allocatedBlock = some handover.fitMemoryBlock ∧
              ∃ handedNodes tile, handed.manager.blocks = .ok handedNodes ∧
                (handover.fitMemoryBlock, tile) ∈ handedNodes ∧
                tile.allocated = waitedFit.memorySize) ↔
            ∃ left tile right, nodes = left ++ (fit, tile) :: right ∧
              FirstSmallest waitedFit.memorySize left (fit, tile) right) := by
  obtain ⟨nodes, invariant⟩ := reachable.invariant
  rcases getOldestFit_spec invariant.blocks listAt with
    ⟨oldest, _⟩ | ⟨waitingList, left, entry, right, oldest, split, _, _, _⟩
  · refine ⟨{ generator with waitingList := generator.waitingList }, none, ?_,
      fun _ _ impossible => by cases impossible⟩
    rw [waitingSearch, oldest]
    rfl
  · have positive : 1 ≤ entry.2.memorySize := sizes entry (by simp [split])
    rw [List.map_append, List.map_append, List.append_assoc] at owners
    obtain ⟨manager, middle, exited, kept, _, owners', _⟩ :=
      handleChildExit_spec
        { generator with waitingList := waitingList } invariant
        first owners
    obtain ⟨best, search, isBest⟩ :=
      getSmallestBlockAvailable_spec kept.blocks entry.2.memorySize
    have look : getSmallestBlock manager entry.2 =
        .ok (best.map Prod.fst) := search
    cases best with
    | none =>
        refine ⟨{ generator with
                  manager := manager, waitingList := waitingList }, none, ?_,
          fun _ _ impossible => by cases impossible⟩
        rw [waitingSearch, oldest, ok_bind]
        dsimp only
        rw [exited, ok_bind]
        dsimp only
        rw [look]
        rfl
    | some node =>
        obtain ⟨manager', nodes', exited', kept', _, owners'', _⟩ :=
          handleChildExit_spec
            { generator with manager := manager, waitingList := waitingList }
            kept second owners'
        let searched : Generator :=
          { generator with manager := manager', waitingList := waitingList }
        refine ⟨searched, some (entry.2, node.1), ?_, ?_⟩
        · rw [waitingSearch, oldest, ok_bind]
          dsimp only
          rw [exited, ok_bind]
          dsimp only
          rw [look, Option.map_some, ok_bind]
          dsimp only
          rw [exited']
          rfl
        · intro waitedFit fit same
          rw [Option.some.injEq, Prod.mk.injEq] at same
          obtain ⟨rfl, rfl⟩ := same
          obtain ⟨handed, handover, allocate, right⟩ :=
            waitingAllocate_spec searched kept' positive
              node.1 third owners''
          exact ⟨nodes', handed, handover, kept'.blocks_eq, allocate, right⟩

private def arriveSized (pid size : Int) : TenantCall :=
  .arrive 0 size (newPcb pid
    { id := pid, arrivalTime := 0, runtime := 5, priority := 0,
      memorySize := size })

private def waiter : Process :=
  { id := 5, arrivalTime := 1, runtime := 5, priority := 0, memorySize := 100 }

/-- A full memory of which a quarter has just been given back, and a process that
asks for a hundred bytes. -/
def crowded : Except Fault (Tenants × Generator) := do
  let state ← runs Tenants.step Tenants.init
    [arriveSized 1 512, arriveSized 2 256, arriveSized 3 128, arriveSized 4 128,
      .exit 3 2]
  let (heap, node) := createNode Mem.empty waiter
  let (heap, list) ← addNodeToBack heap createLinkedList node
  pure (state,
    { manager := state.manager
      waitingList := { heap := heap, list := list }
      clkPid := 100
      schPid := 101
      messages := [] })

/-- That state meets the assumptions on the branch, whichever of its pids exit. -/
private theorem crowded_meets {state : Tenants} {generator : Generator}
    (made : crowded = .ok (state, generator)) :
    generator.manager.buddy.Reachable ∧
      Owners generator.manager state.alive ∧
      ∃ waiting, ListAt generator.waitingList.heap generator.waitingList.list
          waiting ∧
        ∀ entry ∈ waiting, 1 ≤ entry.2.memorySize := by
  obtain ⟨state', run, rest⟩ := bind_eq_ok.mp made
  obtain ⟨heap', list', added, listAt⟩ :=
    addNodeToBack_spec (createLinkedList_listAt Mem.empty) waiter
  obtain ⟨⟨heap'', list''⟩, added', ends⟩ := bind_eq_ok.mp rest
  cases added.symm.trans added'
  cases ends
  obtain ⟨reachable, owners⟩ :=
    Tenants.owners_of_run (by decide +kernel) run
  refine ⟨reachable, owners, _, listAt, ?_⟩
  intro entry member
  rw [List.nil_append, List.mem_singleton] at member
  rw [member]
  decide

/-- A child exits between the allocation and `fork_and_send`. -/
theorem handed_block_sample :
    ∃ state generator searched found,
      crowded = .ok (state, generator) ∧
      waitingSearch generator [] [] = .ok (searched, found) ∧
      ∀ waitedFit fit, found = some (waitedFit, fit) →
        ∃ handed handover,
          waitingAllocate searched waitedFit fit [(5, 3)] =
            .ok (handed, handover) := by
  have alive : (do
      let made ← crowded
      pure made.1.alive) = Except.ok [4, 3, 1] := by
    decide +kernel
  obtain ⟨⟨state, generator⟩, made, ends⟩ := bind_eq_ok.mp alive
  obtain ⟨reachable, owners, waiting, listAt, sizes⟩ := crowded_meets made
  have same : state.alive = [4, 3, 1] := Except.ok.inj ends
  rw [same] at owners
  obtain ⟨searched, found, search, handed⟩ :=
    handed_block_iff generator waiting [] [] [(5, 3)] reachable listAt sizes
      (owners.subset (by decide) (by decide))
  refine ⟨state, generator, searched, found, made, search, ?_⟩
  intro waitedFit fit some
  obtain ⟨_, handed, handover, _, allocate, _⟩ := handed waitedFit fit some
  exact ⟨handed, handover, allocate⟩

/-- The live processes of that state, and the block allocated and the block
handed over when process 3 exits between the search and the allocation. -/
private def crowdedHandover :
    Except Fault (List Int × Option (Option Addr × Addr)) := do
  let (state, generator) ← crowded
  let (searched, found) ← waitingSearch generator [] [(5, 3)]
  match found with
  | none => pure (state.alive, none)
  | some (waitedFit, fit) => do
      let (_, handover) ← waitingAllocate searched waitedFit fit []
      pure (state.alive,
        some (handover.allocatedBlock, handover.fitMemoryBlock))

/-- A child that exits between the search and the allocation leaves a smaller
block that fits; that one is allocated, and the other one handed over. -/
theorem handed_block_differs :
    ¬ ∀ (generator : Generator) (waiting : List (Addr × Process))
      (first second third : List (Int × Int)),
      generator.manager.buddy.Reachable →
      ListAt generator.waitingList.heap generator.waitingList.list waiting →
      (∀ entry ∈ waiting, 1 ≤ entry.2.memorySize) →
      Owners generator.manager ((first ++ second ++ third).map Prod.snd) →
      ∀ searched waitedFit fit handed handover,
        waitingSearch generator first second =
          .ok (searched, some (waitedFit, fit)) →
        waitingAllocate searched waitedFit fit third = .ok (handed, handover) →
        handover.allocatedBlock = some handover.fitMemoryBlock := by
  intro always
  have replay : crowdedHandover = .ok ([4, 3, 1], some (some 2, 1)) := by
    decide +kernel
  obtain ⟨⟨state, generator⟩, made, rest⟩ := bind_eq_ok.mp replay
  obtain ⟨⟨searched, found⟩, search, rest⟩ := bind_eq_ok.mp rest
  cases found with
  | none => simp [pure_eq_ok] at rest
  | some pair =>
      obtain ⟨waitedFit, fit⟩ := pair
      obtain ⟨⟨handed, handover⟩, allocate, ends⟩ := bind_eq_ok.mp rest
      simp only [pure_eq_ok, Except.ok.injEq, Prod.mk.injEq,
        Option.some.injEq] at ends
      obtain ⟨alive, allocated, given⟩ := ends
      obtain ⟨reachable, owners, waiting, listAt, sizes⟩ := crowded_meets made
      rw [alive] at owners
      have same := always generator waiting [] [(5, 3)] [] reachable listAt
        sizes (owners.subset (by decide) (by decide)) searched waitedFit fit
        handed handover search allocate
      rw [allocated, given] at same
      cases same

end OsSim
