/-
Module: OsSim.OldestFit
Purpose: The search of `get_oldest_fit` over a waiting list whose nodes hold
  processes, or pointers to them.
Trusted boundary: human-reviewed translation
Main exports:
  oldestFit, Fits, FitsAt, oldestFit_spec, getOldestFit_spec
-/
import OsSim.MemoryManager

namespace OsSim

open PointerMemory
open DoublyLinked

variable {α : Type}

/-- Loop of `get_oldest_fit` from `current` on.  `process` reads the process that
the `data` of a node stands for. -/
def oldestFitSearch (manager : MemoryManager) (process : α → Except Fault Process)
    (heap : Mem (Node α)) (list : LinkedList) :
    Nat → Option Addr → Except Fault (Mem (Node α) × LinkedList × Option α)
  | _, none => .ok (heap, list, none)
  | 0, some _ => .error .outOfFuel
  | fuel + 1, some current => do
      let node ← deref heap current
      let proc ← process node.data
      match ← getSmallestBlockAvailable manager.heap (some manager.memory)
          proc.memorySize with
      | some fitBlock => do
          let _ ← deref manager.heap fitBlock
          let (heap, list) ← removeNode heap list current
          pure (heap, list, some node.data)
      | none => oldestFitSearch manager process heap list fuel node.next

/-- `get_oldest_fit`, for nodes of any kind. -/
def oldestFit (manager : MemoryManager) (process : α → Except Fault Process)
    (heap : Mem (Node α)) (list : LinkedList) :
    Except Fault (Mem (Node α) × LinkedList × Option α) :=
  if list.size = 0 then
    .ok (heap, list, none)
  else
    oldestFitSearch manager process heap list heap.cells.length list.head

/-- Some free block is large enough for the process. -/
def Fits (nodes : List (Addr × Tile)) (process : Process) : Prop :=
  ∃ node ∈ nodes, node.2.allocated = 0 ∧ process.memorySize ≤ node.2.size

/-- Some free block is large enough for the process that an object stands for. -/
def FitsAt (process : α → Except Fault Process) (nodes : List (Addr × Tile))
    (object : α) : Prop :=
  ∃ proc, process object = .ok proc ∧ Fits nodes proc

/-- A search finds no block exactly when none fits. -/
theorem not_fits_iff {nodes : List (Addr × Tile)} {process : Process} :
    ¬ Fits nodes process ↔ Best process.memorySize nodes none := by
  simp [Fits, Best]

/-- A block that a search finds fits. -/
theorem Best.fits {nodes : List (Addr × Tile)} {process : Process}
    {node : Addr × Tile} (best : Best process.memorySize nodes (some node)) :
    node ∈ nodes ∧ Fits nodes process := by
  obtain ⟨left, right, split, first⟩ := best
  have inside : node ∈ nodes := by simp [split]
  exact ⟨inside, node, inside, first.free, first.fits⟩

private theorem oldestFitSearch_spec {manager : MemoryManager}
    {process : α → Except Fault Process} {nodes : List (Addr × Tile)}
    (blocks : BlocksAt manager.heap manager.memory nodes)
    {heap : Mem (Node α)} {list : LinkedList} (seen : List (Addr × α))
    {rest : List (Addr × α)} (listAt : ListAt heap list (seen ++ rest))
    (readable : ∀ entry ∈ rest, ∃ proc, process entry.2 = .ok proc)
    (unfit : ∀ entry ∈ seen, ¬ FitsAt process nodes entry.2) {fuel : Nat}
    (enough : rest.length ≤ fuel) :
    (oldestFitSearch manager process heap list fuel (firstAddr none rest) =
        .ok (heap, list, none) ∧
      ∀ entry ∈ seen ++ rest, ¬ FitsAt process nodes entry.2) ∨
      ∃ heap' list' left entry right,
        oldestFitSearch manager process heap list fuel (firstAddr none rest) =
          .ok (heap', list', some entry.2) ∧
        seen ++ rest = left ++ entry :: right ∧
        (∀ older ∈ left, ¬ FitsAt process nodes older.2) ∧
        FitsAt process nodes entry.2 ∧ ListAt heap' list' (left ++ right) := by
  induction rest generalizing seen fuel with
  | nil =>
      refine Or.inl ⟨?_, by simpa using unfit⟩
      cases fuel <;> rfl
  | cons entry rest ih =>
      cases fuel with
      | zero => simp at enough
      | succ fuel =>
          obtain ⟨_, ⟨node, live, data, _, next⟩, _⟩ :=
            seg_append.mp listAt.linked.seg
          have object : node.data = entry.2 := data
          have following : node.next = firstAddr none rest := next
          obtain ⟨proc, read⟩ := readable entry (by simp)
          obtain ⟨best, search, isBest⟩ :=
            getSmallestBlockAvailable_spec blocks proc.memorySize
          rw [firstAddr_cons, oldestFitSearch, deref_of_load live, ok_bind,
            object, read, ok_bind, search, ok_bind]
          cases best with
          | none =>
              have regroup : seen ++ entry :: rest = (seen ++ [entry]) ++ rest
                  := by
                simp
              have unfit' : ∀ older ∈ seen ++ [entry],
                  ¬ FitsAt process nodes older.2 := by
                intro older member
                rcases List.mem_append.mp member with old | new
                · exact unfit older old
                · rw [List.mem_singleton.mp new]
                  rintro ⟨other, read', fits⟩
                  rw [read, Except.ok.injEq] at read'
                  exact not_fits_iff.mpr isBest (read' ▸ fits)
              rw [regroup] at listAt ⊢
              rw [Option.map_none, following]
              exact ih (seen ++ [entry]) listAt
                (fun older member => readable older (by simp [member])) unfit'
                (Nat.le_of_succ_le_succ enough)
          | some found =>
              obtain ⟨inside, fits⟩ := isBest.fits
              obtain ⟨block, loaded, _⟩ := blocks.load inside
              obtain ⟨heap', list', removed, listAt'⟩ := removeNode_spec listAt
              refine Or.inr ⟨heap', list', seen, entry, rest, ?_, rfl, unfit,
                ⟨proc, read, fits⟩, listAt'⟩
              simp only [Option.map_some, deref_of_load loaded, ok_bind,
                removed, pure_eq_ok]

/-- `get_oldest_fit` takes the first waiting process out of the list that some
free block fits, and changes nothing when there is none. -/
theorem oldestFit_spec {manager : MemoryManager}
    {process : α → Except Fault Process} {nodes : List (Addr × Tile)}
    (blocks : BlocksAt manager.heap manager.memory nodes)
    {heap : Mem (Node α)} {list : LinkedList} {waiting : List (Addr × α)}
    (listAt : ListAt heap list waiting)
    (readable : ∀ entry ∈ waiting, ∃ proc, process entry.2 = .ok proc) :
    (oldestFit manager process heap list = .ok (heap, list, none) ∧
      ∀ entry ∈ waiting, ¬ FitsAt process nodes entry.2) ∨
      ∃ heap' list' left entry right,
        oldestFit manager process heap list =
          .ok (heap', list', some entry.2) ∧
        waiting = left ++ entry :: right ∧
        (∀ older ∈ left, ¬ FitsAt process nodes older.2) ∧
        FitsAt process nodes entry.2 ∧ ListAt heap' list' (left ++ right) := by
  rw [oldestFit]
  by_cases empty : list.size = 0
  · have none : waiting = [] := by
      rw [listAt.size] at empty
      exact List.length_eq_zero_iff.mp (Int.ofNat_eq_zero.mp empty)
    rw [if_pos empty]
    refine Or.inl ⟨rfl, ?_⟩
    rw [none]
    simp
  · rw [if_neg empty, listAt.head]
    exact oldestFitSearch_spec blocks [] listAt readable (by simp)
      listAt.linked.length_le

/-! ### Nodes that hold the processes themselves -/

/-- The result of a search, with the list as one value. -/
private def asWaitingList (found : Mem (Node Process) × LinkedList × Option Process) :
    WaitingList × Option Process :=
  ({ heap := found.1, list := found.2.1 }, found.2.2)

private theorem oldestFitLoop_eq (manager : MemoryManager)
    (waitingList : WaitingList) (fuel : Nat) (current : Option Addr) :
    oldestFitLoop manager waitingList fuel current =
      (oldestFitSearch manager .ok waitingList.heap waitingList.list fuel
        current).map asWaitingList := by
  induction fuel generalizing current with
  | zero => cases current <;> rfl
  | succ fuel ih =>
      cases current with
      | none => rfl
      | some current =>
          rw [oldestFitLoop, oldestFitSearch]
          cases deref waitingList.heap current with
          | error fault => rfl
          | ok node =>
              simp only [ok_bind]
              cases getSmallestBlockAvailable manager.heap
                  (some manager.memory) node.data.memorySize with
              | error fault => rfl
              | ok best =>
                  cases best with
                  | none => exact ih node.next
                  | some found =>
                      simp only [ok_bind]
                      cases deref manager.heap found with
                      | error fault => rfl
                      | ok block =>
                          simp only [ok_bind]
                          cases removeNode waitingList.heap waitingList.list
                            current <;> rfl

private theorem getOldestFit_eq (manager : MemoryManager)
    (waitingList : WaitingList) :
    getOldestFit manager waitingList =
      (oldestFit manager .ok waitingList.heap waitingList.list).map
        asWaitingList := by
  rw [getOldestFit, oldestFit]
  split
  · rfl
  · exact oldestFitLoop_eq ..

/-- `get_oldest_fit` takes the first waiting process out of the list that some
free block fits, and changes nothing when there is none. -/
theorem getOldestFit_spec {manager : MemoryManager}
    {nodes : List (Addr × Tile)}
    (blocks : BlocksAt manager.heap manager.memory nodes)
    {waitingList : WaitingList} {waiting : List (Addr × Process)}
    (listAt : ListAt waitingList.heap waitingList.list waiting) :
    (getOldestFit manager waitingList = .ok (waitingList, none) ∧
      ∀ entry ∈ waiting, ¬ Fits nodes entry.2) ∨
      ∃ waitingList' left entry right,
        getOldestFit manager waitingList = .ok (waitingList', some entry.2) ∧
        waiting = left ++ entry :: right ∧
        (∀ older ∈ left, ¬ Fits nodes older.2) ∧ Fits nodes entry.2 ∧
        ListAt waitingList'.heap waitingList'.list (left ++ right) := by
  have same : ∀ process : Process,
      FitsAt .ok nodes process ↔ Fits nodes process := by
    intro process
    simp [FitsAt]
  rw [getOldestFit_eq]
  rcases oldestFit_spec blocks listAt (fun entry _ => ⟨entry.2, rfl⟩) with
    ⟨run, unfit⟩ | ⟨heap', list', left, entry, right, run, split, older, fits,
      listAt'⟩
  · simp only [same] at unfit
    refine Or.inl ⟨?_, unfit⟩
    rw [run]
    rfl
  · simp only [same] at older fits
    refine Or.inr ⟨{ heap := heap', list := list' }, left, entry, right, ?_,
      split, older, fits, listAt'⟩
    rw [run]
    rfl

end OsSim
