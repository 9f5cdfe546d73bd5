/-
Module: OsSim.BuddyOwnership
Purpose: Histories of allocations of zero or more bytes and of deallocations,
  and when the block of a process stays its own until it is given back.
Trusted boundary: none
Main exports:
  OwnedMemory, OwnerCall, OwnedMemory.Legal, OwnedMemory.Exclusive,
  OwnedMemory.ZeroRefused, allocateMemory_zero, Ownership,
  exclusive_ownership_iff
-/
import OsSim.MemoryManager

namespace OsSim

open PointerMemory
open Tiling
open Dyadic
open Trace

/-- The memory manager, with the blocks that were returned to processes and not
deallocated since, each as it was when it was returned. -/
structure OwnedMemory where
  manager : MemoryManager
  owned : List (Addr × Tile)
deriving Repr, DecidableEq

/-- A request for memory, or the deallocation of a block that a process owns. -/
inductive OwnerCall where
  | allocate (size : Int)
  | deallocate (block : Addr)
deriving Repr, DecidableEq

namespace OwnedMemory

def init : OwnedMemory := { manager := initMemoryManager, owned := [] }

def step (state : OwnedMemory) : OwnerCall → Except Fault OwnedMemory
  | .allocate size => do
      let (manager, block) ← allocateProcessMemory state.manager size
      match block with
      | none => pure { state with manager := manager }
      | some block => do
          let b ← deref manager.heap block
          pure { manager := manager
                 owned := (block, b.tile) :: state.owned }
  | .deallocate block => do
      let heap ← deallocateMemory state.manager.memory state.manager.heap
        (some block)
      pure { manager := { state.manager with heap := heap }
             owned := state.owned.filter fun owner => owner.1 ≠ block }

/-- Requests are for zero or more bytes, and only owned blocks are given
back. -/
def Legal (state : OwnedMemory) : OwnerCall → Prop
  | .allocate size => 0 ≤ size
  | .deallocate block => block ∈ state.owned.map Prod.fst

instance (state : OwnedMemory) (call : OwnerCall) :
    Decidable (state.Legal call) :=
  match call with
  | .allocate _ => inferInstanceAs (Decidable (_ ≤ _))
  | .deallocate _ => inferInstanceAs (Decidable (_ ∈ _))

/-- No block has two owners; an owned block is in the list as it was when it was
returned, and no search finds it; no block is empty, and the sizes add up. -/
def Exclusive (state : OwnedMemory) : Prop :=
  ∃ nodes, state.manager.blocks = .ok nodes ∧
    (state.owned.map Prod.fst).Nodup ∧
    (∀ owner ∈ state.owned, owner ∈ nodes ∧
      ∀ size, getSmallestBlockAvailable state.manager.heap
        (some state.manager.memory) size ≠ .ok (some owner.1)) ∧
    (∀ node ∈ nodes, 1 ≤ node.2.size) ∧
    ((tiles nodes).map Tile.size).sum = maxSize

/-- The call returns, in a state with exclusive owners. -/
def KeepsExclusive (state : OwnedMemory) (call : OwnerCall) : Prop :=
  ∃ next, state.step call = .ok next ∧ next.Exclusive

/-- A request for zero bytes finds no free block. -/
def ZeroRefused (state : OwnedMemory) : OwnerCall → Prop
  | .allocate size => size = 0 →
      getSmallestBlockAvailable state.manager.heap
        (some state.manager.memory) 0 = .ok none
  | .deallocate _ => True

instance (state : OwnedMemory) (call : OwnerCall) :
    Decidable (state.ZeroRefused call) :=
  match call with
  | .allocate _ => inferInstanceAs (Decidable (_ → _))
  | .deallocate _ => inferInstanceAs (Decidable True)

end OwnedMemory

/-! ### A request for zero bytes -/

/-- The splitting loop ends at a block of the required order. -/
theorem splitLoop_exit {order : Int} {block : Addr} {fuel : Nat}
    {heap heap' : Mem Block}
    (run : splitLoop order block fuel heap = .ok heap') :
    ∃ b, heap'.load block = some b ∧ log2Floor b.size = order := by
  induction fuel generalizing heap with
  | zero =>
      rw [splitLoop] at run
      cases run
  | succ fuel ih =>
      rw [splitLoop] at run
      obtain ⟨b, read, rest⟩ := bind_eq_ok.mp run
      by_cases reached : log2Floor b.size = order
      · rw [if_neg (not_not.mpr reached), pure_eq_ok, Except.ok.injEq] at rest
        subst rest
        exact ⟨b, deref_eq_ok.mp read, reached⟩
      · rw [if_pos reached] at rest
        obtain ⟨middle, _, more⟩ := bind_eq_ok.mp rest
        exact ih more

/-- Only an empty block has the order that is computed for zero bytes. -/
theorem log2Floor_eq_intMin {size : Nat} (order : log2Floor size = log2Ceil 0) :
    size = 0 := by
  by_contra nonempty
  rw [log2Floor, if_neg nonempty, log2Ceil, if_pos (Int.le_refl 0)] at order
  rw [intMin] at order
  omega

/-- A block that is returned for zero bytes is empty. -/
theorem allocateMemory_zero {heap heap' : Mem Block} {memory block : Addr}
    (run : allocateMemory heap memory 0 = .ok (heap', some block)) :
    ∃ b, heap'.load block = some b ∧ b.size = 0 := by
  rw [allocateMemory] at run
  obtain ⟨found, _, rest⟩ := bind_eq_ok.mp run
  cases found with
  | none => simp at rest
  | some found =>
      obtain ⟨b, _, rest⟩ := bind_eq_ok.mp rest
      obtain ⟨middle, split, rest⟩ := bind_eq_ok.mp rest
      obtain ⟨last, mark, ends⟩ := bind_eq_ok.mp rest
      simp only [pure_eq_ok, Except.ok.injEq, Prod.mk.injEq,
        Option.some.injEq] at ends
      obtain ⟨rfl, rfl⟩ := ends
      obtain ⟨cell, loaded, order⟩ := splitLoop_exit split
      rw [update_of_load loaded, Except.ok.injEq] at mark
      subst mark
      exact ⟨_, Mem.load_put_self loaded _, log2Floor_eq_intMin order⟩

/-! ### The invariant

Up to the first request for zero bytes that is met the list is a good one, whose
allocated blocks are the owned ones, so every call keeps the owners exclusive.
The request that is met returns an empty block.  The condition of a run is thus
exact, and both directions need one step only.
-/

/-- The block list is a good one, and its allocated blocks are the owned ones. -/
structure Ownership (state : OwnedMemory) (nodes : List (Addr × Tile)) :
    Prop where
  buddy : BuddyInvariant state.manager.buddy nodes
  owned : state.owned.Perm (live nodes)

namespace Ownership

variable {state : OwnedMemory} {nodes : List (Addr × Tile)}

theorem initial :
    Ownership OwnedMemory.init
      [(initMemory.2, { start := 0, size := maxSize, allocated := 0 })] where
  buddy := BuddyInvariant.initial
  owned := by
    have none : live
        [(initMemory.2, { start := 0, size := maxSize, allocated := 0 })] =
          [] := by
      decide
    rw [none]
    exact List.Perm.refl []

/-- An owned block is in the list, and allocated. -/
theorem mem_owned (ownership : Ownership state nodes) {owner : Addr × Tile}
    (member : owner ∈ state.owned) :
    owner ∈ nodes ∧ owner.2.allocated ≠ 0 :=
  mem_live.mp (ownership.owned.mem_iff.mp member)

theorem exclusive (ownership : Ownership state nodes) : state.Exclusive := by
  refine ⟨nodes, ownership.buddy.blocks_eq, ?_, ?_, ?_, ?_⟩
  · exact (ownership.owned.map Prod.fst).nodup_iff.mpr
      (ownership.buddy.blocks.linked.nodup.sublist
        (List.filter_sublist.map Prod.fst))
  · intro owner member
    obtain ⟨inside, used⟩ := ownership.mem_owned member
    refine ⟨inside, ?_⟩
    intro size found
    obtain ⟨best, search, isBest⟩ :=
      getSmallestBlockAvailable_spec ownership.buddy.blocks size
    have same : Except.ok (best.map Prod.fst) = Except.ok (some owner.1) :=
      search.symm.trans found
    rw [Except.ok.injEq, Option.map_eq_some_iff] at same
    obtain ⟨node, rfl, place⟩ := same
    obtain ⟨left, right, split, first⟩ := isBest
    have equal := List.inj_on_of_nodup_map ownership.buddy.blocks.linked.nodup
      (by simp [split]) inside place
    exact used (equal ▸ first.free)
  · intro node member
    obtain ⟨k, power⟩ := (ownership.buddy.buddied.aligned node.2
      (List.mem_map_of_mem member)).order
    have size : node.2.size = 2 ^ k := power
    rw [size]
    exact Nat.one_le_two_pow
  · have sum := tiles_sum ownership.buddy.buddied.covered
    rw [Nat.zero_add] at sum
    exact sum

/-- A request for at least one byte, or for zero bytes that no block is free
for, returns and keeps the invariant. -/
theorem allocate (ownership : Ownership state nodes) {size : Int}
    (legal : state.Legal (.allocate size))
    (refused : state.ZeroRefused (.allocate size)) :
    ∃ next nodes', state.step (.allocate size) = .ok next ∧
      Ownership next nodes' := by
  have buddy := ownership.buddy
  have atLeast : 0 ≤ size := legal
  rcases Int.lt_or_eq_of_le atLeast with positive | zero
  · rcases buddy.allocate_live (show 1 ≤ size by omega) with
      ⟨run, _⟩ | ⟨heap', nodes', block, tile, run, _, kept, member, _, _, perm⟩
    · refine ⟨state, nodes, ?_, ownership⟩
      rw [OwnedMemory.step, allocateProcessMemory]
      change allocateMemory state.manager.heap state.manager.memory size = _
        at run
      rw [run]
      rfl
    · obtain ⟨b, loaded, payload⟩ := kept.blocks.load member
      refine ⟨{ manager := { state.manager with heap := heap' },
                owned := (block, b.tile) :: state.owned }, nodes', ?_, kept, ?_⟩
      · rw [OwnedMemory.step, allocateProcessMemory]
        change allocateMemory state.manager.heap state.manager.memory size = _
          at run
        rw [run]
        change (deref heap' block >>= _) = _
        rw [deref_of_load loaded]
        rfl
      · rw [payload]
        exact (ownership.owned.cons _).trans perm.symm
  · have none := refused zero.symm
    refine ⟨state, nodes, ?_, ownership⟩
    rw [OwnedMemory.step, allocateProcessMemory, allocateMemory, ← zero, none]
    rfl

/-- The deallocation of an owned block returns and keeps the invariant. -/
theorem deallocate (ownership : Ownership state nodes) {block : Addr}
    (legal : state.Legal (.deallocate block)) :
    ∃ next nodes', state.step (.deallocate block) = .ok next ∧
      Ownership next nodes' := by
  obtain ⟨⟨place, tile⟩, member, same⟩ := List.mem_map.mp legal
  have here : place = block := same
  subst here
  obtain ⟨inside, used⟩ := ownership.mem_owned member
  obtain ⟨after, nodes', run, kept, others⟩ := ownership.buddy.deallocate
    ((ownership.buddy.isAllocated_iff place).mpr ⟨tile, inside, used⟩)
  obtain ⟨heap', freed, ends⟩ := bind_eq_ok.mp run
  rw [pure_eq_ok, Except.ok.injEq] at ends
  subst ends
  refine ⟨{ manager := { state.manager with heap := heap' },
            owned := state.owned.filter fun owner => owner.1 ≠ place },
    nodes', ?_, kept, ?_⟩
  · rw [OwnedMemory.step]
    change deallocateMemory state.manager.memory state.manager.heap
      (some place) = _ at freed
    rw [freed]
    rfl
  · rw [others]
    exact ownership.owned.filter _

/-- A legal call returns and keeps the invariant, unless a request for zero
bytes finds a free block. -/
theorem call_total (ownership : Ownership state nodes) {call : OwnerCall}
    (legal : state.Legal call) (refused : state.ZeroRefused call) :
    ∃ next nodes', state.step call = .ok next ∧ Ownership next nodes' := by
  cases call with
  | allocate size => exact ownership.allocate legal refused
  | deallocate block => exact ownership.deallocate legal

end Ownership

/-- Where the owners are exclusive after a call, a request for zero bytes was
not met. -/
theorem zeroRefused_of_keepsExclusive {state : OwnedMemory}
    {nodes : List (Addr × Tile)} (ownership : Ownership state nodes)
    {call : OwnerCall} (kept : state.KeepsExclusive call) :
    state.ZeroRefused call := by
  cases call with
  | deallocate block => trivial
  | allocate size =>
      intro zero
      subst zero
      obtain ⟨best, search, _⟩ :=
        getSmallestBlockAvailable_spec ownership.buddy.blocks 0
      change getSmallestBlockAvailable state.manager.heap
        (some state.manager.memory) 0 = _ at search
      rw [search]
      cases best with
      | none => rfl
      | some node =>
          obtain ⟨next, stepped, nodes', _, _, owned, sizes, _⟩ := kept
          obtain ⟨⟨manager, block⟩, run, rest⟩ := bind_eq_ok.mp stepped
          obtain ⟨⟨heap', found⟩, served, ends⟩ := bind_eq_ok.mp run
          simp only [pure_eq_ok, Except.ok.injEq, Prod.mk.injEq] at ends
          obtain ⟨rfl, rfl⟩ := ends
          cases found with
          | none =>
              exfalso
              rw [allocateMemory, search] at served
              simp only [Option.map_some, ok_bind] at served
              obtain ⟨_, _, served⟩ := bind_eq_ok.mp served
              obtain ⟨_, _, served⟩ := bind_eq_ok.mp served
              obtain ⟨_, _, served⟩ := bind_eq_ok.mp served
              simp at served
          | some block =>
              obtain ⟨b, loaded, empty⟩ := allocateMemory_zero served
              simp only [deref_of_load loaded, ok_bind, pure_eq_ok,
                Except.ok.injEq] at rest
              subst rest
              have inside := (owned (block, b.tile) List.mem_cons_self).1
              have size : 1 ≤ b.size := sizes _ inside
              omega

/-- In a history of requests and deallocations every block stays its owner's
own, and no block is empty, exactly as long as no request for zero bytes finds a
free block. -/
theorem exclusive_ownership_iff (calls : List OwnerCall)
    (legal : Along OwnedMemory.step OwnedMemory.Legal OwnedMemory.init calls) :
    OwnedMemory.init.Exclusive ∧
      (Along OwnedMemory.step OwnedMemory.KeepsExclusive OwnedMemory.init
          calls ↔
        Along OwnedMemory.step OwnedMemory.ZeroRefused OwnedMemory.init
          calls) := by
  refine ⟨Ownership.initial.exclusive, ?_⟩
  apply Iff.symm
  apply along_congr_of_allowed (P := fun state => ∃ nodes, Ownership state nodes)
    ?_ ?_ ⟨_, Ownership.initial⟩ legal
  · rintro state call next ⟨nodes, ownership⟩ allowed refused stepped
    obtain ⟨next', nodes', stepped', kept⟩ :=
      ownership.call_total allowed refused
    rw [stepped, Except.ok.injEq] at stepped'
    exact ⟨nodes', stepped' ▸ kept⟩
  · rintro state call ⟨nodes, ownership⟩ allowed
    constructor
    · intro refused
      obtain ⟨next, nodes', stepped, kept⟩ :=
        ownership.call_total allowed refused
      exact ⟨next, stepped, kept.exclusive⟩
    · exact zeroRefused_of_keepsExclusive ownership

/-- A request for zero bytes is harmless while the whole memory is allocated. -/
theorem exclusive_ownership_full :
    OwnedMemory.init.Exclusive ∧
      (Along OwnedMemory.step OwnedMemory.KeepsExclusive OwnedMemory.init
          [.allocate 1024, .allocate 0, .deallocate 0] ↔
        Along OwnedMemory.step OwnedMemory.ZeroRefused OwnedMemory.init
          [.allocate 1024, .allocate 0, .deallocate 0]) :=
  exclusive_ownership_iff _ (by decide +kernel)

/-- A request for zero bytes from the empty heap takes a free block, and makes
it an empty one. -/
theorem exclusive_ownership_zero :
    ¬ ∀ calls : List OwnerCall,
      Along OwnedMemory.step OwnedMemory.Legal OwnedMemory.init calls →
      Along OwnedMemory.step OwnedMemory.KeepsExclusive OwnedMemory.init
        calls := by
  intro always
  have kept := (along_cons.mp (always [.allocate 0] (by decide +kernel))).1
  have refused := zeroRefused_of_keepsExclusive Ownership.initial kept rfl
  have found : getSmallestBlockAvailable initMemoryManager.heap
      (some initMemoryManager.memory) 0 = .ok (some initMemory.2) := by
    decide +kernel
  have never : getSmallestBlockAvailable initMemoryManager.heap
      (some initMemoryManager.memory) 0 = .ok none := refused
  rw [found] at never
  cases never

end OsSim
