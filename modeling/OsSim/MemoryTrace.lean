/-
Module: OsSim.MemoryTrace
Purpose: `memory.log` read line by line.  It shows who holds which stretch of the
  memory: what is allocated is a block of its own, and what is deallocated has
  been allocated before, to the byte.
Trusted boundary: none
Main exports:
  Booking, Booking.Lawful, Booking.Apart, Booking.read, MemoryManager.bookings,
  Creation.NewPids, Creation.Reached, Creation.Reached.shows, memory_log_replays
-/
import OsSim.ClearAndExit
import OsSim.MemoryAssignment
import OsSim.Library.Replay
import Mathlib.Data.List.Pairwise

namespace OsSim

open PointerMemory
open DoublyLinked
open Tiling
open Dyadic
open Trace
open Replay

/-- What a line of `memory.log` says about a stretch of memory, without the time
and the type of the line. -/
structure Booking where
  process : Int
  bytes : Int
  first : Int
  last : Int
deriving Repr, DecidableEq

namespace Booking

/-- The stretch is a block of the buddy system, and no smaller one holds the
bytes. -/
def Lawful (booking : Booking) : Prop :=
  0 ≤ booking.first ∧ booking.last < maxSize ∧
    ∃ k < 11, booking.last + 1 - booking.first = 2 ^ k ∧
      (2 ^ k : Int) ∣ booking.first ∧ booking.bytes ≤ 2 ^ k ∧
      (2 ^ k : Int) < 2 * booking.bytes

instance (booking : Booking) : Decidable booking.Lawful :=
  inferInstanceAs (Decidable (_ ∧ _ ∧ _))

/-- The stretches have no byte in common. -/
def Apart (booking other : Booking) : Prop :=
  booking.last < other.first ∨ other.last < booking.first

instance (booking other : Booking) : Decidable (booking.Apart other) :=
  inferInstanceAs (Decidable (_ ∨ _))

theorem Apart.symm {booking other : Booking} (apart : booking.Apart other) :
    other.Apart booking :=
  Or.symm apart

def ofLine (line : MemoryEvent) : Booking :=
  { process := line.process, bytes := line.bytes, first := line.first,
    last := line.last }

/-- Read one line.  What is allocated must be lawful and apart from all that is
held; what is deallocated must be held. -/
def read (held : List Booking) (line : MemoryEvent) : Option (List Booking) :=
  match line.type with
  | .allocated =>
      if (ofLine line).Lawful ∧ ∀ other ∈ held, (ofLine line).Apart other then
        some (held ++ [ofLine line])
      else none
  | .deallocated =>
      if ofLine line ∈ held then some (held.erase (ofLine line)) else none

/-- What the memory says about a process's tile. -/
def ofTile (process : Int) (tile : Tile) : Booking :=
  { process := process, bytes := tile.allocated, first := tile.start,
    last := tile.start + tile.size - 1 }

end Booking

/-- What the memory manager has booked for a pid. -/
def MemoryManager.booking (manager : MemoryManager) (pid : Int) :
    Option Booking :=
  match hashmapGet manager.memoryMap pid with
  | .ok (some record) =>
      (manager.heap.load record.memory).map fun block =>
        Booking.ofTile record.id block.tile
  | _ => none

/-- What the memory manager has booked for some pids. -/
def MemoryManager.bookings (manager : MemoryManager) (pids : List Int) :
    List Booking :=
  pids.filterMap manager.booking

/-- `fork` does not return the pid of the clock or of the scheduler. -/
def Creation.NewPids (c : Creation) : CreationEvent → Prop
  | .proceed _ _ pid => pid ≠ c.clkPid ∧ pid ≠ c.schPid
  | _ => True

instance (c : Creation) : ∀ event, Decidable (c.NewPids event)
  | .proceed _ _ _ => inferInstanceAs (Decidable (_ ∧ _))
  | .exit _ _ | .interrupt => inferInstanceAs (Decidable True)

/-- What the log shows as held is what is booked for the children, and the clock
and the scheduler are no children. -/
structure Booking.Shows (held : List Booking) (c : Creation) : Prop where
  booked : held.Perm (c.manager.bookings c.children)
  clock : c.clkPid ∉ c.children
  scheduler : c.schPid ∉ c.children

/-! ### Live blocks -/

namespace BuddyInvariant

variable {state : BuddyHeap} {nodes : List (Addr × Tile)}

/-- An allocated block can be booked. -/
theorem lawful (invariant : BuddyInvariant state nodes) {node : Addr × Tile}
    (member : node ∈ live nodes) (process : Int) :
    (Booking.ofTile process node.2).Lawful := by
  obtain ⟨inside, used⟩ := mem_live.mp member
  have inTiles : node.2 ∈ tiles nodes := List.mem_map_of_mem inside
  have aligned := invariant.buddied.aligned node.2 inTiles
  obtain ⟨tight, fits⟩ := invariant.fitted node inside used
  obtain ⟨_, bound⟩ := tiles_bounds invariant.buddied.covered inTiles
  obtain ⟨k, size⟩ := aligned.order
  have dvd := aligned.dvd
  simp only [Shape.stop, tileShape] at bound size dvd
  rw [size] at tight fits bound dvd
  have small : k < 11 := by
    by_contra large
    have most : 2 ^ 11 ≤ 2 ^ k :=
      Nat.pow_le_pow_right (by decide) (Nat.le_of_not_lt large)
    rw [maxSize] at bound
    omega
  have power : ((2 ^ k : Nat) : Int) = (2 : Int) ^ k := by push_cast; rfl
  refine ⟨Int.natCast_nonneg _, ?_, k, small, ?_, ?_, ?_, ?_⟩
  · simp only [Booking.ofTile, size]
    omega
  · simp only [Booking.ofTile, size, ← power]
    omega
  · rw [← power]
    exact Int.natCast_dvd_natCast.mpr dvd
  · rw [← power]
    exact fits
  · have twice : ((2 ^ k : Nat) : Int) < 2 * node.2.allocated := by omega
    rw [← power]
    exact twice

/-- Two blocks are booked apart. -/
theorem apart (invariant : BuddyInvariant state nodes)
    {one other : Addr × Tile} (first : one ∈ nodes) (second : other ∈ nodes)
    (different : one.1 ≠ other.1) (process process' : Int) :
    (Booking.ofTile process one.2).Apart (Booking.ofTile process' other.2) := by
  have inOrder := List.pairwise_map.mp
    (tiles_pairwise invariant.buddied.covered)
  have either : nodes.Pairwise fun one other =>
      one.2.start + one.2.size ≤ other.2.start ∨
        other.2.start + other.2.size ≤ one.2.start :=
    inOrder.imp fun before => Or.inl before
  have symmetric : Std.Symm fun one other : Addr × Tile =>
      one.2.start + one.2.size ≤ other.2.start ∨
        other.2.start + other.2.size ≤ one.2.start :=
    ⟨fun _ _ => Or.symm⟩
  have sides := either.forall first second
    (fun same => different (congrArg Prod.fst same))
  simp only [Booking.Apart, Booking.ofTile]
  omega

end BuddyInvariant

namespace MemoryManager

variable {manager manager' : MemoryManager} {pid : Int} {pids : List Int}

/-- Without a record nothing is booked. -/
theorem booking_none (look : hashmapGet manager.memoryMap pid = .ok none) :
    manager.booking pid = none := by
  rw [booking, look]

/-- With a record its block is. -/
theorem booking_some {nodes : List (Addr × Tile)} (record : ProcessMemory)
    {tile : Tile} (look : hashmapGet manager.memoryMap pid = .ok (some record))
    (blocks : BlocksAt manager.heap manager.memory nodes)
    (inside : (record.memory, tile) ∈ nodes) :
    manager.booking pid = some (Booking.ofTile record.id tile) := by
  obtain ⟨block, loaded, same⟩ := blocks.load inside
  have tileEq : block.tile = tile := same
  rw [booking, look]
  simp only [loaded, Option.map_some, tileEq]

/-- A booking of an owner is that of an allocated block. -/
theorem booking_inv {nodes : List (Addr × Tile)}
    (invariant : BuddyInvariant manager.buddy nodes)
    (owners : Owners manager pids) (member : pid ∈ pids) :
    (hashmapGet manager.memoryMap pid = .ok none ∧
        manager.booking pid = none) ∨
      ∃ record tile,
        hashmapGet manager.memoryMap pid = .ok (some record) ∧
        (record.memory, tile) ∈ live nodes ∧
        manager.booking pid = some (Booking.ofTile record.id tile) := by
  obtain ⟨found, look, allocated⟩ := owners.recorded pid member
  cases found with
  | none => exact Or.inl ⟨look, booking_none look⟩
  | some record =>
      obtain ⟨tile, inside, used⟩ :=
        (invariant.isAllocated_iff _).mp (allocated record rfl)
      exact Or.inr ⟨record, tile, look, mem_live.mpr ⟨inside, used⟩,
        booking_some record look invariant.blocks inside⟩

/-- What is booked for the owners stays so where their records and the tiles of
their blocks do. -/
theorem bookings_kept {nodes nodes' : List (Addr × Tile)}
    (invariant : BuddyInvariant manager.buddy nodes)
    (invariant' : BuddyInvariant manager'.buddy nodes')
    (owners : Owners manager pids)
    (map : ∀ pid ∈ pids, hashmapGet manager'.memoryMap pid =
      hashmapGet manager.memoryMap pid)
    (kept : ∀ node ∈ live nodes, OwnedBy manager pids node.1 → node ∈ nodes') :
    manager'.bookings pids = manager.bookings pids := by
  apply List.filterMap_congr
  intro pid member
  rcases booking_inv invariant owners member with
    ⟨look, none⟩ | ⟨record, tile, look, inside, some⟩
  · rw [none, booking_none ((map pid member).trans look)]
  · rw [some]
    exact booking_some record ((map pid member).trans look) invariant'.blocks
      (kept _ inside ⟨pid, member, record, look, rfl⟩)

/-- An allocation changes no booking. -/
theorem bookings_allocate {nodes : List (Addr × Tile)}
    (invariant : BuddyInvariant manager.buddy nodes)
    (owners : Owners manager pids) {size : Int} (positive : 1 ≤ size)
    {block : Option Addr}
    (run : allocateProcessMemory manager size = .ok (manager', block)) :
    manager'.bookings pids = manager.bookings pids ∧
      manager'.memoryLog = manager.memoryLog := by
  obtain ⟨heap, searched, rfl⟩ := allocateProcessMemory_inv run
  refine ⟨?_, rfl⟩
  rcases invariant.allocate_live positive with
    ⟨run', _⟩ | ⟨heap', nodes', block', tile, run', _, kept, _, _, _, grown⟩
  · have same := Except.ok.inj (searched.symm.trans run')
    rw [Prod.mk.injEq] at same
    rw [same.1]
    rfl
  · have same := Except.ok.inj (searched.symm.trans run')
    rw [Prod.mk.injEq] at same
    obtain ⟨rfl, _⟩ := same
    refine bookings_kept invariant kept owners (fun _ _ => rfl) ?_
    intro node member _
    exact (mem_live.mp (grown.mem_iff.mpr (List.mem_cons_of_mem _ member))).1

end MemoryManager

/-! ### What a call writes -/

/-- What `log_memory_event` writes about a block. -/
def Block.line (block : Block) (clk id : Int) (type : MemoryEventType) :
    MemoryEvent :=
  { time := clk, type := type, bytes := block.allocated, process := id,
    first := block.start, last := block.start + block.size - 1 }

theorem Block.ofLine_line (block : Block) (clk id : Int)
    (type : MemoryEventType) :
    Booking.ofLine (block.line clk id type) = Booking.ofTile id block.tile :=
  rfl

/-- An assignment to a pid without a record changes nothing, when the map is
full, or adds a record and a line. -/
theorem assign_new (manager : MemoryManager) {manager' : MemoryManager}
    {held : Int → Option ProcessMemory} (process : PCB) {pcb : PCB} {block : Addr}
    {cell : Block} {clk : Int} (formed : manager.memoryMap.Formed)
    (holds : manager.memoryMap.Holds held) (unheld : held process.pid = none)
    (loaded : manager.heap.load block = some cell)
    (run : assignMemoryBlockToProcess manager clk process (some block) =
      .ok (manager', pcb)) :
    manager' = manager ∨ ∃ after,
      manager' = { manager with
        memoryMap := after
        memoryLog := manager.memoryLog ++
          [cell.line clk process.pdata.id .allocated] } ∧
      ∀ key, hashmapGet after key = .ok (Function.update held process.pid
        (some (assignedRecord process block)) key) := by
  obtain ⟨after, status, put, formed', _, holds', unchanged, full, room⟩ :=
    formed.hashmapPut_spec holds process.pid (assignedRecord process block)
  have possible : status = -1 ∨ status = 1 := by
    rcases Nat.lt_or_ge manager.memoryMap.size manager.memoryMap.capacity with
      free | none
    · obtain ⟨replaced, values, _⟩ := room free
      have notHeld : status ≠ 0 := fun zero => by
        simpa [unheld] using replaced.mp zero
      by_cases one : status = 1
      · exact Or.inr one
      · exact Or.inl (values notHeld one)
    · exact Or.inl (full none)
  rw [assignMemoryBlockToProcess_eq loaded clk put] at run
  rcases possible with refused | stored
  · rw [if_neg (by omega), Except.ok.injEq, Prod.mk.injEq,
      unchanged refused] at run
    exact Or.inl run.1.symm
  · rw [if_pos (by omega), Except.ok.injEq, Prod.mk.injEq] at run
    rw [if_neg (by omega)] at holds'
    exact Or.inr ⟨after, run.1.symm, formed'.hashmapGet_spec holds'⟩

/-- The exit of a pid without a record writes nothing; that of another one writes
the line that ends its booking, and keeps those of the other owners. -/
theorem MemoryManager.deallocate_writes {manager manager' : MemoryManager}
    {nodes : List (Addr × Tile)}
    (invariant : BuddyInvariant manager.buddy nodes) {clk pid status : Int}
    {rest : List Int} (owners : Owners manager (pid :: rest))
    (run : deallocateProcessMemory manager clk pid = .ok (manager', status)) :
    (manager.booking pid = none ∧ manager' = manager) ∨
      ∃ line, line.type = .deallocated ∧
        manager'.memoryLog = manager.memoryLog ++ [line] ∧
        manager.booking pid = some (Booking.ofLine line) ∧
        manager'.bookings rest = manager.bookings rest := by
  rcases booking_inv invariant owners List.mem_cons_self with
    ⟨look, none⟩ | ⟨record, tile, look, member, some⟩
  · rw [deallocateProcessMemory, look] at run
    simp only [ok_bind, pure_eq_ok, Except.ok.injEq, Prod.mk.injEq] at run
    exact Or.inl ⟨none, run.1.symm⟩
  · obtain ⟨cell, loaded, payload⟩ :=
      invariant.blocks.load (mem_live.mp member).1
    have found : deref manager.heap record.memory = .ok cell :=
      deref_of_load loaded
    obtain ⟨heap, nodes', given, kept, shrunk⟩ :=
      invariant.deallocate_live member
    have given' : deallocateMemory manager.memory manager.heap
        (Option.some record.memory) = .ok heap := given
    rw [deallocateProcessMemory, look] at run
    simp only [ok_bind, logMemoryEvent, found, given', pure_eq_ok,
      Except.ok.injEq, Prod.mk.injEq] at run
    have line := cell.ofLine_line clk record.id .deallocated
    have ofCell : cell.tile = tile := payload
    rw [ofCell] at line
    obtain ⟨rfl, _⟩ := run
    refine Or.inr ⟨cell.line clk record.id .deallocated, rfl, rfl,
      some.trans (by rw [line]), ?_⟩
    refine bookings_kept invariant kept owners.tail (fun _ _ => rfl) ?_
    rintro node live ⟨other, alive, record', look', place⟩
    rcases List.mem_cons.mp (shrunk.mem_iff.mp live) with same | stays
    · have block : record'.memory = record.memory :=
        place.trans (congrArg Prod.fst same)
      have one := owners.distinct other (List.mem_cons_of_mem _ alive) pid
        List.mem_cons_self record' record look' look block
      exact absurd (one ▸ alive) (List.nodup_cons.mp owners.nodup).1
    · exact (mem_live.mp stays).1

namespace Creation

variable {c next : Creation}

/-- An allocation and the `fork_and_send` behind it book nothing, when the map is
full, or write the line that books the block for the child. -/
theorem handover_writes {prior manager manager' : MemoryManager}
    {held : Int → Option ProcessMemory} {process : Process} {block : Addr}
    (hosted : Hosted (c.tenants prior) held)
    (positive : 1 ≤ process.memorySize) {clk pid : Int}
    (fresh : 0 < pid ∧ pid ∉ c.forked)
    (allocated : allocateProcessMemory prior process.memorySize =
      .ok (manager, some block))
    (assigns : Assigns manager clk pid process block manager') :
    (manager'.memoryLog = prior.memoryLog ∧
        manager'.bookings (pid :: c.children) = prior.bookings c.children) ∨
      ∃ line, line.type = .allocated ∧
        manager'.memoryLog = prior.memoryLog ++ [line] ∧
        manager'.bookings (pid :: c.children) =
          Booking.ofLine line :: prior.bookings c.children ∧
        (Booking.ofLine line).Lawful ∧
        ∀ other ∈ prior.bookings c.children,
          (Booking.ofLine line).Apart other := by
  have forked : pid ≠ -1 := by
    have positive := fresh.1
    omega
  have unheld : held pid = none := by
    by_contra some
    exact fresh.2 (hosted.known _ some)
  have notChild : pid ∉ c.children := fun child =>
    fresh.2 (hosted.admitted _ child)
  have owners : Owners prior c.children := hosted.owners
  have reachable : prior.buddy.Reachable := hosted.reachable
  have before : ∀ key, hashmapGet prior.memoryMap key = .ok (held key) :=
    hosted.formed.hashmapGet_spec hosted.holds
  obtain ⟨nodes, invariant⟩ := reachable.invariant
  obtain ⟨same, log⟩ :=
    MemoryManager.bookings_allocate invariant owners positive allocated
  obtain ⟨heap, searched, rfl⟩ := allocateProcessMemory_inv allocated
  rcases invariant.allocate_live positive with
    ⟨run, _⟩ | ⟨heap', nodes', block', tile, run, _, kept, inside, _, unowned,
      grown⟩
  · have clash := Except.ok.inj (searched.symm.trans run)
    simp at clash
  have equal := Except.ok.inj (searched.symm.trans run)
  rw [Prod.mk.injEq, Option.some.injEq] at equal
  obtain ⟨rfl, rfl⟩ := equal
  obtain ⟨cell, loaded, payload⟩ := kept.blocks.load inside
  have ofCell : cell.tile = tile := payload
  obtain ⟨pcb, assigned⟩ := assigns forked
  rcases assign_new { prior with heap := heap } (newPcb pid process)
      hosted.formed hosted.holds unheld loaded assigned with
    rfl | ⟨after, rfl, get⟩
  · refine Or.inl ⟨rfl, ?_⟩
    rw [← same, MemoryManager.bookings, List.filterMap_cons_none]
    · rfl
    · exact MemoryManager.booking_none ((before pid).trans (by rw [unheld]))
  · have line := cell.ofLine_line clk process.id .allocated
    rw [ofCell] at line
    refine Or.inr ⟨cell.line clk process.id .allocated, rfl, rfl, ?_, ?_, ?_⟩
    · rw [line, ← same, MemoryManager.bookings, List.filterMap_cons_some]
      · congr 1
        apply List.filterMap_congr
        intro other child
        have different : other ≠ pid := fun equal => notChild (equal ▸ child)
        have look : hashmapGet after other =
            hashmapGet prior.memoryMap other := by
          rw [get, before, newPcb, Function.update_of_ne different]
        rw [MemoryManager.booking, MemoryManager.booking, look]
      · have look : hashmapGet after pid =
            .ok (some { memory := block, id := process.id }) :=
          (get pid).trans (by rw [newPcb, Function.update_self]; rfl)
        exact MemoryManager.booking_some { memory := block, id := process.id }
          look kept.blocks inside
    · rw [line]
      exact kept.lawful (grown.mem_iff.mpr List.mem_cons_self) process.id
    · intro other booked
      obtain ⟨child, alive, its⟩ := List.mem_filterMap.mp booked
      rcases MemoryManager.booking_inv invariant owners alive with
        ⟨_, none⟩ | ⟨record, tile', _, live, some⟩
      · rw [none] at its
        cases its
      · rw [some, Option.some.injEq] at its
        rw [line, ← its]
        apply kept.apart inside
          (mem_live.mp (grown.mem_iff.mpr (List.mem_cons_of_mem _ live))).1
        intro equal
        exact unowned (List.mem_map.mpr ⟨_, live, equal.symm⟩)

/-- What the log shows stays so where nothing is written and no booking
changes. -/
theorem shown_keep
    (shown : Faithful Booking.read [] (·.manager.memoryLog) Booking.Shows c)
    (log : next.manager.memoryLog = c.manager.memoryLog)
    (bookings : next.manager.bookings next.children =
      c.manager.bookings c.children)
    (clk : next.clkPid = c.clkPid) (sch : next.schPid = c.schPid)
    (clock : c.clkPid ∉ c.children → c.clkPid ∉ next.children)
    (scheduler : c.schPid ∉ c.children → c.schPid ∉ next.children) :
    Faithful Booking.read [] (·.manager.memoryLog) Booking.Shows next := by
  refine shown.keep log ?_
  rintro held ⟨booked, clockOut, schedulerOut⟩
  exact ⟨bookings ▸ booked, clk ▸ clock clockOut,
    sch ▸ scheduler schedulerOut⟩

/-- A reaped child's booking ends. -/
theorem shown_reaped {held : Int → Option ProcessMemory}
    (hosted : Hosted (c.tenants c.manager) held)
    (shown : Faithful Booking.read [] (·.manager.memoryLog) Booking.Shows c)
    {clk pid : Int} {manager : MemoryManager}
    (known : pid ∈ c.children ∨ pid = c.clkPid ∨ pid = c.schPid)
    (run : c.handleChildExit clk pid = .ok { c with
      manager := manager, children := c.children.erase pid }) :
    Faithful Booking.read [] (·.manager.memoryLog) Booking.Shows
      { c with manager := manager, children := c.children.erase pid } := by
  have reachable : c.manager.buddy.Reachable := hosted.reachable
  have owners : Owners c.manager c.children := hosted.owners
  obtain ⟨nodes, invariant⟩ := reachable.invariant
  have others : ∀ {other}, other ∉ c.children →
      other ∉ c.children.erase pid :=
    fun out member => out (List.mem_of_mem_erase member)
  by_cases child : pid ≠ c.generator.clkPid ∧ pid ≠ c.generator.schPid
  · have alive : pid ∈ c.children := by
      rcases known with alive | clock | sched
      · exact alive
      · exact absurd clock child.1
      · exact absurd sched child.2
    have perm := List.perm_cons_erase alive
    have owners' : Owners c.manager (pid :: c.children.erase pid) :=
      owners.subset (perm.nodup_iff.mp owners.nodup) perm.symm.subset
    have given : ∃ status, deallocateProcessMemory c.manager clk pid =
        .ok (manager, status) := by
      obtain ⟨manager', status, _, given, _⟩ :=
        deallocateProcessMemory_spec invariant clk owners'
      have given' : deallocateProcessMemory c.generator.manager clk pid =
          .ok (manager', status) := given
      rw [handleChildExit, OsSim.handleChildExit, if_pos child, given'] at run
      have same : manager' = manager :=
        congrArg Creation.manager (Except.ok.inj run)
      exact ⟨status, same ▸ given⟩
    obtain ⟨status, given⟩ := given
    have listed : (c.manager.bookings c.children).Perm
        (c.manager.bookings (pid :: c.children.erase pid)) :=
      perm.filterMap _
    rcases MemoryManager.deallocate_writes invariant owners' given with
      ⟨none, rfl⟩ | ⟨line, type, log, some, kept⟩
    · refine shown.keep rfl ?_
      rintro shown ⟨booked, clock, scheduler⟩
      refine ⟨booked.trans (listed.trans ?_), others clock, others scheduler⟩
      rw [MemoryManager.bookings, List.filterMap_cons_none none]
      exact List.Perm.refl _
    · refine shown.write log ?_
      rintro shown ⟨booked, clock, scheduler⟩
      rw [MemoryManager.bookings, MemoryManager.bookings,
        List.filterMap_cons_some some] at listed
      have all := booked.trans listed
      have member : Booking.ofLine line ∈ shown :=
        all.mem_iff.mpr List.mem_cons_self
      refine ⟨shown.erase (Booking.ofLine line), ?_, ?_, others clock,
        others scheduler⟩
      · rw [Booking.read, type]
        exact if_pos member
      · rw [kept]
        exact ((List.perm_cons_erase member).symm.trans all).cons_inv
  · -- The clock and the scheduler have no block.
    rw [handleChildExit, OsSim.handleChildExit, if_neg child] at run
    have same : c.manager = manager :=
      congrArg Creation.manager (Except.ok.inj run)
    subst same
    refine shown.keep rfl ?_
    rintro shown ⟨booked, clock, scheduler⟩
    have absent : pid ∉ c.children := by
      rw [not_and_or, not_not, not_not] at child
      rcases child with isClock | isScheduler
      · exact isClock ▸ clock
      · exact isScheduler ▸ scheduler
    rw [List.erase_of_not_mem absent]
    exact ⟨booked, clock, scheduler⟩

/-- A new child's booking begins, unless its record is refused. -/
theorem shown_handover {prior manager manager' : MemoryManager}
    {held : Int → Option ProcessMemory} {process : Process} {block : Addr}
    (hosted : Hosted (c.tenants prior) held)
    (positive : 1 ≤ process.memorySize) {clk pid : Int}
    (fresh : 0 < pid ∧ pid ∉ c.forked) (new : pid ≠ c.clkPid ∧ pid ≠ c.schPid)
    (allocated : allocateProcessMemory prior process.memorySize =
      .ok (manager, some block))
    (assigns : Assigns manager clk pid process block manager')
    (log : c.manager.memoryLog = prior.memoryLog)
    (same : c.manager.bookings c.children = prior.bookings c.children)
    (shown : Faithful Booking.read [] (·.manager.memoryLog) Booking.Shows c)
    (manages : next.manager = manager') (children : next.children = pid :: c.children)
    (clock : next.clkPid = c.clkPid) (scheduler : next.schPid = c.schPid) :
    Faithful Booking.read [] (·.manager.memoryLog) Booking.Shows next := by
  have apart : c.clkPid ∉ c.children ∧ c.schPid ∉ c.children →
      next.clkPid ∉ next.children ∧ next.schPid ∉ next.children := by
    rintro ⟨clockOut, schedulerOut⟩
    rw [children, clock, scheduler]
    simp [clockOut, schedulerOut, new.1.symm, new.2.symm]
  rcases handover_writes hosted positive fresh allocated assigns with
    ⟨log', kept⟩ | ⟨line, type, log', kept, lawful, free⟩
  · refine shown.keep (by rw [manages, log', log]) ?_
    rintro shown ⟨booked, clockOut, schedulerOut⟩
    obtain ⟨clockOut', schedulerOut'⟩ := apart ⟨clockOut, schedulerOut⟩
    refine ⟨?_, clockOut', schedulerOut'⟩
    rw [manages, children, kept, ← same]
    exact booked
  · refine shown.write (by rw [manages, log', log]) ?_
    rintro shown ⟨booked, clockOut, schedulerOut⟩
    obtain ⟨clockOut', schedulerOut'⟩ := apart ⟨clockOut, schedulerOut⟩
    refine ⟨shown ++ [Booking.ofLine line], ?_, ?_, clockOut', schedulerOut'⟩
    · rw [Booking.read, type]
      refine if_pos ⟨lawful, ?_⟩
      intro other member
      exact free other (same ▸ booked.mem_iff.mp member)
    · rw [manages, children, kept, ← same]
      exact (List.perm_append_singleton _ _).trans (booked.cons _)

/-- Every event keeps the log one that can be read. -/
theorem shown_move {chains chains' : Chains} (housed : c.Housed)
    (sizes : ∀ process ∈ c.processList, 1 ≤ process.memorySize)
    (shown : Faithful Booking.read [] (·.manager.memoryLog) Booking.Shows c)
    {event : CreationEvent} (between : c.BetweenRounds event)
    (fresh : c.FreshPids event) (new : c.NewPids event)
    (move : CreationMove c chains event next chains') :
    Faithful Booking.read [] (·.manager.memoryLog) Booking.Shows next := by
  have positive : ∀ {p : Nat} {process : Process},
      c.processList[p]? = some process → 1 ≤ process.memorySize :=
    fun read => sizes _ (List.mem_of_getElem? read)
  cases move with
  | reaped _ run =>
      obtain ⟨held, hosted⟩ := (housed_between between).mp housed
      exact shown_reaped hosted shown fresh run
  | allocated statement read run same live =>
      simp only [Housed, statement] at housed
      obtain ⟨held, hosted⟩ := housed
      have reachable : c.manager.buddy.Reachable := hosted.reachable
      obtain ⟨nodes, invariant⟩ := reachable.invariant
      obtain ⟨bookings, log⟩ := MemoryManager.bookings_allocate invariant
        hosted.owners (positive read) run
      exact shown_keep shown log bookings rfl rfl id id
  | handedOver statement read posts assigns =>
      simp only [Housed, statement] at housed
      obtain ⟨prior, held, process, read', allocated, hosted⟩ := housed
      have equal := read'.symm.trans read
      rw [Option.some.injEq] at equal
      subst equal
      have reachable : prior.buddy.Reachable := hosted.reachable
      obtain ⟨nodes, invariant⟩ := reachable.invariant
      have owners : Owners prior c.children := hosted.owners
      obtain ⟨bookings, log⟩ := MemoryManager.bookings_allocate invariant
        owners (positive read) allocated
      exact shown_handover hosted (positive read) fresh new allocated assigns log
        bookings shown rfl (if_neg between) rfl rfl
  | admitted statement read due run assigns posts =>
      simp only [Housed, statement] at housed
      obtain ⟨held, hosted⟩ := housed
      exact shown_handover hosted (positive read) fresh new run assigns rfl rfl
        shown rfl (if_neg between) rfl rfl
  | _ => exact shown_keep shown rfl rfl rfl rfl id id

end Creation

/-! ### Whole runs

The reader of `memory.log` keeps what is held and refuses a line that does not fit
it.  What it holds is compared with what the memory manager has booked for the
children that have not been reaped: an admission that is recorded adds a booking
and writes the line for it, the exit of such a child ends the booking and writes
the other line.  Calls that book nothing, because the map is full or holds no
record, write nothing.
-/

/-- What is held is lawful, and no two stretches have a byte in common. -/
def Booking.Exclusive (held : List Booking) : Prop :=
  held.Pairwise Booking.Apart ∧ ∀ booking ∈ held, booking.Lawful

/-- Every line that can be read keeps the stretches exclusive. -/
theorem Booking.exclusive_read {held next : List Booking} {line : MemoryEvent}
    (exclusive : Exclusive held) (reads : Booking.read held line = some next) :
    Exclusive next := by
  obtain ⟨apart, lawful⟩ := exclusive
  rw [Booking.read] at reads
  split at reads
  · split at reads
    · next fits =>
        rw [Option.some.injEq] at reads
        subst reads
        refine ⟨List.pairwise_append.mpr
          ⟨apart, List.pairwise_singleton _ _, ?_⟩, ?_⟩
        · intro other member last isLast
          rw [List.mem_singleton.mp isLast]
          exact (fits.2 other member).symm
        · intro booking member
          rcases List.mem_append.mp member with older | newest
          · exact lawful booking older
          · exact List.mem_singleton.mp newest ▸ fits.1
    · cases reads
  · split at reads
    · rw [Option.some.injEq] at reads
      subst reads
      exact ⟨apart.sublist List.erase_sublist,
        fun booking member => lawful booking (List.mem_of_mem_erase member)⟩
    · cases reads

/-- A state that `create_processes` reaches, as the conditions on its inputs and on
its environment allow. -/
structure Creation.Reached (c : Creation) (processList : List Process)
    (clock clkPid schPid : Int) (events : List CreationEvent) : Prop where
  sizes : ∀ process ∈ processList, 1 ≤ process.memorySize
  allowed : Along Creation.step
    (fun c event => c.BetweenRounds event ∧ c.FreshPids event ∧ c.NewPids event)
    (.start processList clock clkPid schPid) events
  run : runs Creation.step (.start processList clock clkPid schPid) events = .ok c

/-- In every such state the log shows what is booked. -/
theorem Creation.Reached.shows {c : Creation} {processList : List Process}
    {clock clkPid schPid : Int} {events : List CreationEvent}
    (reached : c.Reached processList clock clkPid schPid events) :
    Faithful Booking.read [] (·.manager.memoryLog) Booking.Shows c := by
  have start : Faithful Booking.read [] (·.manager.memoryLog) Booking.Shows
      (Creation.start processList clock clkPid schPid) :=
    ⟨[], rfl, List.Perm.refl _, List.not_mem_nil, List.not_mem_nil⟩
  have kept : Creation.Followed processList c ∧
      (c.statement ≠ .exited → c.Housed) ∧
      Faithful Booking.read [] (·.manager.memoryLog) Booking.Shows c := by
    refine invariant_of_runs (P := fun c => Creation.Followed processList c ∧
      (c.statement ≠ .exited → c.Housed) ∧
      Faithful Booking.read [] (·.manager.memoryLog) Booking.Shows c)
      ?_ ⟨⟨rfl, rfl, fun _ => ⟨_, Admission.start processList clock clkPid
        schPid⟩⟩, fun _ => ⟨_, Hosted.initial⟩, start⟩ reached.allowed reached.run
    rintro c event next ⟨followed, housed, shown⟩ ⟨between, fresh, new⟩ stepped
    refine ⟨Creation.followed_step followed between stepped,
      Creation.housed_step reached.sizes followed housed between fresh stepped, ?_⟩
    by_cases exited : c.statement = .exited
    · rw [Creation.step_exited exited, Except.ok.injEq] at stepped
      exact stepped ▸ shown
    · obtain ⟨chains, admission⟩ := followed.2.2 exited
      obtain ⟨chains', move, _⟩ := admission.inOrder.move stepped
      exact Creation.shown_move (housed exited)
        (followed.1.symm ▸ reached.sizes) shown between fresh new move
  exact kept.2.2

/-- `memory.log` tells the truth about the memory.  In every state of a run of
`create_processes` the log can be read from its first line on: every stretch that
is allocated is a block of the least sufficient size and apart from all those
held, and every one that is deallocated was allocated before, for the same process
and with the same bounds, and has not been given back since.  What it shows as
held at its end are the blocks recorded for the children that have not been
reaped. -/
theorem memory_log_replays (processList : List Process)
    (sizes : ∀ process ∈ processList, 1 ≤ process.memorySize)
    (clock clkPid schPid : Int) (events : List CreationEvent)
    (allowed : Along Creation.step
      (fun c event => c.BetweenRounds event ∧ c.FreshPids event ∧
        c.NewPids event)
      (.start processList clock clkPid schPid) events) (c : Creation)
    (run : runs Creation.step (.start processList clock clkPid schPid) events =
      .ok c) :
    ∃ held, replay Booking.read [] c.manager.memoryLog = some held ∧
      held.Perm (c.manager.bookings c.children) ∧ Booking.Exclusive held := by
  have reached : c.Reached processList clock clkPid schPid events :=
    ⟨sizes, allowed, run⟩
  obtain ⟨held, reads, shows⟩ := reached.shows
  refine ⟨held, reads, shows.booked, ?_⟩
  exact replay_invariant (P := Booking.Exclusive)
    (fun _ _ _ => Booking.exclusive_read) ⟨List.Pairwise.nil, by simp⟩ reads

private def tenant (id arrivalTime memorySize : Int) : Process :=
  { id := id, arrivalTime := arrivalTime, runtime := 2, priority := 0,
    memorySize := memorySize }

/-- The second of two processes waits until the child of the first one has
exited, and then gets the block that was given back. -/
private def turnover : List CreationEvent :=
  List.replicate 3 (.proceed 0 0 10) ++ List.replicate 3 (.proceed 1 1 11) ++
    [.exit 3 10] ++ List.replicate 5 (.proceed 3 3 11)

theorem memory_log_replays_turnover :
    ∃ c held, runs Creation.step (.start [tenant 1 0 600, tenant 2 1 500] 0 2 3)
        turnover = .ok c ∧
      replay Booking.read [] c.manager.memoryLog = some held ∧
      held.Perm (c.manager.bookings c.children) ∧ Booking.Exclusive held := by
  have ends : (do
      let c ← runs Creation.step
        (.start [tenant 1 0 600, tenant 2 1 500] 0 2 3) turnover
      pure (decide (c.manager.memoryLog.length = 3))) = Except.ok true := by
    decide +kernel
  obtain ⟨c, run, _⟩ := bind_eq_ok.mp ends
  obtain ⟨held, shows⟩ := memory_log_replays [tenant 1 0 600, tenant 2 1 500]
    (by decide) 0 2 3 turnover (by decide +kernel) c run
  exact ⟨c, held, run, shows⟩

end OsSim
