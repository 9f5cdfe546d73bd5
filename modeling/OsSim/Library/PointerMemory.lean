/-
Module: OsSim.Library.PointerMemory
Purpose: A memory of typed cells reached through pointers, with allocation,
  release, and the faults of a wrong access.
Trusted boundary: none
Main exports:
  Mem, Fault, deref, update, release, malloc, bind_eq_ok, deref_eq_ok
-/
import Mathlib.Data.List.Basic

namespace PointerMemory

/-- An address.  Addresses are object identities: a released one is never
handed out again, so a dangling pointer stays recognizable. -/
abbrev Addr := Nat

/-- Ways in which a pointer program can go wrong. -/
inductive Fault where
  | nullPointer
  | danglingPointer
  | outOfFuel
deriving Repr, DecidableEq

/-- A memory of cells of one type.  The cell at an address is `none` once it
has been released. -/
structure Mem (α : Type*) where
  cells : List (Option α)
deriving Repr, DecidableEq

/-! ### Sequencing of fallible operations -/

section Except

universe u
variable {φ α β : Type u}

@[simp] theorem ok_bind (value : α) (f : α → Except φ β) :
    (Except.ok value >>= f) = f value := rfl

@[simp] theorem error_bind (fault : φ) (f : α → Except φ β) :
    (Except.error fault >>= f) = .error fault := rfl

@[simp] theorem pure_eq_ok (value : α) :
    (pure value : Except φ α) = .ok value := rfl

/-- A sequence succeeds exactly when both of its parts do. -/
theorem bind_eq_ok {x : Except φ α} {f : α → Except φ β} {result : β} :
    (x >>= f) = .ok result ↔ ∃ value, x = .ok value ∧ f value = .ok result := by
  cases x with
  | ok value => simp
  | error fault => simp

end Except

namespace Mem

variable {α : Type*}

/-- The memory in which nothing has been allocated. -/
def empty : Mem α := ⟨[]⟩

/-- The cell at an address, if it is live. -/
def load (memory : Mem α) (address : Addr) : Option α :=
  memory.cells[address]?.join

/-- Overwrite the cell at an address. -/
def put (memory : Mem α) (address : Addr) (cell : α) : Mem α :=
  ⟨memory.cells.set address (some cell)⟩

/-- Allocate a new cell. -/
def malloc (memory : Mem α) (cell : α) : Mem α × Addr :=
  (⟨memory.cells ++ [some cell]⟩, memory.cells.length)

/-- Mark the cell at an address as released. -/
def drop (memory : Mem α) (address : Addr) : Mem α :=
  ⟨memory.cells.set address none⟩

/-! ### What a load sees after each operation -/

theorem lt_length_of_load {memory : Mem α} {address : Addr} {cell : α}
    (live : memory.load address = some cell) :
    address < memory.cells.length := by
  by_cases inside : address < memory.cells.length
  · exact inside
  · rw [load, List.getElem?_eq_none (Nat.le_of_not_lt inside)] at live
    simp at live

@[simp] theorem load_empty (address : Addr) :
    (empty : Mem α).load address = none := by
  simp [load, empty]

theorem load_put_self {memory : Mem α} {address : Addr} {old : α}
    (live : memory.load address = some old) (cell : α) :
    (memory.put address cell).load address = some cell := by
  simp [load, put, List.getElem?_set_self (lt_length_of_load live)]

theorem load_put_of_ne (memory : Mem α) {address other : Addr}
    (distinct : other ≠ address) (cell : α) :
    (memory.put address cell).load other = memory.load other := by
  simp [load, put, List.getElem?_set_ne (Ne.symm distinct)]

/-- Overwriting a cell hides nothing that the new cell has in common with the
old one. -/
theorem map_load_put {β : Type*} {memory : Mem α} {address : Addr} {old : α}
    (live : memory.load address = some old) {cell : α} {g : α → β}
    (same : g cell = g old) (other : Addr) :
    ((memory.put address cell).load other).map g =
      (memory.load other).map g := by
  by_cases here : other = address
  · rw [here, load_put_self live, live, Option.map_some, Option.map_some, same]
  · rw [load_put_of_ne _ here]

/-- Of two values put in the same place the second one stays. -/
theorem put_put (memory : Mem α) (address : Addr) (first second : α) :
    (memory.put address first).put address second = memory.put address second := by
  rw [put, put, put, List.set_set]

@[simp] theorem length_put (memory : Mem α) (address : Addr) (cell : α) :
    (memory.put address cell).cells.length = memory.cells.length :=
  List.length_set

@[simp] theorem length_malloc (memory : Mem α) (cell : α) :
    (memory.malloc cell).1.cells.length = memory.cells.length + 1 := by
  simp [malloc]

@[simp] theorem malloc_addr (memory : Mem α) (cell : α) :
    (memory.malloc cell).2 = memory.cells.length := rfl

theorem load_malloc_self (memory : Mem α) (cell : α) :
    (memory.malloc cell).1.load (memory.malloc cell).2 = some cell := by
  simp [load, malloc]

/-- An allocation leaves every live cell as it was. -/
theorem load_malloc_of_live {memory : Mem α} {address : Addr} {old : α}
    (live : memory.load address = some old) (cell : α) :
    (memory.malloc cell).1.load address = some old := by
  have bound := lt_length_of_load live
  simpa [load, malloc, List.getElem?_append_left bound] using live

/-- A newly allocated address was not live before. -/
theorem ne_malloc_of_live {memory : Mem α} {address : Addr} {old : α}
    (live : memory.load address = some old) (cell : α) :
    address ≠ (memory.malloc cell).2 :=
  Nat.ne_of_lt (lt_length_of_load live)

theorem load_malloc_of_ne (memory : Mem α) (cell : α) {address : Addr}
    (old : address ≠ (memory.malloc cell).2) :
    (memory.malloc cell).1.load address = memory.load address := by
  rcases Nat.lt_or_gt_of_ne old with inside | beyond
  · have bound : address < memory.cells.length := inside
    simp [load, malloc, List.getElem?_append_left bound]
  · have bound : memory.cells.length < address := beyond
    rw [load, load, malloc,
      List.getElem?_eq_none (by simpa using Nat.succ_le_of_lt bound),
      List.getElem?_eq_none (Nat.le_of_lt bound)]

theorem load_drop_of_ne (memory : Mem α) {address other : Addr}
    (distinct : other ≠ address) :
    (memory.drop address).load other = memory.load other := by
  simp [load, drop, List.getElem?_set_ne (Ne.symm distinct)]

theorem load_drop_self (memory : Mem α) (address : Addr) :
    (memory.drop address).load address = none := by
  rw [load, drop, List.getElem?_set]
  by_cases bound : address < memory.cells.length <;> simp [bound]

end Mem

/-! ### Checked access -/

variable {α : Type}

/-- Read through a pointer that is not NULL. -/
def deref (memory : Mem α) (address : Addr) : Except Fault α :=
  match memory.load address with
  | some cell => .ok cell
  | none => .error .danglingPointer

/-- Read through a pointer that may be NULL. -/
def derefPtr (memory : Mem α) : Option Addr → Except Fault α
  | some address => deref memory address
  | none => .error .nullPointer

/-- Change the cell behind a pointer that is not NULL. -/
def update (memory : Mem α) (address : Addr) (f : α → α) :
    Except Fault (Mem α) :=
  match memory.load address with
  | some cell => .ok (memory.put address (f cell))
  | none => .error .danglingPointer

/-- Change the cell behind a pointer, after the usual test `p != NULL`. -/
def updateIfPtr (memory : Mem α) (pointer : Option Addr) (f : α → α) :
    Except Fault (Mem α) :=
  match pointer with
  | some address => update memory address f
  | none => .ok memory

/-- Change the cell behind a pointer that may be NULL, without a test. -/
def updatePtr (memory : Mem α) (pointer : Option Addr) (f : α → α) :
    Except Fault (Mem α) :=
  match pointer with
  | some address => update memory address f
  | none => .error .nullPointer

/-- Release the cell behind a pointer that is not NULL. -/
def release (memory : Mem α) (address : Addr) : Except Fault (Mem α) :=
  match memory.load address with
  | some _ => .ok (memory.drop address)
  | none => .error .danglingPointer

theorem deref_of_load {memory : Mem α} {address : Addr} {cell : α}
    (live : memory.load address = some cell) :
    deref memory address = .ok cell := by
  simp [deref, live]

/-- A read that returns, returns a live cell. -/
theorem deref_eq_ok {memory : Mem α} {address : Addr} {cell : α} :
    deref memory address = .ok cell ↔ memory.load address = some cell := by
  rw [deref]
  cases memory.load address <;> simp

theorem update_of_load {memory : Mem α} {address : Addr} {cell : α}
    (live : memory.load address = some cell) (f : α → α) :
    update memory address f = .ok (memory.put address (f cell)) := by
  simp [update, live]

/-- On a pointer that is not NULL the test makes no difference. -/
theorem updatePtr_some (memory : Mem α) (address : Addr) (f : α → α) :
    updatePtr memory (some address) f =
      updateIfPtr memory (some address) f := rfl

/-- Writing through a pointer makes no other address live. -/
theorem live_of_updateIfPtr {memory memory' : Mem α} {pointer : Option Addr}
    {f : α → α} (written : updateIfPtr memory pointer f = .ok memory')
    {address : Addr} (live : memory'.load address ≠ none) :
    memory.load address ≠ none := by
  cases pointer with
  | none =>
      rw [updateIfPtr, Except.ok.injEq] at written
      rw [written]
      exact live
  | some target =>
      rw [updateIfPtr, update] at written
      cases found : memory.load target with
      | none => simp [found] at written
      | some cell =>
          simp only [found, Except.ok.injEq] at written
          rw [← written] at live
          by_cases same : address = target
          · rw [same, found]
            exact Option.some_ne_none cell
          · rw [Mem.load_put_of_ne memory same] at live
            exact live

theorem live_of_put {memory : Mem α} {target : Addr} {old cell : α}
    (loaded : memory.load target = some old) {address : Addr}
    (live : (memory.put target cell).load address ≠ none) :
    memory.load address ≠ none := by
  have written : updateIfPtr memory (some target) (fun _ => cell) =
      .ok (memory.put target cell) := update_of_load loaded _
  exact live_of_updateIfPtr written live

theorem release_of_load {memory : Mem α} {address : Addr} {cell : α}
    (live : memory.load address = some cell) :
    release memory address = .ok (memory.drop address) := by
  simp [release, live]

end PointerMemory
