/-
Module: OsSim.Library.Greedy
Purpose: Serving a waiting line greedily: again and again the earliest request
  that can be granted leaves the line, until no request in it can be.
Trusted boundary: none
Main exports:
  takeEarliest, Outcome, drain, takeEarliest_cases, drain_nil, drain_cons,
  drain_sublist, drain_refused
-/
import Mathlib.Data.List.Basic

namespace Greedy

variable {σ α β γ : Type*}

/-- The earliest request of the line that is granted, with what it is granted and
the line without it. -/
def takeEarliest (grant : α → Option γ) : List α → Option (α × γ × List α)
  | [] => none
  | a :: rest =>
      match grant a with
      | some granted => some (a, granted, rest)
      | none =>
          (takeEarliest grant rest).map fun found =>
            (found.1, found.2.1, a :: found.2.2)

/-- The requests that were granted, in order and each with what it got, the rest
of the line, and the state of the server. -/
structure Outcome (σ α β : Type*) where
  served : List (α × β)
  rest : List α
  final : σ

/-- Serve at most so many requests of the line. -/
def drain (grant : σ → α → Option (σ × β)) : Nat → σ → List α → Outcome σ α β
  | 0, state, line => { served := [], rest := line, final := state }
  | bound + 1, state, line =>
      match takeEarliest (grant state) line with
      | none => { served := [], rest := line, final := state }
      | some (a, (state', granted), rest) =>
          let outcome := drain grant bound state' rest
          { outcome with served := (a, granted) :: outcome.served }

section TakeEarliest

variable {grant : α → Option γ}

theorem takeEarliest_none {line : List α} (refused : ∀ a ∈ line, grant a = none) :
    takeEarliest grant line = none := by
  induction line with
  | nil => rfl
  | cons a rest ih =>
      rw [takeEarliest, refused a List.mem_cons_self,
        ih fun b member => refused b (List.mem_cons_of_mem a member)]
      rfl

theorem takeEarliest_middle {left right : List α} {a : α} {granted : γ}
    (refused : ∀ b ∈ left, grant b = none) (grants : grant a = some granted) :
    takeEarliest grant (left ++ a :: right) =
      some (a, granted, left ++ right) := by
  induction left with
  | nil => rw [List.nil_append, takeEarliest, grants, List.nil_append]
  | cons b rest ih =>
      rw [List.cons_append, takeEarliest, refused b List.mem_cons_self,
        ih fun c member => refused c (List.mem_cons_of_mem b member)]
      rfl

/-- Either every request is refused, or the line has an earliest one that is
granted. -/
theorem takeEarliest_cases (grant : α → Option γ) (line : List α) :
    (∀ a ∈ line, grant a = none) ∨
      ∃ left a right granted, line = left ++ a :: right ∧
        (∀ b ∈ left, grant b = none) ∧ grant a = some granted := by
  induction line with
  | nil => exact Or.inl (fun _ member => absurd member List.not_mem_nil)
  | cons a rest ih =>
      cases grants : grant a with
      | some granted =>
          exact Or.inr ⟨[], a, rest, granted, rfl,
            fun _ member => absurd member List.not_mem_nil, grants⟩
      | none =>
          rcases ih with refused | ⟨left, b, right, granted, split, refused, found⟩
          · exact Or.inl (List.forall_mem_cons.mpr ⟨grants, refused⟩)
          · refine Or.inr ⟨a :: left, b, right, granted, ?_,
              List.forall_mem_cons.mpr ⟨grants, refused⟩, found⟩
            rw [split, List.cons_append]

end TakeEarliest

section Drain

variable {grant : σ → α → Option (σ × β)}

/-- Where every request is refused nothing happens. -/
theorem drain_nil (bound : Nat) {state : σ} {line : List α}
    (refused : ∀ a ∈ line, grant state a = none) :
    drain grant bound state line =
      { served := [], rest := line, final := state } := by
  cases bound with
  | zero => rfl
  | succ bound => rw [drain, takeEarliest_none refused]

/-- The earliest request that is granted is served first. -/
theorem drain_cons (bound : Nat) {state state' : σ} {left right : List α} {a : α}
    {granted : β} (refused : ∀ b ∈ left, grant state b = none)
    (grants : grant state a = some (state', granted)) :
    drain grant (bound + 1) state (left ++ a :: right) =
      { drain grant bound state' (left ++ right) with
        served := (a, granted) ::
          (drain grant bound state' (left ++ right)).served } := by
  rw [drain, takeEarliest_middle refused grants]

/-- Serving keeps the order of those who are not served. -/
theorem drain_sublist (bound : Nat) (state : σ) (line : List α) :
    (drain grant bound state line).rest.Sublist line := by
  induction bound generalizing state line with
  | zero => exact List.Sublist.refl line
  | succ bound ih =>
      rcases takeEarliest_cases (grant state) line with
        refused | ⟨left, a, right, ⟨state', granted⟩, rfl, refused, grants⟩
      · rw [drain_nil _ refused]
      · rw [drain_cons bound refused grants]
        exact (ih state' (left ++ right)).trans
          (List.Sublist.append_left (List.sublist_cons_self a right) left)

/-- As many turns as there are requests are enough: in the end every request
that is left is refused. -/
theorem drain_refused (bound : Nat) (state : σ) (line : List α)
    (enough : line.length ≤ bound) :
    ∀ a ∈ (drain grant bound state line).rest,
      grant (drain grant bound state line).final a = none := by
  induction bound generalizing state line with
  | zero =>
      have empty := List.length_eq_zero_iff.mp (Nat.le_zero.mp enough)
      subst empty
      intro a member
      cases member
  | succ bound ih =>
      rcases takeEarliest_cases (grant state) line with
        refused | ⟨left, a, right, ⟨state', granted⟩, rfl, refused, grants⟩
      · rw [drain_nil _ refused]
        exact refused
      · rw [drain_cons bound refused grants]
        apply ih
        simp only [List.length_append, List.length_cons] at enough ⊢
        omega

end Drain

end Greedy
