/-
Module: OsSim.Library.Replay
Purpose: Reading a log line by line with a checker that may refuse a line, and
  what follows for a program that writes the log.
Trusted boundary: none
Main exports:
  replay, replay_append, replay_snoc, replay_invariant, Faithful,
  Faithful.keep, Faithful.write
-/
import Mathlib.Data.List.Basic

namespace Replay

variable {σ τ ℓ : Type*}

/-- Read a log from a state on.  A line that does not fit fails the whole log. -/
def replay (read : τ → ℓ → Option τ) : τ → List ℓ → Option τ
  | state, [] => some state
  | state, line :: lines => (read state line).bind fun next => replay read next lines

section

variable {read : τ → ℓ → Option τ} {state last : τ} {lines : List ℓ}

@[simp] theorem replay_nil (state : τ) : replay read state [] = some state := rfl

/-- A log that starts with a line is read from that line on. -/
theorem replay_cons {line : ℓ} :
    replay read state (line :: lines) = some last ↔
      ∃ next, read state line = some next ∧
        replay read next lines = some last := by
  rw [replay, Option.bind_eq_some_iff]

theorem replay_append {more : List ℓ} :
    replay read state (lines ++ more) = some last ↔
      ∃ middle, replay read state lines = some middle ∧
        replay read middle more = some last := by
  induction lines generalizing state with
  | nil => simp
  | cons line lines ih =>
      rw [List.cons_append, replay_cons]
      constructor
      · rintro ⟨next, first, rest⟩
        obtain ⟨middle, before, after⟩ := ih.mp rest
        exact ⟨middle, replay_cons.mpr ⟨next, first, before⟩, after⟩
      · rintro ⟨middle, before, after⟩
        obtain ⟨next, first, rest⟩ := replay_cons.mp before
        exact ⟨next, first, ih.mpr ⟨middle, rest, after⟩⟩

/-- A log that grew by one line is read up to there and one line further. -/
theorem replay_snoc {line : ℓ} :
    replay read state (lines ++ [line]) = some last ↔
      ∃ middle, replay read state lines = some middle ∧
        read middle line = some last := by
  rw [replay_append]
  constructor
  · rintro ⟨middle, before, after⟩
    obtain ⟨next, here, ends⟩ := replay_cons.mp after
    rw [replay_nil, Option.some.injEq] at ends
    exact ⟨middle, before, ends ▸ here⟩
  · rintro ⟨middle, before, here⟩
    exact ⟨middle, before, replay_cons.mpr ⟨last, here, rfl⟩⟩

/-- What every line keeps holds at the end of the log. -/
theorem replay_invariant {P : τ → Prop}
    (kept : ∀ state line next, P state → read state line = some next → P next)
    (holds : P state) (reads : replay read state lines = some last) : P last := by
  induction lines generalizing state with
  | nil =>
      rw [replay_nil, Option.some.injEq] at reads
      exact reads ▸ holds
  | cons line lines ih =>
      obtain ⟨next, first, rest⟩ := replay_cons.mp reads
      exact ih (kept state line next holds first) rest

end

/-- The log of a program's state can be read, and what it shows at its end is
related to that state. -/
def Faithful (read : τ → ℓ → Option τ) (start : τ) (log : σ → List ℓ)
    (shows : τ → σ → Prop) (state : σ) : Prop :=
  ∃ shown, replay read start (log state) = some shown ∧ shows shown state

namespace Faithful

variable {read : τ → ℓ → Option τ} {start : τ} {log : σ → List ℓ}
variable {shows : τ → σ → Prop} {state next : σ}

/-- A step that writes nothing keeps what the log shows. -/
theorem keep (faithful : Faithful read start log shows state)
    (same : log next = log state)
    (kept : ∀ shown, shows shown state → shows shown next) :
    Faithful read start log shows next := by
  obtain ⟨shown, reads, holds⟩ := faithful
  exact ⟨shown, same ▸ reads, kept shown holds⟩

/-- A step that writes a line has to write one that can be read there. -/
theorem write (faithful : Faithful read start log shows state) {line : ℓ}
    (written : log next = log state ++ [line])
    (follows : ∀ shown, shows shown state →
      ∃ shown', read shown line = some shown' ∧ shows shown' next) :
    Faithful read start log shows next := by
  obtain ⟨shown, reads, holds⟩ := faithful
  obtain ⟨shown', here, holds'⟩ := follows shown holds
  exact ⟨shown', written ▸ replay_snoc.mpr ⟨shown, reads, here⟩, holds'⟩

end Faithful

end Replay
