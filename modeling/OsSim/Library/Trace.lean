/-
Module: OsSim.Library.Trace
Purpose: Runs of a partial step function, guarded runs, and the induction rules
  that carry an invariant from one step to a whole run.
Trusted boundary: none
Main exports:
  runs, Along, Throughout, along_of_forall, along_and, throughout_cons,
  runs_append_ok, along_append, invariant_of_runs, throughout_of_invariant,
  total_of_runs, invariant_of_steps, total_of_steps, along_congr,
  along_congr_of_allowed, along_iff_of_monotone, Along.of_invariant,
  throughout_iff_along, returns_iff_along
-/
import Mathlib.Data.List.Basic
import Mathlib.Order.Basic

namespace Trace

variable {σ ε φ : Type*}

/-- Perform the events of a list in order.  The first failing step fails the
whole run. -/
def runs (step : σ → ε → Except φ σ) : σ → List ε → Except φ σ
  | state, [] => .ok state
  | state, event :: events =>
      match step state event with
      | .ok next => runs step next events
      | .error fault => .error fault

/-- Every step a run takes satisfies `guard` at the state it starts from.  The
states after a failing step do not exist, so nothing is asked of them. -/
def Along (step : σ → ε → Except φ σ) (guard : σ → ε → Prop) :
    σ → List ε → Prop
  | _, [] => True
  | state, event :: events =>
      guard state event ∧
        match step state event with
        | .ok next => Along step guard next events
        | .error _ => True

/-- `P` holds in every state that a run goes through. -/
def Throughout (step : σ → ε → Except φ σ) (P : σ → Prop) (state : σ)
    (events : List ε) : Prop :=
  ∀ before, before <+: events → ∀ reached,
    runs step state before = .ok reached → P reached

section

variable {step : σ → ε → Except φ σ} {guard : σ → ε → Prop}

@[simp] theorem runs_nil (state : σ) : runs step state [] = .ok state := rfl

@[simp] theorem along_nil (state : σ) : Along step guard state [] := trivial

/-- A run that starts with one event performs its step first. -/
theorem runs_cons_ok {state last : σ} {event : ε} {events : List ε} :
    runs step state (event :: events) = .ok last ↔
      ∃ next, step state event = .ok next ∧
        runs step next events = .ok last := by
  rw [runs]
  cases step state event with
  | ok next => simp
  | error fault => simp

theorem along_cons {state : σ} {event : ε} {events : List ε} :
    Along step guard state (event :: events) ↔
      guard state event ∧
        ∀ next, step state event = .ok next →
          Along step guard next events := by
  rw [Along]
  cases step state event with
  | ok next => simp
  | error fault => simp

/-- Every run meets a guard that every step meets. -/
theorem along_of_forall (always : ∀ state event, guard state event)
    (state : σ) (events : List ε) : Along step guard state events := by
  induction events generalizing state with
  | nil => trivial
  | cons event events ih =>
      exact along_cons.mpr ⟨always state event, fun next _ => ih next⟩

/-- A run meets a condition on events that all its events meet. -/
theorem along_of_mem {condition : ε → Prop} {events : List ε}
    (all : ∀ event ∈ events, condition event) (state : σ) :
    Along step (fun _ event => condition event) state events := by
  induction events generalizing state with
  | nil => trivial
  | cons event events ih =>
      refine along_cons.mpr ⟨all event List.mem_cons_self, fun next _ => ?_⟩
      exact ih (fun later member => all later (List.mem_cons_of_mem _ member)) next

/-- A run meets two guards together exactly when it meets each of them. -/
theorem along_and {other : σ → ε → Prop} {state : σ} {events : List ε} :
    Along step (fun s e => guard s e ∧ other s e) state events ↔
      Along step guard state events ∧ Along step other state events := by
  induction events generalizing state with
  | nil => simp
  | cons event events ih =>
      simp only [along_cons, ih]
      constructor
      · rintro ⟨⟨first, second⟩, rest⟩
        exact ⟨⟨first, fun next stepped => (rest next stepped).1⟩,
          second, fun next stepped => (rest next stepped).2⟩
      · rintro ⟨⟨first, left⟩, second, right⟩
        exact ⟨⟨first, second⟩, fun next stepped =>
          ⟨left next stepped, right next stepped⟩⟩

/-- A run without events only has its first state. -/
theorem throughout_nil {P : σ → Prop} {state : σ} :
    Throughout step P state [] ↔ P state := by
  constructor
  · intro holds
    exact holds [] List.prefix_rfl state rfl
  · rintro holds before isPrefix reached run
    rw [List.prefix_nil.mp isPrefix, runs_nil, Except.ok.injEq] at run
    exact run ▸ holds

theorem throughout_cons {P : σ → Prop} {state : σ} {event : ε}
    {events : List ε} :
    Throughout step P state (event :: events) ↔
      P state ∧ ∀ next, step state event = .ok next →
        Throughout step P next events := by
  constructor
  · intro holds
    refine ⟨holds [] List.nil_prefix state rfl, ?_⟩
    intro next stepped before isPrefix reached run
    exact holds (event :: before) (List.cons_prefix_cons.mpr ⟨rfl, isPrefix⟩)
      reached (runs_cons_ok.mpr ⟨next, stepped, run⟩)
  · rintro ⟨first, rest⟩ before isPrefix reached run
    cases before with
    | nil =>
        rw [runs_nil, Except.ok.injEq] at run
        exact run ▸ first
    | cons head before =>
        obtain ⟨rfl, shorter⟩ := List.cons_prefix_cons.mp isPrefix
        obtain ⟨next, stepped, run⟩ := runs_cons_ok.mp run
        exact rest next stepped before shorter reached run

/-- A run of two lists is a run of the first followed by one of the second. -/
theorem runs_append_ok {state last : σ} {first second : List ε} :
    runs step state (first ++ second) = .ok last ↔
      ∃ middle, runs step state first = .ok middle ∧
        runs step middle second = .ok last := by
  induction first generalizing state with
  | nil => simp
  | cons event events ih =>
      simp only [List.cons_append, runs_cons_ok, ih]
      constructor
      · rintro ⟨next, stepped, middle, left, right⟩
        exact ⟨middle, ⟨next, stepped, left⟩, right⟩
      · rintro ⟨middle, ⟨next, stepped, left⟩, right⟩
        exact ⟨next, stepped, middle, left, right⟩

theorem along_append {state : σ} {first second : List ε} :
    Along step guard state (first ++ second) ↔
      Along step guard state first ∧
        ∀ middle, runs step state first = .ok middle →
          Along step guard middle second := by
  induction first generalizing state with
  | nil => simp
  | cons event events ih =>
      simp only [List.cons_append, along_cons, ih, runs_cons_ok]
      constructor
      · rintro ⟨allowed, rest⟩
        refine ⟨⟨allowed, fun next stepped => (rest next stepped).1⟩, ?_⟩
        rintro middle ⟨next, stepped, run⟩
        exact (rest next stepped).2 middle run
      · rintro ⟨⟨allowed, left⟩, right⟩
        exact ⟨allowed, fun next stepped =>
          ⟨left next stepped, fun middle run =>
            right middle ⟨next, stepped, run⟩⟩⟩

/-- A predicate that every allowed step preserves holds wherever an allowed run
ends. -/
theorem invariant_of_runs {P : σ → Prop}
    (preserved : ∀ state event next, P state → guard state event →
      step state event = .ok next → P next)
    {state last : σ} {events : List ε} (holds : P state)
    (allowed : Along step guard state events)
    (run : runs step state events = .ok last) : P last := by
  induction events generalizing state with
  | nil =>
      rw [runs_nil, Except.ok.injEq] at run
      exact run ▸ holds
  | cons event events ih =>
      obtain ⟨next, stepped, rest⟩ := runs_cons_ok.mp run
      rw [along_cons] at allowed
      exact ih (preserved state event next holds allowed.1 stepped)
        (allowed.2 next stepped) rest

/-- What an invariant of the allowed steps implies holds throughout an allowed
run. -/
theorem throughout_of_invariant {P Q : σ → Prop}
    (preserved : ∀ state event next, P state → guard state event →
      step state event = .ok next → P next)
    (implies : ∀ state, P state → Q state) {state : σ} {events : List ε}
    (holds : P state) (allowed : Along step guard state events) :
    Throughout step Q state events := by
  rintro before ⟨rest, rfl⟩ reached run
  exact implies reached
    (invariant_of_runs preserved holds (along_append.mp allowed).1 run)

/-- Where every allowed step succeeds and keeps `P`, every allowed run
succeeds, in a state that satisfies `P`. -/
theorem total_of_runs {P : σ → Prop}
    (total : ∀ state event, P state → guard state event →
      ∃ next, step state event = .ok next ∧ P next)
    {state : σ} {events : List ε} (holds : P state)
    (allowed : Along step guard state events) :
    ∃ last, runs step state events = .ok last ∧ P last := by
  induction events generalizing state with
  | nil => exact ⟨state, rfl, holds⟩
  | cons event events ih =>
      rw [along_cons] at allowed
      obtain ⟨next, stepped, kept⟩ := total state event holds allowed.1
      obtain ⟨last, run, final⟩ := ih kept (allowed.2 next stepped)
      exact ⟨last, runs_cons_ok.mpr ⟨next, stepped, run⟩, final⟩

/-- A predicate that every step preserves holds wherever a run ends. -/
theorem invariant_of_steps {P : σ → Prop}
    (preserved : ∀ state event next, P state → step state event = .ok next →
      P next) {state last : σ} {events : List ε} (holds : P state)
    (run : runs step state events = .ok last) : P last := by
  have free : Along step (fun _ _ => True) state events :=
    along_of_forall (fun _ _ => trivial) _ _
  exact invariant_of_runs
    (fun s e next good _ stepped => preserved s e next good stepped) holds free
    run

/-- Where every step succeeds and keeps `P`, every run does. -/
theorem total_of_steps {P : σ → Prop}
    (total : ∀ state event, P state →
      ∃ next, step state event = .ok next ∧ P next)
    {state : σ} (holds : P state) (events : List ε) :
    ∃ last, runs step state events = .ok last ∧ P last := by
  have free : Along step (fun _ _ => True) state events :=
    along_of_forall (fun _ _ => trivial) _ _
  exact total_of_runs (fun s e good _ => total s e good) holds free

/-- Two guards that agree on the states of an invariant, itself kept by the
steps the first one allows, allow the same runs. -/
theorem along_congr {P : σ → Prop} {other : σ → ε → Prop}
    (preserved : ∀ state event next, P state → guard state event →
      step state event = .ok next → P next)
    (agree : ∀ state event, P state →
      (guard state event ↔ other state event))
    {state : σ} {events : List ε} (holds : P state) :
    Along step guard state events ↔ Along step other state events := by
  induction events generalizing state with
  | nil => simp
  | cons event events ih =>
      rw [along_cons, along_cons, agree state event holds]
      constructor
      · rintro ⟨allowed, rest⟩
        refine ⟨allowed, fun next stepped => ?_⟩
        exact (ih (preserved state event next holds
          ((agree state event holds).mpr allowed) stepped)).mp
            (rest next stepped)
      · rintro ⟨allowed, rest⟩
        refine ⟨allowed, fun next stepped => ?_⟩
        exact (ih (preserved state event next holds
          ((agree state event holds).mpr allowed) stepped)).mpr
            (rest next stepped)

/-- On the runs that a guard allows, two further guards allow the same ones if
they agree wherever the first guard and an invariant hold; the steps that pass
both keep the invariant. -/
theorem along_congr_of_allowed {P : σ → Prop} {one other : σ → ε → Prop}
    (preserved : ∀ state event next, P state → guard state event →
      one state event → step state event = .ok next → P next)
    (agree : ∀ state event, P state → guard state event →
      (one state event ↔ other state event))
    {state : σ} {events : List ε} (holds : P state)
    (allowed : Along step guard state events) :
    Along step one state events ↔ Along step other state events := by
  have both : Along step (fun s e => guard s e ∧ one s e) state events ↔
      Along step (fun s e => guard s e ∧ other s e) state events := by
    apply along_congr (P := P)
    · rintro s e next good ⟨legal, passes⟩ stepped
      exact preserved s e next good legal passes stepped
    · intro s e good
      exact and_congr_right (agree s e good)
    · exact holds
  rw [along_and, along_and] at both
  constructor
  · intro passes
    exact (both.mp ⟨allowed, passes⟩).2
  · intro passes
    exact (both.mpr ⟨allowed, passes⟩).2

/-- A quantity that no allowed step lowers, and that a step leaves as it is
exactly when it meets a second guard, is the same at both ends of an allowed run
exactly when every step of the run meets that guard. -/
theorem along_iff_of_monotone {α : Type*} [PartialOrder α] {P : σ → Prop}
    {other : σ → ε → Prop} (quantity : σ → α)
    (rises : ∀ state event next, P state → guard state event →
      step state event = .ok next →
      P next ∧ quantity state ≤ quantity next ∧
        (quantity next = quantity state ↔ other state event))
    {state last : σ} {events : List ε} (holds : P state)
    (allowed : Along step guard state events)
    (run : runs step state events = .ok last) :
    quantity state ≤ quantity last ∧
      (quantity last = quantity state ↔ Along step other state events) := by
  induction events generalizing state with
  | nil =>
      rw [runs_nil, Except.ok.injEq] at run
      subst run
      exact ⟨le_refl _, by simp⟩
  | cons event events ih =>
      obtain ⟨next, stepped, rest⟩ := runs_cons_ok.mp run
      rw [along_cons] at allowed
      obtain ⟨kept, first, same⟩ := rises state event next holds allowed.1 stepped
      obtain ⟨later, same'⟩ := ih kept (allowed.2 next stepped) rest
      refine ⟨first.trans later, ?_⟩
      rw [along_cons]
      constructor
      · intro unchanged
        have middle : quantity next = quantity state :=
          le_antisymm (later.trans_eq unchanged) first
        refine ⟨same.mp middle, fun next' stepped' => ?_⟩
        rw [stepped, Except.ok.injEq] at stepped'
        exact stepped' ▸ same'.mp (unchanged.trans middle.symm)
      · rintro ⟨meets, others⟩
        exact (same'.mpr (others next stepped)).trans (same.mpr meets)

/-- A guard implies another one along a run where it does so in the states of an
invariant that the allowed steps keep. -/
theorem Along.of_invariant {P : σ → Prop} {other : σ → ε → Prop}
    (preserved : ∀ state event next, P state → guard state event →
      step state event = .ok next → P next)
    (implies : ∀ state event, P state → guard state event → other state event)
    {state : σ} {events : List ε} (holds : P state)
    (allowed : Along step guard state events) :
    Along step other state events := by
  induction events generalizing state with
  | nil => trivial
  | cons event events ih =>
      rw [along_cons] at allowed ⊢
      exact ⟨implies state event holds allowed.1, fun next stepped =>
        ih (preserved state event next holds allowed.1 stepped)
          (allowed.2 next stepped)⟩

/-- Where an invariant implies `P` and is kept by the steps that meet a guard, while
every other step leads to a state without `P`, a run has `P` in all of its states
exactly if all its steps meet the guard. -/
theorem throughout_iff_along {P Q : σ → Prop}
    (implies : ∀ state, Q state → P state)
    (kept : ∀ state event next, Q state → guard state event →
      step state event = .ok next → Q next)
    (lost : ∀ state event, Q state → ¬ guard state event →
      ∃ next, step state event = .ok next ∧ ¬ P next)
    {state : σ} {events : List ε} (holds : Q state) :
    Throughout step P state events ↔ Along step guard state events := by
  induction events generalizing state with
  | nil => exact iff_of_true (throughout_nil.mpr (implies state holds)) trivial
  | cons event events ih =>
      rw [throughout_cons, along_cons]
      constructor
      · rintro ⟨_, later⟩
        have meets : guard state event := by
          by_contra fails
          obtain ⟨next, stepped, without⟩ := lost state event holds fails
          exact without (later next stepped [] List.nil_prefix next rfl)
        exact ⟨meets, fun next stepped =>
          (ih (kept state event next holds meets stepped)).mp (later next stepped)⟩
      · rintro ⟨meets, later⟩
        exact ⟨implies state holds, fun next stepped =>
          (ih (kept state event next holds meets stepped)).mpr (later next stepped)⟩

/-- Where an allowed step succeeds exactly if it meets a second guard, and then
keeps `P`, an allowed run succeeds exactly if all its steps meet that guard. -/
theorem returns_iff_along {P : σ → Prop} {other : σ → ε → Prop}
    (decided : ∀ state event, P state → guard state event →
      (other state event ∧ ∃ next, step state event = .ok next ∧ P next) ∨
        ¬ other state event ∧ ∃ fault, step state event = .error fault)
    {state : σ} {events : List ε} (holds : P state)
    (allowed : Along step guard state events) :
    (∃ last, runs step state events = .ok last) ↔
      Along step other state events := by
  induction events generalizing state with
  | nil => simp
  | cons event events ih =>
      rw [along_cons] at allowed ⊢
      simp only [runs_cons_ok]
      rcases decided state event holds allowed.1 with
        ⟨meets, next, stepped, kept⟩ | ⟨fails, fault, failed⟩
      · have rest := ih kept (allowed.2 next stepped)
        constructor
        · rintro ⟨last, next', stepped', run⟩
          rw [stepped, Except.ok.injEq] at stepped'
          subst stepped'
          refine ⟨meets, fun next' stepped' => ?_⟩
          rw [stepped, Except.ok.injEq] at stepped'
          exact stepped' ▸ rest.mp ⟨last, run⟩
        · rintro ⟨_, others⟩
          obtain ⟨last, run⟩ := rest.mpr (others next stepped)
          exact ⟨last, next, stepped, run⟩
      · constructor
        · rintro ⟨last, next, stepped, _⟩
          rw [failed] at stepped
          cases stepped
        · exact fun meets => absurd meets.1 fails

/-- A guard may be weakened step by step. -/
theorem Along.mono {other : σ → ε → Prop}
    (weaker : ∀ state event, guard state event → other state event)
    {state : σ} {events : List ε} (allowed : Along step guard state events) :
    Along step other state events := by
  induction events generalizing state with
  | nil => trivial
  | cons event events ih =>
      rw [along_cons] at allowed ⊢
      exact ⟨weaker state event allowed.1, fun next stepped =>
        ih (allowed.2 next stepped)⟩

instance decidableAlong [∀ state event, Decidable (guard state event)] :
    ∀ (state : σ) (events : List ε), Decidable (Along step guard state events)
  | _, [] => inferInstanceAs (Decidable True)
  | state, event :: events =>
      have : Decidable (match step state event with
          | .ok next => Along step guard next events
          | .error _ => True) :=
        match step state event with
        | .ok next => decidableAlong next events
        | .error _ => inferInstanceAs (Decidable True)
      inferInstanceAs (Decidable (_ ∧ _))

end

end Trace
