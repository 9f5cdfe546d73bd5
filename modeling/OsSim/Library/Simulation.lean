/-
Module: OsSim.Library.Simulation
Purpose: Step functions that answer each input with an output, and simulations
  between two of them: from related states they answer alike.
Trusted boundary: none
Main exports:
  outputs, Simulates, outputs_related, Simulates.outputs
-/
import OsSim.Library.PointerMemory

namespace Simulation

open PointerMemory

variable {σ τ ι ο φ : Type}

/-- Feed the inputs one by one and collect the outputs.  The first failing step
fails the whole run. -/
def outputs (step : σ → ι → Except φ (σ × ο)) :
    σ → List ι → Except φ (σ × List ο)
  | state, [] => .ok (state, [])
  | state, input :: inputs => do
      let (next, output) ← step state input
      let (last, rest) ← outputs step next inputs
      pure (last, output :: rest)

/-- From related states both step functions return, with the same output, in
related states. -/
def Simulates (R : σ → τ → Prop) (step : σ → ι → Except φ (σ × ο))
    (step' : τ → ι → Except φ (τ × ο)) : Prop :=
  ∀ state state' input, R state state' →
    ∃ next next' output, step state input = .ok (next, output) ∧
      step' state' input = .ok (next', output) ∧ R next next'

/-- Both runs return, with the same outputs, if they do so step by step.  The
relation may depend on the inputs that are still to come. -/
theorem outputs_related {R : List ι → σ → τ → Prop}
    {step : σ → ι → Except φ (σ × ο)} {step' : τ → ι → Except φ (τ × ο)}
    (steps : ∀ input inputs state state', R (input :: inputs) state state' →
      ∃ next next' output, step state input = .ok (next, output) ∧
        step' state' input = .ok (next', output) ∧ R inputs next next')
    {inputs : List ι} {state : σ} {state' : τ} (related : R inputs state state') :
    ∃ last last' answers, outputs step state inputs = .ok (last, answers) ∧
      outputs step' state' inputs = .ok (last', answers) ∧ R [] last last' := by
  induction inputs generalizing state state' with
  | nil => exact ⟨state, state', [], rfl, rfl, related⟩
  | cons input inputs ih =>
      obtain ⟨next, next', output, one, other, related'⟩ :=
        steps input inputs state state' related
      obtain ⟨last, last', answers, rest, rest', related''⟩ := ih related'
      refine ⟨last, last', output :: answers, ?_, ?_, related''⟩
      · rw [outputs, one, ok_bind]
        dsimp only
        rw [rest]
        rfl
      · rw [outputs, other, ok_bind]
        dsimp only
        rw [rest']
        rfl

/-- A simulation carries over to all sequences of inputs. -/
theorem Simulates.outputs {R : σ → τ → Prop}
    {step : σ → ι → Except φ (σ × ο)} {step' : τ → ι → Except φ (τ × ο)}
    (simulates : Simulates R step step') {state : σ} {state' : τ}
    (related : R state state') (inputs : List ι) :
    ∃ last last' answers,
      Simulation.outputs step state inputs = .ok (last, answers) ∧
      Simulation.outputs step' state' inputs = .ok (last', answers) ∧
      R last last' :=
  outputs_related (R := fun _ => R)
    (fun input _ state state' => simulates state state' input) related

end Simulation
