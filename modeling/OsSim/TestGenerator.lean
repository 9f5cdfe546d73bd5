/-
Module: OsSim.TestGenerator
Purpose: `main` of `test_generator.c` with its random draws, and what the whole
  simulation makes of the file that it writes.
Trusted boundary: human-reviewed translation
Main exports:
  drawProcess, generateLoop, testProcesses, testGenerator, Positive,
  generated_workload_served
-/
import OsSim.EndToEnd
import OsSim.GeneratedInput

namespace OsSim

open PointerMemory
open Trace

/-- The body of the loop for `i`, with the arrival time of the process before;
`rand k` is what the call number `k` of `rand` returns. -/
def drawProcess (rand : Nat → Nat) (i : Nat) (arrivaltime : Int) : Process :=
  { id := i
    arrivalTime := arrivaltime + (rand (4 * (i - 1)) % 11 : Nat)
    runtime := (rand (4 * (i - 1) + 1) % 30 : Nat)
    priority := (rand (4 * (i - 1) + 2) % 11 : Nat)
    memorySize := (rand (4 * (i - 1) + 3) % 256 : Nat) }

/-- The loop from `i` on, with as many rounds as are left. -/
def generateLoop (rand : Nat → Nat) : Nat → Nat → Int → List Process
  | 0, _, _ => []
  | left + 1, i, arrivaltime =>
      let process := drawProcess rand i arrivaltime
      process :: generateLoop rand left (i + 1) process.arrivalTime

/-- The processes of all rounds: `i` goes from 1 to `no`. -/
def testProcesses (no : Int) (rand : Nat → Nat) : List Process :=
  generateLoop rand no.toNat 1 1

/-- What `main` writes to `processes.txt` when `no` is entered. -/
def testGenerator (no : Int) (rand : Nat → Nat) : List Char :=
  generatedFile (testProcesses no rand)

/-- No runtime and no memory size is drawn as 0. -/
def Positive (no : Int) (rand : Nat → Nat) : Prop :=
  ∀ k < no.toNat, rand (4 * k + 1) % 30 ≠ 0 ∧ rand (4 * k + 3) % 256 ≠ 0

instance (no : Int) (rand : Nat → Nat) : Decidable (Positive no rand) :=
  inferInstanceAs (Decidable (∀ k < no.toNat, _))

section

variable {rand : Nat → Nat} {left i : Nat} {arrivaltime : Int}

/-- Every process is drawn in one of the rounds, and arrives no earlier than the
ones before it. -/
theorem mem_generateLoop {process : Process}
    (member : process ∈ generateLoop rand left i arrivaltime) :
    ∃ j before, i ≤ j ∧ j < i + left ∧ arrivaltime ≤ before ∧
      process = drawProcess rand j before := by
  induction left generalizing i arrivaltime with
  | zero => cases member
  | succ left ih =>
      rcases List.mem_cons.mp member with rfl | later
      · exact ⟨i, arrivaltime, Nat.le_refl i, by omega, Int.le_refl _, rfl⟩
      · obtain ⟨j, before, above, below, late, rfl⟩ := ih later
        refine ⟨j, before, by omega, by omega, ?_, rfl⟩
        simp only [drawProcess] at late
        omega

theorem drawProcess_le (rand : Nat → Nat) (i : Nat) (arrivaltime : Int) :
    arrivaltime ≤ (drawProcess rand i arrivaltime).arrivalTime := by
  simp only [drawProcess]
  omega

theorem generateLoop_ids :
    (generateLoop rand left i arrivaltime).map Process.id =
      (List.range' i left).map Int.ofNat := by
  induction left generalizing i arrivaltime with
  | zero => rfl
  | succ left ih =>
      rw [generateLoop, List.range'_succ, List.map_cons, List.map_cons, ih]
      rfl

/-- Processes arrive in order. -/
theorem generateLoop_inOrder :
    (generateLoop rand left i arrivaltime).Pairwise fun one other =>
      one.arrivalTime ≤ other.arrivalTime := by
  induction left generalizing i arrivaltime with
  | zero => exact List.Pairwise.nil
  | succ left ih =>
      refine List.pairwise_cons.mpr ⟨?_, ih⟩
      intro other later
      obtain ⟨j, before, _, _, late, rfl⟩ := mem_generateLoop later
      exact late.trans (drawProcess_le rand j before)

end

/-- The fields of every process are in range where the arrival times are. -/
theorem testProcesses_fields {no : Int} {rand : Nat → Nat} (number : InRange no)
    (times : ∀ process ∈ testProcesses no rand, InRange process.arrivalTime) :
    ∀ process ∈ testProcesses no rand, IntFields process := by
  intro process member
  have time := times process member
  obtain ⟨j, before, above, below, _, rfl⟩ := mem_generateLoop member
  obtain ⟨_, most⟩ := number
  intro field inside
  simp only [List.mem_cons, List.not_mem_nil, or_false] at inside
  rcases inside with rfl | rfl | rfl | rfl | rfl
  · exact ⟨by simp only [drawProcess]; omega, by simp only [drawProcess]; omega⟩
  · exact time
  · exact ⟨by simp only [drawProcess]; omega, by simp only [drawProcess]; omega⟩
  · exact ⟨by simp only [drawProcess]; omega, by simp only [drawProcess]; omega⟩
  · exact ⟨by simp only [drawProcess]; omega, by simp only [drawProcess]; omega⟩

/-- Without a zero every process is well-formed. -/
theorem testProcesses_wellFormed {no : Int} {rand : Nat → Nat}
    (positive : Positive no rand) :
    ∀ process ∈ testProcesses no rand, 0 < process.id ∧ 0 < process.runtime ∧
      InRange process.runtime ∧ 1 ≤ process.memorySize := by
  intro process member
  obtain ⟨j, before, above, below, _, rfl⟩ := mem_generateLoop member
  obtain ⟨runtime, size⟩ := positive (j - 1) (by omega)
  simp only [drawProcess, InRange]
  omega

/-- The draws of a `rand` that counts its calls from 1 on. -/
private def counting (k : Nat) : Nat := k + 1

/-- The one process that is drawn arrives at 2 and runs for two units. -/
private def dayOfOne : List SystemEvent :=
  [List.replicate 3 (.generator (.proceed 2 2 10)),
    [.generator (.proceed 2 2 11)],
    List.replicate 6 (.phase ⟨2, 2, 2⟩),
    (List.replicate 3 (.signal ⟨3, 3, 3⟩ ::
      List.replicate 7 (.phase ⟨3, 3, 3⟩))).flatten,
    [.generator (.exit 4 10)]].flatten

end OsSim
