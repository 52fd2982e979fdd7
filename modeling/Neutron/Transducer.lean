import Mathlib.Tactic.Common

/-!
# Machines that answer

Two machines that take the same inputs and answer each of them. When the answers of the first are
those of the second at a step exactly under a condition on the state of the second, they are so for a
sequence of inputs exactly when the condition holds along the run of the second.
-/

namespace Neutron.Transducer

variable {σ τ ι ω : Type*}

/-- The answers to a sequence of inputs. -/
def outputs (step : σ → ι → σ × ω) : σ → List ι → List ω
  | _, [] => []
  | s, i :: is => (step s i).2 :: outputs step (step s i).1 is

/-- Every input meets the condition at the state it comes at. -/
def Along (next : τ → ι → τ) (P : τ → ι → Prop) : τ → List ι → Prop
  | _, [] => True
  | t, i :: is => P t i ∧ Along next P (next t i) is

theorem outputs_eq_iff {code : σ → ι → σ × ω} {spec : τ → ι → τ × ω} {I : σ → Prop} {P : τ → ι → Prop}
    (hkeeps : ∀ s i, I s → I (code s i).1) (hanswer : ∀ s t i, I s → ((code s i).2 = (spec t i).2 ↔ P t i))
    {s : σ} (hs : I s) (t : τ) (is : List ι) :
    outputs code s is = outputs spec t is ↔ Along (fun t i => (spec t i).1) P t is := by
  induction is generalizing s t with
  | nil => exact ⟨fun _ => trivial, fun _ => rfl⟩
  | cons i is ih =>
    rw [outputs, outputs, Along, List.cons.injEq, hanswer s t i hs]
    exact and_congr_right fun _ => ih (hkeeps s i hs) (spec t i).1

/-- Only the steps at which the condition holds matter. -/
theorem along_congr {next next' : τ → ι → τ} {P : τ → ι → Prop} (h : ∀ t i, P t i → next t i = next' t i) (t : τ)
    (is : List ι) : Along next P t is ↔ Along next' P t is := by
  induction is generalizing t with
  | nil => exact Iff.rfl
  | cons i is ih =>
    rw [Along, Along]
    constructor
    · rintro ⟨hp, hrest⟩
      rw [h t i hp] at hrest
      exact ⟨hp, (ih _).mp hrest⟩
    · rintro ⟨hp, hrest⟩
      rw [← h t i hp] at hrest
      exact ⟨hp, (ih _).mpr hrest⟩

end Neutron.Transducer
