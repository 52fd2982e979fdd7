import Mathlib.Data.List.Basic

/-!
# Guarded executions

A transition system given by a total step function and a guard that says which
steps its callers may take. A run is a list of actions, so that every prefix of
a run is a run and an invariant of runs is an invariant of all states met.
-/

universe u v

namespace Execution

variable {σ : Type u} {α : Type v} {step : σ → α → σ} {ok : σ → α → Prop}

def execute (step : σ → α → σ) (s : σ) (as : List α) : σ := as.foldl step s

/-- Every step of the run meets the guard in the state it is taken from. -/
def Allowed (step : σ → α → σ) (ok : σ → α → Prop) : σ → List α → Prop
  | _, [] => True
  | s, a :: as => ok s a ∧ Allowed step ok (step s a) as

instance Allowed.decidable [∀ s a, Decidable (ok s a)] :
    ∀ s as, Decidable (Allowed step ok s as)
  | _, [] => .isTrue trivial
  | s, a :: as =>
    have := Allowed.decidable (step s a) as
    inferInstanceAs (Decidable (ok s a ∧ Allowed step ok (step s a) as))

@[simp] theorem execute_nil (s : σ) : execute step s [] = s := rfl

@[simp] theorem execute_cons (s : σ) (a : α) (as : List α) :
    execute step s (a :: as) = execute step (step s a) as := rfl

/-- What one allowed step preserves, a whole allowed run preserves. -/
theorem Allowed.invariant {I : σ → Prop} (hstep : ∀ s a, I s → ok s a → I (step s a))
    {s : σ} {as : List α} (has : Allowed step ok s as) (hs : I s) : I (execute step s as) := by
  induction as generalizing s with
  | nil => exact hs
  | cons a as ih => exact ih has.2 (hstep s a hs has.1)

/-- The property holds in every state the run goes through. -/
def Throughout (step : σ → α → σ) (P : σ → Prop) : σ → List α → Prop
  | s, [] => P s
  | s, a :: as => P s ∧ Throughout step P (step s a) as

theorem Throughout.head {P : σ → Prop} {s : σ} {as : List α} (h : Throughout step P s as) : P s := by
  cases as with
  | nil => exact h
  | cons a as => exact h.1

/-- A guard that is exact: within the invariant a guarded step keeps the invariant and any
other step loses the property at once. -/
theorem throughout_iff_allowed {I P : σ → Prop} (hgood : ∀ s, I s → P s)
    (hstep : ∀ s a, I s → ok s a → I (step s a)) (hbad : ∀ s a, I s → ¬ok s a → ¬P (step s a))
    {s : σ} {as : List α} (hs : I s) : Throughout step P s as ↔ Allowed step ok s as := by
  induction as generalizing s with
  | nil => exact ⟨fun _ => trivial, fun _ => hgood s hs⟩
  | cons a as ih =>
    by_cases ha : ok s a
    · have hrest := ih (hstep s a hs ha)
      exact ⟨fun h => ⟨ha, hrest.mp h.2⟩, fun h => ⟨hgood s hs, hrest.mpr h.2⟩⟩
    · exact ⟨fun h => absurd h.2.head (hbad s a hs ha), fun h => absurd h.1 ha⟩

end Execution
