import Neutron.Fuelled

/-!
# Trees of events

A computation with fuel, taken apart into the events it performs: a tree asks for one event after another and
goes on with what the event gives. The interpretation of a tree performs its events, and a path of a tree is
an execution of it up to some event, with the marks the events leave behind.
-/

namespace Neutron
namespace Fuelled
variable {σ α β γ : Type}

theorem pure_bind (a : α) (f : α → Fuelled σ β) : (pure a >>= f) = f a := rfl

theorem bind_pure (p : Fuelled σ α) : (p >>= fun a => pure a) = p := by
  cases p with
  | mk run =>
    simp only [Bind.bind, Pure.pure]
    congr 1
    funext w
    rcases run w with ⟨alarm, _ | ⟨a, w'⟩⟩
    · rfl
    · simp

theorem bind_assoc (p : Fuelled σ α) (f : α → Fuelled σ β) (g : β → Fuelled σ γ) :
    (p >>= f >>= g) = p >>= fun a => f a >>= g := by
  cases p with
  | mk run =>
    simp only [Bind.bind]
    congr 1
    funext w
    rcases run w with ⟨alarm, _ | ⟨a, w'⟩⟩
    · rfl
    · rcases hf : (f a).run w' with ⟨alarm', _ | ⟨b, w''⟩⟩ <;> simp [hf, Bool.or_assoc]

theorem bind_result {p : Fuelled σ α} {f : α → Fuelled σ β} {w w' : σ} {b : β}
    (h : ((p >>= f).run w).result = some (b, w')) :
    ∃ a w₁, (p.run w).result = some (a, w₁) ∧ ((f a).run w₁).result = some (b, w') := by
  simp only [Bind.bind] at h
  rcases hrun : p.run w with ⟨alarm, _ | ⟨a, w₁⟩⟩
  · rw [hrun] at h
    cases h
  · rw [hrun] at h
    exact ⟨a, w₁, rfl, h⟩

/-- A computation after which some part of the state is what it was. -/
def Keeps {τ : Type} (part : σ → τ) (p : Fuelled σ α) : Prop :=
  ∀ w a w', (p.run w).result = some (a, w') → part w' = part w

namespace Keeps
variable {τ : Type} {part : σ → τ}

theorem done (a : α) : Keeps part (pure a : Fuelled σ α) := by
  intro w b w' h
  cases h
  rfl

theorem exhausted : Keeps part (Fuelled.exhausted : Fuelled σ α) := by
  intro w a w' h
  cases h

theorem get : Keeps part (Fuelled.get : Fuelled σ σ) := by
  intro w a w' h
  cases h
  rfl

theorem modify {f : σ → σ} (h : ∀ w, part (f w) = part w) : Keeps part (Fuelled.modify f) := by
  intro w a w' hrun
  cases hrun
  exact h w

theorem bind {p : Fuelled σ α} {f : α → Fuelled σ β} (hp : Keeps part p) (hf : ∀ a, Keeps part (f a)) :
    Keeps part (p >>= f) := by
  intro w b w' h
  obtain ⟨a, w₁, hfirst, hrest⟩ := bind_result h
  exact (hf a w₁ b w' hrest).trans (hp w a w₁ hfirst)

theorem each {f : α → Fuelled σ β} {l : List α} (hf : ∀ a ∈ l, Keeps part (f a)) : Keeps part (Fuelled.each f l) := by
  induction l with
  | nil => exact done []
  | cons a rest ih =>
    apply (hf a List.mem_cons_self).bind
    intro b
    exact (ih fun c hc => hf c (List.mem_cons_of_mem a hc)).bind fun bs => done _

theorem eachOption {f : α → Fuelled σ β} (hf : ∀ a, Keeps part (f a)) (o : Option α) :
    Keeps part (Fuelled.eachOption f o) := by
  cases o with
  | none => exact done none
  | some a => exact (hf a).bind fun b => done _

theorem bracket {enter : σ → σ} {leave : σ → σ → σ} {p : Fuelled σ α} (henter : ∀ w, part (enter w) = part w)
    (hleave : ∀ w w', part (leave w w') = part w') (hp : Keeps part p) :
    Keeps part (Fuelled.bracket enter leave p) := by
  apply get.bind
  intro before
  apply (modify henter).bind
  intro _
  apply hp.bind
  intro a
  apply (modify fun w' => hleave before w').bind
  intro _
  exact done a

/-- A bracket whose end puts a part back keeps it. -/
theorem restoring {enter : σ → σ} {leave : σ → σ → σ} (p : Fuelled σ α)
    (hleave : ∀ w w', part (leave w w') = part w) : Keeps part (Fuelled.bracket enter leave p) := by
  intro w a w' h
  simp only [Fuelled.bracket, Fuelled.get, Fuelled.modify, Bind.bind, Pure.pure] at h
  rcases hrun : p.run (enter w) with ⟨alarm, _ | ⟨b, w₁⟩⟩
  · rw [hrun] at h
    cases h
  · rw [hrun] at h
    cases h
    exact hleave w w₁

end Keeps

end Fuelled

inductive EventTree (ε : Type) (ρ : ε → Type) (α : Type) where
  | done (a : α)
  | stuck
  | ask (e : ε) (next : ρ e → EventTree ε ρ α)

namespace EventTree
variable {ε σ μ α β : Type} {ρ : ε → Type}

def bind (t : EventTree ε ρ α) (f : α → EventTree ε ρ β) : EventTree ε ρ β :=
  match t with
  | .done a => f a
  | .stuck => .stuck
  | .ask e next => .ask e fun r => (next r).bind f

instance : Monad (EventTree ε ρ) where
  pure := .done
  bind := bind

def event (e : ε) : EventTree ε ρ (ρ e) := .ask e .done

def each (f : α → EventTree ε ρ β) : List α → EventTree ε ρ (List β)
  | [] => pure []
  | a :: rest => do
    let b ← f a
    let bs ← each f rest
    pure (b :: bs)

def eachOption (f : α → EventTree ε ρ β) : Option α → EventTree ε ρ (Option β)
  | none => pure none
  | some a => do
    let b ← f a
    pure (some b)

section
variable (perform : ∀ e, Fuelled σ (ρ e))

def interp : EventTree ε ρ α → Fuelled σ α
  | .done a => pure a
  | .stuck => Fuelled.exhausted
  | .ask e next => perform e >>= fun r => interp (next r)

@[simp] theorem interp_pure (a : α) : interp perform (pure a : EventTree ε ρ α) = pure a := rfl

@[simp] theorem interp_stuck : interp perform (.stuck : EventTree ε ρ α) = Fuelled.exhausted := rfl

@[simp] theorem interp_event (e : ε) : interp perform (event e) = perform e :=
  Fuelled.bind_pure (perform e)

@[simp] theorem interp_bind (t : EventTree ε ρ α) (f : α → EventTree ε ρ β) :
    interp perform (t >>= f) = interp perform t >>= fun a => interp perform (f a) := by
  induction t with
  | done a => rfl
  | stuck => rfl
  | ask e next ih =>
    change (perform e >>= fun r => interp perform (next r >>= f)) = _
    simp only [ih]
    exact (Fuelled.bind_assoc _ _ _).symm

@[simp] theorem interp_each (f : α → EventTree ε ρ β) (l : List α) :
    interp perform (each f l) = Fuelled.each (fun a => interp perform (f a)) l := by
  induction l with
  | nil => rfl
  | cons a rest ih => simp only [each, Fuelled.each, interp_bind, ih, interp_pure]

@[simp] theorem interp_eachOption (f : α → EventTree ε ρ β) (o : Option α) :
    interp perform (eachOption f o) = Fuelled.eachOption (fun a => interp perform (f a)) o := by
  cases o with
  | none => rfl
  | some a => simp only [eachOption, Fuelled.eachOption, interp_bind, interp_pure]

variable (note : ∀ e, ρ e → List μ)

/-- An execution of a tree up to what is left of it, with the state and all marks so far. -/
inductive Reaches : EventTree ε ρ α → σ → List μ → EventTree ε ρ α → σ → List μ → Prop
  | here (t : EventTree ε ρ α) (w : σ) (h : List μ) : Reaches t w h t w h
  | step {e : ε} {next : ρ e → EventTree ε ρ α} {w w₁ w' : σ} {h h' : List μ} {alarm : Bool} {r : ρ e}
      {t' : EventTree ε ρ α} (hrun : (perform e).run w = ⟨alarm, some (r, w₁)⟩)
      (hrest : Reaches (next r) w₁ (h ++ note e r) t' w' h') : Reaches (.ask e next) w h t' w' h'

/-- What every event keeps holds along an execution. -/
theorem Reaches.invariant {I : σ → List μ → Prop} {t t' : EventTree ε ρ α} {w w' : σ} {h h' : List μ}
    (hreach : Reaches perform note t w h t' w' h')
    (hevent : ∀ e w h r w₁, ((perform e).run w).result = some (r, w₁) → I w h → I w₁ (h ++ note e r))
    (hstart : I w h) : I w' h' := by
  induction hreach with
  | here => exact hstart
  | step hrun _ ih => exact ih (hevent _ _ _ _ _ (by rw [hrun]) hstart)

/-- The first `n` events of a tree. -/
def advance : ℕ → EventTree ε ρ α → σ → List μ → Option (EventTree ε ρ α × σ × List μ)
  | 0, t, w, h => some (t, w, h)
  | n + 1, .ask e next, w, h =>
    match ((perform e).run w).result with
    | some (r, w₁) => advance n (next r) w₁ (h ++ note e r)
    | none => none
  | _ + 1, _, _, _ => none

theorem reaches_of_advance {n : ℕ} {t t' : EventTree ε ρ α} {w w' : σ} {h h' : List μ}
    (hadvance : advance perform note n t w h = some (t', w', h')) : Reaches perform note t w h t' w' h' := by
  induction n generalizing t w h with
  | zero =>
    rw [advance, Option.some.injEq, Prod.mk.injEq, Prod.mk.injEq] at hadvance
    obtain ⟨rfl, rfl, rfl⟩ := hadvance
    exact .here t w h
  | succ n ih =>
    cases t with
    | done => cases hadvance
    | stuck => cases hadvance
    | ask e next =>
      rw [advance] at hadvance
      split at hadvance
      · next r w₁ hrun =>
        have hrun : (perform e).run w = ⟨((perform e).run w).alarm, some (r, w₁)⟩ := by rw [← hrun]
        exact .step hrun (ih hadvance)
      · cases hadvance

end

end EventTree

end Neutron
