import Mathlib.Order.Basic

/-!
# Computations with fuel

State-passing computations that give up when their fuel is spent, and that may raise an alarm on
the way.
-/

namespace Neutron

/-- A result of `none` means that the fuel was spent. -/
structure Run (σ α : Type) where
  alarm : Bool
  result : Option (α × σ)

structure Fuelled (σ α : Type) where
  run : σ → Run σ α

namespace Fuelled
variable {σ α β : Type}

instance : Monad (Fuelled σ) where
  pure a := ⟨fun w => ⟨false, some (a, w)⟩⟩
  bind p f := ⟨fun w =>
    match p.run w with
    | ⟨alarm, none⟩ => ⟨alarm, none⟩
    | ⟨alarm, some (a, w')⟩ => ⟨alarm || ((f a).run w').alarm, ((f a).run w').result⟩⟩

def exhausted : Fuelled σ α := ⟨fun _ => ⟨false, none⟩⟩

def get : Fuelled σ σ := ⟨fun w => ⟨false, some (w, w)⟩⟩

def modify (f : σ → σ) : Fuelled σ Unit := ⟨fun w => ⟨false, some ((), f w)⟩⟩

/-- Run `p` in the state `enter` gives; `leave` gives the state after it, from the states before
and after `p`. -/
def bracket (enter : σ → σ) (leave : σ → σ → σ) (p : Fuelled σ α) : Fuelled σ α := do
  let before ← get
  modify enter
  let a ← p
  modify (leave before)
  pure a

/-- A result that does not need the state. -/
def ofOption : Option α → Fuelled σ α
  | none => exhausted
  | some a => pure a

def each (f : α → Fuelled σ β) : List α → Fuelled σ (List β)
  | [] => pure []
  | a :: rest => do
    let b ← f a
    let bs ← each f rest
    pure (b :: bs)

def eachOption (f : α → Fuelled σ β) : Option α → Fuelled σ (Option β)
  | none => pure none
  | some a => do
    let b ← f a
    pure (some b)

end Fuelled

end Neutron
