import Neutron.GenericsEnvironment

/-!
# The errors of the generics pass

No part of the pass takes an error back, so a program without an error at the end had none on the way.
-/

namespace Neutron
namespace Fuelled
variable {σ α β : Type} {part : σ → ℕ}

/-- A computation after which a measure of the state is no less than before. -/
def Rises (part : σ → ℕ) (p : Fuelled σ α) : Prop := ∀ w a w', (p.run w).result = some (a, w') → part w ≤ part w'

namespace Rises

theorem of_keeps {p : Fuelled σ α} (h : Keeps part p) : Rises part p := fun w a w' hrun => (h w a w' hrun).ge

theorem done (a : α) : Rises part (pure a : Fuelled σ α) := of_keeps (Keeps.done a)

theorem exhausted : Rises part (Fuelled.exhausted : Fuelled σ α) := of_keeps Keeps.exhausted

theorem get : Rises part (Fuelled.get : Fuelled σ σ) := of_keeps Keeps.get

theorem modify {f : σ → σ} (h : ∀ w, part w ≤ part (f w)) : Rises part (Fuelled.modify f) := by
  intro w a w' hrun
  cases hrun
  exact h w

theorem bind {p : Fuelled σ α} {f : α → Fuelled σ β} (hp : Rises part p) (hf : ∀ a, Rises part (f a)) :
    Rises part (p >>= f) := by
  intro w b w' h
  obtain ⟨a, w₁, hfirst, hrest⟩ := bind_result h
  exact (hp w a w₁ hfirst).trans (hf a w₁ b w' hrest)

theorem each {f : α → Fuelled σ β} (hf : ∀ a, Rises part (f a)) (l : List α) : Rises part (Fuelled.each f l) := by
  induction l with
  | nil => exact done []
  | cons a rest ih => exact (hf a).bind fun _ => ih.bind fun _ => done _

theorem eachOption {f : α → Fuelled σ β} (hf : ∀ a, Rises part (f a)) (o : Option α) :
    Rises part (Fuelled.eachOption f o) := by
  cases o with
  | none => exact done none
  | some a => exact (hf a).bind fun _ => done _

theorem bracket {enter : σ → σ} {leave : σ → σ → σ} {p : Fuelled σ α} (henter : ∀ w, part w ≤ part (enter w))
    (hleave : ∀ w w', part w' ≤ part (leave w w')) (hp : Rises part p) : Rises part (Fuelled.bracket enter leave p) :=
  get.bind fun before => (modify henter).bind fun _ => hp.bind fun _ => (modify (hleave before)).bind fun _ => done _

end Rises
end Fuelled

namespace Generics
open Syntax TypeNames Fuelled

section
variable (equal : TypeAnnotation → TypeAnnotation → Bool) (d : Decls)

/-- No error is taken back. -/
abbrev Raises {α : Type} (p : Gen α) : Prop := Rises (fun w => w.errors.length) p

structure Calls.Raise (calls : Calls) : Prop where
  normalizeType : ∀ ty, Raises (calls.normalizeType ty)
  transformStmt : ∀ s, Raises (calls.transformStmt s)
  transformExpr : ∀ e, Raises (calls.transformExpr e)
  resolveAssociatedType : ∀ σ generics ty, Raises (calls.resolveAssociatedType σ generics ty)

theorem raises_error (e : TypeError) : Raises (error e) := Rises.modify fun w => by simp

theorem raises_modify (f : Work → Work) (h : ∀ w, (f w).errors = w.errors) : Raises (Fuelled.modify f) :=
  Rises.modify fun w => by rw [h]

theorem raises_infer (e : Expr) : Raises (infer d e) := by
  intro w a w' h
  cases h
  exact le_rfl

theorem raises_withEnv {α : Type} (env : Subst) {p : Gen α} (hp : Raises p) : Raises (withEnv env p) :=
  Rises.bracket (fun _ => le_rfl) (fun _ _ => le_rfl) hp

theorem raises_whileResolving {α : Type} (name : Name) {p : Gen α} (hp : Raises p) :
    Raises (whileResolving name p) := Rises.bracket (fun _ => le_rfl) (fun _ _ => le_rfl) hp

theorem raises_validateBounds (generics : List GenericParam) (σ : Subst) : Raises (validateBounds d generics σ) := by
  unfold validateBounds
  split
  · exact .done _
  · exact (raises_error _).bind fun _ => .done _

theorem raises_resolveProjection (σ : Subst) (generics : List GenericParam) (token : Name) :
    Raises (resolveProjection d σ generics token) := by
  unfold resolveProjection
  dsimp only
  repeat' first | exact .done _ | exact (raises_error _).bind fun _ => .done _ | split

section
variable {calls : Calls} (hcalls : calls.Raise)
include hcalls

theorem raises_resolveAssociatedType (σ : Subst) (generics : List GenericParam) (ty : TypeAnnotation) :
    Raises (resolveAssociatedType d calls σ generics ty) := by
  have hinside := hcalls.resolveAssociatedType σ generics
  unfold resolveAssociatedType
  dsimp only
  split
  · exact raises_resolveProjection d σ generics _
  all_goals
    first
    | exact (hinside _).bind fun _ => .done _
    | exact (Rises.eachOption hinside _).bind fun _ => .done _
    | exact .done _

theorem raises_specializationSubstitutions (generics : List GenericParam) (σ : Subst) :
    Raises (specializationSubstitutions d calls generics σ) :=
  (Rises.each (fun _ => hcalls.resolveAssociatedType σ generics _) _).bind fun _ => .done _

theorem raises_expandAlias (token : Name) : Raises (expandAlias d calls token) := by
  unfold expandAlias
  dsimp only
  split
  · exact .done _
  · split
    · exact (raises_error _).bind fun _ => .done _
    · refine Rises.get.bind fun w => ?_
      split
      · exact (raises_error _).bind fun _ => .done _
      · refine (raises_whileResolving _ ?_).bind fun _ => .done _
        refine (raises_validateBounds d _ _).bind fun ok => ?_
        split
        · exact (raises_specializationSubstitutions d hcalls _ _).bind fun _ => hcalls.normalizeType _
        · exact .done _

theorem raises_ensureClassSpecialization (name : Name) : Raises (ensureClassSpecialization d calls name) := by
  unfold ensureClassSpecialization
  split
  · exact .done _
  · refine Rises.get.bind fun w => ?_
    dsimp only
    repeat' first | exact .done _ | exact raises_error _ | split
    refine (raises_validateBounds d _ _).bind fun ok => ?_
    split
    · refine (raises_specializationSubstitutions d hcalls _ _).bind fun σ => ?_
      apply Rises.bind
      · exact raises_modify _ fun _ => rfl
      intro _
      exact (raises_withEnv _ (Rises.each hcalls.transformStmt _)).bind fun _ => raises_modify _ fun _ => rfl
    · exact .done _

theorem raises_ensureEnumSpecialization (name : Name) : Raises (ensureEnumSpecialization d calls name) := by
  unfold ensureEnumSpecialization
  split
  · exact .done _
  · refine Rises.get.bind fun w => ?_
    dsimp only
    repeat' first | exact .done _ | exact raises_error _ | split
    refine (raises_validateBounds d _ _).bind fun ok => ?_
    split
    · exact (raises_specializationSubstitutions d hcalls _ _).bind fun σ => raises_modify _ fun _ => rfl
    · exact .done _

theorem raises_normalizeType (ty : TypeAnnotation) : Raises (normalizeType d calls ty) := by
  unfold normalizeType
  split
  case h_9 =>
    refine (raises_expandAlias d hcalls _).bind fun expanded => ?_
    split
    · exact .done _
    · exact (raises_ensureClassSpecialization d hcalls _).bind fun _ =>
        (raises_ensureEnumSpecialization d hcalls _).bind fun _ => .done _
  all_goals
    first
    | exact (hcalls.normalizeType _).bind fun _ => .done _
    | exact (Rises.eachOption hcalls.normalizeType _).bind fun _ => .done _
    | exact .done _

end

theorem raises_inferArguments (generics : List Name) (arguments : List (FunctionParam × Expr)) (σ : Subst) :
    Raises (inferArguments equal d generics arguments σ) := by
  induction arguments generalizing σ with
  | nil => exact .done _
  | cons argument rest ih =>
    rw [inferArguments]
    split
    · exact ih σ
    · refine (raises_infer d _).bind fun actual => ?_
      repeat' first | exact ih _ | exact (raises_error _).bind fun _ => .done _ | split

theorem raises_inferSubstitutions (template : FunctionTemplate) (arguments : List Expr) :
    Raises (inferSubstitutions equal d template arguments) := by
  refine (raises_inferArguments equal d _ _ _).bind fun σ => ?_
  repeat' first | exact .done _ | exact (raises_error _).bind fun _ => .done _ | split

theorem raises_bindInitializer (name : Name) (initializer : Option Expr) :
    Raises (bindInitializer d name initializer) := by
  unfold bindInitializer
  split
  · exact .done _
  · refine (raises_infer d _).bind fun ty => ?_
    split
    · exact raises_modify _ fun _ => rfl
    · exact .done _

theorem raises_concreteReturn (traitName : Name) (returns : List Expr) (concrete : Option Name) :
    Raises (concreteReturn d traitName returns concrete) := by
  induction returns generalizing concrete with
  | nil => exact .done _
  | cons e rest ih =>
    rw [concreteReturn]
    refine (raises_infer d e).bind fun ty => ?_
    repeat' first | exact ih _ | exact (raises_error _).bind fun _ => ih _ | split

section
variable {calls : Calls} (hcalls : calls.Raise)
include hcalls

theorem raises_specialize (name : Name) (template : FunctionTemplate) (σ : Subst) :
    Raises (specialize d calls name template σ) := by
  unfold specialize
  refine Rises.get.bind fun w => ?_
  dsimp only
  split
  · exact .done _
  · apply Rises.bind
    · exact raises_modify _ fun _ => rfl
    intro _
    refine (raises_specializationSubstitutions d hcalls _ _).bind fun σ => ?_
    apply Rises.bind
    · exact raises_modify _ fun _ => rfl
    intro _
    refine (raises_withEnv _ (Rises.each hcalls.transformStmt _)).bind fun body => ?_
    apply Rises.bind
    · exact raises_modify _ fun _ => rfl
    exact fun _ => .done _

theorem raises_transformCallee (arguments : List Expr) (callee : Expr) :
    Raises (transformCallee equal d calls arguments callee) := by
  cases callee with
  | var name =>
    rw [transformCallee]
    split
    · refine (raises_inferSubstitutions equal d _ _).bind fun σ => ?_
      split
      · exact (raises_specialize d hcalls _ _ _).bind fun _ => .done _
      · exact .done _
    · exact (raises_ensureClassSpecialization d hcalls _).bind fun _ => .done _
  | _ => exact hcalls.transformExpr _

theorem raises_transformExpr (e : Expr) : Raises (transformExpr equal d calls e) := by
  have hall := Rises.each hcalls.transformExpr
  unfold transformExpr
  split
  · exact (hall _).bind fun _ => (raises_transformCallee equal d hcalls _ _).bind fun _ => .done _
  · split
    · exact .done _
    · exact (hall _).bind fun _ => .done _
  · exact (hcalls.transformExpr _).bind fun _ => .done _
  · exact (hall _).bind fun _ => (Rises.eachOption hcalls.transformExpr _).bind fun _ => .done _
  · exact .done _

theorem raises_transformReturnType (function : Name) (body : List Stmt) (ty : TypeAnnotation) :
    Raises (transformReturnType d calls function body ty) := by
  unfold transformReturnType
  split
  · refine Rises.bind ?_ fun _ => hcalls.normalizeType _
    unfold resolveImplTraitReturn
    repeat' first | exact (raises_error _).bind fun _ => .done _ | split
    refine (raises_concreteReturn d _ _ _).bind fun concrete => ?_
    split <;> exact .done _
  · exact hcalls.normalizeType _

theorem raises_transformParam (param : FunctionParam) : Raises (transformParam calls param) := by
  unfold transformParam
  refine (Rises.eachOption (fun _ => hcalls.normalizeType _) _).bind fun ann => ?_
  dsimp only
  split
  · apply Rises.bind
    · exact raises_modify _ fun _ => rfl
    exact fun _ => .done _
  · exact .done _

theorem raises_transformStmt (s : Stmt) : Raises (transformStmt d calls s) := by
  have hbody := hcalls.transformStmt
  have hexpr := hcalls.transformExpr
  unfold transformStmt
  split
  all_goals
    repeat' first
      | exact .done _ | exact hbody _ | exact hexpr _ | exact Rises.each hbody _ | exact Rises.eachOption hexpr _
      | exact Rises.eachOption hbody _ | exact Rises.each (raises_transformParam hcalls) _
      | exact Rises.eachOption (fun _ => hcalls.normalizeType _) _
      | exact Rises.eachOption (raises_transformReturnType d hcalls _ _) _
      | exact raises_bindInitializer d _ _ | exact raises_modify _ fun _ => rfl
      | refine Rises.bind ?_ fun _ => ?_ | refine Rises.each (fun _ => ?_) _ | refine Rises.eachOption (fun _ => ?_) _
      | split | unfold transformElif | unfold transformCase | unfold transformCatch

end

theorem lower_raise (n : ℕ) : (lower equal d n).Raise := by
  induction n with
  | zero => exact ⟨fun _ => .exhausted, fun _ => .exhausted, fun _ => .exhausted, fun _ _ _ => .exhausted⟩
  | succ n ih =>
    exact ⟨raises_normalizeType d ih, raises_transformStmt d ih, raises_transformExpr equal d ih,
      raises_resolveAssociatedType d ih⟩

end

end Generics
end Neutron
