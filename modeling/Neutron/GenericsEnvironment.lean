import Neutron.EventTree
import Neutron.PrepareProgram

/-!
# The environment of the generics pass

Only statements change the environment of the body at hand. Types, expressions and the bodies specialised on the
way leave it as it is.
-/

namespace Neutron.Generics
open Syntax TypeNames Fuelled

section
variable (equal : TypeAnnotation → TypeAnnotation → Bool) (d : Decls)

abbrev KeepsEnv {α : Type} (p : Gen α) : Prop := Keeps Work.env p

/-- The recursive calls that leave the environment as it is: all but those on statements. -/
structure Calls.KeepEnv (calls : Calls) : Prop where
  normalizeType : ∀ ty, KeepsEnv (calls.normalizeType ty)
  transformExpr : ∀ e, KeepsEnv (calls.transformExpr e)
  resolveAssociatedType : ∀ σ generics ty, KeepsEnv (calls.resolveAssociatedType σ generics ty)

theorem keepsEnv_error (e : TypeError) : KeepsEnv (error e) := Keeps.modify fun _ => rfl

theorem keepsEnv_error_pure {α : Type} (e : TypeError) (a : α) :
    KeepsEnv (do error e; pure a) := (keepsEnv_error e).bind fun _ => .done a

theorem keepsEnv_infer (e : Expr) : KeepsEnv (infer d e) := by
  intro w a w' h
  cases h
  rfl

theorem keepsEnv_withEnv {α : Type} (env : Subst) (p : Gen α) : KeepsEnv (withEnv env p) :=
  Keeps.restoring p fun _ _ => rfl

theorem keepsEnv_whileResolving {α : Type} (name : Name) {p : Gen α} (hp : KeepsEnv p) :
    KeepsEnv (whileResolving name p) :=
  Keeps.bracket (fun _ => rfl) (fun _ _ => rfl) hp

theorem keepsEnv_validateBounds (generics : List GenericParam) (σ : Subst) :
    KeepsEnv (validateBounds d generics σ) := by
  unfold validateBounds
  split
  · exact .done _
  · exact keepsEnv_error_pure _ _

theorem keepsEnv_resolveProjection (σ : Subst) (generics : List GenericParam) (token : Name) :
    KeepsEnv (resolveProjection d σ generics token) := by
  unfold resolveProjection
  split
  · exact .done _
  · dsimp only
    split
    · exact keepsEnv_error_pure _ _
    · exact keepsEnv_error_pure _ _
    · split
      · exact .done _
      · exact keepsEnv_error_pure _ _
      · exact keepsEnv_error_pure _ _

section
variable {calls : Calls} (hcalls : calls.KeepEnv)
include hcalls

theorem keepsEnv_resolveAssociatedType (σ : Subst) (generics : List GenericParam) (ty : TypeAnnotation) :
    KeepsEnv (resolveAssociatedType d calls σ generics ty) := by
  have hinside := hcalls.resolveAssociatedType σ generics
  unfold resolveAssociatedType
  dsimp only
  split
  · exact keepsEnv_resolveProjection d σ generics _
  · exact (Keeps.eachOption hinside _).bind fun _ => .done _
  · exact (hinside _).bind fun _ => .done _
  · exact (hinside _).bind fun _ => .done _
  · exact (hinside _).bind fun _ => .done _
  · exact (Keeps.eachOption hinside _).bind fun _ => .done _
  · exact (hinside _).bind fun _ => .done _
  · exact (hinside _).bind fun _ => .done _
  · exact (hinside _).bind fun _ => .done _
  · exact .done _

theorem keepsEnv_specializationSubstitutions (generics : List GenericParam) (σ : Subst) :
    KeepsEnv (specializationSubstitutions d calls generics σ) := by
  unfold specializationSubstitutions
  dsimp only
  exact (Keeps.each fun _ _ => hcalls.resolveAssociatedType σ generics _).bind fun _ => .done _

theorem keepsEnv_expandAlias (token : Name) : KeepsEnv (expandAlias d calls token) := by
  unfold expandAlias
  dsimp only
  split
  · exact .done _
  · split
    · exact keepsEnv_error_pure _ _
    · apply Keeps.get.bind
      intro w
      split
      · exact keepsEnv_error_pure _ _
      · apply Keeps.bind _ fun _ => .done _
        apply keepsEnv_whileResolving
        apply (keepsEnv_validateBounds d _ _).bind
        intro ok
        split
        · apply (keepsEnv_specializationSubstitutions d hcalls _ _).bind
          intro σ
          exact hcalls.normalizeType _
        · exact .done _

theorem keepsEnv_ensureClassSpecialization (name : Name) : KeepsEnv (ensureClassSpecialization d calls name) := by
  unfold ensureClassSpecialization
  split
  · exact .done _
  · apply Keeps.get.bind
    intro w
    dsimp only
    split
    · exact .done _
    · split
      · split
        · exact .done _
        · exact keepsEnv_error _
      · split
        · exact keepsEnv_error _
        · apply (keepsEnv_validateBounds d _ _).bind
          intro ok
          split
          · apply (keepsEnv_specializationSubstitutions d hcalls _ _).bind
            intro σ
            apply Keeps.bind
            · exact Keeps.modify fun _ => rfl
            intro _
            apply (keepsEnv_withEnv _ _).bind
            intro body
            exact Keeps.modify fun _ => rfl
          · exact .done _

theorem keepsEnv_ensureEnumSpecialization (name : Name) : KeepsEnv (ensureEnumSpecialization d calls name) := by
  unfold ensureEnumSpecialization
  split
  · exact .done _
  · apply Keeps.get.bind
    intro w
    dsimp only
    split
    · exact .done _
    · split
      · exact .done _
      · split
        · exact keepsEnv_error _
        · apply (keepsEnv_validateBounds d _ _).bind
          intro ok
          split
          · apply (keepsEnv_specializationSubstitutions d hcalls _ _).bind
            intro σ
            exact Keeps.modify fun _ => rfl
          · exact .done _

theorem keepsEnv_normalizeType (ty : TypeAnnotation) : KeepsEnv (normalizeType d calls ty) := by
  have hinside := hcalls.normalizeType
  unfold normalizeType
  split
  · exact (Keeps.eachOption hinside _).bind fun _ => .done _
  · exact (hinside _).bind fun _ => .done _
  · exact (hinside _).bind fun _ => .done _
  · exact (hinside _).bind fun _ => .done _
  · exact (Keeps.eachOption hinside _).bind fun _ => .done _
  · exact (hinside _).bind fun _ => .done _
  · exact (hinside _).bind fun _ => .done _
  · exact (hinside _).bind fun _ => .done _
  · apply (keepsEnv_expandAlias d hcalls _).bind
    intro expanded
    split
    · exact .done _
    · apply (keepsEnv_ensureClassSpecialization d hcalls _).bind
      intro _
      exact (keepsEnv_ensureEnumSpecialization d hcalls _).bind fun _ => .done _
  · exact .done _

end

theorem keepsEnv_inferArguments (generics : List Name) (arguments : List (FunctionParam × Expr)) (σ : Subst) :
    KeepsEnv (inferArguments equal d generics arguments σ) := by
  induction arguments generalizing σ with
  | nil => exact .done _
  | cons argument rest ih =>
    obtain ⟨param, argument⟩ := argument
    rw [inferArguments]
    split
    · exact ih σ
    · apply (keepsEnv_infer d argument).bind
      intro actual
      split
      · exact keepsEnv_error_pure _ _
      · split
        · exact keepsEnv_error_pure _ _
        · exact ih _

theorem keepsEnv_concreteReturn (traitName : Name) (returns : List Expr) (concrete : Option Name) :
    KeepsEnv (concreteReturn d traitName returns concrete) := by
  induction returns generalizing concrete with
  | nil => exact .done _
  | cons e rest ih =>
    rw [concreteReturn]
    apply (keepsEnv_infer d e).bind
    intro ty
    split
    · exact (keepsEnv_error _).bind fun _ => ih _
    · split
      · exact (keepsEnv_error _).bind fun _ => ih _
      · split
        · split
          · exact (keepsEnv_error _).bind fun _ => ih _
          · exact ih _
        · exact ih _
    · exact (keepsEnv_error _).bind fun _ => ih _

theorem keepsEnv_inferSubstitutions (template : FunctionTemplate) (arguments : List Expr) :
    KeepsEnv (inferSubstitutions equal d template arguments) := by
  unfold inferSubstitutions
  apply (keepsEnv_inferArguments equal d _ _ _).bind
  intro σ
  split
  · exact .done _
  · split
    · exact keepsEnv_error_pure _ _
    · exact .done _

section
variable {calls : Calls} (hcalls : calls.KeepEnv)
include hcalls

theorem keepsEnv_specialize (name : Name) (template : FunctionTemplate) (σ : Subst) :
    KeepsEnv (specialize d calls name template σ) := by
  unfold specialize
  dsimp only
  apply Keeps.get.bind
  intro w
  split
  · exact .done _
  · apply Keeps.bind
    · exact Keeps.modify fun _ => rfl
    intro _
    apply (keepsEnv_specializationSubstitutions d hcalls _ _).bind
    intro σ
    apply Keeps.bind
    · exact Keeps.modify fun _ => rfl
    intro _
    apply (keepsEnv_withEnv _ _).bind
    intro body
    apply Keeps.bind
    · exact Keeps.modify fun _ => rfl
    exact fun _ => .done _

theorem keepsEnv_transformCallee (arguments : List Expr) (callee : Expr) :
    KeepsEnv (transformCallee equal d calls arguments callee) := by
  cases callee with
  | var name =>
    rw [transformCallee]
    split
    · apply (keepsEnv_inferSubstitutions equal d _ _).bind
      intro σ
      split
      · exact (keepsEnv_specialize d hcalls _ _ _).bind fun _ => .done _
      · exact .done _
    · exact (keepsEnv_ensureClassSpecialization d hcalls _).bind fun _ => .done _
  | _ => exact hcalls.transformExpr _

theorem keepsEnv_transformExpr (e : Expr) : KeepsEnv (transformExpr equal d calls e) := by
  have hinside : ∀ e, KeepsEnv (calls.transformExpr e) := hcalls.transformExpr
  unfold transformExpr
  split
  · apply (Keeps.each fun e _ => hinside e).bind
    intro arguments
    exact (keepsEnv_transformCallee equal d hcalls _ _).bind fun _ => .done _
  · split
    · exact .done _
    · exact (Keeps.each fun e _ => hinside e).bind fun _ => .done _
  · exact (hinside _).bind fun _ => .done _
  · apply (Keeps.each fun e _ => hinside e).bind
    intro fields
    exact (Keeps.eachOption hinside _).bind fun _ => .done _
  · exact .done _

theorem keepsEnv_transformReturnType (function : Name) (body : List Stmt) (ty : TypeAnnotation) :
    KeepsEnv (transformReturnType d calls function body ty) := by
  unfold transformReturnType
  split
  · apply Keeps.bind _ fun _ => hcalls.normalizeType _
    unfold resolveImplTraitReturn
    split
    · exact keepsEnv_error_pure _ _
    · split
      · exact keepsEnv_error_pure _ _
      · split
        · exact keepsEnv_error_pure _ _
        · split
          · exact keepsEnv_error_pure _ _
          · apply (keepsEnv_concreteReturn d _ _ _).bind
            intro concrete
            split
            · exact .done _
            · exact .done _
  · exact hcalls.normalizeType _

end

theorem lower_keepEnv (n : ℕ) : (lower equal d n).KeepEnv := by
  induction n with
  | zero => exact ⟨fun _ => .exhausted, fun _ => .exhausted, fun _ _ _ => .exhausted⟩
  | succ n ih =>
    exact ⟨keepsEnv_normalizeType d ih, keepsEnv_transformExpr equal d ih, keepsEnv_resolveAssociatedType d ih⟩

end

end Neutron.Generics
