import Neutron.OwnershipFlow

/-!
# What a loop leaves behind

A loop statement hands its parts to `check_loop`: the expressions before the body, the body and the expressions
after it. The state the checker goes on with covers the loop for every number of rounds.
-/

namespace Neutron.Ownership

open Checker

structure Parts where
  heads : List Expr
  body : Stmt
  tails : List Expr

def checkExprs (ctx : Context) (es : List Expr) (σ : Checker) : Checker := es.foldl (fun σ e => e.check ctx σ) σ

namespace Parts

variable (parts : Parts)

/-- One round of the loop. -/
def check (ctx : Context) (σ : Checker) : Checker :=
  checkExprs ctx parts.tails (parts.body.check ctx (checkExprs ctx parts.heads σ))

def tidy : Bool :=
  parts.heads.all Expr.tidy && (parts.body.tidy && !parts.body.isDeclaration) && parts.tails.all Expr.tidy

end Parts

/-! ### Rounds -/

section
variable {fns : Signatures} {f : Context → Checker → Checker} {sc : List Scope} {names : Finset Name}
  {ctx : Context} {σ : Checker}

/-- The moved map after a loop holds what was moved before it and what one more round from it moves. -/
theorem Transfers.closed (hf : Transfers fns f sc sc names) (hc : ctx.fns = fns) (hσ : σ.scopes = sc)
    (hloop : (checkLoop (f ctx) σ).errors = []) {t : GenKill Binding}
    (ht : ∀ σ, σ.scopes = sc → (f ctx σ).errors = [] → ((f ctx σ).flow.moved : Set Binding) = t.apply σ.flow.moved) :
    σ.flow.moved ⊆ (checkLoop (f ctx) σ).flow.moved ∧
      t.apply (checkLoop (f ctx) σ).flow.moved ⊆ (checkLoop (f ctx) σ).flow.moved := by
  unfold checkLoop at hloop ⊢
  dsimp only at hloop ⊢
  split at hloop
  · rename_i hsame
    have hmoved : ((σ.flow.union (f ctx σ).flow).moved : Set Binding) = σ.flow.moved := congrArg _ hsame
    rw [if_pos hsame]
    refine ⟨Finset.subset_union_left, ?_⟩
    change t.apply ((σ.flow.union (f ctx σ).flow).moved : Set Binding) ⊆ _
    rw [hmoved, ← ht σ hσ hloop]
    exact Finset.coe_subset.mpr Finset.subset_union_right
  · rename_i hdiff
    rw [if_neg hdiff]
    set first := (f ctx σ).withFlow (σ.flow.union (f ctx σ).flow) with hdef
    have hscopes : first.scopes = sc := hf.scopes ctx σ hc hσ
    have hfirst := ht σ hσ (eq_nil_of_subset_nil (hf.errors ctx first hc hscopes) hloop)
    have hpass : (first.flow.moved : Set Binding) = (σ.flow.moved : Set Binding) ∪ t.apply σ.flow.moved := by
      change ((σ.flow.moved ∪ (f ctx σ).flow.moved : Finset Binding) : Set Binding) = _
      rw [Finset.coe_union, hfirst]
    have hsettled : ((first.flow.union (f ctx first).flow).moved : Set Binding) = first.flow.moved := by
      change ((first.flow.moved ∪ (f ctx first).flow.moved : Finset Binding) : Set Binding) = _
      rw [Finset.coe_union, ht first hscopes hloop, hpass]
      exact Set.union_eq_self_of_subset_right (t.apply_union_apply_subset _)
    refine ⟨Finset.subset_union_left.trans Finset.subset_union_left, ?_⟩
    change t.apply ((first.flow.union (f ctx first).flow).moved : Set Binding) ⊆ (first.flow.union _).moved
    rw [hsettled, hpass]
    exact t.apply_union_apply_subset _

/-- No rounds without an error leave the moved map after the loop. -/
theorem Transfers.covers (hf : Transfers fns f sc sc names) (hc : ctx.fns = fns) (hσ : σ.scopes = sc)
    (hloop : (checkLoop (f ctx) σ).errors = []) :
    σ.flow.moved ⊆ (checkLoop (f ctx) σ).flow.moved ∧ ∀ τ n, τ.scopes = sc →
      τ.flow.moved ⊆ (checkLoop (f ctx) σ).flow.moved → ((f ctx)^[n] τ).errors = [] →
        ((f ctx)^[n] τ).flow.moved ⊆ (checkLoop (f ctx) σ).flow.moved := by
  obtain ⟨t, -, htm⟩ := hf.moved
  have hclosed := hf.closed hc hσ hloop fun σ hσ => htm ctx σ hc hσ
  refine ⟨hclosed.1, fun τ n hτ hcovered => ?_⟩
  have hrounds : ∀ n, ((f ctx)^[n] τ).scopes = sc ∧ (((f ctx)^[n] τ).errors = [] →
      (((f ctx)^[n] τ).flow.moved : Set Binding) = t.apply^[n] τ.flow.moved) := by
    intro n
    induction n with
    | zero => exact ⟨hτ, fun _ => rfl⟩
    | succ n ih =>
      rw [Function.iterate_succ_apply', Function.iterate_succ_apply']
      refine ⟨hf.scopes ctx _ hc ih.1, fun herrors => ?_⟩
      rw [htm ctx _ hc ih.1 herrors, ih.2 (eq_nil_of_subset_nil (hf.errors ctx _ hc ih.1) herrors)]
  intro hn
  rw [← Finset.coe_subset, (hrounds n).2 hn]
  exact t.iterate_subset (Finset.coe_subset.mpr hcovered) hclosed.2 n

end

/-! ### Loops -/

theorem transfers_checkExprs {es : List Expr} (ht : es.all Expr.tidy = true) (fns : Signatures) (sc : List Scope) :
    ∃ names, Transfers fns (fun ctx => checkExprs ctx es) sc sc names := by
  induction es with
  | nil => exact ⟨∅, Transfers.plain fun _ => Plain.refl⟩
  | cons e rest ih =>
    simp only [List.all_cons, Bool.and_eq_true] at ht
    obtain ⟨names, hrest⟩ := ih ht.2
    exact ⟨names ∪ e.uses, (hrest.mono Finset.subset_union_left).comp
      (e.transfers fns sc ht.1 Finset.subset_union_right)⟩

namespace Parts

variable {parts : Parts} {ctx : Context} {σ : Checker}

theorem transfers (ht : parts.tidy = true) (fns : Signatures) (sc : List Scope) :
    ∃ names, Transfers fns parts.check sc sc names := by
  simp only [tidy, Bool.and_eq_true, Bool.not_eq_true'] at ht
  obtain ⟨before, hheads⟩ := transfers_checkExprs ht.1.1 fns sc
  obtain ⟨after, htails⟩ := transfers_checkExprs ht.2 fns sc
  have hbody := (parts.body.transfers fns sc ht.1.2.1 (Finset.Subset.refl _)).asBody ht.1.2.2
  have hleft : parts.body.uses ⊆ parts.body.uses ∪ before := Finset.subset_union_left
  have hmiddle := (hbody.mono hleft).comp (hheads.mono Finset.subset_union_right)
  exact ⟨after ∪ (parts.body.uses ∪ before), (htails.mono Finset.subset_union_left).comp
    (hmiddle.mono Finset.subset_union_right)⟩

/-- Two passes stand for all rounds of an accepted loop: what is marked as moved after it holds what was moved
before it, and no number of rounds leads out of it, from before the loop or from any state it covers. -/
theorem loop_covers_rounds (ht : parts.tidy = true) (hloop : (checkLoop (parts.check ctx) σ).errors = []) :
    σ.flow.moved ⊆ (checkLoop (parts.check ctx) σ).flow.moved ∧ ∀ τ n, τ.scopes = σ.scopes →
      τ.flow.moved ⊆ (checkLoop (parts.check ctx) σ).flow.moved → ((parts.check ctx)^[n] τ).errors = [] →
        ((parts.check ctx)^[n] τ).flow.moved ⊆ (checkLoop (parts.check ctx) σ).flow.moved := by
  obtain ⟨names, htransfers⟩ := transfers ht ctx.fns σ.scopes
  exact htransfers.covers rfl rfl hloop

theorem loop_covers_rounds_assigned :
    let parts : Parts := ⟨[.var "i" ⟨0, 1, 1, 1⟩],
      .block (.cons (.expr (.assign "x" ⟨2, 3, 1, 3⟩ (.var "i" ⟨4, 5, 1, 5⟩))) .nil), []⟩
    let ctx : Context := ⟨fun _ => none, [], ∅⟩
    let σ := Checker.defineParams [("i", .scalar), ("x", .heap)] (Checker.new.withMoved {("x", 1)})
    σ.flow.moved ⊆ (checkLoop (parts.check ctx) σ).flow.moved ∧ ∀ τ n, τ.scopes = σ.scopes →
      τ.flow.moved ⊆ (checkLoop (parts.check ctx) σ).flow.moved → ((parts.check ctx)^[n] τ).errors = [] →
        ((parts.check ctx)^[n] τ).flow.moved ⊆ (checkLoop (parts.check ctx) σ).flow.moved :=
  loop_covers_rounds (by decide +kernel) (by decide +kernel)

end Parts

end Neutron.Ownership
