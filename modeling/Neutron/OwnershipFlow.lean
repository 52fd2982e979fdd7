import Neutron.GenKill
import Neutron.OwnershipRuns

/-!
# What the checker does to the moved map

Every part of the checker keeps the errors already reported, and on a run without errors the
moved map after it is a gen-kill transfer of the one before, with a transfer that only the
scopes decide. `Transfers` says so with the scopes before and after and with the names the
part mentions: only those, and the bindings of scopes it opens itself, can be killed.
-/

namespace Neutron.Ownership

/-! ### Parts that only report and borrow -/

/-- A part that keeps the scopes and the moved map. -/
structure Plain (f : Checker → Checker) : Prop where
  errors : ∀ σ, σ.errors ⊆ (f σ).errors
  scopes : ∀ σ, (f σ).scopes = σ.scopes
  moved : ∀ σ, (f σ).flow.moved = σ.flow.moved

namespace Plain

theorem refl : Plain fun σ => σ := ⟨fun _ => List.Subset.refl _, fun _ => rfl, fun _ => rfl⟩

theorem comp {f g : Checker → Checker} (hg : Plain g) (hf : Plain f) :
    Plain fun σ => g (f σ) where
  errors σ := List.Subset.trans (hf.errors σ) (hg.errors _)
  scopes σ := (hg.scopes _).trans (hf.scopes σ)
  moved σ := (hg.moved _).trans (hf.moved σ)

theorem ite {p : Checker → Prop} [DecidablePred p] {f g : Checker → Checker} (hf : Plain f)
    (hg : Plain g) : Plain fun σ => if p σ then f σ else g σ where
  errors σ := by
    split
    · exact hf.errors σ
    · exact hg.errors σ
  scopes σ := by
    split
    · exact hf.scopes σ
    · exact hg.scopes σ
  moved σ := by
    split
    · exact hf.moved σ
    · exact hg.moved σ

/-- A part that is plain in each state, whichever form it takes there. -/
theorem of_forall {f : Checker → Checker} (h : ∀ σ, ∃ g, Plain g ∧ f σ = g σ) : Plain f where
  errors σ := by
    obtain ⟨g, hg, heq⟩ := h σ
    exact heq ▸ hg.errors σ
  scopes σ := by
    obtain ⟨g, hg, heq⟩ := h σ
    exact heq ▸ hg.scopes σ
  moved σ := by
    obtain ⟨g, hg, heq⟩ := h σ
    exact heq ▸ hg.moved σ

variable (ctx : Context)

theorem error (message : String) (sp : Span) : Plain (Checker.error message sp) where
  errors σ := by
    unfold Checker.error
    split
    · exact List.Subset.refl _
    · exact List.subset_append_left _ _
  scopes σ := by
    unfold Checker.error
    split <;> rfl
  moved σ := by
    unfold Checker.error
    split <;> rfl

theorem withBorrows (borrows : List Layer) : Plain (Checker.withBorrows borrows) :=
  ⟨fun _ => List.Subset.refl _, fun _ => rfl, fun _ => rfl⟩

theorem releaseBorrow (holder : Name) : Plain (Checker.releaseBorrow holder) :=
  ⟨fun _ => List.Subset.refl _, fun _ => rfl, fun _ => rfl⟩

theorem clearStatementViews : Plain Checker.clearStatementViews :=
  ⟨fun _ => List.Subset.refl _, fun _ => rfl, fun _ => rfl⟩

theorem readVar (x : Name) (sp : Span) : Plain (Checker.readVar x sp) :=
  ite (error _ _) refl

theorem reportConflict (x : Name) (kind : ViewKind) (sp : Span) :
    Plain (Checker.reportConflict ctx x kind sp) := by
  apply of_forall
  intro σ
  unfold Checker.reportConflict
  split
  · split
    · exact ⟨_, error _ _, rfl⟩
    · exact ⟨_, refl, rfl⟩
  · exact ⟨_, refl, rfl⟩

theorem borrowSource (holder source : Name) (kind : ViewKind) (origin : Span) :
    Plain (Checker.borrowSource ctx holder source kind origin) := by
  apply of_forall
  intro σ
  unfold Checker.borrowSource
  split
  · exact ⟨_, error _ _, rfl⟩
  · split
    · exact ⟨_, refl, rfl⟩
    · dsimp only
      split
      · exact ⟨_, error _ _, rfl⟩
      · exact ⟨_, (withBorrows _).comp (reportConflict ctx _ _ _), rfl⟩

theorem registerView (x : Name) (kind : ViewKind) (sp : Span) :
    Plain (Checker.registerView ctx x kind sp) := by
  have hadd : ∀ (f g : List (Name × Span) → List (Name × Span)),
      Plain fun σ => { σ with views := f σ.views, mutViews := g σ.mutViews } := fun f g =>
    ⟨fun _ => List.Subset.refl _, fun _ => rfl, fun _ => rfl⟩
  apply of_forall
  intro σ
  unfold Checker.registerView
  split
  · exact ⟨_, error _ _, rfl⟩
  · cases kind with
    | shared =>
      exact ⟨_, (hadd (Checker.addView x sp) id).comp (reportConflict ctx x .shared sp), rfl⟩
    | mutable => exact ⟨_, (hadd id (Checker.addView x sp)).comp (reportConflict ctx x .mutable sp), rfl⟩

theorem viewVar (x : Name) (sp : Span) (mutable : Bool) :
    Plain (Checker.viewVar ctx x sp mutable) :=
  ite (registerView ctx x _ sp) refl

theorem recordBorrow (x : Name) (sp : Span) (ann : Option Annotation) (view : Option Bool)
    (init : Expr) : Plain (Checker.recordBorrow ctx x sp ann view init) := by
  have hclear : Plain fun σ : Checker =>
      if (refBorrow ann (some init)).isSome then σ.clearStatementViews else σ :=
    ite clearStatementViews refl
  apply of_forall
  intro σ
  unfold Checker.recordBorrow
  dsimp only
  split
  · rename_i source _ _
    exact ⟨_, (ite (p := fun σ => (isBorrowableKind (lookupKind σ.scopes source) ||
      (refBorrow ann (some init)).isSome) = true) (borrowSource ctx x source _ _) refl).comp
        hclear, rfl⟩
  · exact ⟨_, (error _ _).comp hclear, rfl⟩

theorem rebindView (x : Name) (value : Expr) : Plain (Checker.rebindView ctx x value) := by
  apply of_forall
  intro σ
  unfold Checker.rebindView
  dsimp only
  split
  · split
    · exact ⟨_, (borrowSource ctx _ _ _ _).comp (releaseBorrow x), rfl⟩
    · exact ⟨_, releaseBorrow x, rfl⟩
  · split
    · exact ⟨_, (withBorrows _).comp (releaseBorrow x), rfl⟩
    · exact ⟨_, releaseBorrow x, rfl⟩
  · exact ⟨_, releaseBorrow x, rfl⟩

end Plain

/-! ### Transfers of the moved map -/

/-- The transfer marks only the given names in the open scopes, and kills only those and
bindings of inner scopes. -/
structure Confined (t : GenKill Binding) (depth : ℕ) (names : Finset Name) : Prop where
  gen : ∀ b ∈ t.gen, b.1 ∈ names ∧ b.2 < depth
  kill : ∀ b ∈ t.kill, b.1 ∈ names ∨ depth ≤ b.2

namespace Confined

variable {t u : GenKill Binding} {depth : ℕ} {names : Finset Name}

theorem id : Confined GenKill.id depth names := ⟨by simp [GenKill.id], by simp [GenKill.id]⟩

theorem seq (ht : Confined t depth names) (hu : Confined u depth names) :
    Confined (t.seq u) depth names where
  gen b hb := by
    rcases hb with hb | hb
    · exact hu.gen b hb
    · exact ht.gen b hb.1
  kill b hb := by
    rcases hb with hb | hb
    · exact ht.kill b hb
    · exact hu.kill b hb

theorem join (ht : Confined t depth names) (hu : Confined u depth names) :
    Confined (t.join u) depth names where
  gen b hb := by
    rcases hb with hb | hb
    · exact ht.gen b hb
    · exact hu.gen b hb
  kill b hb := ht.kill b hb.1

theorem mono {names' : Finset Name} (ht : Confined t depth names) (h : names ⊆ names') :
    Confined t depth names' where
  gen b hb := (ht.gen b hb).imp_left (@h _)
  kill b hb := (ht.kill b hb).imp_left (@h _)

end Confined

/-- The contexts only differ in their live names and held views, which decide errors but not
the transfer. -/
structure Transfers (fns : Signatures) (f : Context → Checker → Checker) (sc sc' : List Scope)
    (names : Finset Name) : Prop where
  errors : ∀ ctx σ, ctx.fns = fns → σ.scopes = sc → σ.errors ⊆ (f ctx σ).errors
  scopes : ∀ ctx σ, ctx.fns = fns → σ.scopes = sc → (f ctx σ).scopes = sc'
  depth : sc'.length = sc.length
  moved : ∃ t, Confined t sc.length names ∧ ∀ ctx σ, ctx.fns = fns → σ.scopes = sc →
    (f ctx σ).errors = [] → ((f ctx σ).flow.moved : Set Binding) = t.apply σ.flow.moved

theorem eq_nil_of_subset_nil {l l' : List (String × Span)} (h : l ⊆ l') (hl : l' = []) :
    l = [] := List.eq_nil_of_subset_nil (hl ▸ h)

/-- A part that reports nothing in a state whose marks lie within the open scopes. -/
structure Accepted (fns : Signatures) (sc : List Scope) (f : Context → Checker → Checker)
    (ctx : Context) (σ : Checker) : Prop where
  fns : ctx.fns = fns
  scopes : σ.scopes = sc
  bounded : ∀ b ∈ σ.flow.moved, b.2 < sc.length
  errors : (f ctx σ).errors = []

namespace Transfers

variable {fns : Signatures} {f g : Context → Checker → Checker} {sc sc' sc'' : List Scope}
  {names names' : Finset Name}

theorem plain (h : ∀ ctx, Plain (f ctx)) : Transfers fns f sc sc names where
  errors ctx σ _ _ := (h ctx).errors σ
  scopes ctx σ _ hσ := ((h ctx).scopes σ).trans hσ
  depth := rfl
  moved := ⟨.id, .id, fun ctx σ _ _ _ => by rw [(h ctx).moved, GenKill.apply_id]⟩

theorem comp (hg : Transfers fns g sc' sc'' names) (hf : Transfers fns f sc sc' names) :
    Transfers fns (fun ctx σ => g ctx (f ctx σ)) sc sc'' names where
  errors ctx σ hc hσ := List.Subset.trans (hf.errors ctx σ hc hσ)
    (hg.errors ctx _ hc (hf.scopes ctx σ hc hσ))
  scopes ctx σ hc hσ := hg.scopes ctx _ hc (hf.scopes ctx σ hc hσ)
  depth := hg.depth.trans hf.depth
  moved := by
    obtain ⟨t, ht, htm⟩ := hf.moved
    obtain ⟨u, hu, hum⟩ := hg.moved
    refine ⟨t.seq u, ht.seq (hf.depth ▸ hu), ?_⟩
    intro ctx σ hc hσ he
    have hscopes := hf.scopes ctx σ hc hσ
    have hfe : (f ctx σ).errors = [] := eq_nil_of_subset_nil (hg.errors ctx _ hc hscopes) he
    rw [hum ctx _ hc hscopes he, htm ctx σ hc hσ hfe, GenKill.apply_seq]

theorem congr (hf : Transfers fns f sc sc' names)
    (h : ∀ ctx σ, ctx.fns = fns → σ.scopes = sc → g ctx σ = f ctx σ) :
    Transfers fns g sc sc' names where
  errors ctx σ hc hσ := h ctx σ hc hσ ▸ hf.errors ctx σ hc hσ
  scopes ctx σ hc hσ := h ctx σ hc hσ ▸ hf.scopes ctx σ hc hσ
  depth := hf.depth
  moved := by
    obtain ⟨t, ht, htm⟩ := hf.moved
    exact ⟨t, ht, fun ctx σ hc hσ => h ctx σ hc hσ ▸ htm ctx σ hc hσ⟩

theorem mono (hf : Transfers fns f sc sc' names) (h : names ⊆ names') :
    Transfers fns f sc sc' names' where
  errors := hf.errors
  scopes := hf.scopes
  depth := hf.depth
  moved := by
    obtain ⟨t, ht, htm⟩ := hf.moved
    exact ⟨t, ht.mono h, htm⟩

/-- A part checked in a context that the state decides. -/
theorem within (hf : Transfers fns f sc sc' names) (φ : Context → Checker → Context)
    (hφ : ∀ ctx σ, (φ ctx σ).fns = ctx.fns) :
    Transfers fns (fun ctx σ => f (φ ctx σ) σ) sc sc' names where
  errors ctx σ hc hσ := hf.errors _ σ ((hφ ctx σ).trans hc) hσ
  scopes ctx σ hc hσ := hf.scopes _ σ ((hφ ctx σ).trans hc) hσ
  depth := hf.depth
  moved := by
    obtain ⟨t, ht, htm⟩ := hf.moved
    exact ⟨t, ht, fun ctx σ hc hσ => htm _ σ ((hφ ctx σ).trans hc) hσ⟩

variable {ctx : Context} {σ : Checker}

/-- What is not mentioned, in the scopes that were open, stays as it was. -/
theorem unmentioned (hf : Transfers fns f sc sc' names)
    (h : Accepted fns sc f ctx σ) {b : Binding} (hx : b.1 ∉ names) (hd : b.2 < sc.length) :
    b ∈ (f ctx σ).flow.moved ↔ b ∈ σ.flow.moved := by
  obtain ⟨t, ht, htm⟩ := hf.moved
  rw [← Finset.mem_coe, htm ctx σ h.fns h.scopes h.errors]
  constructor
  · rintro (hg | ⟨hm, -⟩)
    · exact absurd (ht.gen b hg).1 hx
    · exact hm
  · intro hm
    apply GenKill.mem_apply_of_mem hm
    intro hk
    rcases ht.kill b hk with h | h
    · exact hx h
    · omega

/-- The marks stay within the open scopes. -/
theorem bounded (hf : Transfers fns f sc sc' names)
    (h : Accepted fns sc f ctx σ) : ∀ b ∈ (f ctx σ).flow.moved, b.2 < sc'.length := by
  obtain ⟨t, ht, htm⟩ := hf.moved
  intro b hb
  have hmem : b ∈ ((f ctx σ).flow.moved : Set Binding) := hb
  rw [htm ctx σ h.fns h.scopes h.errors] at hmem
  rw [hf.depth]
  rcases hmem with hg | hm
  · exact (ht.gen b hg).2
  · exact h.bounded b hm.1

theorem accepted_first (hf : Transfers fns f sc sc' names) (hg : Transfers fns g sc' sc'' names')
    (h : Accepted fns sc (fun ctx σ => g ctx (f ctx σ)) ctx σ) :
    Accepted fns sc f ctx σ where
  fns := h.fns
  scopes := h.scopes
  bounded := h.bounded
  errors := eq_nil_of_subset_nil
    (hg.errors ctx (f ctx σ) h.fns (hf.scopes ctx σ h.fns h.scopes)) h.errors

theorem accepted_second (hf : Transfers fns f sc sc' names) (hg : Transfers fns g sc' sc'' names')
    (h : Accepted fns sc (fun ctx σ => g ctx (f ctx σ)) ctx σ) :
    Accepted fns sc' g ctx (f ctx σ) where
  fns := h.fns
  scopes := hf.scopes ctx σ h.fns h.scopes
  bounded := hf.bounded (hf.accepted_first hg h)
  errors := h.errors

/-- Two passes over a loop body reach its closure. -/
theorem loop (hf : Transfers fns f sc sc names) :
    Transfers fns (fun ctx => Checker.checkLoop (f ctx)) sc sc names where
  errors ctx σ hc hσ := by
    unfold Checker.checkLoop
    dsimp only
    split
    · exact hf.errors ctx σ hc hσ
    · exact List.Subset.trans (hf.errors ctx σ hc hσ) (hf.errors ctx
        (Checker.withFlow (σ.flow.union (f ctx σ).flow) (f ctx σ)) hc (hf.scopes ctx σ hc hσ))
  scopes ctx σ hc hσ := by
    unfold Checker.checkLoop
    dsimp only
    split
    · exact hf.scopes ctx σ hc hσ
    · exact hf.scopes ctx _ hc (hf.scopes ctx σ hc hσ)
  depth := rfl
  moved := by
    obtain ⟨t, ht, htm⟩ := hf.moved
    refine ⟨GenKill.id.join t, Confined.id.join ht, ?_⟩
    intro ctx σ hc hσ he
    rw [GenKill.apply_join, GenKill.apply_id]
    unfold Checker.checkLoop at he ⊢
    dsimp only at he ⊢
    split at he
    · rename_i hsame
      rw [if_pos hsame]
      have hfirst := htm ctx σ hc hσ he
      change ((σ.flow.moved ∪ (f ctx σ).flow.moved : Finset Binding) : Set Binding) = _
      rw [Finset.coe_union, hfirst]
    · rename_i hdiff
      rw [if_neg hdiff]
      set first := (f ctx σ).withFlow (σ.flow.union (f ctx σ).flow) with hdef
      have hscopes : first.scopes = sc := hf.scopes ctx σ hc hσ
      have hfirst : (f ctx σ).errors = [] :=
        eq_nil_of_subset_nil (hf.errors ctx first hc hscopes) he
      have hm : (first.flow.moved : Set Binding) =
          (σ.flow.moved : Set Binding) ∪ t.apply σ.flow.moved := by
        change ((σ.flow.moved ∪ (f ctx σ).flow.moved : Finset Binding) : Set Binding) = _
        rw [Finset.coe_union, htm ctx σ hc hσ hfirst]
      have hsecond := htm ctx first hc hscopes he
      change ((first.flow.moved ∪ (f ctx first).flow.moved : Finset Binding) : Set Binding) = _
      rw [Finset.coe_union, hsecond, hm]
      exact Set.union_eq_self_of_subset_right (t.apply_union_apply_subset _)

/-- The state at the head of an accepted loop: it covers the state before the loop and the
effect of one more round. -/
theorem settles (hf : Transfers fns f sc sc names)
    (h : Accepted fns sc (fun ctx => Checker.checkLoop (f ctx)) ctx σ) :
    ∃ τ, Accepted fns sc f ctx τ ∧ σ.flow.moved ⊆ τ.flow.moved ∧
      (f ctx τ).flow.moved ⊆ τ.flow.moved ∧
      (Checker.checkLoop (f ctx) σ).flow.moved = τ.flow.moved := by
  have hloop := hf.loop.bounded h
  have herrors := h.errors
  unfold Checker.checkLoop at herrors hloop ⊢
  dsimp only at herrors hloop ⊢
  split at herrors
  · rename_i hsame
    rw [if_pos hsame]
    have hsub : (f ctx σ).flow.moved ⊆ σ.flow.moved := by
      have hunion : σ.flow.moved ∪ (f ctx σ).flow.moved = σ.flow.moved := hsame
      exact Finset.union_eq_left.mp hunion
    exact ⟨σ, ⟨h.fns, h.scopes, h.bounded, herrors⟩, Finset.Subset.refl _, hsub, hsame⟩
  · rename_i hdiff
    rw [if_neg hdiff] at hloop ⊢
    set first := (f ctx σ).withFlow (σ.flow.union (f ctx σ).flow) with hdef
    have hscopes : first.scopes = sc := hf.scopes ctx σ h.fns h.scopes
    have hfirst : (f ctx σ).errors = [] :=
      eq_nil_of_subset_nil (hf.errors ctx first h.fns hscopes) herrors
    obtain ⟨t, ht, htm⟩ := hf.moved
    have hm : (first.flow.moved : Set Binding) =
        (σ.flow.moved : Set Binding) ∪ t.apply σ.flow.moved := by
      change ((σ.flow.moved ∪ (f ctx σ).flow.moved : Finset Binding) : Set Binding) = _
      rw [Finset.coe_union, htm ctx σ h.fns h.scopes hfirst]
    have hsub : (f ctx first).flow.moved ⊆ first.flow.moved := by
      rw [← Finset.coe_subset, htm ctx first h.fns hscopes herrors, hm]
      exact t.apply_union_apply_subset _
    have hbound : ∀ b ∈ first.flow.moved, b.2 < sc.length := fun b hb =>
      hloop b (Finset.mem_union_left _ hb)
    refine ⟨first, ⟨h.fns, hscopes, hbound, herrors⟩, Finset.subset_union_left, hsub, ?_⟩
    exact Finset.union_eq_left.mpr hsub

theorem mem_moved_popScope (σ : Checker) (b : Binding) :
    b ∈ σ.popScope.flow.moved ↔ b ∈ σ.flow.moved ∧ b.2 < σ.scopes.tail.length :=
  Finset.mem_filter

/-- A part that opens a scope, and closes it again. -/
theorem inScope {inner : List Scope} (hf : Transfers fns f inner sc' names)
    (enter : Checker → Checker)
    (henter : ∀ σ, (enter σ).errors = σ.errors ∧ (enter σ).flow.moved = σ.flow.moved)
    (hscopes : ∀ σ, σ.scopes = sc → (enter σ).scopes = inner) (htail : sc'.tail = sc)
    (hlen : inner.length = sc.length + 1) :
    Transfers fns (fun ctx σ => (f ctx (enter σ)).popScope) sc sc names where
  errors ctx σ hc hσ := (henter σ).1 ▸ hf.errors ctx (enter σ) hc (hscopes σ hσ)
  scopes ctx σ hc hσ := by
    change (f ctx (enter σ)).scopes.tail = sc
    rw [hf.scopes ctx _ hc (hscopes σ hσ), htail]
  depth := rfl
  moved := by
    obtain ⟨t, ht, htm⟩ := hf.moved
    let outer : Set Binding := {b | b.2 < sc.length}
    refine ⟨⟨t.gen ∩ outer, t.kill ∪ outerᶜ⟩, ⟨fun b hb => ⟨(ht.gen b hb.1).1, hb.2⟩, ?_⟩, ?_⟩
    · rintro b (hb | hb)
      · rcases ht.kill b hb with h | h
        · exact .inl h
        · exact .inr (by omega)
      · exact .inr (not_lt.mp hb)
    · intro ctx σ hc hσ he
      have hm := htm ctx (enter σ) hc (hscopes σ hσ) he
      rw [(henter σ).2] at hm
      have hout : (f ctx (enter σ)).scopes.tail.length = sc.length := by
        rw [hf.scopes ctx _ hc (hscopes σ hσ), htail]
      ext b
      have hmem := Set.ext_iff.mp hm b
      rw [Finset.mem_coe, mem_moved_popScope, hout]
      simp only [GenKill.apply, Set.mem_union, Set.mem_sdiff, Set.mem_inter_iff,
        Set.mem_compl_iff, Finset.mem_coe, Set.mem_ofPred_eq, outer] at hmem ⊢
      tauto

/-- A part that runs in a scope with one variable. -/
theorem bound (x : Name) (kind : ValueKind)
    (hf : Transfers fns f (defineKind x kind ([] :: sc)) (defineKind x kind ([] :: sc)) names) :
    Transfers fns (fun ctx σ => (f ctx (σ.pushScope.define x kind)).popScope) sc sc names :=
  hf.inScope (fun σ => σ.pushScope.define x kind) (fun _ => ⟨rfl, rfl⟩)
    (fun σ h => by rw [← h]; rfl) rfl rfl

end Transfers

variable {sc : List Scope}

theorem lookupDepth_lt {x : Name} {found : ℕ × ValueKind}
    (h : lookupDepth sc x = some found) : found.1 < sc.length := by
  induction sc with
  | nil => simp [lookupDepth] at h
  | cons scope rest ih =>
    unfold lookupDepth at h
    split at h
    · cases h
      simp
    · exact (ih h).trans (by simp)

theorem resolve_depth_lt {x : Name} {b : Binding} (h : resolve sc x = some b) : b.2 < sc.length := by
  obtain ⟨found, hfound, rfl⟩ := Option.map_eq_some_iff.mp h
  exact lookupDepth_lt hfound

theorem resolve_name {x : Name} {b : Binding} (h : resolve sc x = some b) : b.1 = x := by
  obtain ⟨found, -, rfl⟩ := Option.map_eq_some_iff.mp h
  rfl

section Moves

variable {fns : Signatures} (sc : List Scope) {names : Finset Name}

theorem transfers_define (x : Name) (kind : ValueKind) :
    Transfers fns (fun _ => Checker.define x kind) sc (defineKind x kind sc) names where
  errors _ σ _ _ := List.Subset.refl _
  scopes _ σ _ hσ := by rw [← hσ]; rfl
  depth := by cases sc <;> rfl
  moved := ⟨.id, .id, fun _ σ _ _ _ => by rw [GenKill.apply_id]; rfl⟩

theorem errors_error_ne_nil (message : String) (sp : Span) (σ : Checker) :
    (σ.error message sp).errors ≠ [] := by
  unfold Checker.error
  split
  · rename_i h
    exact List.ne_nil_of_mem h
  · simp

theorem transfers_moveValue (x : Name) (sp : Span) (context : String) (hx : x ∈ names) :
    Transfers fns (fun ctx => Checker.moveValue ctx x sp context) sc sc names where
  errors ctx σ _ _ := by
    unfold Checker.moveValue
    split
    · exact (Plain.error _ _).errors σ
    · split
      · exact (Plain.error _ _).errors σ
      · split <;> exact List.Subset.refl _
  scopes ctx σ _ hσ := by
    unfold Checker.moveValue
    split
    · exact ((Plain.error _ _).scopes σ).trans hσ
    · split
      · exact ((Plain.error _ _).scopes σ).trans hσ
      · split <;> exact hσ
  depth := rfl
  moved := by
    refine ⟨⟨{b | resolve sc x = some b}, ∅⟩, ⟨?_, by simp⟩, ?_⟩
    · intro b hb
      exact ⟨resolve_name hb ▸ hx, resolve_depth_lt hb⟩
    · intro ctx σ _ hσ he
      unfold Checker.moveValue at he ⊢
      split at he
      · exact absurd he (errors_error_ne_nil _ _ _)
      · split at he
        · exact absurd he (errors_error_ne_nil _ _ _)
        · rename_i hview hmoved
          rw [if_neg hmoved]
          subst hσ
          split
          · rename_i b hb
            ext c
            simp only [Checker.withMoved, Finset.coe_insert, GenKill.apply, hb, Set.mem_insert_iff,
              Set.mem_union, Set.mem_ofPred_eq, Option.some.injEq, Set.sdiff_empty, eq_comm]
          · rename_i hb
            simp [GenKill.apply, hb]

theorem transfers_moveSource (e : Expr) (context : String) (hn : e.uses ⊆ names) :
    Transfers fns (fun ctx σ => σ.moveSource ctx e context) sc sc names := by
  cases e with
  | var x sp =>
    have hx : x ∈ names := hn (Finset.mem_singleton_self x)
    by_cases hk : lookupKind sc x = some .heap
    · refine (transfers_moveValue sc x sp context hx).congr fun ctx σ _ hσ => ?_
      simp [Checker.moveSource, Checker.moveHeapValue, hσ, hk]
    · refine (Transfers.plain fun _ => Plain.refl).congr fun ctx σ _ hσ => ?_
      simp [Checker.moveSource, Checker.moveHeapValue, hσ, hk]
  | _ => exact Transfers.plain fun _ => Plain.refl

theorem transfers_reinitialize (x : Name) (hx : x ∈ names) :
    Transfers fns (fun _ => Checker.reinitialize x) sc sc names where
  errors _ σ _ _ := by
    unfold Checker.reinitialize
    split <;> exact List.Subset.refl _
  scopes _ σ _ hσ := by
    unfold Checker.reinitialize
    split <;> exact hσ
  depth := rfl
  moved := by
    refine ⟨⟨∅, {b | resolve sc x = some b}⟩, ⟨by simp, ?_⟩, ?_⟩
    · intro b hb
      exact .inl (resolve_name hb ▸ hx)
    · intro _ σ _ hσ _
      subst hσ
      unfold Checker.reinitialize
      split
      · rename_i b hb
        ext c
        simp only [Checker.withMoved, Finset.coe_erase, GenKill.apply, hb, Set.mem_sdiff,
          Set.empty_union, Set.mem_singleton_iff, Set.mem_ofPred_eq, Option.some.injEq, eq_comm]
      · rename_i hb
        simp [GenKill.apply, hb]

/-- What `assignVar` does between its value and its variable. -/
def Checker.assignTarget (ctx : Context) (x : Name) (sp : Span) (value : Expr) (σ : Checker) : Checker :=
  let σ :=
    if isBorrowableKind (lookupKind σ.scopes x) && (σ.isViewed ctx x).isSome then
      σ.error s!"cannot assign to `{x}` while it is viewed" sp
    else σ
  if lookupKind σ.scopes x = some .view then σ.rebindView ctx x value else σ

theorem Plain.assignTarget (ctx : Context) (x : Name) (sp : Span) (value : Expr) :
    Plain (Checker.assignTarget ctx x sp value) := by
  have hview : Plain fun σ : Checker =>
      if isBorrowableKind (lookupKind σ.scopes x) && (σ.isViewed ctx x).isSome then
        σ.error s!"cannot assign to `{x}` while it is viewed" sp
      else σ := Plain.ite (Plain.error _ _) Plain.refl
  have hbind : Plain fun σ : Checker =>
      if lookupKind σ.scopes x = some .view then σ.rebindView ctx x value else σ :=
    Plain.ite (Plain.rebindView ctx x value) Plain.refl
  exact hbind.comp hview

theorem transfers_assignVar (x : Name) (sp : Span) (value : Expr) (hx : x ∈ names)
    (hn : value.uses ⊆ names) :
    Transfers fns (fun ctx σ => σ.assignVar ctx x sp value) sc sc names := by
  have hreport : Transfers fns (fun ctx => Checker.assignTarget ctx x sp value) sc sc names :=
    Transfers.plain fun ctx => Plain.assignTarget ctx x sp value
  exact (( transfers_reinitialize sc x hx).comp hreport).comp
    (transfers_moveSource sc value "assignment" hn)

/-- What `passArgument` does with a variable of one kind. -/
def Checker.passVar (ctx : Context) (x : Name) (sp : Span) (kind : ValueKind) (param : ParamKind) (σ : Checker) :
    Checker :=
  match kind, param with
  | .heap, .owned => σ.moveValue ctx x sp "argument"
  | .heap, .viewMut => σ.registerView ctx x .mutable sp
  | .heap, _ => σ.registerView ctx x .shared sp
  | .shared, .owned => σ
  | .shared, _ => σ.registerView ctx x .shared sp
  | _, _ => σ

theorem transfers_passArgument (param : ParamKind) (arg : Expr) (hn : arg.uses ⊆ names) :
    Transfers fns (fun ctx σ => σ.passArgument ctx param arg) sc sc names := by
  cases arg with
  | var x sp =>
    have hview : ∀ kind, Transfers fns (fun ctx => Checker.registerView ctx x kind sp) sc sc names :=
      fun kind => Transfers.plain fun ctx => Plain.registerView ctx x kind sp
    refine Transfers.congr (f := fun ctx σ => σ.passVar ctx x sp ((lookupKind sc x).getD .unknown) param) ?_
      fun ctx σ _ hσ => by subst hσ; rfl
    unfold Checker.passVar
    split
    · exact transfers_moveValue sc x sp "argument" (hn (Finset.mem_singleton_self x))
    · exact hview .mutable
    · exact hview .shared
    · exact Transfers.plain fun _ => Plain.refl
    · exact hview .shared
    · exact Transfers.plain fun _ => Plain.refl
  | _ => exact Transfers.plain fun _ => Plain.refl

theorem transfers_declareVar (x : Name) (sp : Span) (ann : Option Annotation) (view : Option Bool)
    (init : Expr) (hn : init.uses ⊆ names) :
    Transfers fns (fun ctx σ => σ.declareVar ctx x sp ann view init) sc
      (defineKind x (finalKind fns sc ann view (some init)) sc) names := by
  have hmove : Transfers fns (fun ctx σ => if declaresBorrow ann view (some init) then σ
      else σ.moveSource ctx init "assignment") sc sc names := by
    by_cases hb : declaresBorrow ann view (some init)
    · simpa [hb] using Transfers.plain fun _ => Plain.refl
    · simpa [hb] using transfers_moveSource sc init "assignment" hn
  have hstore : ∀ ctx : Context, Plain fun σ : Checker =>
      if exprKind ctx.fns σ.scopes init = .view ∧ declaredKind ann view (some init) ≠ .view then
        σ.error
          s!"cannot store a view in `{x}`; a view may not be kept beyond the current block" sp
      else σ := fun ctx => Plain.ite (Plain.error _ _) Plain.refl
  have hborrow : ∀ ctx : Context, Plain fun σ : Checker =>
      if declaresBorrow ann view (some init) then σ.recordBorrow ctx x sp ann view init else σ :=
    fun ctx => Plain.ite (Plain.recordBorrow ctx x sp ann view init) Plain.refl
  have hplain : Transfers fns _ sc sc names :=
    Transfers.plain fun ctx => (hborrow ctx).comp (hstore ctx)
  have hall := ((transfers_define sc x (finalKind fns sc ann view (some init))).comp hplain).comp
    hmove
  refine hall.congr fun ctx σ hc hσ => ?_
  have hkept : Transfers fns _ sc sc names := Transfers.plain hstore
  have hsc := (hkept.comp hmove).scopes ctx σ hc hσ
  change Checker.define x (finalKind ctx.fns (_ : Checker).scopes ann view (some init)) _ = _
  rw [hsc, hc]

theorem transfers_declareBare (x : Name) (sp : Span) (ann : Option Annotation)
    (view : Option Bool) : Transfers fns (fun ctx σ => σ.declareBare ctx x sp ann view) sc
      (defineKind x (finalKind fns sc ann view none) sc) names := by
  have herror : Plain fun σ : Checker =>
      if declaresBorrow ann view none then
        σ.error s!"cannot store a view of a temporary value in `{x}`; borrow a variable, element, or field instead" sp
      else σ := Plain.ite (Plain.error _ _) Plain.refl
  have hplain : Transfers fns _ sc sc names := Transfers.plain fun _ => herror
  refine ((transfers_define sc x _).comp hplain).congr fun ctx σ hc hσ => ?_
  have hsc := (herror.scopes σ).trans hσ
  unfold Checker.declareBare
  dsimp only
  rw [hsc, hc]

end Moves

/-! ### Branches -/

/-- The bindings dead on some branch that has reached the join. -/
def joined (merged : Option Flow) : Set Binding := merged.elim ∅ fun flow => flow.moved

theorem joined_joinBranch (merged : Option Flow) (branch : Flow) :
    joined (joinBranch merged branch) = joined merged ∪ branch.moved := by
  cases merged with
  | none => simp [joined, joinBranch]
  | some prior => simp [joined, joinBranch, Flow.union]

theorem moved_getD_joinBranch (merged : Option Flow) (branch before : Flow) :
    (((joinBranch merged branch).getD before).moved : Set Binding) =
      joined merged ∪ branch.moved := by
  cases merged with
  | none => simp [joined, joinBranch]
  | some prior => simp [joined, joinBranch, Flow.union]

/-- The remaining branches of an `if` or arms of a `match`, from the state before them and
the join so far. -/
structure Joins (fns : Signatures) (f : Context → Flow → Option Flow → Checker → Checker)
    (diverges : Bool) (sc : List Scope) (names : Finset Name) : Prop where
  errors : ∀ ctx before merged σ, ctx.fns = fns → σ.scopes = sc →
    σ.errors ⊆ (f ctx before merged σ).errors
  scopes : ∀ ctx before merged σ, ctx.fns = fns → σ.scopes = sc →
    (f ctx before merged σ).scopes = sc
  moved : ∃ t, Confined t sc.length names ∧ ∀ ctx before merged σ, ctx.fns = fns → σ.scopes = sc →
    (f ctx before merged σ).errors = [] → ((f ctx before merged σ).flow.moved : Set Binding) =
      if diverges then ((merged.getD before).moved : Set Binding)
      else joined merged ∪ t.apply before.moved

namespace Joins

variable {fns : Signatures} {body test : Context → Checker → Checker}
  {rest : Context → Flow → Option Flow → Checker → Checker} {sc : List Scope}
  {names : Finset Name} {d r : Bool}

theorem none : Joins fns (fun _ before merged σ =>
    σ.withFlow ((joinBranch merged before).getD before)) false sc names where
  errors _ _ _ _ _ _ := List.Subset.refl _
  scopes _ _ _ _ _ h := h
  moved := by
    refine ⟨.id, .id, ?_⟩
    intro _ before merged σ _ _ _
    rw [GenKill.apply_id]
    exact moved_getD_joinBranch merged before before

theorem last (hbody : Transfers fns body sc sc names) : Joins fns (fun ctx before merged σ =>
    let σ := body ctx (σ.withFlow before)
    σ.withFlow ((if d then merged else joinBranch merged σ.flow).getD before)) d sc names where
  errors ctx before _ σ hc h := hbody.errors ctx (σ.withFlow before) hc h
  scopes ctx before _ σ hc h := hbody.scopes ctx (σ.withFlow before) hc h
  moved := by
    obtain ⟨t, ht, htm⟩ := hbody.moved
    refine ⟨t, ht, ?_⟩
    intro ctx before merged σ hc h he
    cases d with
    | true => rfl
    | false =>
      have hm := htm ctx (σ.withFlow before) hc h he
      exact (moved_getD_joinBranch merged _ before).trans (congrArg (joined merged ∪ ·) hm)

theorem step (htest : Transfers fns test sc sc names) (hbody : Transfers fns body sc sc names)
    (hrest : Joins fns rest r sc names) : Joins fns (fun ctx before merged σ =>
    let σ := body ctx (test ctx (σ.withFlow before))
    rest ctx before (if d then merged else joinBranch merged σ.flow) σ) (d && r) sc names where
  errors ctx before merged σ hc h := by
    have hscopes := (hbody.comp htest).scopes ctx (σ.withFlow before) hc h
    exact List.Subset.trans ((hbody.comp htest).errors ctx (σ.withFlow before) hc h)
      (hrest.errors ctx before _ _ hc hscopes)
  scopes ctx before merged σ hc h :=
    hrest.scopes ctx before _ _ hc ((hbody.comp htest).scopes ctx (σ.withFlow before) hc h)
  moved := by
    obtain ⟨t, ht, htm⟩ := (hbody.comp htest).moved
    obtain ⟨u, hu, hum⟩ := hrest.moved
    -- the branch joins if it falls through, and the rest if one of its branches does
    let joins : GenKill Binding := if d then u else if r then t else t.join u
    have hjoins : Confined joins sc.length names := by
      dsimp only [joins]
      split
      · exact hu
      · split
        · exact ht
        · exact ht.join hu
    refine ⟨joins, hjoins, ?_⟩
    intro ctx before merged σ hc h he
    have hscopes := (hbody.comp htest).scopes ctx (σ.withFlow before) hc h
    have hrun := hum ctx before (if d then merged else
      joinBranch merged (body ctx (test ctx (σ.withFlow before))).flow) _ hc hscopes he
    have hm := htm ctx (σ.withFlow before) hc h
      (eq_nil_of_subset_nil (hrest.errors ctx before _ _ hc hscopes) he)
    refine hrun.trans ?_
    change ((body ctx (test ctx (σ.withFlow before))).flow.moved : Set Binding) =
      t.apply before.moved at hm
    cases d with
    | true => cases r <;> simp [joins]
    | false =>
      cases r with
      | true => simp [joins, moved_getD_joinBranch, hm]
      | false => simp [joins, joined_joinBranch, hm, Set.union_assoc]

/-- The first branch, and the rest from the state before it. -/
theorem start (hbody : Transfers fns body sc sc names) (hrest : Joins fns rest r sc names) :
    Transfers fns (fun ctx σ => rest ctx σ.flow
      (if d then Option.none else some (body ctx σ).flow) (body ctx σ)) sc sc names where
  errors ctx σ hc h := List.Subset.trans (hbody.errors ctx σ hc h)
    (hrest.errors ctx _ _ _ hc (hbody.scopes ctx σ hc h))
  scopes ctx σ hc h := hrest.scopes ctx _ _ _ hc (hbody.scopes ctx σ hc h)
  depth := rfl
  moved := by
    obtain ⟨t, ht, htm⟩ := hbody.moved
    obtain ⟨u, hu, hum⟩ := hrest.moved
    let joins : GenKill Binding :=
      if d then (if r then .id else u) else if r then t else t.join u
    have hjoins : Confined joins sc.length names := by
      dsimp only [joins]
      split
      · split
        · exact .id
        · exact hu
      · split
        · exact ht
        · exact ht.join hu
    refine ⟨joins, hjoins, ?_⟩
    intro ctx σ hc h he
    have hscopes := hbody.scopes ctx σ hc h
    have hm := htm ctx σ hc h (eq_nil_of_subset_nil (hrest.errors ctx _ _ _ hc hscopes) he)
    refine (hum ctx _ _ _ hc hscopes he).trans ?_
    cases d with
    | true => cases r <;> simp [joins, joined]
    | false => cases r <;> simp [joins, joined, hm]

theorem only (hrest : Joins fns rest r sc names) :
    Transfers fns (fun ctx σ => rest ctx σ.flow Option.none σ) sc sc names := by
  have h := start (d := true) (Transfers.plain fun _ => Plain.refl) hrest
  simpa using h

end Joins

/-! ### Exceptions, lambdas and scopes -/

namespace Transfers

variable {fns : Signatures} {body handler fin : Context → Checker → Checker} {sc : List Scope}
  {names : Finset Name}

theorem tried (hbody : Transfers fns body sc sc names) :
    Transfers fns (fun ctx => Checker.checkTried (body ctx)) sc sc names where
  errors := hbody.errors
  scopes := hbody.scopes
  depth := rfl
  moved := by
    obtain ⟨t, ht, htm⟩ := hbody.moved
    refine ⟨t.join .id, ht.join .id, ?_⟩
    intro ctx σ hc h he
    have hm := htm ctx σ hc h he
    simp [Checker.checkTried, Checker.withFlow, Flow.union, hm]

theorem caught (hbody : Transfers fns body sc sc names)
    (hhandler : Transfers fns handler sc sc names) :
    Transfers fns (fun ctx => Checker.checkCaught (body ctx) (handler ctx)) sc sc names where
  errors ctx σ hc h := List.Subset.trans (hbody.errors ctx σ hc h) (hhandler.errors ctx
    (Checker.withFlow σ.flow (body ctx σ)) hc (hbody.scopes ctx σ hc h))
  scopes ctx σ hc h := hhandler.scopes ctx (Checker.withFlow σ.flow (body ctx σ)) hc
    (hbody.scopes ctx σ hc h)
  depth := rfl
  moved := by
    obtain ⟨t, ht, htm⟩ := hbody.moved
    obtain ⟨u, hu, hum⟩ := hhandler.moved
    refine ⟨(t.join .id).join u, (ht.join .id).join hu, ?_⟩
    intro ctx σ hc h he
    have hscopes : (Checker.withFlow σ.flow (body ctx σ)).scopes = sc := hbody.scopes ctx σ hc h
    have hcaught := hum ctx _ hc hscopes he
    have htried := htm ctx σ hc h (eq_nil_of_subset_nil
      (hhandler.errors ctx (Checker.withFlow σ.flow (body ctx σ)) hc hscopes) he)
    simp only [Checker.checkCaught, Checker.withFlow, Flow.union, Finset.coe_union,
      GenKill.apply_join, GenKill.apply_id] at hcaught ⊢
    rw [htried, hcaught]

theorem «finally» (hfin : Transfers fns fin sc sc names) :
    Transfers fns (fun ctx => Checker.checkFinally (fin ctx)) sc sc names where
  errors ctx σ hc h := hfin.errors ctx (σ.withMoved ∅) hc h
  scopes ctx σ hc h := hfin.scopes ctx (σ.withMoved ∅) hc h
  depth := rfl
  moved := by
    obtain ⟨t, ht, htm⟩ := hfin.moved
    refine ⟨⟨t.gen, ∅⟩, ⟨ht.gen, by simp⟩, ?_⟩
    intro ctx σ hc h he
    have hm := htm ctx (σ.withMoved ∅) hc h he
    simp only [Checker.checkFinally, Checker.withFlow, Flow.union, Finset.coe_union]
    rw [hm]
    simp [Checker.withMoved, GenKill.apply, Set.union_comm]

theorem retried (hbody : Transfers fns body sc sc names)
    (hhandler : Transfers fns handler sc sc names) :
    Transfers fns (fun ctx => Checker.checkRetry (body ctx) (handler ctx)) sc sc names where
  errors ctx σ hc h := List.Subset.trans (hbody.loop.errors ctx σ hc h) (hhandler.errors ctx
    (Checker.withBorrows σ.flow.borrows (Checker.checkLoop (body ctx) σ)) hc
    (hbody.loop.scopes ctx σ hc h))
  scopes ctx σ hc h := hhandler.scopes ctx
    (Checker.withBorrows σ.flow.borrows (Checker.checkLoop (body ctx) σ)) hc
    (hbody.loop.scopes ctx σ hc h)
  depth := rfl
  moved := by
    obtain ⟨t, ht, htm⟩ := hbody.loop.moved
    obtain ⟨u, hu, hum⟩ := hhandler.moved
    refine ⟨GenKill.id.join (t.seq u), Confined.id.join (ht.seq hu), ?_⟩
    intro ctx σ hc h he
    have hscopes : (Checker.withBorrows σ.flow.borrows
        (Checker.checkLoop (body ctx) σ)).scopes = sc := hbody.loop.scopes ctx σ hc h
    have hcaught := hum ctx _ hc hscopes he
    have htried := htm ctx σ hc h (eq_nil_of_subset_nil (hhandler.errors ctx
      (Checker.withBorrows σ.flow.borrows (Checker.checkLoop (body ctx) σ)) hc hscopes) he)
    simp only [Checker.checkRetry, Checker.withFlow, Finset.coe_union, GenKill.apply_join,
      GenKill.apply_id, GenKill.apply_seq]
    rw [hcaught]
    simp only [Checker.withBorrows]
    rw [htried]

/-- The argument borrows of a call end with it. -/
theorem call {f : Context → Checker → Checker} (hf : Transfers fns f sc sc names) :
    Transfers fns (fun ctx σ =>
      { f ctx σ.clearStatementViews with views := σ.views, mutViews := σ.mutViews })
      sc sc names where
  errors ctx σ hc h := hf.errors ctx σ.clearStatementViews hc h
  scopes ctx σ hc h := hf.scopes ctx σ.clearStatementViews hc h
  depth := rfl
  moved := by
    obtain ⟨t, ht, htm⟩ := hf.moved
    exact ⟨t, ht, fun ctx σ hc h he => htm ctx σ.clearStatementViews hc h he⟩

end Transfers

theorem tail_defineKind (x : Name) (kind : ValueKind) (sc : List Scope) :
    (defineKind x kind sc).tail = sc.tail := by cases sc <;> rfl

theorem tail_declareParams (params : List (Name × ValueKind)) (sc : List Scope) :
    (declareParams params sc).tail = sc.tail := by
  induction params generalizing sc with
  | nil => rfl
  | cons param rest ih => rw [declareParams, ih, tail_defineKind]

theorem defineParams_eq (params : List (Name × ValueKind)) (σ : Checker) :
    Checker.defineParams params σ = { σ with scopes := declareParams params σ.scopes } := by
  induction params generalizing σ with
  | nil => rfl
  | cons param rest ih => rw [Checker.defineParams, ih]; rfl

theorem tail_declares (fns : Signatures) (s : Stmt) (sc : List Scope) :
    (s.declares fns sc).tail = sc.tail := by
  cases s with
  | declare => exact tail_defineKind _ _ sc
  | var => exact tail_defineKind _ _ sc
  | _ => rfl

/-- The scopes at the end of a sequence. -/
def Stmts.declares (fns : Signatures) : Stmts → List Scope → List Scope
  | .nil, sc => sc
  | .cons s rest, sc => rest.declares fns (s.declares fns sc)

theorem tail_declares_stmts (fns : Signatures) (body : Stmts) (sc : List Scope) :
    (body.declares fns sc).tail = sc.tail := by
  match body with
  | .nil => rfl
  | .cons s rest => rw [Stmts.declares, tail_declares_stmts, tail_declares]

theorem declares_of_not_declaration (fns : Signatures) {s : Stmt} (h : s.isDeclaration = false)
    (sc : List Scope) : s.declares fns sc = sc := by
  cases s with
  | declare => simp [Stmt.isDeclaration] at h
  | var => simp [Stmt.isDeclaration] at h
  | _ => rfl

/-- A lambda is checked on its own: nothing it moves is seen after it. -/
theorem transfers_lambda {fns : Signatures} {f : Context → Checker → Checker}
    {sc sc' : List Scope} {names names' : Finset Name} (params : List (Name × ValueKind))
    (hf : Transfers fns f (declareParams params ([] :: sc)) sc' names') (htail : sc'.tail = sc) :
    Transfers fns (fun ctx σ => ((f ctx (Checker.defineParams params
      (σ.pushScope.withMoved ∅))).withMoved σ.flow.moved).popScope) sc sc names := by
  have hscopes : ∀ σ : Checker, σ.scopes = sc →
      (Checker.defineParams params (σ.pushScope.withMoved ∅)).scopes =
        declareParams params ([] :: sc) := by
    intro σ h
    rw [defineParams_eq, ← h]
    rfl
  have hend : ∀ (ctx : Context) (σ : Checker), ctx.fns = fns → σ.scopes = sc →
      (f ctx (Checker.defineParams params (σ.pushScope.withMoved ∅))).scopes.tail = sc := by
    intro ctx σ hc h
    rw [hf.scopes ctx _ hc (hscopes σ h), htail]
  refine ⟨?_, hend, rfl, ⟨∅, {b | sc.length ≤ b.2}⟩, ⟨by simp, fun b hb => .inr hb⟩, ?_⟩
  · intro ctx σ hc h
    have herrors := hf.errors ctx _ hc (hscopes σ h)
    rw [defineParams_eq] at herrors ⊢
    exact herrors
  · intro ctx σ hc h _
    have hlength := congrArg List.length (hend ctx σ hc h)
    ext b
    rw [Finset.mem_coe, Transfers.mem_moved_popScope]
    change b ∈ σ.flow.moved ∧ b.2 < (f ctx _).scopes.tail.length ↔ _
    rw [hlength]
    simp [GenKill.apply]

/-- A statement that declares nothing leaves the scopes as they are. -/
theorem Transfers.asBody {fns : Signatures} {s : Stmt} {names : Finset Name}
    (h : Transfers fns s.check sc (s.declares fns sc) names) (hd : s.isDeclaration = false) :
    Transfers fns s.check sc sc names := by
  rwa [declares_of_not_declaration fns hd] at h

mutual
theorem Expr.transfers (e : Expr) (fns : Signatures) (sc : List Scope) {names : Finset Name}
    (ht : e.tidy = true) (hn : e.uses ⊆ names) : Transfers fns e.check sc sc names := by
  match e with
  | .lit _ => exact Transfers.plain fun _ => Plain.refl
  | .var x sp => exact Transfers.plain fun _ => Plain.readVar x sp
  | .assign x sp value =>
    change insert _ _ ⊆ names at hn
    simp only [Finset.insert_subset_iff] at hn
    exact (transfers_assignVar sc x sp value hn.1 hn.2).comp (value.transfers fns sc ht hn.2)
  | .binary _ left right =>
    change (_ && _) = true at ht
    simp only [Bool.and_eq_true] at ht
    change _ ∪ _ ⊆ names at hn
    simp only [Finset.union_subset_iff] at hn
    exact (right.transfers fns sc ht.2 hn.2).comp (left.transfers fns sc ht.1 hn.1)
  | .call callee args =>
    change (_ && _) = true at ht
    simp only [Bool.and_eq_true] at ht
    change _ ∪ _ ⊆ names at hn
    simp only [Finset.union_subset_iff] at hn
    have hargs := args.transfers fns (((calleeSignature fns callee).map Prod.fst).getD []) sc
      ht.2 hn.2
    refine (hargs.comp (callee.transfers fns sc ht.1 hn.1)).call.congr fun ctx σ hc _ => ?_
    rw [← hc]
    rfl
  | .view target mutable =>
    have htarget := target.transfers fns sc ht hn
    match target with
    | .var x sp => exact Transfers.plain fun ctx => Plain.viewVar ctx x sp mutable
    | .lit _ | .assign _ _ _ | .binary _ _ _ | .call _ _ | .view _ _ | .borrow _ _ | .copy _
    | .lambda _ _ => exact htarget
  | .borrow target mutable =>
    have htarget := target.transfers fns sc ht hn
    match target with
    | .var x sp => exact (Transfers.plain fun ctx => Plain.viewVar ctx x sp mutable).comp htarget
    | .lit _ | .assign _ _ _ | .binary _ _ _ | .call _ _ | .view _ _ | .borrow _ _ | .copy _
    | .lambda _ _ => exact htarget
  | .copy e =>
    exact e.transfers fns sc ht hn
  | .lambda params body =>
    have hbody := body.transfers fns (declareParams params ([] :: sc)) ht (Finset.Subset.refl _)
    exact transfers_lambda params hbody
      ((tail_declares_stmts _ _ _).trans (tail_declareParams params _))
theorem Exprs.transfers (args : Exprs) (fns : Signatures) (params : List ParamKind)
    (sc : List Scope) {names : Finset Name} (ht : args.tidy = true) (hn : args.uses ⊆ names) :
    Transfers fns (fun ctx => args.check ctx params) sc sc names := by
  match args with
  | .nil => exact Transfers.plain fun _ => Plain.refl
  | .cons e rest =>
    change (_ && _) = true at ht
    simp only [Bool.and_eq_true] at ht
    change _ ∪ _ ⊆ names at hn
    simp only [Finset.union_subset_iff] at hn
    exact ((rest.transfers fns params.tail sc ht.2 hn.2).comp
      (transfers_passArgument sc _ e hn.1)).comp (e.transfers fns sc ht.1 hn.1)
theorem Stmt.transfers (s : Stmt) (fns : Signatures) (sc : List Scope) {names : Finset Name}
    (ht : s.tidy = true) (hn : s.uses ⊆ names) :
    Transfers fns s.check sc (s.declares fns sc) names := by
  have hclear : Transfers fns (fun _ => Checker.clearStatementViews) sc sc names :=
    Transfers.plain fun _ => Plain.clearStatementViews
  match s with
  | .declare x sp ann view => exact (transfers_declareBare sc x sp ann view).comp hclear
  | .var x sp ann view init =>
    exact ((transfers_declareVar sc x sp ann view init hn).comp
      (init.transfers fns sc ht hn)).comp hclear
  | .expr e =>
    exact (e.transfers fns sc ht hn).comp hclear
  | .block body =>
    exact ((body.transfers fns ([] :: sc) ht hn).inScope Checker.pushScope
      (fun _ => ⟨rfl, rfl⟩) (fun _ h => congrArg ([] :: ·) h) (tail_declares_stmts _ _ _)
      rfl).comp hclear
  | .ifThen cond body rest =>
    change (_ && (_ && !_) && _) = true at ht
    simp only [Bool.and_eq_true, Bool.not_eq_true'] at ht
    change _ ∪ _ ⊆ names at hn
    simp only [Finset.union_subset_iff] at hn
    have hbody := (body.transfers fns sc ht.1.2.1 hn.1.2).asBody ht.1.2.2
    exact ((Joins.start hbody (rest.joins fns sc ht.2 hn.2)).comp
      (cond.transfers fns sc ht.1.1 hn.1.1)).comp hclear
  | .while cond body =>
    change (_ && (_ && !_)) = true at ht
    simp only [Bool.and_eq_true, Bool.not_eq_true'] at ht
    change _ ∪ _ ⊆ names at hn
    simp only [Finset.union_subset_iff] at hn
    have hbody := (body.transfers fns sc ht.2.1 hn.2).asBody ht.2.2
    exact (hbody.comp (cond.transfers fns sc ht.1 hn.1)).loop.comp hclear
  | .doWhile body cond =>
    change ((_ && !_) && _) = true at ht
    simp only [Bool.and_eq_true, Bool.not_eq_true'] at ht
    change _ ∪ _ ⊆ names at hn
    simp only [Finset.union_subset_iff] at hn
    have hbody := (body.transfers fns sc ht.1.1 hn.2).asBody ht.1.2
    exact ((cond.transfers fns sc ht.2 hn.1).comp hbody).loop.comp hclear
  | .for init cond update body =>
    change (_ && _ && _ && (_ && !_)) = true at ht
    simp only [Bool.and_eq_true, Bool.not_eq_true'] at ht
    change _ ∪ _ ⊆ names at hn
    simp only [Finset.union_subset_iff] at hn
    let inner := init.declares fns ([] :: sc)
    have hinit := init.transfers fns ([] :: sc) ht.1.1.1 hn.1.1.1
    have hparts := (((body.transfers fns inner ht.2.1 hn.2).asBody ht.2.2).comp
      (update.transfers fns inner ht.1.2 hn.1.2)).comp (cond.transfers fns inner ht.1.1.2 hn.1.1.2)
    exact ((hparts.loop.comp hinit).inScope Checker.pushScope
      (fun _ => ⟨rfl, rfl⟩) (fun _ h => congrArg ([] :: ·) h) (tail_declares _ _ _) rfl).comp hclear
  | .forIn x iterable body =>
    change (_ && (_ && !_)) = true at ht
    simp only [Bool.and_eq_true, Bool.not_eq_true'] at ht
    change _ ∪ _ ⊆ names at hn
    simp only [Finset.union_subset_iff] at hn
    have hloop := Transfers.bound x .unknown
      ((body.transfers fns (defineKind x .unknown ([] :: sc)) ht.2.1 hn.2).asBody ht.2.2).loop
    have hiter := iterable.transfers fns sc ht.1 hn.1
    match iterable with
    | .var y sp =>
      exact (hloop.within (fun ctx σ => { ctx with
        held := if lookupKind σ.scopes y = some .heap && !σ.isMoved y then
          ctx.held ++ [(y, .shared, sp)] else ctx.held }) fun _ _ => rfl).comp hclear
    | .lit _ | .assign _ _ _ | .binary _ _ _ | .call _ _ | .view _ _ | .borrow _ _ | .copy _
    | .lambda _ _ => exact (hloop.comp hiter).comp hclear
  | .chanRecvFor x channel body =>
    change (_ && (_ && !_)) = true at ht
    simp only [Bool.and_eq_true, Bool.not_eq_true'] at ht
    change _ ∪ _ ⊆ names at hn
    simp only [Finset.union_subset_iff] at hn
    have hbody := Transfers.bound x .heap
      ((body.transfers fns (defineKind x .heap ([] :: sc)) ht.2.1 hn.2).asBody ht.2.2)
    exact (hbody.comp (channel.transfers fns sc ht.1 hn.1)).comp hclear
  | .match scrutinee cases =>
    change (_ && _) = true at ht
    simp only [Bool.and_eq_true] at ht
    change _ ∪ _ ⊆ names at hn
    simp only [Finset.union_subset_iff] at hn
    exact ((cases.joins fns sc ht.2 hn.2).only.comp (scrutinee.transfers fns sc ht.1 hn.1)).comp
      hclear
  | .ret value =>
    exact ((transfers_moveSource sc value _ hn).comp (value.transfers fns sc ht hn)).comp hclear
  | .throw value =>
    exact (value.transfers fns sc ht hn).comp hclear
  | .break => exact hclear
  | .continue => exact hclear
  | .tryCatch body catchVar handler fin =>
    change ((_ && !_) && (_ && !_) && (_ && !_)) = true at ht
    simp only [Bool.and_eq_true, Bool.not_eq_true'] at ht
    change _ ∪ _ ⊆ names at hn
    simp only [Finset.union_subset_iff] at hn
    have hbody := (body.transfers fns sc ht.1.1.1 hn.1.1).asBody ht.1.1.2
    have hfin := (fin.transfers fns sc ht.2.1 hn.2).asBody ht.2.2
    have hhandler := fun inner => (handler.transfers fns inner ht.1.2.1 hn.1.2).asBody ht.1.2.2
    match catchVar with
    | some x =>
      have hcaught := Transfers.bound x .heap (hhandler (defineKind x .heap ([] :: sc)))
      exact (hfin.finally.comp (hbody.caught hcaught)).comp hclear
    | none => exact (hfin.finally.comp (hbody.caught (hhandler sc))).comp hclear
  | .tryFinally body fin =>
    change ((_ && !_) && (_ && !_)) = true at ht
    simp only [Bool.and_eq_true, Bool.not_eq_true'] at ht
    change _ ∪ _ ⊆ names at hn
    simp only [Finset.union_subset_iff] at hn
    have hbody := (body.transfers fns sc ht.1.1 hn.1).asBody ht.1.2
    have hfin := (fin.transfers fns sc ht.2.1 hn.2).asBody ht.2.2
    exact (hfin.finally.comp hbody.tried).comp hclear
  | .retry count body =>
    change (_ && (_ && !_)) = true at ht
    simp only [Bool.and_eq_true, Bool.not_eq_true'] at ht
    change _ ∪ _ ⊆ names at hn
    simp only [Finset.union_subset_iff] at hn
    have hbody := (body.transfers fns sc ht.2.1 hn.2).asBody ht.2.2
    exact (hbody.loop.comp (count.transfers fns sc ht.1 hn.1)).comp hclear
  | .retryCatch count body handler =>
    change (_ && (_ && !_) && (_ && !_)) = true at ht
    simp only [Bool.and_eq_true, Bool.not_eq_true'] at ht
    change _ ∪ _ ⊆ names at hn
    simp only [Finset.union_subset_iff] at hn
    have hbody := (body.transfers fns sc ht.1.2.1 hn.1.2).asBody ht.1.2.2
    have hhandler := (handler.transfers fns sc ht.2.1 hn.2).asBody ht.2.2
    exact ((hbody.retried hhandler).comp (count.transfers fns sc ht.1.1 hn.1.1)).comp hclear
theorem Stmts.transfers (body : Stmts) (fns : Signatures) (sc : List Scope) {names : Finset Name}
    (ht : body.tidy = true) (hn : body.uses ⊆ names) :
    Transfers fns body.check sc (body.declares fns sc) names := by
  match body with
  | .nil => exact Transfers.plain fun _ => Plain.refl
  | .cons s rest =>
    change (_ && _) = true at ht
    simp only [Bool.and_eq_true] at ht
    change _ ∪ _ ⊆ names at hn
    simp only [Finset.union_subset_iff] at hn
    exact (rest.transfers fns (s.declares fns sc) ht.2 hn.2).comp
      ((s.transfers fns sc ht.1 hn.1).within (fun ctx _ => ctx.during (s.uses ∪ rest.uses))
        fun _ _ => rfl)
theorem Elifs.joins (rest : Elifs) (fns : Signatures) (sc : List Scope) {names : Finset Name}
    (ht : rest.tidy = true) (hn : rest.uses ⊆ names) :
    Joins fns rest.check rest.diverges sc names := by
  match rest with
  | .none => exact Joins.none
  | .else body =>
    change (_ && !_) = true at ht
    simp only [Bool.and_eq_true, Bool.not_eq_true'] at ht
    exact Joins.last ((body.transfers fns sc ht.1 hn).asBody ht.2)
  | .elif cond body rest =>
    change (_ && (_ && !_) && _) = true at ht
    simp only [Bool.and_eq_true, Bool.not_eq_true'] at ht
    change _ ∪ _ ⊆ names at hn
    simp only [Finset.union_subset_iff] at hn
    exact Joins.step (cond.transfers fns sc ht.1.1 hn.1.1)
      ((body.transfers fns sc ht.1.2.1 hn.1.2).asBody ht.1.2.2) (rest.joins fns sc ht.2 hn.2)
theorem Cases.joins (cases : Cases) (fns : Signatures) (sc : List Scope) {names : Finset Name}
    (ht : cases.tidy = true) (hn : cases.uses ⊆ names) :
    Joins fns cases.check cases.diverges sc names := by
  match cases with
  | .none => exact Joins.none
  | .default body =>
    change (_ && !_) = true at ht
    simp only [Bool.and_eq_true, Bool.not_eq_true'] at ht
    exact Joins.last ((body.transfers fns sc ht.1 hn).asBody ht.2)
  | .case value guard body rest =>
    change (_ && _ && (_ && !_) && _) = true at ht
    simp only [Bool.and_eq_true, Bool.not_eq_true'] at ht
    change _ ∪ _ ⊆ names at hn
    simp only [Finset.union_subset_iff] at hn
    exact Joins.step
      ((guard.transfers fns sc ht.1.1.2 hn.1.1.2).comp (value.transfers fns sc ht.1.1.1 hn.1.1.1))
      ((body.transfers fns sc ht.1.2.1 hn.1.2).asBody ht.1.2.2) (rest.joins fns sc ht.2 hn.2)
end

end Neutron.Ownership
