import Neutron.OwnershipMoves

/-!
# No use after a move

Every statement of an accepted body covers its careful executions, by induction on the
syntax with one rule for each construct. The results on function bodies follow: for bodies
without exception handlers the discipline only concerns loops and failing tests, for
straight-line bodies with handlers only the handlers.
-/

namespace Neutron.Ownership

open Behaviour

/-! ### Branches -/

structure SoundJoins (fns : Signatures) (f : Context → Flow → Option Flow → Checker → Checker)
    (p : Behaviour Dead) (diverges : Bool) (sc : List Scope) (names : Finset Name) : Prop
    extends Joins fns f diverges sc names where
  covers : ∀ ctx before merged σ U, ctx.fns = fns → σ.scopes = sc →
    (∀ b ∈ before.moved, b.2 < sc.length) → (f ctx before merged σ).errors = [] →
    Avoids U names → Covers p before.moved (f ctx before merged σ).flow.moved U

/-- Every branch that has reached the join is part of it. -/
theorem Joins.joined_subset {fns : Signatures}
    {f : Context → Flow → Option Flow → Checker → Checker} {d : Bool} {sc : List Scope}
    {names : Finset Name} (hf : Joins fns f d sc names) {ctx : Context} {before : Flow}
    {merged : Option Flow} {σ : Checker} (hc : ctx.fns = fns) (hσ : σ.scopes = sc)
    (he : (f ctx before merged σ).errors = []) :
    joined merged ⊆ (f ctx before merged σ).flow.moved := by
  obtain ⟨t, -, htm⟩ := hf.moved
  rw [htm ctx before merged σ hc hσ he]
  split
  · cases merged with
    | none => simp [joined]
    | some flow => simp [joined]
  · exact Set.subset_union_left

namespace SoundJoins

variable {fns : Signatures} {body test : Context → Checker → Checker}
  {rest : Context → Flow → Option Flow → Checker → Checker} {pbody ptest pfail prest : Behaviour Dead}
  {sc : List Scope} {names : Finset Name} {d r : Bool}

theorem none : SoundJoins fns (fun _ before merged σ =>
    σ.withFlow ((joinBranch merged before).getD before)) (done .normal) false sc names where
  toJoins := Joins.none
  covers ctx before merged σ U _ _ _ _ _ := by
    refine (Covers.done (by decide)).mono (Finset.Subset.refl _) ?_
    rw [← Finset.coe_subset]
    refine Set.Subset.trans Set.subset_union_right
      (moved_getD_joinBranch merged before before).symm.subset

theorem last (hbody : Sound fns body pbody sc sc names)
    (hd : d = true → ∀ s s', ¬pbody s .normal s') : SoundJoins fns (fun ctx before merged σ =>
    let σ := body ctx (σ.withFlow before)
    σ.withFlow ((if d then merged else joinBranch merged σ.flow).getD before)) pbody d sc
    names where
  toJoins := Joins.last hbody.toTransfers
  covers ctx before merged σ U hc hσ hb he hU := by
    have hcov := hbody.covers ctx (σ.withFlow before) U ⟨hc, hσ, hb, he⟩ hU
    cases d with
    | true =>
      intro s o s' hs hp
      exact ⟨(hcov hs hp).1, fun h => absurd (h ▸ hp) (hd rfl s s')⟩
    | false =>
      refine hcov.mono (Finset.Subset.refl _) ?_
      rw [← Finset.coe_subset]
      exact Set.Subset.trans Set.subset_union_right
        (moved_getD_joinBranch merged (body ctx (σ.withFlow before)).flow before).symm.subset

theorem step (htest : Sound fns test ptest sc sc names) (hbody : Sound fns body pbody sc sc names)
    (hd : d = true → ∀ s s', ¬pbody s .normal s')
    (hfail : ∀ ctx σ U, Accepted fns sc test ctx σ → Avoids U names →
      Covers pfail σ.flow.moved σ.flow.moved U)
    (hrest : SoundJoins fns rest prest r sc names) : SoundJoins fns (fun ctx before merged σ =>
    let σ := body ctx (test ctx (σ.withFlow before))
    rest ctx before (if d then merged else joinBranch merged σ.flow) σ)
    ((ptest.seq pbody).either (pfail.seq prest)) (d && r) sc names where
  toJoins := Joins.step htest.toTransfers hbody.toTransfers hrest.toJoins
  covers ctx before merged σ U hc hσ hb he hU := by
    have hboth := hbody.comp htest
    have hscopes := hboth.scopes ctx (σ.withFlow before) hc hσ
    have hacc : Accepted fns sc (fun ctx σ => body ctx (test ctx σ)) ctx (σ.withFlow before) :=
      ⟨hc, hσ, hb, eq_nil_of_subset_nil (hrest.errors ctx before _ _ hc hscopes) he⟩
    have hcov := hboth.covers ctx (σ.withFlow before) U hacc hU
    refine Covers.either ?_ ?_
    · cases d with
      | true =>
        intro s o s' hs hp
        exact ⟨(hcov hs hp).1, fun h => absurd (h ▸ hp) (NeverNormal.seq_right (hd rfl) s s')⟩
      | false =>
        refine hcov.mono (Finset.Subset.refl _) ?_
        have hjoined := hrest.toJoins.joined_subset hc hscopes he
        rw [if_neg (by decide), joined_joinBranch] at hjoined
        rw [← Finset.coe_subset]
        exact Set.Subset.trans Set.subset_union_right hjoined
    · exact (hfail ctx (σ.withFlow before) U
        (htest.toTransfers.accepted_first hbody.toTransfers hacc) hU).seq
        (hrest.covers ctx before _ _ U hc hscopes hb he hU)

theorem start (hbody : Sound fns body pbody sc sc names)
    (hd : d = true → ∀ s s', ¬pbody s .normal s') (hrest : SoundJoins fns rest prest r sc names) :
    Sound fns (fun ctx σ => rest ctx σ.flow (if d then Option.none else some (body ctx σ).flow)
      (body ctx σ)) (pbody.either prest) sc sc names where
  toTransfers := Joins.start hbody.toTransfers hrest.toJoins
  covers ctx σ U h hU := by
    have hscopes := hbody.scopes ctx σ h.fns h.scopes
    have hacc : Accepted fns sc body ctx σ := ⟨h.fns, h.scopes, h.bounded,
      eq_nil_of_subset_nil (hrest.errors ctx _ _ _ h.fns hscopes) h.errors⟩
    have hcov := hbody.covers ctx σ U hacc hU
    refine Covers.either ?_ (hrest.covers ctx _ _ _ U h.fns hscopes h.bounded h.errors hU)
    cases d with
    | true =>
      intro s o s' hs hp
      exact ⟨(hcov hs hp).1, fun h => absurd (h ▸ hp) (hd rfl s s')⟩
    | false =>
      refine hcov.mono (Finset.Subset.refl _) ?_
      have hjoined := hrest.toJoins.joined_subset h.fns hscopes h.errors
      rw [← Finset.coe_subset]
      exact hjoined

theorem only (hrest : SoundJoins fns rest prest r sc names) :
    Sound fns (fun ctx σ => rest ctx σ.flow Option.none σ) prest sc sc names where
  toTransfers := Joins.only hrest.toJoins
  covers ctx _ U h hU :=
    hrest.covers ctx _ _ _ U h.fns h.scopes h.bounded h.errors hU

end SoundJoins

/-! ### Declarations, calls and lambdas -/

section Parts

variable {fns : Signatures} {sc : List Scope} {names : Finset Name}

theorem sound_exit {o : Outcome} (ho : o ≠ .violated) :
    Sound fns (fun _ σ => σ) (done o) sc sc names :=
  Sound.plain (fun _ => Plain.refl) (done_idle ho)

theorem sound_declareBare (x : Name) (sp : Span) (ann : Option Annotation) (view : Option Bool)
    (b : Binding) : Sound fns (fun ctx σ => σ.declareBare ctx x sp ann view)
      (deadMonitor.emit (.declare b)) sc (defineKind x (finalKind fns sc ann view none) sc)
      names where
  toTransfers := transfers_declareBare sc x sp ann view
  covers ctx σ U _ _ := by
    have hmoved : (σ.declareBare ctx x sp ann view).flow.moved = σ.flow.moved := by
      unfold Checker.declareBare
      dsimp only
      split
      · exact (Plain.error _ _).moved σ
      · rfl
    rw [hmoved]
    exact covers_declare b

theorem sound_declareVar (x : Name) (sp : Span) (ann : Option Annotation) (view : Option Bool)
    (init : Expr) (b : Binding) (hn : init.uses ⊆ names) :
    Sound fns (fun ctx σ => σ.declareVar ctx x sp ann view init)
      (if declaresBorrow ann view (some init) then
        (deadMonitor.emit (.declare b)).seq
          (deadMonitor.bindView sc b (borrowKind ann view (some init)) (borrowTarget init))
        else (deadMonitor.moveSource sc init).seq (deadMonitor.emit (.declare b)))
      sc (defineKind x (finalKind fns sc ann view (some init)) sc) names where
  toTransfers := transfers_declareVar sc x sp ann view init hn
  covers ctx σ U h hU := by
    have hstore : Plain fun σ : Checker =>
        if exprKind ctx.fns σ.scopes init = .view ∧ declaredKind ann view (some init) ≠ .view then
          σ.error
            s!"cannot store a view in `{x}`; a view may not be kept beyond the current block" sp
        else σ := Plain.ite (Plain.error _ _) Plain.refl
    have hborrow : Plain fun σ : Checker =>
        if declaresBorrow ann view (some init) then σ.recordBorrow ctx x sp ann view init else σ :=
      Plain.ite (Plain.recordBorrow ctx x sp ann view init) Plain.refl
    let first := if declaresBorrow ann view (some init) then σ
      else σ.moveSource ctx init "assignment"
    have hmoved : (σ.declareVar ctx x sp ann view init).flow.moved = first.flow.moved :=
      (hborrow.comp hstore).moved first
    have herrors : first.errors = [] :=
      eq_nil_of_subset_nil ((hborrow.comp hstore).errors first) h.errors
    rw [hmoved]
    by_cases hb : declaresBorrow ann view (some init)
    · have hfirst : first = σ := if_pos hb
      rw [if_pos hb, hfirst]
      exact (covers_declare b).seq (Covers.idle (idle_of_skip (bindView_skip b _ _)))
    · have hfirst : first = σ.moveSource ctx init "assignment" := if_neg hb
      rw [if_neg hb, hfirst]
      rw [hfirst] at herrors
      exact ((sound_moveSource "assignment" hn).covers ctx σ U
        ⟨h.fns, h.scopes, h.bounded, herrors⟩ hU).seq (covers_declare b)

theorem Sound.call {f : Context → Checker → Checker} {p : Behaviour Dead}
    (hf : Sound fns f p sc sc names) : Sound fns (fun ctx σ =>
      { f ctx σ.clearStatementViews with views := σ.views, mutViews := σ.mutViews })
      ((done .threw).either p) sc sc names where
  toTransfers := hf.toTransfers.call
  covers ctx σ U h hU := by
    refine Covers.either (Covers.abrupt ?_) ?_
    · rintro d o d' ⟨rfl, -⟩
      exact ⟨by decide, by decide⟩
    · exact hf.covers ctx σ.clearStatementViews U ⟨h.fns, h.scopes, h.bounded, h.errors⟩ hU

theorem sound_lambda {f : Context → Checker → Checker} {p : Behaviour Dead} {sc' : List Scope}
    {names' : Finset Name} (params : List (Name × ValueKind))
    (hf : Sound fns f p (declareParams params ([] :: sc)) sc' names') (htail : sc'.tail = sc) :
    Sound fns (fun ctx σ => ((f ctx (Checker.defineParams params
      (σ.pushScope.withMoved ∅))).withMoved σ.flow.moved).popScope)
      (apart deadMonitor.start p) sc sc names where
  toTransfers := transfers_lambda params hf.toTransfers htail
  covers ctx σ U h hU := by
    let inner := Checker.defineParams params (σ.pushScope.withMoved ∅)
    have hinner : inner = { σ.pushScope.withMoved ∅ with
        scopes := declareParams params ([] :: sc) } := by
      rw [← h.scopes]
      exact defineParams_eq params _
    have hacc : Accepted fns (declareParams params ([] :: sc)) f ctx inner :=
      ⟨h.fns, by rw [hinner], by rw [hinner]; simp [Checker.withMoved], h.errors⟩
    rintro d o d' hd ⟨rfl, rfl | ⟨rfl, d₁, hp⟩⟩
    · refine ⟨by decide, fun _ b hb => ?_⟩
      rcases Finset.mem_union.mp (hd hb) with hm | hU
      · refine Finset.mem_union_left _ ((Transfers.mem_moved_popScope _ _).mpr ⟨hm, ?_⟩)
        have hscopes : (f ctx inner).scopes.tail = sc := by
          rw [hf.scopes ctx inner h.fns hacc.scopes, htail]
        have hlen := h.bounded b hm
        rw [← hscopes] at hlen
        exact hlen
      · exact Finset.mem_union_right _ hU
    · have hcov := hf.covers ctx inner ∅ hacc (fun b hb => by simp at hb)
      exact absurd rfl (hcov (Finset.empty_subset _) hp).1

/-- The container of a `for in` that is a live variable. -/
theorem sound_iterated (y : Name) : Sound fns (fun _ σ => σ)
    ((deadMonitor.on sc y .read).only fun d _ _ => careful.clear {y} d) sc sc names where
  toTransfers := Transfers.plain fun _ => Plain.refl
  covers ctx σ U _ _ := by
    apply Covers.idle
    rintro d o d' ⟨hp, hclear⟩
    cases hb : resolve sc y with
    | none =>
      rw [Monitor.on, hb] at hp
      exact done_idle (by decide) d o d' hp
    | some b =>
      have hbd : b ∉ d := fun h => hclear b h (by simp [resolve_name hb])
      rw [Monitor.on, hb] at hp
      have hstep : deadMonitor.step (.read b) d = some d := by simp [deadMonitor, hbd]
      simp only [Monitor.emit, hstep] at hp
      exact done_idle (by decide) d o d' hp

end Parts

/-! ### The induction -/

theorem Sound.asBody {fns : Signatures} {s : Stmt} {p : Behaviour Dead} {sc : List Scope}
    {names : Finset Name} (h : Sound fns s.check p sc (s.declares fns sc) names)
    (hd : s.isDeclaration = false) : Sound fns s.check p sc sc names := by
  rwa [declares_of_not_declaration fns hd] at h

mutual
theorem Expr.sound (e : Expr) (fns : Signatures) (sc : List Scope) {names : Finset Name}
    (ht : e.tidy = true) (hn : e.uses ⊆ names) :
    Sound fns e.check (e.run deadMonitor careful fns sc) sc sc names := by
  match e with
  | .lit _ => exact sound_refl
  | .var x sp => exact sound_readVar sp (hn (by simp [Expr.uses]))
  | .assign x sp value =>
    simp only [Expr.tidy] at ht
    simp only [Expr.uses, Finset.insert_subset_iff] at hn
    exact (sound_assignVar sp value hn.1 hn.2).comp (value.sound fns sc ht hn.2)
  | .binary _ left right =>
    simp only [Expr.tidy, Bool.and_eq_true] at ht
    simp only [Expr.uses, Finset.union_subset_iff] at hn
    exact (right.sound fns sc ht.2 hn.2).comp (left.sound fns sc ht.1 hn.1)
  | .call callee args =>
    simp only [Expr.tidy, Bool.and_eq_true] at ht
    simp only [Expr.uses, Finset.union_subset_iff] at hn
    have hargs := args.sound fns (((calleeSignature fns callee).map Prod.fst).getD []) sc ht.2 hn.2
    have hreturn : Sound fns (fun _ σ => σ) ((done .normal).either (done .threw)) sc sc names := by
      refine Sound.plain (fun _ => Plain.refl) ?_
      rintro d o d' (h | h)
      · exact done_idle (by decide) d o d' h
      · exact done_idle (by decide) d o d' h
    refine ((hreturn.comp hargs).comp (callee.sound fns sc ht.1 hn.1)).call.congr ?_
    intro ctx σ hc _
    rw [Expr.check, hc]
  | .view target mutable =>
    simp only [Expr.tidy] at ht
    have htarget := target.sound fns sc ht hn
    match target with
    | .var x sp => exact sound_viewVar sp mutable (hn (by simp [Expr.uses]))
    | .lit _ | .assign _ _ _ | .binary _ _ _ | .call _ _ | .view _ _ | .borrow _ _ | .copy _
    | .lambda _ _ => exact htarget
  | .borrow target mutable =>
    simp only [Expr.tidy] at ht
    have htarget := target.sound fns sc ht hn
    match target with
    | .var x sp => exact (sound_viewVar sp mutable (hn (by simp [Expr.uses]))).comp htarget
    | .lit _ | .assign _ _ _ | .binary _ _ _ | .call _ _ | .view _ _ | .borrow _ _ | .copy _
    | .lambda _ _ => exact htarget
  | .copy e =>
    simp only [Expr.tidy] at ht
    exact e.sound fns sc ht hn
  | .lambda params body =>
    simp only [Expr.tidy] at ht
    have hbody := body.sound fns (declareParams params ([] :: sc)) ht (Finset.Subset.refl _)
    exact sound_lambda params hbody
      ((tail_declares_stmts _ _ _).trans (tail_declareParams params _))
theorem Exprs.sound (args : Exprs) (fns : Signatures) (params : List ParamKind)
    (sc : List Scope) {names : Finset Name} (ht : args.tidy = true) (hn : args.uses ⊆ names) :
    Sound fns (fun ctx => args.check ctx params) (args.run deadMonitor careful fns params sc)
      sc sc names := by
  match args with
  | .nil => exact sound_refl
  | .cons e rest =>
    simp only [Exprs.tidy, Bool.and_eq_true] at ht
    simp only [Exprs.uses, Finset.union_subset_iff] at hn
    exact (rest.sound fns params.tail sc ht.2 hn.2).comp
      ((sound_passArgument _ hn.1).comp (e.sound fns sc ht.1 hn.1))
theorem Stmt.sound (s : Stmt) (fns : Signatures) (sc : List Scope) {names : Finset Name}
    (ht : s.tidy = true) (hn : s.uses ⊆ names) :
    Sound fns s.check (s.run deadMonitor careful fns sc) sc (s.declares fns sc) names := by
  match s with
  | .declare x sp ann view => exact (sound_declareBare x sp ann view _).cleared
  | .var x sp ann view init =>
    simp only [Stmt.tidy] at ht
    exact ((sound_declareVar x sp ann view init _ hn).comp (init.sound fns sc ht hn)).cleared
  | .expr e =>
    simp only [Stmt.tidy] at ht
    exact (e.sound fns sc ht hn).cleared
  | .block body =>
    simp only [Stmt.tidy] at ht
    exact ((body.sound fns ([] :: sc) ht hn).inScope Checker.pushScope (fun _ => ⟨rfl, rfl⟩)
      (fun _ h => congrArg ([] :: ·) h) (tail_declares_stmts _ _ _) rfl).cleared
  | .ifThen cond body rest =>
    simp only [Stmt.tidy, Bool.and_eq_true, Bool.not_eq_true'] at ht
    simp only [Stmt.uses, Finset.union_subset_iff] at hn
    have hbody := (body.sound fns sc ht.1.2.1 hn.1.2).asBody ht.1.2.2
    exact ((SoundJoins.start hbody (body.not_normal deadMonitor careful fns sc)
      (rest.sound fns sc ht.2 hn.2)).comp (cond.sound fns sc ht.1.1 hn.1.1)).cleared
  | .while cond body =>
    simp only [Stmt.tidy, Bool.and_eq_true, Bool.not_eq_true'] at ht
    simp only [Stmt.uses, Finset.union_subset_iff] at hn
    exact (Sound.whileLoop (cond.sound fns sc ht.1 hn.1) (cond.calm_run _ _ _ sc)
      ((body.sound fns sc ht.2.1 hn.2).asBody ht.2.2)).cleared
  | .doWhile body cond =>
    simp only [Stmt.tidy, Bool.and_eq_true, Bool.not_eq_true'] at ht
    simp only [Stmt.uses, Finset.union_subset_iff] at hn
    exact (Sound.doWhileLoop ((body.sound fns sc ht.1.1 hn.2).asBody ht.1.2)
      (cond.sound fns sc ht.2 (Finset.Subset.refl _)) (cond.calm_run _ _ _ sc) hn.1).cleared
  | .for init cond update body =>
    simp only [Stmt.tidy, Bool.and_eq_true, Bool.not_eq_true'] at ht
    simp only [Stmt.uses, Finset.union_subset_iff] at hn
    let inner := init.declares fns ([] :: sc)
    have hinit := init.sound fns ([] :: sc) ht.1.1.1 hn.1.1.1
    have hloop := Sound.forLoop (cond.sound fns inner ht.1.1.2 hn.1.1.2) (cond.calm_run _ _ _ inner)
      (update.sound fns inner ht.1.2 (Finset.Subset.refl _)) (update.calm_run _ _ _ inner) hn.1.2
      ((body.sound fns inner ht.2.1 hn.2).asBody ht.2.2)
    exact ((hloop.comp hinit).inScope Checker.pushScope (fun _ => ⟨rfl, rfl⟩)
      (fun _ h => congrArg ([] :: ·) h) (tail_declares _ _ _) rfl).cleared
  | .forIn x iterable body =>
    simp only [Stmt.tidy, Bool.and_eq_true, Bool.not_eq_true'] at ht
    simp only [Stmt.uses, Finset.union_subset_iff] at hn
    have hloop := Sound.forInLoop x
      ((body.sound fns (defineKind x .unknown ([] :: sc)) ht.2.1 hn.2).asBody ht.2.2)
    have hiter := iterable.sound fns sc ht.1 hn.1
    match iterable with
    | .var y sp =>
      exact ((hloop.within (fun ctx σ => { ctx with
        held := if lookupKind σ.scopes y = some .heap && !σ.isMoved y then
          ctx.held ++ [(y, .shared, sp)] else ctx.held }) fun _ _ => rfl).comp
          (sound_iterated y)).cleared
    | .lit _ | .assign _ _ _ | .binary _ _ _ | .call _ _ | .view _ _ | .borrow _ _ | .copy _
    | .lambda _ _ => exact (hloop.comp hiter).cleared
  | .chanRecvFor x channel body =>
    simp only [Stmt.tidy, Bool.and_eq_true, Bool.not_eq_true'] at ht
    simp only [Stmt.uses, Finset.union_subset_iff] at hn
    have hbody := (body.sound fns (defineKind x .heap ([] :: sc)) ht.2.1 (Finset.Subset.refl _)).asBody ht.2.2
    exact ((Sound.recvLoop x hbody hn.2).comp (channel.sound fns sc ht.1 hn.1)).cleared
  | .match scrutinee cases =>
    simp only [Stmt.tidy, Bool.and_eq_true] at ht
    simp only [Stmt.uses, Finset.union_subset_iff] at hn
    exact ((cases.sound fns sc ht.2 hn.2).only.comp (scrutinee.sound fns sc ht.1 hn.1)).cleared
  | .ret value =>
    simp only [Stmt.tidy] at ht
    exact (((sound_exit (by decide)).comp (sound_moveSource _ hn)).comp
      (value.sound fns sc ht hn)).cleared
  | .throw value =>
    simp only [Stmt.tidy] at ht
    exact ((sound_exit (by decide)).comp (value.sound fns sc ht hn)).cleared
  | .break => exact (sound_exit (by decide)).cleared
  | .continue => exact (sound_exit (by decide)).cleared
  | .tryCatch body catchVar handler fin =>
    simp only [Stmt.tidy, Bool.and_eq_true, Bool.not_eq_true'] at ht
    simp only [Stmt.uses, Finset.union_subset_iff] at hn
    have hbody := (body.sound fns sc ht.1.1.1 hn.1.1).asBody ht.1.1.2
    have hfin := (fin.sound fns sc ht.2.1 (Finset.Subset.refl _)).asBody ht.2.2
    have hhandler := fun inner => (handler.sound fns inner ht.1.2.1 hn.1.2).asBody ht.1.2.2
    match catchVar with
    | some x =>
      have hcaught := Sound.bound x .heap (hhandler (defineKind x .heap ([] :: sc)))
      exact ((hbody.caught hcaught).withFinally hfin hn.2).cleared
    | none => exact ((hbody.caught (hhandler sc)).withFinally hfin hn.2).cleared
  | .tryFinally body fin =>
    simp only [Stmt.tidy, Bool.and_eq_true, Bool.not_eq_true'] at ht
    simp only [Stmt.uses, Finset.union_subset_iff] at hn
    have hbody := (body.sound fns sc ht.1.1 hn.1).asBody ht.1.2
    have hfin := (fin.sound fns sc ht.2.1 (Finset.Subset.refl _)).asBody ht.2.2
    exact (hbody.tried.withFinally hfin hn.2).cleared
  | .retry count body =>
    simp only [Stmt.tidy, Bool.and_eq_true, Bool.not_eq_true'] at ht
    simp only [Stmt.uses, Finset.union_subset_iff] at hn
    exact (((body.sound fns sc ht.2.1 hn.2).asBody ht.2.2).retried.comp
      (count.sound fns sc ht.1 hn.1)).cleared
  | .retryCatch count body handler =>
    simp only [Stmt.tidy, Bool.and_eq_true, Bool.not_eq_true'] at ht
    simp only [Stmt.uses, Finset.union_subset_iff] at hn
    have hhandler := (handler.sound fns sc ht.2.1 (Finset.Subset.refl _)).asBody ht.2.2
    exact ((((body.sound fns sc ht.1.2.1 hn.1.2).asBody ht.1.2.2).retryCaught hhandler hn.2).comp
      (count.sound fns sc ht.1.1 hn.1.1)).cleared
theorem Stmts.sound (body : Stmts) (fns : Signatures) (sc : List Scope) {names : Finset Name}
    (ht : body.tidy = true) (hn : body.uses ⊆ names) :
    Sound fns body.check (body.run deadMonitor careful fns sc) sc (body.declares fns sc) names := by
  match body with
  | .nil => exact sound_refl
  | .cons s rest =>
    simp only [Stmts.tidy, Bool.and_eq_true] at ht
    simp only [Stmts.uses, Finset.union_subset_iff] at hn
    exact (rest.sound fns (s.declares fns sc) ht.2 hn.2).comp
      ((s.sound fns sc ht.1 hn.1).within (fun ctx _ => ctx.during (s.uses ∪ rest.uses))
        fun _ _ => rfl)
theorem Elifs.sound (rest : Elifs) (fns : Signatures) (sc : List Scope) {names : Finset Name}
    (ht : rest.tidy = true) (hn : rest.uses ⊆ names) :
    SoundJoins fns rest.check (rest.run deadMonitor careful fns sc) rest.diverges sc names := by
  match rest with
  | .none => exact SoundJoins.none
  | .else body =>
    simp only [Elifs.tidy, Bool.and_eq_true, Bool.not_eq_true'] at ht
    exact SoundJoins.last ((body.sound fns sc ht.1 hn).asBody ht.2)
      (body.not_normal deadMonitor careful fns sc)
  | .elif cond body rest =>
    simp only [Elifs.tidy, Bool.and_eq_true, Bool.not_eq_true'] at ht
    simp only [Elifs.uses, Finset.union_subset_iff] at hn
    have hcond := cond.sound fns sc ht.1.1 hn.1.1
    exact SoundJoins.step hcond ((body.sound fns sc ht.1.2.1 hn.1.2).asBody ht.1.2.2)
      (body.not_normal deadMonitor careful fns sc)
      (fun ctx σ U h hU => (hcond.covers ctx σ U h hU).failed) (rest.sound fns sc ht.2 hn.2)
theorem Cases.sound (cases : Cases) (fns : Signatures) (sc : List Scope) {names : Finset Name}
    (ht : cases.tidy = true) (hn : cases.uses ⊆ names) :
    SoundJoins fns cases.check (cases.run deadMonitor careful fns sc) cases.diverges sc names := by
  match cases with
  | .none => exact SoundJoins.none
  | .default body =>
    simp only [Cases.tidy, Bool.and_eq_true, Bool.not_eq_true'] at ht
    exact SoundJoins.last ((body.sound fns sc ht.1 hn).asBody ht.2)
      (body.not_normal deadMonitor careful fns sc)
  | .case value guard body rest =>
    simp only [Cases.tidy, Bool.and_eq_true, Bool.not_eq_true'] at ht
    simp only [Cases.uses, Finset.union_subset_iff] at hn
    have hvalue := value.sound fns sc ht.1.1.1 hn.1.1.1
    have hguard := guard.sound fns sc ht.1.1.2 hn.1.1.2
    refine SoundJoins.step (hguard.comp hvalue)
      ((body.sound fns sc ht.1.2.1 hn.1.2).asBody ht.1.2.2)
      (body.not_normal deadMonitor careful fns sc) (fun ctx σ U h hU => ?_)
      (rest.sound fns sc ht.2 hn.2)
    have hfirst := hvalue.toTransfers.accepted_first hguard.toTransfers h
    exact Covers.either (hvalue.covers ctx σ U hfirst hU).failed
      ((hguard.comp hvalue).covers ctx σ U h hU).failed
end

/-! ### Function bodies -/

theorem checkFunction_covers {ctx : Context} {params : List (Name × ValueKind)} {body : Stmts}
    {σ : Checker} (ht : body.tidy = true) (he : (checkFunction ctx params body σ).errors = [])
    {o : Outcome} {d' : Dead}
    (hrun : runFunction deadMonitor careful ctx.fns params body σ.scopes ∅ o d') :
    o ≠ .violated := by
  let sc := declareParams params ([] :: σ.scopes)
  let inner := Checker.defineParams params (σ.pushScope.withMoved ∅)
  have hinner : inner = { σ.pushScope.withMoved ∅ with scopes := sc } := defineParams_eq params _
  have hsound := body.sound ctx.fns sc ht (Finset.Subset.refl _)
  have hacc : Accepted ctx.fns sc body.check ctx inner :=
    ⟨rfl, by rw [hinner], by rw [hinner]; simp [Checker.withMoved], he⟩
  have hcov := hsound.covers ctx inner ∅ hacc (fun b hb => by simp at hb)
  exact (hcov (Finset.empty_subset _) hrun).1

mutual
/-- Bodies without exception handlers. -/
def Expr.handlerFree : Expr → Bool
  | .lit _ => true
  | .var _ _ => true
  | .assign _ _ value => value.handlerFree
  | .binary _ left right => left.handlerFree && right.handlerFree
  | .call callee args => callee.handlerFree && args.handlerFree
  | .view target _ => target.handlerFree
  | .borrow target _ => target.handlerFree
  | .copy e => e.handlerFree
  | .lambda _ body => body.handlerFree
def Exprs.handlerFree : Exprs → Bool
  | .nil => true
  | .cons e rest => e.handlerFree && rest.handlerFree
def Stmt.handlerFree : Stmt → Bool
  | .declare _ _ _ _ => true
  | .var _ _ _ _ init => init.handlerFree
  | .expr e => e.handlerFree
  | .block body => body.handlerFree
  | .ifThen cond body rest => cond.handlerFree && body.handlerFree && rest.handlerFree
  | .while cond body => cond.handlerFree && body.handlerFree
  | .doWhile body cond => body.handlerFree && cond.handlerFree
  | .for init cond update body =>
    init.handlerFree && cond.handlerFree && update.handlerFree && body.handlerFree
  | .forIn _ iterable body => iterable.handlerFree && body.handlerFree
  | .chanRecvFor _ channel body => channel.handlerFree && body.handlerFree
  | .match scrutinee cases => scrutinee.handlerFree && cases.handlerFree
  | .ret value => value.handlerFree
  | .break => true
  | .continue => true
  | .throw _ | .tryCatch _ _ _ _ | .tryFinally _ _ | .retry _ _ | .retryCatch _ _ _ => false
def Stmts.handlerFree : Stmts → Bool
  | .nil => true
  | .cons s rest => s.handlerFree && rest.handlerFree
def Elifs.handlerFree : Elifs → Bool
  | .none => true
  | .else body => body.handlerFree
  | .elif cond body rest => cond.handlerFree && body.handlerFree && rest.handlerFree
def Cases.handlerFree : Cases → Bool
  | .none => true
  | .default body => body.handlerFree
  | .case value guard body rest =>
    value.handlerFree && guard.handlerFree && body.handlerFree && rest.handlerFree
end

mutual
/-- Straight-line bodies with exception handlers. -/
def Stmt.straight : Stmt → Bool
  | .declare _ _ _ _ => true
  | .var _ _ _ _ _ => true
  | .expr _ => true
  | .block body => body.straight
  | .ret _ => true
  | .throw _ => true
  | .tryCatch body _ handler fin => body.straight && handler.straight && fin.straight
  | .tryFinally body fin => body.straight && fin.straight
  | .retry _ body => body.straight
  | .retryCatch _ body handler => body.straight && handler.straight
  | .ifThen _ _ _ | .while _ _ | .doWhile _ _ | .for _ _ _ _ | .forIn _ _ _ | .chanRecvFor _ _ _
  | .match _ _ | .break | .continue => false
def Stmts.straight : Stmts → Bool
  | .nil => true
  | .cons s rest => s.straight && rest.straight
end

/-- The bodies without exception handlers. -/
structure PlainBody where
  stmts : Stmts
  handlerFree : stmts.handlerFree = true
  tidy : stmts.tidy = true

/-- The straight-line bodies with exception handlers. -/
structure GuardedBody where
  stmts : Stmts
  straight : stmts.straight = true
  tidy : stmts.tidy = true

/-- An accepted body without handlers uses nothing dead, in every execution that leaves its
rounds and fails its tests carefully. -/
theorem plain_body_uses_nothing_dead (ctx : Context) (params : List (Name × ValueKind))
    (body : PlainBody) (σ : Checker)
    (haccepted : (checkFunction ctx params body.stmts σ).errors = []) (o : Outcome) (d : Dead)
    (hrun : runFunction deadMonitor careful ctx.fns params body.stmts σ.scopes ∅ o d) :
    o ≠ .violated :=
  checkFunction_covers body.tidy haccepted hrun

/-- No function is known. -/
def Context.empty : Context := ⟨fun _ => none, [], ∅⟩

def Span.first : Span := ⟨0, 0, 1, 1⟩

/-- The scopes of a function with one owned parameter. -/
def paramScopes (x : Name) : List Scope := [[(x, .heap)], [], []]

/-- `while (true) { var b = a; a = ""; }` and then `a;`. -/
def moveAndRestore : PlainBody where
  stmts := .cons (.while (.lit false) (.block
    (.cons (.var "b" .first none none (.var "a" .first))
      (.cons (.expr (.assign "a" .first (.lit true))) .nil))))
    (.cons (.expr (.var "a" .first)) .nil)
  handlerFree := by decide
  tidy := by decide

theorem run_moveAndRestore : runFunction deadMonitor careful Context.empty.fns [("a", .heap)]
    moveAndRestore.stmts Checker.new.scopes ∅ .normal ∅ := by
  have hmove : (Stmt.var "b" .first none none (.var "a" .first)).run deadMonitor careful
      Context.empty.fns ([] :: paramScopes "a") ∅ .normal {("a", 2)} :=
    .inl ⟨∅, Monitor.on_of_some (b := ("a", 2)) (by decide) (by decide), .inl ⟨{("a", 2)},
      Monitor.moveSource_of_some (b := ("a", 2)) (by decide) (by decide) (by decide),
      Monitor.emit_of_some (by decide)⟩⟩
  have hrestore : (Expr.assign "a" .first (.lit true)).run deadMonitor careful
      Context.empty.fns (Stmt.declares Context.empty.fns ([] :: paramScopes "a")
        (.var "b" .first none none (.var "a" .first))) {("a", 2)} .normal ∅ :=
    .inl ⟨_, ⟨rfl, rfl⟩, .inl ⟨_, ⟨rfl, rfl⟩, .inl ⟨∅,
      Monitor.on_of_some (b := ("a", 2)) (by decide) (by decide), rfl, rfl⟩⟩⟩
  refine .inl ⟨∅, .again (m := ∅) (.inl ⟨∅, ⟨rfl, rfl⟩, .normal, ⟨.inr ?_, ?_⟩, rfl⟩)
    (.stop (.inl ⟨∅, ⟨rfl, rfl⟩, .broke, ⟨.inl ⟨rfl, rfl⟩, ?_⟩, rfl⟩)), ?_⟩
  · exact .inr ⟨.normal, ∅, .normal, by decide,
      .inl ⟨_, hmove, .inl ⟨_, hrestore, rfl, rfl⟩⟩, Monitor.emit_of_some (by decide), rfl⟩
  · simp [Discipline.leaving]
  · exact fun _ => Finset.Subset.refl _
  · exact .inl ⟨∅, Stmt.run_read_of_some (b := ("a", 2)) (by decide) (by decide), rfl, rfl⟩

theorem plain_body_uses_nothing_dead_moveAndRestore :
    (checkFunction Context.empty [("a", .heap)] moveAndRestore.stmts Checker.new).errors = [] ∧
      Outcome.normal ≠ .violated :=
  have haccepted : (checkFunction Context.empty [("a", .heap)] moveAndRestore.stmts
      Checker.new).errors = [] := by decide
  ⟨haccepted, plain_body_uses_nothing_dead Context.empty [("a", .heap)] moveAndRestore
    Checker.new haccepted .normal ∅ run_moveAndRestore⟩

/-- `while (true) { if (true) { var b = a; break; } }` and then `a;`. -/
def breakAfterMove : PlainBody where
  stmts := .cons (.while (.lit false) (.ifThen (.lit false)
    (.block (.cons (.var "b" .first none none (.var "a" .first)) (.cons .break .nil))) .none))
    (.cons (.expr (.var "a" .first)) .nil)
  handlerFree := by decide
  tidy := by decide

/-- The branch that breaks is dropped from the join, so its move is not seen after the
loop. -/
theorem use_after_break : ¬∀ (ctx : Context) (params : List (Name × ValueKind))
    (body : PlainBody) (σ : Checker), (checkFunction ctx params body.stmts σ).errors = [] →
    ∀ o d, runFunction deadMonitor Discipline.free ctx.fns params body.stmts σ.scopes ∅ o d →
      o ≠ .violated := by
  intro hclaim
  refine hclaim Context.empty [("a", .heap)] breakAfterMove Checker.new (by decide)
    .violated {("a", 2)} ?_ rfl
  have hmove : (Stmt.var "b" .first none none (.var "a" .first)).run deadMonitor
      Discipline.free Context.empty.fns ([] :: paramScopes "a") ∅ .normal {("a", 2)} :=
    .inl ⟨∅, Monitor.on_of_some (b := ("a", 2)) (by decide) (by decide), .inl ⟨{("a", 2)},
      Monitor.moveSource_of_some (b := ("a", 2)) (by decide) (by decide) (by decide),
      Monitor.emit_of_some (by decide)⟩⟩
  have hround : (Stmt.block (.cons (.var "b" .first none none (.var "a" .first))
      (.cons .break .nil))).run deadMonitor Discipline.free Context.empty.fns (paramScopes "a")
      ∅ .broke {("a", 2)} :=
    .inr ⟨.broke, {("a", 2)}, .normal, by decide,
      .inl ⟨_, hmove, .inr ⟨by decide, rfl, rfl⟩⟩, Monitor.emit_of_some (by decide), rfl⟩
  refine .inl ⟨{("a", 2)}, .stop (.inl ⟨∅, ⟨rfl, rfl⟩, .broke, ⟨.inr ?_, ?_⟩, rfl⟩),
    .inr ⟨by decide, Stmt.run_read_of_none (b := ("a", 2)) (by decide) (by decide)⟩⟩
  · exact .inl ⟨∅, ⟨rfl, rfl⟩, .inl hround⟩
  · exact fun _ => trivial

/-- An accepted straight-line body uses nothing dead, in every execution whose caught
exceptions and `finally` blocks find no new dead variable of theirs. -/
theorem guarded_body_uses_nothing_dead (ctx : Context) (params : List (Name × ValueKind))
    (body : GuardedBody) (σ : Checker)
    (haccepted : (checkFunction ctx params body.stmts σ).errors = []) (o : Outcome) (d : Dead)
    (hrun : runFunction deadMonitor careful ctx.fns params body.stmts σ.scopes ∅ o d) :
    o ≠ .violated :=
  checkFunction_covers body.tidy haccepted hrun

/-- One function `f` that takes its argument. -/
def Context.taking : Context :=
  { Context.empty with fns := fun f => if f = "f" then some ([.owned], .unknown) else none }

/-- `try { f(a); } catch { a; }` -/
def catchReadsArgument : GuardedBody where
  stmts := .cons (.tryCatch
    (.block (.cons (.expr (.call (.var "f" .first) (.cons (.var "a" .first) .nil))) .nil)) none
    (.block (.cons (.expr (.var "a" .first)) .nil)) (.block .nil)) .nil
  straight := by decide
  tidy := by decide

/-- The call throws before it takes its argument. -/
theorem run_catchReadsArgument : runFunction deadMonitor careful Context.taking.fns
    [("a", .heap)] catchReadsArgument.stmts Checker.new.scopes ∅ .normal ∅ := by
  refine .inl ⟨∅, .inl (.inr ⟨.normal, ∅, .normal, by decide, .inl ⟨∅, ⟨?_, ?_⟩, ?_⟩,
    ⟨?_, ?_⟩, rfl⟩), rfl, rfl⟩
  · exact .inr ⟨.threw, ∅, .normal, by decide, .inr ⟨by decide, .inl ⟨rfl, rfl⟩⟩,
      Monitor.emit_of_some (by decide), rfl⟩
  · exact fun _ => Finset.Subset.refl _
  · exact .inr ⟨.normal, ∅, .normal, by decide,
      .inl ⟨∅, Stmt.run_read_of_some (b := ("a", 2)) (by decide) (by decide), rfl, rfl⟩,
      Monitor.emit_of_some (by decide), rfl⟩
  · exact .inr ⟨.normal, ∅, .normal, by decide, ⟨rfl, rfl⟩, Monitor.emit_of_some (by decide), rfl⟩
  · simp [careful]

theorem guarded_body_uses_nothing_dead_catchReadsArgument :
    (checkFunction Context.taking [("a", .heap)] catchReadsArgument.stmts Checker.new).errors = [] ∧
      Outcome.normal ≠ .violated :=
  have haccepted : (checkFunction Context.taking [("a", .heap)] catchReadsArgument.stmts
      Checker.new).errors = [] := by decide
  ⟨haccepted, guarded_body_uses_nothing_dead Context.taking [("a", .heap)] catchReadsArgument
    Checker.new haccepted .normal ∅ run_catchReadsArgument⟩

/-- The handler is checked in the state before the try block, so it may read what the
interrupted block has moved. -/
theorem use_in_handler : ¬∀ (ctx : Context) (params : List (Name × ValueKind))
    (body : GuardedBody) (σ : Checker), (checkFunction ctx params body.stmts σ).errors = [] →
    ∀ o d, runFunction deadMonitor Discipline.free ctx.fns params body.stmts σ.scopes ∅ o d →
      o ≠ .violated := by
  intro hclaim
  refine hclaim Context.taking [("a", .heap)] catchReadsArgument Checker.new (by decide)
    .violated {("a", 2)} ?_ rfl
  have hargs : (Exprs.cons (.var "a" .first) .nil).run deadMonitor Discipline.free
      Context.taking.fns [.owned] ([] :: paramScopes "a") ∅ .normal {("a", 2)} :=
    .inl ⟨{("a", 2)}, .inl ⟨∅, Monitor.on_of_some (b := ("a", 2)) (by decide) (by decide),
      Monitor.passArgument_of_some (b := ("a", 2)) (by decide) (by decide) (by decide)⟩, rfl, rfl⟩
  have hcall : (Expr.call (.var "f" .first) (.cons (.var "a" .first) .nil)).run deadMonitor
      Discipline.free Context.taking.fns ([] :: paramScopes "a") ∅ .threw {("a", 2)} :=
    .inr (.inl ⟨∅, ⟨rfl, rfl⟩, .inl ⟨_, hargs, .inr ⟨rfl, rfl⟩⟩⟩)
  refine .inr ⟨by decide, .inl (.inl ⟨rfl, .inl ⟨{("a", 2)}, ⟨?_, ?_⟩, ?_⟩⟩)⟩
  · exact .inr ⟨.threw, {("a", 2)}, .normal, by decide, .inr ⟨by decide, hcall⟩,
      Monitor.emit_of_some (by decide), rfl⟩
  · exact fun _ => trivial
  · exact .inl ⟨rfl, .inr ⟨by decide, Stmt.run_read_of_none (b := ("a", 2)) (by decide) (by decide)⟩⟩

end Neutron.Ownership
