import Neutron.OwnershipFlow

/-!
# Moves on every path

The monitor of moves keeps the set of dead bindings. `Covers p m m' U` says that the
behaviour `p`, started with no more dead than the checker's moved map `m` and a set `U` of
bindings it does not mention, violates nothing, and that falling through it leaves no more
dead than `m'` and `U`. Each construct of the checker covers the executions it stands for,
as long as these are careful: the discipline names the places at which the checker does not
see a path.
-/

namespace Neutron.Ownership

open Behaviour

abbrev Dead := Finset Binding

/-- A dead binding must not be read, viewed or moved. -/
def deadMonitor : Monitor Dead where
  start := ∅
  step
    | .read b, d => if b ∈ d then none else some d
    | .view b kind, d => if b ∈ d ∧ kind = .heap then none else some d
    | .move b, d => if b ∈ d then none else some (insert b d)
    | .assign b, d => some (d.erase b)
    | .declare b, d => some (d.erase b)
    | .bind _ _ _, d => some d
    | .inherit _ _, d => some d
    | .leave depth, d => some (d.filter fun b => b.2 < depth)

/-- `kept`: nothing has died. `clear`: none of the names is dead. -/
def careful : Discipline Dead where
  kept d d' := d' ⊆ d
  clear names d := ∀ b ∈ d, b.1 ∉ names

def Covers (p : Behaviour Dead) (m m' U : Finset Binding) : Prop :=
  Meets p (· ⊆ m ∪ U) fun o d' => o ≠ .violated ∧ (o = .normal → d' ⊆ m' ∪ U)

/-- The same for a part of a loop's round, which may also end with a `break`. -/
def Stays (p : Behaviour Dead) (m m' U : Finset Binding) : Prop :=
  Meets p (· ⊆ m ∪ U) fun o d' =>
    o ≠ .violated ∧ (o = .normal ∨ o = .broke → d' ⊆ m' ∪ U)

def Avoids (U : Finset Binding) (names : Finset Name) : Prop := ∀ b ∈ U, b.1 ∉ names

namespace Covers

variable {p q : Behaviour Dead} {m m₁ m' U : Finset Binding}

theorem idle (h : ∀ d o d', p d o d' → o ≠ .violated ∧ (o = .normal → d' ⊆ d)) :
    Covers p m m U := by
  intro d o d' hd hp
  obtain ⟨ho, hn⟩ := h d o d' hp
  exact ⟨ho, fun hnormal => (hn hnormal).trans hd⟩

theorem done {o : Outcome} (h : o ≠ .violated) : Covers (Behaviour.done o) m m U := by
  apply idle
  rintro d o' d' ⟨rfl, rfl⟩
  exact ⟨h, fun _ => Finset.Subset.refl _⟩

/-- A part that never falls through. -/
theorem abrupt (h : ∀ d o d', p d o d' → o ≠ .violated ∧ o ≠ .normal) : Covers p m m' U :=
  fun d o d' _ hp => ⟨(h d o d' hp).1, fun hn => absurd hn (h d o d' hp).2⟩

theorem seq (hp : Covers p m m₁ U) (hq : Covers q m₁ m' U) : Covers (p.seq q) m m' U := by
  apply Meets.seq (r := (· ⊆ m₁ ∪ U)) _ hq
  intro d o d' hd h
  obtain ⟨ho, hn⟩ := hp hd h
  split
  · rename_i hnormal
    exact hn hnormal
  · rename_i hnormal
    exact ⟨ho, fun h => absurd h hnormal⟩

theorem either (hp : Covers p m m' U) (hq : Covers q m m' U) : Covers (p.either q) m m' U :=
  Meets.either hp hq

theorem mono {m₂ m₂' : Finset Binding} (h : Covers p m m' U) (hm : m₂ ⊆ m) (hm' : m' ⊆ m₂') :
    Covers p m₂ m₂' U := by
  refine Meets.weaken h ?_ ?_
  · intro d hd
    exact hd.trans (Finset.union_subset_union_left hm)
  · rintro o d' ⟨ho, hn⟩
    exact ⟨ho, fun h => (hn h).trans (Finset.union_subset_union_left hm')⟩

theorem loop (h : Stays p m m U) : Covers (Loop p) m m U := by
  apply Meets.loop
  intro d o d' hd hp
  obtain ⟨ho, hn⟩ := h hd hp
  split
  · rename_i hnormal
    exact hn (.inl hnormal)
  · split
    · rename_i hbroke
      exact ⟨by decide, fun _ => hn (.inr hbroke)⟩
    · rename_i hnormal _
      exact ⟨ho, fun h => absurd h hnormal⟩

/-- A failing test that has killed nothing. -/
theorem failed (h : Covers p m m' U) : Covers (careful.failed p) m m U := by
  rintro d o d' hd ⟨hp, hkept⟩
  exact ⟨(h hd hp).1, fun hn => (hkept hn : d' ⊆ d).trans hd⟩

/-- The body of a loop, seen from the loop: it stays within the invariant. -/
theorem round {d₀ : Dead} (h : Covers p m m' U) (hm' : m' ⊆ m₁) (h₀ : d₀ ⊆ m₁ ∪ U) :
    Stays (careful.round d₀ p) m m₁ U := by
  rintro d o d' hd ⟨o₀, ⟨hp, hleft⟩, hr⟩
  obtain ⟨ho, hn⟩ := h hd hp
  have hkept : o₀ = .broke ∨ o₀ = .continued → d' ⊆ m₁ ∪ U := fun h =>
    (hleft h : d' ⊆ d₀).trans h₀
  unfold resumes at hr
  split at hr
  · rename_i hcontinued
    subst hr
    exact ⟨by decide, fun _ => hkept (.inr hcontinued)⟩
  · subst hr
    refine ⟨ho, fun h => ?_⟩
    rcases h with h | h
    · exact (hn h).trans (Finset.union_subset_union_left hm')
    · exact hkept (.inl h)

theorem stays_seq (hp : Covers p m m₁ U) (hcalm : Calm p) (hq : Stays q m₁ m' U) :
    Stays (p.seq q) m m' U := by
  rintro d o d' hd (⟨d₁, h₁, h₂⟩ | ⟨ho, h₁⟩)
  · exact hq ((hp hd h₁).2 rfl) h₂
  · refine ⟨(hp hd h₁).1, fun h => ?_⟩
    rcases h with h | h
    · exact absurd h ho
    · exact absurd h (hcalm d o d' h₁).1

end Covers

theorem Stays.since {p : Dead → Behaviour Dead} {m U : Finset Binding}
    (h : ∀ d₀, d₀ ⊆ m ∪ U → Stays (p d₀) m m U) : Stays (Behaviour.since p) m m U :=
  fun d _ _ hd hp => h d hd hd hp

theorem Stays.either {p q : Behaviour Dead} {m m' U : Finset Binding} (hp : Stays p m m' U)
    (hq : Stays q m m' U) : Stays (p.either q) m m' U := Meets.either hp hq

/-- The end of a round: the loop goes on or stops. -/
theorem stays_test {m U : Finset Binding} : Stays ((done .broke).either (done .normal)) m m U := by
  apply Stays.either
  · rintro d o d' hd ⟨rfl, rfl⟩
    exact ⟨by decide, fun _ => hd⟩
  · rintro d o d' hd ⟨rfl, rfl⟩
    exact ⟨by decide, fun _ => hd⟩

/-! ### Events -/

section Events

variable {m U : Finset Binding} {sc : List Scope} {x : Name} {names : Finset Name}

theorem covers_emit {event : Event} {m m' : Finset Binding}
    (h : ∀ d, d ⊆ m ∪ U → ∃ d', deadMonitor.step event d = some d' ∧ d' ⊆ m' ∪ U) :
    Covers (deadMonitor.emit event) m m' U := by
  intro d o d' hd hp
  obtain ⟨d₁, hstep, hsub⟩ := h d hd
  unfold Monitor.emit at hp
  rw [hstep] at hp
  obtain ⟨rfl, rfl⟩ := hp
  exact ⟨by decide, fun _ => hsub⟩

theorem covers_on {event : Binding → Event} {m m' : Finset Binding}
    (hnone : resolve sc x = none → m ⊆ m')
    (h : ∀ b, resolve sc x = some b → Covers (deadMonitor.emit (event b)) m m' U) :
    Covers (deadMonitor.on sc x event) m m' U := by
  unfold Monitor.on
  split
  · rename_i b hb
    exact h b hb
  · rename_i hb
    exact (Covers.done (by decide)).mono (Finset.Subset.refl _) (hnone hb)

theorem not_mem_of_avoids {b : Binding} {d : Dead} (hb : resolve sc x = some b) (hm : b ∉ m)
    (hU : Avoids U names) (hx : x ∈ names) (hd : d ⊆ m ∪ U) : b ∉ d := by
  intro hbd
  rcases Finset.mem_union.mp (hd hbd) with h | h
  · exact hm h
  · exact hU b h (resolve_name hb ▸ hx)

end Events

/-! ### Parts of the checker and the executions they stand for -/

/-- A part of the checker together with the executions it covers: whenever it reports
nothing, the moved maps around it cover them. -/
structure Sound (fns : Signatures) (f : Context → Checker → Checker) (p : Behaviour Dead)
    (sc sc' : List Scope) (names : Finset Name) : Prop extends Transfers fns f sc sc' names where
  covers : ∀ ctx σ U, Accepted fns sc f ctx σ → Avoids U names →
    Covers p σ.flow.moved (f ctx σ).flow.moved U

namespace Sound

variable {fns : Signatures} {f g : Context → Checker → Checker} {p q : Behaviour Dead}
  {sc sc' sc'' : List Scope} {names : Finset Name}

theorem comp (hg : Sound fns g q sc' sc'' names) (hf : Sound fns f p sc sc' names) :
    Sound fns (fun ctx σ => g ctx (f ctx σ)) (p.seq q) sc sc'' names where
  toTransfers := hg.toTransfers.comp hf.toTransfers
  covers ctx σ U h hU :=
    (hf.covers ctx σ U (hf.toTransfers.accepted_first hg.toTransfers h) hU).seq
      (hg.covers ctx _ U (hf.toTransfers.accepted_second hg.toTransfers h) hU)

/-- A part that neither moves anything nor stands for an event. -/
theorem plain (h : ∀ ctx, Plain (f ctx))
    (hp : ∀ d o d', p d o d' → o ≠ .violated ∧ (o = .normal → d' ⊆ d)) :
    Sound fns f p sc sc names where
  toTransfers := Transfers.plain h
  covers ctx σ U _ _ := by
    rw [(h ctx).moved]
    exact Covers.idle hp

theorem congr (hf : Sound fns f p sc sc' names)
    (h : ∀ ctx σ, ctx.fns = fns → σ.scopes = sc → g ctx σ = f ctx σ) :
    Sound fns g p sc sc' names where
  toTransfers := hf.toTransfers.congr h
  covers ctx σ U hacc hU := by
    have heq := h ctx σ hacc.fns hacc.scopes
    rw [heq]
    exact hf.covers ctx σ U ⟨hacc.fns, hacc.scopes, hacc.bounded, heq ▸ hacc.errors⟩ hU

theorem within (hf : Sound fns f p sc sc' names) (φ : Context → Checker → Context)
    (hφ : ∀ ctx σ, (φ ctx σ).fns = ctx.fns) :
    Sound fns (fun ctx σ => f (φ ctx σ) σ) p sc sc' names where
  toTransfers := hf.toTransfers.within φ hφ
  covers ctx σ U h :=
    hf.covers _ σ U ⟨(hφ ctx σ).trans h.fns, h.scopes, h.bounded, h.errors⟩

/-- Clearing the statement views first. -/
theorem cleared (hf : Sound fns f p sc sc' names) :
    Sound fns (fun ctx σ => f ctx σ.clearStatementViews) p sc sc' names where
  toTransfers := hf.toTransfers.comp (Transfers.plain fun _ => Plain.clearStatementViews)
  covers ctx σ U h := hf.covers ctx σ.clearStatementViews U ⟨h.fns, h.scopes, h.bounded, h.errors⟩

end Sound

section Events

variable {fns : Signatures} {sc : List Scope} {names : Finset Name} {x : Name}

theorem done_idle {o : Outcome} (ho : o ≠ .violated) (d : Dead) (o' : Outcome) (d' : Dead)
    (h : Behaviour.done o d o' d') : o' ≠ .violated ∧ (o' = .normal → d' ⊆ d) := by
  obtain ⟨rfl, rfl⟩ := h
  exact ⟨ho, fun _ => Finset.Subset.refl _⟩

theorem sound_refl : Sound fns (fun _ σ => σ) (done .normal) sc sc names :=
  Sound.plain (fun _ => Plain.refl) (done_idle (by decide))

theorem not_mem_of_not_isMoved {σ : Checker} {b : Binding} (hb : resolve σ.scopes x = some b)
    (h : ¬σ.isMoved x) : b ∉ σ.flow.moved := by
  simpa [Checker.isMoved, hb] using h

theorem sound_readVar (sp : Span) (hx : x ∈ names) :
    Sound fns (fun _ => Checker.readVar x sp) (deadMonitor.on sc x .read) sc sc names where
  toTransfers := Transfers.plain fun _ => Plain.readVar x sp
  covers ctx σ U h hU := by
    have he := h.errors
    obtain rfl := h.scopes
    by_cases hm : σ.isMoved x
    · rw [Checker.readVar, if_pos hm] at he
      exact absurd he (errors_error_ne_nil _ _ _)
    · rw [Checker.readVar, if_neg hm]
      refine covers_on (fun _ => Finset.Subset.refl _) fun b hb => covers_emit fun d hd => ?_
      have hbd := not_mem_of_avoids hb (not_mem_of_not_isMoved hb hm) hU hx hd
      exact ⟨d, by simp [deadMonitor, hbd], hd⟩

theorem sound_moveValue (sp : Span) (context : String) (hx : x ∈ names) :
    Sound fns (fun ctx => Checker.moveValue ctx x sp context) (deadMonitor.on sc x .move) sc sc
      names where
  toTransfers := transfers_moveValue sc x sp context hx
  covers ctx σ U h hU := by
    have he := h.errors
    obtain rfl := h.scopes
    unfold Checker.moveValue at he ⊢
    split at he
    · exact absurd he (errors_error_ne_nil _ _ _)
    · split at he
      · exact absurd he (errors_error_ne_nil _ _ _)
      · rename_i _ hm
        rw [if_neg hm]
        refine covers_on (fun hb => by simp [hb]) fun b hb => covers_emit fun d hd => ?_
        have hbd := not_mem_of_avoids hb (not_mem_of_not_isMoved hb hm) hU hx hd
        refine ⟨insert b d, by simp [deadMonitor, hbd], ?_⟩
        rw [hb]
        change insert b d ⊆ insert b σ.flow.moved ∪ U
        rw [Finset.insert_union]
        exact Finset.insert_subset_insert b hd

theorem sound_moveSource {e : Expr} (context : String) (hn : e.uses ⊆ names) :
    Sound fns (fun ctx σ => σ.moveSource ctx e context) (deadMonitor.moveSource sc e) sc sc
      names := by
  cases e with
  | var x sp =>
    have hx : x ∈ names := hn (by simp [Expr.uses])
    dsimp only [Monitor.moveSource]
    by_cases hk : lookupKind sc x = some .heap
    · rw [if_pos hk]
      refine (sound_moveValue sp context hx).congr fun ctx σ _ hσ => ?_
      simp [Checker.moveSource, Checker.moveHeapValue, hσ, hk]
    · rw [if_neg hk]
      refine sound_refl.congr fun ctx σ _ hσ => ?_
      simp [Checker.moveSource, Checker.moveHeapValue, hσ, hk]
  | _ => exact sound_refl

/-- A view of a variable the checker has found alive. -/
theorem covers_viewVar {m U : Finset Binding}
    (h : ∀ b, resolve sc x = some b → lookupKind sc x = some .heap → b ∉ m)
    (hU : Avoids U names) (hx : x ∈ names) : Covers (deadMonitor.viewVar sc x) m m U := by
  refine covers_on (fun _ => Finset.Subset.refl _) fun b hb => covers_emit fun d hd => ?_
  refine ⟨d, ?_, hd⟩
  by_cases hk : lookupKind sc x = some .heap
  · have hbd := not_mem_of_avoids hb (h b hb hk) hU hx hd
    simp [deadMonitor, hbd]
  · have hheap : (lookupKind sc x).getD .unknown ≠ .heap := by
      cases hl : lookupKind sc x with
      | none => simp
      | some kind => simpa [hl] using hk
    simp [deadMonitor, hheap]

theorem sound_registerView (kind : ViewKind) (sp : Span) (hx : x ∈ names) :
    Sound fns (fun ctx => Checker.registerView ctx x kind sp) (deadMonitor.viewVar sc x) sc sc
      names where
  toTransfers := Transfers.plain fun ctx => Plain.registerView ctx x kind sp
  covers ctx σ U h hU := by
    have he := h.errors
    obtain rfl := h.scopes
    rw [(Plain.registerView ctx x kind sp).moved]
    refine covers_viewVar (fun b hb _ => ?_) hU hx
    by_cases hm : σ.isMoved x
    · rw [Checker.registerView, if_pos hm] at he
      exact absurd he (errors_error_ne_nil _ _ _)
    · exact not_mem_of_not_isMoved hb hm

theorem sound_viewVar (sp : Span) (mutable : Bool) (hx : x ∈ names) :
    Sound fns (fun ctx => Checker.viewVar ctx x sp mutable) (deadMonitor.viewVar sc x) sc sc
      names := by
  by_cases hk : isBorrowableKind (lookupKind sc x)
  · refine (sound_registerView (ViewKind.of mutable) sp hx).congr fun ctx σ _ hσ => ?_
    rw [Checker.viewVar, hσ, if_pos hk]
  · refine ⟨Transfers.plain fun ctx => Plain.viewVar ctx x sp mutable, ?_⟩
    intro ctx σ U _ hU
    rw [(Plain.viewVar ctx x sp mutable).moved]
    refine covers_viewVar (fun b _ hheap => ?_) hU hx
    rw [hheap] at hk
    exact absurd rfl hk

theorem sound_passArgument (param : ParamKind) {arg : Expr} (hn : arg.uses ⊆ names) :
    Sound fns (fun ctx σ => σ.passArgument ctx param arg) (deadMonitor.passArgument sc param arg)
      sc sc names := by
  cases arg with
  | var x sp =>
    have hx : x ∈ names := hn (by simp [Expr.uses])
    refine Sound.congr (f := fun ctx σ => σ.passVar ctx x sp ((lookupKind sc x).getD .unknown) param) ?_
      fun ctx σ _ hσ => by subst hσ; rfl
    dsimp only [Monitor.passArgument]
    generalize (lookupKind sc x).getD .unknown = kind
    cases kind with
    | heap =>
      cases param with
      | owned => exact sound_moveValue sp "argument" hx
      | viewShared => exact sound_registerView .shared sp hx
      | viewMut => exact sound_registerView .mutable sp hx
      | unknown => exact sound_registerView .shared sp hx
    | shared =>
      cases param with
      | owned => exact sound_refl
      | viewShared => exact sound_registerView .shared sp hx
      | viewMut => exact sound_registerView .shared sp hx
      | unknown => exact sound_registerView .shared sp hx
    | scalar => exact sound_refl
    | chan => exact sound_refl
    | function => exact sound_refl
    | view => exact sound_refl
    | unknown => exact sound_refl
  | _ => exact sound_refl

theorem on_skip {event : Binding → Event} (hstep : ∀ b d, deadMonitor.step (event b) d = some d)
    (d : Dead) (o : Outcome) (d' : Dead) (h : deadMonitor.on sc x event d o d') :
    o = .normal ∧ d' = d := by
  cases hb : resolve sc x with
  | none => simpa [Monitor.on, hb, done] using h
  | some b => simpa [Monitor.on, hb, Monitor.emit, hstep] using h

theorem bindView_skip (holder : Binding) (kind : ViewKind) (e : Expr) (d : Dead) (o : Outcome)
    (d' : Dead) (h : deadMonitor.bindView sc holder kind e d o d') : o = .normal ∧ d' = d := by
  cases e with
  | var source sp =>
    by_cases hk : isBorrowableKind (lookupKind sc source) ∨ lookupKind sc source = some .view
    · rw [Monitor.bindView, if_pos hk] at h
      exact on_skip (fun _ _ => rfl) d o d' h
    · rw [Monitor.bindView, if_neg hk] at h
      exact h
  | _ => exact h

theorem rebind_skip (value : Expr) (d : Dead) (o : Outcome) (d' : Dead)
    (h : deadMonitor.rebind sc x value d o d') : o = .normal ∧ d' = d := by
  unfold Monitor.rebind at h
  by_cases hk : lookupKind sc x = some .view
  · rw [if_pos hk] at h
    cases hx : resolve sc x with
    | none =>
      rw [hx] at h
      exact h
    | some holder =>
      rw [hx] at h
      cases value with
      | view target mutable => exact bindView_skip holder _ target d o d' h
      | var source sp => exact on_skip (fun _ _ => rfl) d o d' h
      | _ => exact h
  · rw [if_neg hk] at h
    exact h

theorem idle_of_skip {p : Behaviour Dead} (h : ∀ d o d', p d o d' → o = .normal ∧ d' = d) (d : Dead)
    (o : Outcome) (d' : Dead) (hp : p d o d') : o ≠ .violated ∧ (o = .normal → d' ⊆ d) := by
  obtain ⟨rfl, rfl⟩ := h d o d' hp
  exact ⟨by decide, fun _ => Finset.Subset.refl _⟩

theorem sound_assignVar (sp : Span) (value : Expr) (hx : x ∈ names) (hn : value.uses ⊆ names) :
    Sound fns (fun ctx σ => σ.assignVar ctx x sp value)
      ((deadMonitor.moveSource sc value).seq
        ((deadMonitor.on sc x .assign).seq (deadMonitor.rebind sc x value))) sc sc names := by
  have hreport := fun ctx => Plain.assignTarget ctx x sp value
  -- the write revives the variable, and rebinding a view is no event for the moves
  have hwrite : Sound fns (fun ctx σ => Checker.reinitialize x (Checker.assignTarget ctx x sp value σ))
      ((deadMonitor.on sc x .assign).seq (deadMonitor.rebind sc x value)) sc sc names := by
    refine ⟨( transfers_reinitialize sc x hx).comp (Transfers.plain hreport), ?_⟩
    intro ctx σ U h _
    have hscopes : (Checker.assignTarget ctx x sp value σ).scopes = sc := ((hreport ctx).scopes σ).trans h.scopes
    refine Covers.seq ?_ (Covers.idle (idle_of_skip (rebind_skip value)))
    have hmoved := (hreport ctx).moved σ
    refine covers_on (fun hb => ?_) fun b hb => covers_emit fun d hd => ⟨d.erase b, rfl, ?_⟩
    · simp [ Checker.reinitialize, hscopes, hb, hmoved]
    · simp only [ Checker.reinitialize, hscopes, hb, hmoved, Checker.withMoved]
      intro c hc
      obtain ⟨hne, hcd⟩ := Finset.mem_erase.mp hc
      rcases Finset.mem_union.mp (hd hcd) with h | h
      · exact Finset.mem_union_left _ (Finset.mem_erase.mpr ⟨hne, h⟩)
      · exact Finset.mem_union_right _ h
  exact hwrite.comp (sound_moveSource "assignment" hn)

end Events

/-! ### Scopes and loops -/

theorem covers_declare {m U : Finset Binding} (b : Binding) :
    Covers (deadMonitor.emit (.declare b)) m m U :=
  covers_emit fun d hd => ⟨d.erase b, rfl, (Finset.erase_subset b d).trans hd⟩

theorem Covers.inScope {p : Behaviour Dead} {m m' U : Finset Binding} (sc : List Scope)
    (h : Covers p m m' U) :
    Covers (deadMonitor.scoped sc p) m (m'.filter fun b => b.2 < sc.length) U := by
  rintro d o d' hd (⟨rfl, hp⟩ | ⟨o₁, d₁, o₂, -, hp, hleave, rfl⟩)
  · exact absurd rfl (h hd hp).1
  · obtain ⟨rfl, rfl⟩ : o₂ = .normal ∧ d' = d₁.filter fun b => b.2 < sc.length := hleave
    rw [if_pos rfl]
    refine ⟨(h hd hp).1, fun hn b hb => ?_⟩
    obtain ⟨hb₁, hdepth⟩ := Finset.mem_filter.mp hb
    rcases Finset.mem_union.mp ((h hd hp).2 hn hb₁) with hm | hU
    · exact Finset.mem_union_left _ (Finset.mem_filter.mpr ⟨hm, hdepth⟩)
    · exact Finset.mem_union_right _ hU

namespace Sound

variable {fns : Signatures} {f g : Context → Checker → Checker} {p q : Behaviour Dead}
  {sc sc' : List Scope} {names : Finset Name}

theorem inScope {inner : List Scope} (hf : Sound fns f p inner sc' names)
    (enter : Checker → Checker)
    (henter : ∀ σ, (enter σ).errors = σ.errors ∧ (enter σ).flow.moved = σ.flow.moved)
    (hscopes : ∀ σ, σ.scopes = sc → (enter σ).scopes = inner) (htail : sc'.tail = sc)
    (hlen : inner.length = sc.length + 1) :
    Sound fns (fun ctx σ => (f ctx (enter σ)).popScope) (deadMonitor.scoped sc p) sc sc
      names where
  toTransfers := hf.toTransfers.inScope enter henter hscopes htail hlen
  covers ctx σ U h hU := by
    have hbound : ∀ b ∈ (enter σ).flow.moved, b.2 < inner.length := by
      intro b hb
      rw [(henter σ).2] at hb
      have := h.bounded b hb
      omega
    have hcov := hf.covers ctx (enter σ) U ⟨h.fns, hscopes σ h.scopes, hbound, h.errors⟩ hU
    rw [(henter σ).2] at hcov
    have hout : (f ctx (enter σ)).scopes.tail = sc := by
      rw [hf.scopes ctx _ h.fns (hscopes σ h.scopes), htail]
    refine (hcov.inScope sc).mono (Finset.Subset.refl _) fun b hb => ?_
    rw [Transfers.mem_moved_popScope, hout]
    exact Finset.mem_filter.mp hb

/-- A part that runs in a scope with one fresh variable. -/
theorem bound (x : Name) (kind : ValueKind)
    (hf : Sound fns f p (defineKind x kind ([] :: sc)) (defineKind x kind ([] :: sc)) names) :
    Sound fns (fun ctx σ => (f ctx (σ.pushScope.define x kind)).popScope)
      (deadMonitor.scoped sc ((deadMonitor.emit (.declare (x, sc.length))).seq p)) sc sc
      names := by
  have hdeclared : Sound fns f ((deadMonitor.emit (.declare (x, sc.length))).seq p)
      (defineKind x kind ([] :: sc)) (defineKind x kind ([] :: sc)) names :=
    ⟨hf.toTransfers, fun ctx σ U h hU => (covers_declare _).seq (hf.covers ctx σ U h hU)⟩
  exact hdeclared.inScope (fun σ => σ.pushScope.define x kind) (fun _ => ⟨rfl, rfl⟩)
    (fun σ h => by rw [← h]; rfl) rfl rfl

/-- A loop whose rounds stay within the state at its head. -/
theorem loop (hf : Transfers fns f sc sc names)
    (h : ∀ ctx τ U, Accepted fns sc f ctx τ → (f ctx τ).flow.moved ⊆ τ.flow.moved →
      Avoids U names → Stays p τ.flow.moved τ.flow.moved U) :
    Sound fns (fun ctx => Checker.checkLoop (f ctx)) (Loop p) sc sc names where
  toTransfers := hf.loop
  covers ctx σ U hacc hU := by
    obtain ⟨τ, hτ, hbefore, hround, hafter⟩ := hf.settles hacc
    rw [hafter]
    exact (Covers.loop (h ctx τ U hτ hround hU)).mono hbefore (Finset.Subset.refl _)

end Sound

section Loops

variable {fns : Signatures} {cond body update : Context → Checker → Checker}
  {pcond pbody pupdate : Behaviour Dead} {sc : List Scope} {names uses : Finset Name}

theorem Avoids.mono {U : Finset Binding} (h : Avoids U names) (hn : uses ⊆ names) :
    Avoids U uses := fun b hb hx => h b hb (hn hx)

theorem covers_broke {m m' U : Finset Binding} : Covers (done .broke) m m' U := by
  apply Covers.abrupt
  rintro d o d' ⟨rfl, -⟩
  exact ⟨by decide, by decide⟩

theorem Sound.whileLoop (hcond : Sound fns cond pcond sc sc names) (hcalm : Calm pcond)
    (hbody : Sound fns body pbody sc sc names) :
    Sound fns (fun ctx => Checker.checkLoop fun σ => body ctx (cond ctx σ))
      (Loop (since fun d₀ => pcond.seq (careful.round d₀ ((done .broke).either pbody)))) sc sc
      names := by
  refine Sound.loop (hbody.toTransfers.comp hcond.toTransfers) fun ctx τ U hτ hround hU => ?_
  have hc := hcond.covers ctx τ U (hcond.toTransfers.accepted_first hbody.toTransfers hτ) hU
  have hb := hbody.covers ctx _ U (hcond.toTransfers.accepted_second hbody.toTransfers hτ) hU
  apply Stays.since
  intro d₀ h₀
  exact hc.stays_seq hcalm ((covers_broke.either hb).round hround h₀)

/-- `continue` in the body of a do-while reaches the condition with what it has left alone. -/
theorem Sound.doWhileLoop (hbody : Sound fns body pbody sc sc names)
    (hcond : Sound fns cond pcond sc sc uses) (hcalm : Calm pcond) (hn : uses ⊆ names) :
    Sound fns (fun ctx => Checker.checkLoop fun σ => cond ctx (body ctx σ))
      (Loop (since fun d₀ => (careful.round d₀ (pbody.only fun _ o d' =>
        o = .continued → careful.clear uses d')).seq
          (pcond.seq ((done .broke).either (done .normal))))) sc sc names := by
  refine Sound.loop ((hcond.toTransfers.mono hn).comp hbody.toTransfers)
    fun ctx τ U hτ hround hU => ?_
  have hb := hbody.covers ctx τ U (hbody.toTransfers.accepted_first hcond.toTransfers hτ) hU
  have hacc := hbody.toTransfers.accepted_second hcond.toTransfers hτ
  set m₁ := (body ctx τ).flow.moved
  set m₂ := (cond ctx (body ctx τ)).flow.moved
  have hend : ∀ V, Avoids V uses → Stays (pcond.seq ((done .broke).either (done .normal))) m₁ m₂ V :=
    fun V hV => (hcond.covers ctx _ V hacc hV).stays_seq hcalm stays_test
  apply Stays.since
  rintro d₀ h₀ d o d' hd (⟨d₁, ⟨o₀, ⟨⟨hp, hclear⟩, hleft⟩, hr⟩, hrest⟩ | ⟨hne, ⟨o₀, ⟨⟨hp, hclear⟩, hleft⟩, hr⟩⟩)
  · by_cases ho : o₀ = .continued
    · have hd₁ : d₁ ⊆ τ.flow.moved ∪ U := (hleft (.inr ho) : d₁ ⊆ d₀).trans h₀
      obtain ⟨hv, hn⟩ := hend d₁ (hclear ho) Finset.subset_union_right hrest
      refine ⟨hv, fun h => (hn h).trans (Finset.union_subset ?_ hd₁)⟩
      exact hround.trans Finset.subset_union_left
    · unfold resumes at hr
      rw [if_neg ho] at hr
      obtain ⟨hv, hn⟩ := hend U (hU.mono hn) ((hb hd hp).2 hr.symm) hrest
      exact ⟨hv, fun h => (hn h).trans (Finset.union_subset_union_left hround)⟩
  · unfold resumes at hr
    by_cases ho : o₀ = .continued
    · rw [if_pos ho] at hr
      exact absurd hr hne
    · rw [if_neg ho] at hr
      subst hr
      refine ⟨(hb hd hp).1, fun h => ?_⟩
      rcases h with h | h
      · exact absurd h hne
      · exact (hleft (.inl h) : d' ⊆ d₀).trans h₀

/-- The update of a `for` is checked before the body and runs after it. -/
theorem Sound.forLoop (hcond : Sound fns cond pcond sc sc names) (hcalm : Calm pcond)
    (hupdate : Sound fns update pupdate sc sc uses) (hcalm' : Calm pupdate) (hn : uses ⊆ names)
    (hbody : Sound fns body pbody sc sc names) :
    Sound fns (fun ctx => Checker.checkLoop fun σ => body ctx (update ctx (cond ctx σ)))
      (Loop (since fun d₀ => pcond.seq (((done .broke).only (careful.leaving d₀)).either
        (((careful.round d₀ pbody).only fun d _ _ => careful.clear uses d).seq
          ((careful.failed pupdate).only fun d _ _ => careful.clear uses d))))) sc sc names := by
  have htail := hbody.toTransfers.comp (hupdate.toTransfers.mono hn)
  refine Sound.loop (htail.comp hcond.toTransfers) fun ctx τ U hτ hround hU => ?_
  have hc := hcond.covers ctx τ U (hcond.toTransfers.accepted_first htail hτ) hU
  have hacc₁ := hcond.toTransfers.accepted_second htail hτ
  have haccU := (hupdate.toTransfers.mono hn).accepted_first hbody.toTransfers hacc₁
  have hb := hbody.covers ctx _ U
    ((hupdate.toTransfers.mono hn).accepted_second hbody.toTransfers hacc₁) hU
  apply Stays.since
  intro d₀ h₀
  refine hc.stays_seq hcalm (Stays.either ?_ ?_)
  · rintro d o d' - ⟨⟨rfl, rfl⟩, hleft⟩
    exact ⟨by decide, fun _ => (hleft (.inl rfl) : d' ⊆ d₀).trans h₀⟩
  · have hstays := hb.round hround h₀
    -- what is dead and not mentioned by the update is dead after checking it, too
    have hkeep : ∀ d, d ⊆ (cond ctx τ).flow.moved ∪ U → careful.clear uses d →
        d ⊆ (update ctx (cond ctx τ)).flow.moved ∪ U := by
      intro d hd hclear b hbd
      rcases Finset.mem_union.mp (hd hbd) with hm | hU
      · exact Finset.mem_union_left _ ((hupdate.toTransfers.unmentioned haccU (hclear b hbd)
          (haccU.bounded b hm)).mpr hm)
      · exact Finset.mem_union_right _ hU
    rintro d o d' hd (⟨d₁, ⟨hp, hclear⟩, ⟨hq, hkept⟩, hclear₁⟩ | ⟨hne, hp, hclear⟩)
    · have hd₁ := (hstays (hkeep d hd hclear) hp).2 (.inl rfl)
      have hu := hupdate.covers ctx _ d₁ haccU hclear₁
      refine ⟨(hu Finset.subset_union_right hq).1, fun h => ?_⟩
      rcases h with h | h
      · exact (hkept h : d' ⊆ d₁).trans hd₁
      · exact absurd h (hcalm' d₁ o d' hq).1
    · exact hstays (hkeep d hd hclear) hp

/-- Each element of a `for in` gets a fresh variable. -/
theorem Sound.forInLoop (x : Name) (hbody : Sound fns body pbody
      (defineKind x .unknown ([] :: sc)) (defineKind x .unknown ([] :: sc)) names) :
    Sound fns (fun ctx σ => (Checker.checkLoop (body ctx)
        (σ.pushScope.define x .unknown)).popScope)
      (Loop (since fun d₀ => (done .broke).either (careful.round d₀ (deadMonitor.scoped sc
        ((deadMonitor.emit (.declare (x, sc.length))).seq pbody))))) sc sc names := by
  refine ⟨Transfers.bound x .unknown hbody.toTransfers.loop, ?_⟩
  intro ctx σ U h hU
  have hlen : (defineKind x .unknown ([] :: sc)).length = sc.length + 1 := rfl
  have hentered : Accepted fns (defineKind x .unknown ([] :: sc))
      (fun ctx => Checker.checkLoop (body ctx)) ctx (σ.pushScope.define x .unknown) := by
    refine ⟨h.fns, by rw [← h.scopes]; rfl, fun b hb => ?_, h.errors⟩
    have := h.bounded b hb
    omega
  obtain ⟨τ, hτ, hbefore, hround, hafter⟩ := hbody.toTransfers.settles hentered
  let m := τ.flow.moved.filter fun b => b.2 < sc.length
  have hstart : σ.flow.moved ⊆ m := fun b hb =>
    Finset.mem_filter.mpr ⟨hbefore hb, h.bounded b hb⟩
  have hend : m ⊆ (Checker.popScope (Checker.checkLoop (body ctx)
      (σ.pushScope.define x .unknown))).flow.moved := by
    intro b hb
    obtain ⟨hbτ, hdepth⟩ := Finset.mem_filter.mp hb
    rw [Transfers.mem_moved_popScope, hafter, hbody.toTransfers.loop.scopes ctx _ h.fns
      hentered.scopes]
    exact ⟨hbτ, hdepth⟩
  have hiter := (((covers_declare (x, sc.length)).seq (hbody.covers ctx τ U hτ hU)).inScope sc).mono
    (Finset.filter_subset (fun b => b.2 < sc.length) τ.flow.moved)
    (Finset.filter_subset_filter _ hround)
  refine (Covers.loop (Stays.since fun d₀ h₀ => Stays.either ?_ ?_)).mono hstart hend
  · rintro d o d' hd ⟨rfl, rfl⟩
    exact ⟨by decide, fun _ => hd⟩
  · exact hiter.round (Finset.Subset.refl _) h₀

/-- The body of a channel loop is checked once, so between two elements nothing it mentions
may be dead. -/
theorem Sound.recvLoop (x : Name) (hbody : Sound fns body pbody
      (defineKind x .heap ([] :: sc)) (defineKind x .heap ([] :: sc)) uses) (hn : uses ⊆ names) :
    Sound fns (fun ctx σ => (body ctx (σ.pushScope.define x .heap)).popScope)
      (Loop (since fun d₀ => ((done .broke).either (careful.round d₀ ((deadMonitor.scoped sc
        ((deadMonitor.emit (.declare (x, sc.length))).seq pbody)).only fun _ o d' =>
          o = .broke → careful.clear uses d'))).only fun d _ _ => careful.clear uses d)) sc sc
      names := by
  have hone := Sound.bound x .heap hbody
  refine ⟨hone.toTransfers.mono hn, ?_⟩
  intro ctx σ U h hU
  have hcov := hone.covers ctx σ U h (hU.mono hn)
  set m := σ.flow.moved
  set m' := (Checker.popScope (body ctx (σ.pushScope.define x .heap))).flow.moved
  have hm' := hone.toTransfers.bounded h
  -- a dead binding the body does not mention is dead before and after its check
  have hkeep : ∀ d, careful.clear uses d → (d ⊆ m ∪ U ↔ d ⊆ m' ∪ U) := by
    intro d hclear
    constructor
    · intro hd b hb
      rcases Finset.mem_union.mp (hd hb) with hm | hU
      · exact Finset.mem_union_left _ ((hone.toTransfers.unmentioned h (hclear b hb)
          (h.bounded b hm)).mpr hm)
      · exact Finset.mem_union_right _ hU
    · intro hd b hb
      rcases Finset.mem_union.mp (hd hb) with hm | hU
      · exact Finset.mem_union_left _ ((hone.toTransfers.unmentioned h (hclear b hb)
          (hm' b hm)).mp hm)
      · exact Finset.mem_union_right _ hU
  refine Meets.weaken (r := fun d => d ⊆ m ∪ U ∨ d ⊆ m' ∪ U) (Meets.loop ?_)
    (fun d hd => .inl hd) fun _ _ h => h
  rintro d o d' hinv ⟨hp, hclear⟩
  have hd : d ⊆ m ∪ U := hinv.elim id (hkeep d hclear).mpr
  rcases hp with ⟨rfl, rfl⟩ | ⟨o₀, ⟨⟨hp, hclear'⟩, hleft⟩, hr⟩
  · exact ⟨by decide, fun _ => (hkeep d' hclear).mp hd⟩
  · obtain ⟨hv, hnormal⟩ := hcov hd hp
    unfold resumes at hr
    split at hr
    · rename_i hcontinued
      subst hr
      exact .inl ((hleft (.inr hcontinued) : d' ⊆ d).trans hd)
    · subst hr
      split
      · rename_i h
        exact .inr (hnormal h)
      · split
        · rename_i hbroke
          refine ⟨by decide, fun _ => ?_⟩
          exact (hkeep d' (hclear' hbroke)).mp ((hleft (.inl hbroke) : d' ⊆ d).trans hd)
        · rename_i hne _
          exact ⟨hv, fun h => absurd h hne⟩

end Loops

/-! ### Exceptions -/

section Exceptions

variable {fns : Signatures} {body handler fin : Context → Checker → Checker}
  {pbody phandler pfin : Behaviour Dead} {sc : List Scope} {names uses : Finset Name}

/-- `finally` is checked with nothing dead, so nothing it mentions may be. -/
theorem Covers.withFinally {p : Behaviour Dead} {m m' mfin U : Finset Binding}
    (hp : Covers p m m' U) (hfin : ∀ V, Avoids V uses → Covers pfin ∅ mfin V) :
    Covers (careful.withFinally p uses pfin) m (m' ∪ mfin) U := by
  rintro d o d' hd (h | ⟨h, habrupt⟩)
  · rcases h with ⟨rfl, h⟩ | ⟨o₁, d₁, o₂, hne, h₁, ⟨h₂, hclear⟩, rfl⟩
    · exact absurd rfl (hp hd h).1
    · obtain ⟨hv, hn⟩ := hfin d₁ hclear Finset.subset_union_right h₂
      split
      · rename_i hnormal
        refine ⟨hne, fun h => ?_⟩
        have hd₁ := (hp hd h₁).2 h
        rw [Finset.union_right_comm, Finset.union_comm]
        exact (hn hnormal).trans (Finset.union_subset_union_right hd₁)
      · rename_i hnormal
        exact ⟨hv, fun h => absurd h hnormal⟩
  · refine ⟨(hp hd h).1, fun hn => ?_⟩
    subst hn
    simp at habrupt

theorem Sound.withFinally {f : Context → Checker → Checker} {p : Behaviour Dead}
    (hf : Sound fns f p sc sc names) (hfin : Sound fns fin pfin sc sc uses) (hn : uses ⊆ names) :
    Sound fns (fun ctx σ => Checker.checkFinally (fin ctx) (f ctx σ))
      (careful.withFinally p uses pfin) sc sc names := by
  have htransfers := (hfin.toTransfers.mono hn).finally
  refine ⟨htransfers.comp hf.toTransfers, ?_⟩
  intro ctx σ U h hU
  have hfacc := hf.toTransfers.accepted_first htransfers h
  have hacc := hf.toTransfers.accepted_second htransfers h
  have hempty : Accepted fns sc fin ctx (Checker.withMoved ∅ (f ctx σ)) :=
    ⟨hacc.fns, hacc.scopes, by simp [Checker.withMoved], hacc.errors⟩
  exact (hf.covers ctx σ U hfacc hU).withFinally fun V hV => hfin.covers ctx _ V hempty hV

/-- The handler is checked in the state before the try block. -/
theorem Sound.caught (hbody : Sound fns body pbody sc sc names)
    (hhandler : Sound fns handler phandler sc sc names) :
    Sound fns (fun ctx => Checker.checkCaught (body ctx) (handler ctx))
      ((since fun d₀ => pbody.only fun _ o d' => o = .threw → careful.kept d₀ d').handle
        phandler) sc sc names := by
  refine ⟨hbody.toTransfers.caught hhandler.toTransfers, ?_⟩
  intro ctx σ U h hU
  let before := Checker.withFlow σ.flow (body ctx σ)
  have hscopes : before.scopes = sc := hbody.scopes ctx σ h.fns h.scopes
  have hhacc : Accepted fns sc handler ctx before := ⟨h.fns, hscopes, h.bounded, h.errors⟩
  have hbacc : Accepted fns sc body ctx σ :=
    ⟨h.fns, h.scopes, h.bounded, eq_nil_of_subset_nil (hhandler.errors ctx before h.fns hscopes)
      h.errors⟩
  have hb := hbody.covers ctx σ U hbacc hU
  have hh := hhandler.covers ctx before U hhacc hU
  rintro d o d' hd (⟨d₁, ⟨hp, hkept⟩, hq⟩ | ⟨hne, hp, -⟩)
  · obtain ⟨hv, hn⟩ := hh ((hkept rfl : d₁ ⊆ d).trans hd) hq
    exact ⟨hv, fun h => (hn h).trans (Finset.union_subset_union_left Finset.subset_union_right)⟩
  · obtain ⟨hv, hn⟩ := hb hd hp
    exact ⟨hv, fun h => (hn h).trans (Finset.union_subset_union_left
      (Finset.subset_union_left.trans Finset.subset_union_left))⟩

theorem Sound.tried (hbody : Sound fns body pbody sc sc names) :
    Sound fns (fun ctx => Checker.checkTried (body ctx)) pbody sc sc names := by
  refine ⟨hbody.toTransfers.tried, ?_⟩
  intro ctx σ U h hU
  exact (hbody.covers ctx σ U ⟨h.fns, h.scopes, h.bounded, h.errors⟩ hU).mono
    (Finset.Subset.refl _) Finset.subset_union_left

/-- The attempts of a `retry` start and fail within the state at its head. -/
theorem meets_retrying {m m' U : Finset Binding} (hb : Covers pbody m m' U) (hm : m' ⊆ m) :
    Meets (careful.retrying pbody) (· ⊆ m ∪ U) fun o d' =>
      o ≠ .violated ∧ (o = .normal ∨ o = .threw → d' ⊆ m ∪ U) := by
  apply Meets.loop
  rintro d o d' hd (⟨rfl, rfl⟩ | ⟨o₀, ⟨hp, hkept⟩, hr⟩)
  · exact ⟨by decide, fun _ => hd⟩
  · obtain ⟨hv, hn⟩ := hb hd hp
    cases o₀ with
    | normal =>
      obtain rfl : o = .broke := hr
      exact ⟨by decide, fun _ => (hn rfl).trans (Finset.union_subset_union_left hm)⟩
    | broke =>
      obtain rfl : o = .broke := hr
      exact ⟨by decide, fun _ => (hkept (.inl rfl) : d' ⊆ d).trans hd⟩
    | continued =>
      obtain rfl : o = .normal := hr
      exact (hkept (.inr (.inl rfl)) : d' ⊆ d).trans hd
    | threw =>
      have hd' : d' ⊆ m ∪ U := (hkept (.inr (.inr rfl)) : d' ⊆ d).trans hd
      rcases (hr : o = .normal ∨ o = .threw) with rfl | rfl
      · exact hd'
      · exact ⟨by decide, fun _ => hd'⟩
    | returned =>
      obtain rfl : o = .returned := hr
      exact ⟨by decide, by simp⟩
    | violated => exact absurd rfl hv

theorem Sound.retried (hbody : Sound fns body pbody sc sc names) :
    Sound fns (fun ctx => Checker.checkLoop (body ctx)) (careful.retrying pbody) sc sc names := by
  refine ⟨hbody.toTransfers.loop, ?_⟩
  intro ctx σ U h hU
  obtain ⟨τ, hτ, hbefore, hround, hafter⟩ := hbody.toTransfers.settles h
  rw [hafter]
  have hmeets := meets_retrying (hbody.covers ctx τ U hτ hU) hround
  intro d o d' hd hp
  obtain ⟨hv, hn⟩ := hmeets (hd.trans (Finset.union_subset_union_left hbefore)) hp
  exact ⟨hv, fun h => hn (.inl h)⟩

/-- The handler of a `retry` is checked after the body's moves, and what it revives is taken
to be alive after a success, too. -/
theorem Sound.retryCaught (hbody : Sound fns body pbody sc sc names)
    (hhandler : Sound fns handler phandler sc sc uses) (hn : uses ⊆ names) :
    Sound fns (fun ctx => Checker.checkRetry (body ctx) (handler ctx))
      (since fun d₀ => ((careful.retrying pbody).only fun _ o d' =>
        o = .normal → careful.kept d₀ d' ∨ careful.clear uses d').handle phandler) sc sc names := by
  refine ⟨hbody.toTransfers.retried (hhandler.toTransfers.mono hn), ?_⟩
  intro ctx σ U h hU
  let tried := Checker.withBorrows σ.flow.borrows (Checker.checkLoop (body ctx) σ)
  have hscopes : tried.scopes = sc := hbody.toTransfers.loop.scopes ctx σ h.fns h.scopes
  have hlacc : Accepted fns sc (fun ctx => Checker.checkLoop (body ctx)) ctx σ :=
    ⟨h.fns, h.scopes, h.bounded, eq_nil_of_subset_nil (hhandler.errors ctx tried h.fns hscopes)
      h.errors⟩
  have hhacc : Accepted fns sc handler ctx tried :=
    ⟨h.fns, hscopes, hbody.toTransfers.loop.bounded hlacc, h.errors⟩
  obtain ⟨τ, hτ, hbefore, hround, hafter⟩ := hbody.toTransfers.settles hlacc
  have hmeets := meets_retrying (hbody.covers ctx τ U hτ hU) hround
  have hh := hhandler.covers ctx tried U hhacc (hU.mono hn)
  have htried : tried.flow.moved = τ.flow.moved := hafter
  rintro d o d' hd (⟨d₁, ⟨hp, -⟩, hq⟩ | ⟨hne, hp, hkept⟩)
  · have hd₁ := (hmeets (hd.trans (Finset.union_subset_union_left hbefore)) hp).2 (.inr rfl)
    rw [← htried] at hd₁
    obtain ⟨hv, hn⟩ := hh hd₁ hq
    exact ⟨hv, fun h => (hn h).trans (Finset.union_subset_union_left Finset.subset_union_right)⟩
  · obtain ⟨hv, hnormal⟩ := hmeets (hd.trans (Finset.union_subset_union_left hbefore)) hp
    refine ⟨hv, fun hn => ?_⟩
    rcases hkept hn with hsame | hclear
    · exact ((hsame : d' ⊆ d).trans hd).trans
        (Finset.union_subset_union_left Finset.subset_union_left)
    · intro b hb
      rcases Finset.mem_union.mp (hnormal (.inl hn) hb) with hm | hU
      · rw [← htried] at hm
        have hcaught := (hhandler.toTransfers.unmentioned hhacc (hclear b hb)
          (hhacc.bounded b hm)).mpr hm
        exact Finset.mem_union_left _ (Finset.mem_union_right _ hcaught)
      · exact Finset.mem_union_right _ hU

end Exceptions

end Neutron.Ownership
