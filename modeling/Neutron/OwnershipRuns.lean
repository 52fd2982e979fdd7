import Neutron.Behaviour
import Neutron.OwnershipChecker

/-!
# Executions of a function body

What a function body does to its variables, as compiled: every choice of branch, of match arm
and of the number of iterations, in evaluation order, and every call may throw before or
after it has taken its arguments. A monitor watches the events and says which of them
violates the ownership rules in its present state. Names are resolved statically, as the
checker does.

A `Discipline` restricts the executions: `kept s s'` may be asked of the states around a part
whose effect the checker does not see, and `clear names s` of the state in which such a part
mentions `names`. With `Discipline.free` nothing is asked and all executions are there.
-/

namespace Neutron.Ownership

open Behaviour

inductive Event where
  | read (b : Binding)
  | view (b : Binding) (kind : ValueKind)
  | move (b : Binding)
  | assign (b : Binding)
  | declare (b : Binding)
  | bind (holder source : Binding) (kind : ViewKind)
  | inherit (holder source : Binding)
  | leave (depth : ℕ)

structure Monitor (S : Type) where
  start : S
  step : Event → S → Option S

structure Discipline (S : Type) where
  kept : S → S → Prop
  clear : Finset Name → S → Prop

def Discipline.free {S : Type} : Discipline S := ⟨fun _ _ => True, fun _ _ => True⟩

abbrev Signatures := Name → Option (List ParamKind × ValueKind)

variable {S : Type} (M : Monitor S) (D : Discipline S) (fns : Signatures)

/-! ### Events -/

def Monitor.emit (event : Event) : Behaviour S := fun s o s' =>
  match M.step event s with
  | some m => o = .normal ∧ s' = m
  | none => o = .violated ∧ s' = s

/-- An event about the binding a name resolves to; an unbound name is a function. -/
def Monitor.on (sc : List Scope) (x : Name) (event : Binding → Event) : Behaviour S :=
  match resolve sc x with
  | some b => M.emit (event b)
  | none => done .normal

/-- Taking the value of an owned heap variable moves it. -/
def Monitor.moveSource (sc : List Scope) : Expr → Behaviour S
  | .var x _ => if lookupKind sc x = some .heap then M.on sc x .move else done .normal
  | _ => done .normal

/-- The holder starts to view an owned value, directly or through another view. -/
def Monitor.bindView (sc : List Scope) (holder : Binding) (kind : ViewKind) : Expr → Behaviour S
  | .var source _ =>
    if isBorrowableKind (lookupKind sc source) ∨ lookupKind sc source = some .view then
      M.on sc source fun b => .bind holder b kind
    else done .normal
  | _ => done .normal

def Monitor.rebind (sc : List Scope) (x : Name) (value : Expr) : Behaviour S :=
  if lookupKind sc x = some .view then
    match resolve sc x, value with
    | some holder, .view target mutable => M.bindView sc holder (ViewKind.of mutable) target
    | some holder, .var source _ => M.on sc source fun b => .inherit holder b
    | _, _ => done .normal
  else done .normal

def Monitor.viewVar (sc : List Scope) (x : Name) : Behaviour S :=
  M.on sc x fun b => .view b ((lookupKind sc x).getD .unknown)

def Monitor.passArgument (sc : List Scope) (param : ParamKind) : Expr → Behaviour S
  | .var x _ =>
    match (lookupKind sc x).getD .unknown, param with
    | .heap, .owned => M.on sc x .move
    | .heap, _ => M.viewVar sc x
    | .shared, .owned => done .normal
    | .shared, _ => M.viewVar sc x
    | _, _ => done .normal
  | _ => done .normal

/-- A part that runs in a scope of its own. -/
def Monitor.scoped (sc : List Scope) (p : Behaviour S) : Behaviour S :=
  p.ensure (M.emit (.leave sc.length))

section Emit

variable {M} {sc : List Scope} {x : Name} {b : Binding} {s s' : S}

theorem Monitor.emit_of_some {event : Event} (h : M.step event s = some s') :
    M.emit event s .normal s' := by
  simp [Monitor.emit, h]

theorem Monitor.on_of_some {event : Binding → Event} (hb : resolve sc x = some b)
    (h : M.step (event b) s = some s') : M.on sc x event s .normal s' := by
  simp [Monitor.on, hb, Monitor.emit_of_some h]

theorem Monitor.on_of_none {event : Binding → Event} (hb : resolve sc x = some b)
    (h : M.step (event b) s = none) : M.on sc x event s .violated s := by
  simp [Monitor.on, hb, Monitor.emit, h]

theorem Monitor.moveSource_of_some {sp : Span} (hk : lookupKind sc x = some .heap)
    (hb : resolve sc x = some b) (h : M.step (.move b) s = some s') :
    M.moveSource sc (.var x sp) s .normal s' := by
  simp [Monitor.moveSource, hk, Monitor.on_of_some hb h]

theorem Monitor.passArgument_of_some {sp : Span} (hk : lookupKind sc x = some .heap)
    (hb : resolve sc x = some b) (h : M.step (.move b) s = some s') :
    M.passArgument sc .owned (.var x sp) s .normal s' := by
  simp [Monitor.passArgument, hk, Monitor.on_of_some hb h]

end Emit

/-! ### Control flow -/

/-- `continue` ends the body of a loop as falling through does. -/
def resumes (o o' : Outcome) : Prop := o' = if o = .continued then .normal else o

/-- A successful attempt ends a `retry`, a failed one may be repeated. -/
def attempts (o o' : Outcome) : Prop :=
  match o with
  | .normal => o' = .broke
  | .continued => o' = .normal
  | .threw => o' = .normal ∨ o' = .threw
  | _ => o' = o

/-- A round left early, by `break` or `continue` or because its test failed. -/
def Discipline.leaving (s₀ : S) (_ : S) (o : Outcome) (s' : S) : Prop :=
  o = .broke ∨ o = .continued → D.kept s₀ s'

/-- A test that fails. -/
def Discipline.failed (p : Behaviour S) : Behaviour S :=
  p.only fun s o s' => o = .normal → D.kept s s'

/-- The body of a loop whose round began in `s₀`. -/
def Discipline.round (s₀ : S) (p : Behaviour S) : Behaviour S :=
  (p.only (D.leaving s₀)).rename resumes

/-- `finally` runs on every way out, except that `return`, `break` and `continue` may also
leave without it. -/
def Discipline.withFinally (p : Behaviour S) (uses : Finset Name) (fin : Behaviour S) :
    Behaviour S :=
  (p.ensure (fin.only fun s _ _ => D.clear uses s)).either
    (p.only fun _ o _ => o = .returned ∨ o = .broke ∨ o = .continued)

def Discipline.retrying (p : Behaviour S) : Behaviour S :=
  Loop (since fun s₀ => (done .threw).either
    ((p.only fun _ o s' => o = .broke ∨ o = .continued ∨ o = .threw → D.kept s₀ s').rename
      attempts))

/-- The scopes after a statement of a sequence. -/
def Stmt.declares (sc : List Scope) : Stmt → List Scope
  | .declare x _ ann view => defineKind x (finalKind fns sc ann view none) sc
  | .var x _ ann view init => defineKind x (finalKind fns sc ann view (some init)) sc
  | _ => sc

def declareParams : List (Name × ValueKind) → List Scope → List Scope
  | [], sc => sc
  | (x, kind) :: rest, sc => declareParams rest (defineKind x kind sc)

mutual
def Expr.run : Expr → List Scope → Behaviour S
  | .lit _, _ => done .normal
  | .var x _, sc => M.on sc x .read
  | .assign x _ value, sc =>
    (value.run sc).seq ((M.moveSource sc value).seq
      ((M.on sc x .assign).seq (M.rebind sc x value)))
  | .binary _ left right, sc => (left.run sc).seq (right.run sc)
  | .call callee args, sc =>
    (done .threw).either ((callee.run sc).seq
      ((args.run (((calleeSignature fns callee).map Prod.fst).getD []) sc).seq
        ((done .normal).either (done .threw))))
  | .view target _, sc =>
    match target with
    | .var x _ => M.viewVar sc x
    | _ => target.run sc
  | .borrow target _, sc =>
    match target with
    | .var x _ => (target.run sc).seq (M.viewVar sc x)
    | _ => target.run sc
  | .copy e, sc => e.run sc
  -- a lambda captures nothing: calling it runs a function body of its own
  | .lambda params body, sc => apart M.start (body.run (declareParams params ([] :: sc)))
def Exprs.run : Exprs → List ParamKind → List Scope → Behaviour S
  | .nil, _, _ => done .normal
  | .cons e rest, params, sc =>
    ((e.run sc).seq (M.passArgument sc (params.headD .unknown) e)).seq (rest.run params.tail sc)
def Stmt.run : Stmt → List Scope → Behaviour S
  | .declare x _ _ _, sc => M.emit (.declare (x, sc.length - 1))
  | .var x _ ann view init, sc =>
    let holder := (x, sc.length - 1)
    (init.run sc).seq (if declaresBorrow ann view (some init) then
      (M.emit (.declare holder)).seq
        (M.bindView sc holder (borrowKind ann view (some init)) (borrowTarget init))
      else (M.moveSource sc init).seq (M.emit (.declare holder)))
  | .expr e, sc => e.run sc
  | .block body, sc => M.scoped sc (body.run ([] :: sc))
  | .ifThen cond body rest, sc => (cond.run sc).seq ((body.run sc).either (rest.run sc))
  | .while cond body, sc => Loop (since fun s₀ =>
      (cond.run sc).seq (D.round s₀ ((done .broke).either (body.run sc))))
  | .doWhile body cond, sc => Loop (since fun s₀ =>
      (D.round s₀ ((body.run sc).only fun _ o s' =>
        o = .continued → D.clear cond.uses s')).seq
      ((cond.run sc).seq ((done .broke).either (done .normal))))
  | .for init cond update body, sc =>
    let inner := init.declares fns ([] :: sc)
    M.scoped sc ((init.run ([] :: sc)).seq (Loop (since fun s₀ =>
      (cond.run inner).seq (((done .broke).only (D.leaving s₀)).either
        (((D.round s₀ (body.run inner)).only fun s _ _ => D.clear update.uses s).seq
          ((D.failed (update.run inner)).only fun s _ _ => D.clear update.uses s))))))
  | .forIn x iterable body, sc =>
    let iteration := M.scoped sc ((M.emit (.declare (x, sc.length))).seq
      (body.run (defineKind x .unknown ([] :: sc))))
    let loop := Loop (since fun s₀ => (done .broke).either (D.round s₀ iteration))
    match iterable with
    | .var y _ => ((M.on sc y .read).only fun s _ _ => D.clear {y} s).seq loop
    | _ => (iterable.run sc).seq loop
  | .chanRecvFor x channel body, sc =>
    let iteration := M.scoped sc ((M.emit (.declare (x, sc.length))).seq
      (body.run (defineKind x .heap ([] :: sc))))
    (channel.run sc).seq (Loop (since fun s₀ =>
      ((done .broke).either (D.round s₀ (iteration.only fun _ o s' =>
        o = .broke → D.clear body.uses s'))).only fun s _ _ => D.clear body.uses s))
  | .match scrutinee cases, sc => (scrutinee.run sc).seq (cases.run sc)
  | .ret value, sc => (value.run sc).seq ((M.moveSource sc value).seq (done .returned))
  | .throw value, sc => (value.run sc).seq (done .threw)
  | .break, _ => done .broke
  | .continue, _ => done .continued
  | .tryCatch body catchVar handler fin, sc =>
    let tried := since fun s₀ => (body.run sc).only fun _ o s' => o = .threw → D.kept s₀ s'
    let caught := match catchVar with
      | some x => M.scoped sc ((M.emit (.declare (x, sc.length))).seq
          (handler.run (defineKind x .heap ([] :: sc))))
      | none => handler.run sc
    D.withFinally (tried.handle caught) fin.uses (fin.run sc)
  | .tryFinally body fin, sc => D.withFinally (body.run sc) fin.uses (fin.run sc)
  | .retry count body, sc => (count.run sc).seq (D.retrying (body.run sc))
  | .retryCatch count body handler, sc =>
    (count.run sc).seq (since fun s₀ =>
      ((D.retrying (body.run sc)).only fun _ o s' =>
        o = .normal → D.kept s₀ s' ∨ D.clear handler.uses s').handle (handler.run sc))
def Stmts.run : Stmts → List Scope → Behaviour S
  | .nil, _ => done .normal
  | .cons s rest, sc => (s.run sc).seq (rest.run (s.declares fns sc))
def Elifs.run : Elifs → List Scope → Behaviour S
  | .none, _ => done .normal
  | .else body, sc => body.run sc
  | .elif cond body rest, sc =>
    ((cond.run sc).seq (body.run sc)).either ((D.failed (cond.run sc)).seq (rest.run sc))
def Cases.run : Cases → List Scope → Behaviour S
  | .none, _ => done .normal
  | .default body, sc => body.run sc
  | .case value guard body rest, sc =>
    (((value.run sc).seq (guard.run sc)).seq (body.run sc)).either
      (((D.failed (value.run sc)).either (D.failed ((value.run sc).seq (guard.run sc)))).seq
        (rest.run sc))
end

/-- The executions of a function body whose parameters are bound in the innermost scope. -/
def runFunction (params : List (Name × ValueKind)) (body : Stmts) (sc : List Scope) :
    Behaviour S :=
  body.run M D fns (declareParams params ([] :: sc))

section Read

variable {D fns} {M : Monitor S} {sc : List Scope} {x : Name} {sp : Span} {b : Binding} {s s' : S}

theorem Stmt.run_read_of_some (hb : resolve sc x = some b) (h : M.step (.read b) s = some s') :
    (Stmt.expr (.var x sp)).run M D fns sc s .normal s' :=
  Monitor.on_of_some hb h

theorem Stmt.run_read_of_none (hb : resolve sc x = some b) (h : M.step (.read b) s = none) :
    (Stmt.expr (.var x sp)).run M D fns sc s .violated s :=
  Monitor.on_of_none hb h

end Read

/-! ### Expressions do not jump -/

section Calm

variable (sc : List Scope)

theorem calm_emit (event : Event) : Calm (M.emit event) := by
  intro s o s' h
  unfold Monitor.emit at h
  split at h
  · exact ⟨by simp [h.1], by simp [h.1]⟩
  · exact ⟨by simp [h.1], by simp [h.1]⟩

theorem calm_skip : Calm (done .normal : Behaviour S) := Calm.done ⟨by decide, by decide⟩

theorem calm_on (x : Name) (event : Binding → Event) : Calm (M.on sc x event) := by
  unfold Monitor.on
  split
  · exact calm_emit M _
  · exact calm_skip

theorem calm_moveSource (e : Expr) : Calm (M.moveSource sc e) := by
  unfold Monitor.moveSource
  split
  · split
    · exact calm_on M sc _ _
    · exact calm_skip
  · exact calm_skip

theorem calm_bindView (holder : Binding) (kind : ViewKind) (e : Expr) :
    Calm (M.bindView sc holder kind e) := by
  unfold Monitor.bindView
  split
  · split
    · exact calm_on M sc _ _
    · exact calm_skip
  · exact calm_skip

theorem calm_rebind (x : Name) (value : Expr) : Calm (M.rebind sc x value) := by
  unfold Monitor.rebind
  split
  · split
    · exact calm_bindView M sc _ _ _
    · exact calm_on M sc _ _
    · exact calm_skip
  · exact calm_skip

theorem calm_passArgument (param : ParamKind) (e : Expr) :
    Calm (M.passArgument sc param e) := by
  unfold Monitor.passArgument
  split
  · split
    · exact calm_on M sc _ _
    · exact calm_on M sc _ _
    · exact calm_skip
    · exact calm_on M sc _ _
    · exact calm_skip
  · exact calm_skip

end Calm

mutual
theorem Expr.calm_run (e : Expr) (sc : List Scope) : Calm (e.run M D fns sc) := by
  match e with
  | .lit _ => exact calm_skip
  | .var x _ => exact calm_on M sc x _
  | .assign x _ value =>
    exact (value.calm_run sc).seq ((calm_moveSource M sc value).seq
      ((calm_on M sc x _).seq (calm_rebind M sc x value)))
  | .binary _ left right => exact (left.calm_run sc).seq (right.calm_run sc)
  | .call callee args =>
    have hthrew : Calm (done .threw : Behaviour S) := Calm.done ⟨by decide, by decide⟩
    exact hthrew.either ((callee.calm_run sc).seq ((args.calm_run _ sc).seq
      (calm_skip.either hthrew)))
  | .view target _ =>
    have htarget := target.calm_run sc
    match target with
    | .var x _ => exact calm_on M sc x _
    | .lit _ | .assign _ _ _ | .binary _ _ _ | .call _ _ | .view _ _ | .borrow _ _ | .copy _
    | .lambda _ _ => exact htarget
  | .borrow target _ =>
    have htarget := target.calm_run sc
    match target with
    | .var x _ => exact htarget.seq (calm_on M sc x _)
    | .lit _ | .assign _ _ _ | .binary _ _ _ | .call _ _ | .view _ _ | .borrow _ _ | .copy _
    | .lambda _ _ => exact htarget
  | .copy e => exact e.calm_run sc
  | .lambda params body => exact Calm.apart _
theorem Exprs.calm_run (args : Exprs) (params : List ParamKind) (sc : List Scope) :
    Calm (args.run M D fns params sc) := by
  match args with
  | .nil => exact calm_skip
  | .cons e rest =>
    exact ((e.calm_run sc).seq (calm_passArgument M sc _ e)).seq (rest.calm_run _ sc)
end

/-! ### Diverging statements do not fall through -/

section Diverges

variable {p q : Behaviour S}

theorem not_normal_withFinally {uses : Finset Name} (h : NeverNormal p ∨ NeverNormal q) :
    NeverNormal (D.withFinally p uses q) := by
  rintro s s' (hf | ⟨-, hf⟩)
  · exact NeverNormal.ensure (h.imp_right fun hq => hq.only) s s' hf
  · simp at hf

end Diverges

mutual
theorem Stmt.not_normal (s : Stmt) (sc : List Scope) (h : s.diverges = true) (d d' : S) :
    ¬s.run M D fns sc d .normal d' := by
  match s with
  | .ret value =>
    exact NeverNormal.seq_right (NeverNormal.seq_right (NeverNormal.done (by decide))) d d'
  | .throw value => exact NeverNormal.seq_right (NeverNormal.done (by decide)) d d'
  | .break => exact NeverNormal.done (by decide) d d'
  | .continue => exact NeverNormal.done (by decide) d d'
  | .block body =>
    simp only [Stmt.diverges] at h
    exact NeverNormal.ensure (.inl (body.not_normal _ h)) d d'
  | .ifThen cond body rest =>
    simp only [Stmt.diverges, Bool.and_eq_true] at h
    apply NeverNormal.seq_right
    rintro d d' (hrun | hrun)
    · exact body.not_normal sc h.1 d d' hrun
    · exact rest.not_normal sc h.2 d d' hrun
  | .match scrutinee cases =>
    simp only [Stmt.diverges] at h
    exact NeverNormal.seq_right (cases.not_normal sc h) d d'
  | .tryCatch body catchVar handler fin =>
    simp only [Stmt.diverges, Bool.or_eq_true, Bool.and_eq_true] at h
    apply not_normal_withFinally
    rcases h with h | h
    · exact .inr (fin.not_normal sc h)
    · refine .inl (NeverNormal.handle ?_ ?_)
      · rintro d d' ⟨hrun, -⟩
        exact body.not_normal sc h.1 d d' hrun
      · match catchVar with
        | some x =>
          exact NeverNormal.ensure (.inl (NeverNormal.seq_right (handler.not_normal _ h.2)))
        | none => exact handler.not_normal sc h.2
  | .tryFinally body fin =>
    simp only [Stmt.diverges] at h
    exact not_normal_withFinally D (.inr (fin.not_normal sc h)) d d'
  | .declare _ _ _ _ | .var _ _ _ _ _ | .expr _ | .while _ _ | .doWhile _ _ | .for _ _ _ _
  | .forIn _ _ _ | .chanRecvFor _ _ _ | .retry _ _ | .retryCatch _ _ _ =>
    simp [Stmt.diverges] at h
theorem Stmts.not_normal (body : Stmts) (sc : List Scope) (h : body.diverges = true) (d d' : S) :
    ¬body.run M D fns sc d .normal d' := by
  match body with
  | .nil => simp [Stmts.diverges] at h
  | .cons s rest =>
    simp only [Stmts.diverges, Bool.or_eq_true] at h
    rcases h with h | h
    · exact NeverNormal.seq_left (s.not_normal sc h) d d'
    · exact NeverNormal.seq_right (rest.not_normal _ h) d d'
theorem Elifs.not_normal (rest : Elifs) (sc : List Scope) (h : rest.diverges = true) (d d' : S) :
    ¬rest.run M D fns sc d .normal d' := by
  match rest with
  | .none => simp [Elifs.diverges] at h
  | .else body =>
    simp only [Elifs.diverges] at h
    exact body.not_normal sc h d d'
  | .elif cond body rest =>
    simp only [Elifs.diverges, Bool.and_eq_true] at h
    rintro (hrun | hrun)
    · exact NeverNormal.seq_right (body.not_normal sc h.1) d d' hrun
    · exact NeverNormal.seq_right (rest.not_normal sc h.2) d d' hrun
theorem Cases.not_normal (cases : Cases) (sc : List Scope) (h : cases.diverges = true)
    (d d' : S) : ¬cases.run M D fns sc d .normal d' := by
  match cases with
  | .none => simp [Cases.diverges] at h
  | .default body =>
    simp only [Cases.diverges] at h
    exact body.not_normal sc h d d'
  | .case value guard body rest =>
    simp only [Cases.diverges, Bool.and_eq_true] at h
    rintro (hrun | hrun)
    · exact NeverNormal.seq_right (body.not_normal sc h.1) d d' hrun
    · exact NeverNormal.seq_right (rest.not_normal sc h.2) d d' hrun
end

end Neutron.Ownership
