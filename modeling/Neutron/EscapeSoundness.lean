import Neutron.ReferenceFlow

/-!
# When the escape analysis is sound

An accepted variable and its copies form a group that the analysis checks as one, provided every
copy is a plain `var` at the top level. If besides no use is of a kind the analysis lets through
by mistake, then in every execution only variables of the group hold the instance and nothing of
it leaves the frame.
-/

namespace Neutron.Escape
open Syntax Behaviour
open Ownership (resumes attempts)

/-! ### Uses the analysis lets through -/

section
variable (keeps : Name → Bool) (y : Name)

def notVar (operands : List Expr) : Bool := operands.all fun e => copySource e ≠ some y

mutual
/-- The variable has no use in the expression that the analysis takes for safe and that is not:
in a tuple or struct literal or a write through a pointer beside a safe part, borrowed or
dereferenced, in an `async` block or at a place of a lambda the search for mentions skips, or as
the receiver of a method that may keep it. -/
def exprTame : Expr → Bool
  | .var _ => true
  | .assign _ value => exprTame value
  | .operator form operands =>
    exprsTame operands &&
    match form with
    | .member property => !keeps property || notVar y operands
    | .optionalMember property => !keeps property || notVar y operands
    | .borrow _ => notVar y operands
    | .rawDeref => notVar y operands
    | .rawDerefSet => headUsesVarSafely .stackSlot y operands
    | .tupleLiteral => exprsUseVarSafely .stackSlot y .data operands
    | _ => true
  | .structLiteral _ _ fields update =>
    exprsTame fields && exprOptionTame update && exprsUseVarSafely .stackSlot y .data fields &&
      exprOptionUsesVarSafely .stackSlot y .base true update
  | .lambda params _ body => y ∉ captured (params.map FunctionParam.name) body
  | .asyncBlock _ body => y ∉ captured [] body
  | .chanRecv _ channel _ => exprTame channel
def exprsTame : List Expr → Bool
  | [] => true
  | e :: rest => exprTame e && exprsTame rest
def exprOptionTame : Option Expr → Bool
  | none => true
  | some e => exprTame e
end

mutual
def stmtTame : Stmt → Bool
  | .expression e => exprTame keeps y e
  | .say e => exprTame keeps y e
  | .var x _ initializer isStatic _ _ =>
    exprOptionTame keeps y initializer &&
      (!isStatic || (x ≠ y && initializer.bind copySource ≠ some y))
  | .block statements => stmtsTame statements
  | .ifThen condition thenBranch elifs elseBranch =>
    exprTame keeps y condition && stmtTame thenBranch && elifsTame elifs &&
      stmtOptionTame elseBranch
  | .while condition body => exprTame keeps y condition && stmtTame body
  | .doWhile body condition => stmtTame body && exprTame keeps y condition
  | .for init condition update body =>
    stmtOptionTame init && exprOptionTame keeps y condition && exprOptionTame keeps y update &&
      stmtTame body
  | .each _ _ source _ body => exprTame keeps y source && stmtTame body
  | .ret value => exprOptionTame keeps y value
  | .throw value => exprTame keeps y value
  | .match scrutinee cases defaultCase =>
    exprTame keeps y scrutinee && casesTame cases && stmtOptionTame defaultCase
  | .tryCatch body none last => stmtTame body && stmtOptionTame last
  | .tryCatch body (some (.mk _ handler)) last =>
    stmtTame body && stmtTame handler && stmtOptionTame last
  | .retry count body none => exprTame keeps y count && stmtTame body
  | .retry count body (some (.mk _ handler)) =>
    exprTame keeps y count && stmtTame body && stmtTame handler
  | .within _ body => stmtTame body
  | .destructure _ _ initializer => exprTame keeps y initializer
  | _ => true
def stmtsTame : List Stmt → Bool
  | [] => true
  | s :: rest => stmtTame s && stmtsTame rest
def stmtOptionTame : Option Stmt → Bool
  | none => true
  | some s => stmtTame s
def elifsTame : List ElifBranch → Bool
  | [] => true
  | .mk condition body :: rest => exprTame keeps y condition && stmtTame body && elifsTame rest
def casesTame : List MatchCase → Bool
  | [] => true
  | .mk value _ _ guard body :: rest =>
    exprTame keeps y value && exprOptionTame keeps y guard && stmtTame body && casesTame rest
end

end

/-- The variables that hold what `v` holds, by copies anywhere in the body. -/
def CopyGroup (body : List Stmt) (v y : Name) : Prop :=
  Relation.ReflTransGen (fun z y => (z, y) ∈ copyEdgesAll body) v y

/-- The copies that are plain `var`s at the top level of the body. -/
def PlainCopy (body : List Stmt) (v y : Name) : Prop :=
  Relation.ReflTransGen
    (fun z y => ∃ isConst, Stmt.var y none (some (.var z)) false isConst none ∈ body) v y

/-- Every copy the analysis does not follow has only uses it finds safe, and neither the variable
nor a copy of it has a use the analysis lets through by mistake. -/
structure Tame (keeps : Name → Bool) (body : List Stmt) (v : Name) : Prop where
  followed : ∀ y, CopyGroup body v y → PlainCopy body v y ∨ stmtsUseVarSafely .stackSlot y body = true
  tame : ∀ y, CopyGroup body v y → stmtsTame keeps y body = true

theorem mem_copyEdgesAll {body : List Stmt} {y z : Name} {isConst : Bool}
    (h : Stmt.var y none (some (.var z)) false isConst none ∈ body) :
    (z, y) ∈ copyEdgesAll body := by
  induction body with
  | nil => simp at h
  | cons s rest ih =>
    rw [copyEdgesAll, List.mem_append]
    rcases List.mem_cons.mp h with rfl | h
    · exact .inl (List.mem_singleton_self _)
    · exact .inr (ih h)

theorem PlainCopy.accepted {isClass hasInit : Name → Bool} {body : List Stmt} {v y : Name}
    (hv : v ∈ analyzeStackAllocatable isClass hasInit body) (hy : PlainCopy body v y) :
    y ∈ analyzeStackAllocatable isClass hasInit body := by
  induction hy with
  | refl => exact hv
  | tail _ hcopy ih =>
    obtain ⟨isConst, hmem⟩ := hcopy
    exact mem_analyze_of_copy hmem (mem_copyEdgesAll hmem) ih

/-- All variables of the group of an accepted variable are used safely. -/
theorem Tame.safe {isClass hasInit keeps : Name → Bool} {body : List Stmt} {v y : Name}
    (h : Tame keeps body v) (hv : v ∈ analyzeStackAllocatable isClass hasInit body)
    (hy : CopyGroup body v y) : stmtsUseVarSafely .stackSlot y body = true := by
  rcases h.followed y hy with hplain | hsafe
  · exact safe_of_not_rejected (hplain.accepted hv)
  · exact hsafe

/-! ### Only the group holds the instance -/

/-- Nothing escaped, and only variables of the group hold an instance. -/
structure Quiet (group : Name → Prop) (s : Frame) : Prop where
  inside : s.escaped = false
  held : ∀ b ∈ s.env, b.2 = true → group b.1

theorem Quiet.holds {group : Name → Prop} {s : Frame} (h : Quiet group s) {x : Name}
    (hx : s.holds x = true) : group x := by
  cases hlookup : s.env.lookup x with
  | none => simp [Frame.holds, hlookup] at hx
  | some b =>
    have hb : b = true := by simpa [Frame.holds, hlookup] using hx
    subst hb
    obtain ⟨l₁, l₂, henv, -⟩ := List.lookup_eq_some_iff.mp hlookup
    exact h.held (x, true) (by simp [henv]) rfl

theorem mem_store {x : Name} {held : Bool} {env : List (Name × Bool)} {b : Name × Bool}
    (h : b ∈ Frame.store x held env) : b ∈ env ∨ b = (x, held) := by
  induction env with
  | nil => simp [Frame.store] at h
  | cons c rest ih =>
    rw [Frame.store] at h
    split at h
    · rcases List.mem_cons.mp h with rfl | h
      · exact .inr rfl
      · exact .inl (List.mem_cons_of_mem _ h)
    · rcases List.mem_cons.mp h with rfl | h
      · exact .inl List.mem_cons_self
      · exact (ih h).imp_left (List.mem_cons_of_mem _)

/-- A run from a quiet frame with `r` stays quiet, and has `r'` if it falls through. -/
def Keeps (group : Name → Prop) (r : Frame → Prop) (p : Behaviour Frame) (r' : Frame → Prop) :
    Prop :=
  Meets p (fun s => Quiet group s ∧ r s) fun o s' => Quiet group s' ∧ (o = .normal → r' s')

abbrev anyFrame : Frame → Prop := fun _ => True

abbrev noValue : Frame → Prop := fun s => s.value = false

namespace Keeps
variable {group : Name → Prop} {r r' m : Frame → Prop} {p q : Behaviour Frame}

theorem weaken (h : Keeps group r p r') {r₀ r₁ : Frame → Prop} (hpre : ∀ s, r₀ s → r s)
    (hpost : ∀ s, r' s → r₁ s) : Keeps group r₀ p r₁ :=
  Maintains.weaken h hpre hpost

theorem forget (h : Keeps group r p r') : Keeps group r p anyFrame := Maintains.forget h

theorem skip : Keeps group r (Behaviour.done .normal) r := Maintains.skip

theorem jump {o : Outcome} (ho : o ≠ .normal) : Keeps group r (Behaviour.done o) r' :=
  Maintains.jump ho

theorem seq (hp : Keeps group r p m) (hq : Keeps group m q r') : Keeps group r (p.seq q) r' :=
  Maintains.seq hp hq

theorem either (hp : Keeps group r p r') (hq : Keeps group r q r') :
    Keeps group r (p.either q) r' :=
  Maintains.either hp hq

theorem loop (hround : Keeps group r p r) : Keeps group r (Loop p) anyFrame :=
  Maintains.loop hround

theorem handle (hp : Keeps group r p r') (hq : Keeps group anyFrame q r') :
    Keeps group r (p.handle q) r' :=
  Maintains.handle hp hq

theorem ensure (hp : Keeps group r p anyFrame) (hq : Keeps group anyFrame q anyFrame) :
    Keeps group r (p.ensure q) anyFrame :=
  Maintains.ensure hp hq

theorem rename (hp : Keeps group r p anyFrame) {ρ : Outcome → Outcome → Prop} :
    Keeps group r (p.rename ρ) anyFrame :=
  Maintains.rename hp

theorem only (hp : Keeps group r p r') {c : Frame → Outcome → Frame → Prop} :
    Keeps group r (p.only c) r' :=
  Maintains.only hp

theorem inScope (hp : Keeps group r p anyFrame) : Keeps group r (inScope p) anyFrame := by
  rintro s o s' hs ⟨t, hpt, rfl⟩
  obtain ⟨hinside, hheld⟩ := (hp hs hpt).1
  exact ⟨⟨hinside, fun b hb => hheld b (List.mem_of_mem_drop hb)⟩, fun _ => trivial⟩

theorem withFinally (hp : Keeps group r p anyFrame) (hq : Keeps group anyFrame q anyFrame) :
    Keeps group r (withFinally p q) anyFrame :=
  (hp.ensure hq).either hp.only

theorem retrying (hp : Keeps group anyFrame p anyFrame) :
    Keeps group anyFrame (retrying p) anyFrame :=
  loop ((jump (by decide)).either hp.rename)

/-! ### Steps -/

theorem effect {f : Frame → Frame} (h : ∀ s, Quiet group s → r s → Quiet group (f s) ∧ r' (f s)) :
    Keeps group r (effect f) r' := by
  rintro s o s' ⟨hq, hr⟩ ⟨-, rfl⟩
  exact ⟨(h s hq hr).1, fun _ => (h s hq hr).2⟩

theorem plain : Keeps group r plain noValue :=
  effect fun _ hq _ => ⟨⟨hq.inside, hq.held⟩, rfl⟩

theorem fresh : Keeps group r fresh anyFrame :=
  effect fun _ hq _ => ⟨⟨hq.inside, hq.held⟩, trivial⟩

theorem keep : Keeps group noValue keep noValue :=
  effect fun s hq hr => ⟨⟨by simp [hq.inside, hr], hq.held⟩, hr⟩

theorem reread : Keeps group r reread noValue := by
  rintro s o s' ⟨hq, -⟩ ⟨-, b, hb, rfl⟩
  refine ⟨⟨hq.inside, hq.held⟩, fun _ => ?_⟩
  cases b with
  | false => rfl
  | true => exact absurd (hb rfl) (by simp [hq.inside])

theorem mayThrow : Keeps group r mayThrow r := skip.either (jump (by decide))

theorem declare {x : Name} (h : ∀ s, r s → s.value = true → group x) :
    Keeps group r (declare x) anyFrame := by
  refine effect fun s hq hr => ⟨⟨hq.inside, fun b hb hheld => ?_⟩, trivial⟩
  rcases List.mem_cons.mp hb with rfl | hb
  · exact h s hr hheld
  · exact hq.held b hb hheld

theorem declare_plain (x : Name) : Keeps group noValue (Escape.declare x) noValue := by
  refine effect fun s hq hr => ⟨⟨hq.inside, fun b hb hheld => ?_⟩, hr⟩
  rcases List.mem_cons.mp hb with rfl | hb
  · exact absurd hheld (by simp [hr])
  · exact hq.held b hb hheld

theorem declareAll (names : List Name) :
    Keeps group noValue (Escape.declareAll names) noValue := by
  induction names with
  | nil => exact skip
  | cons x rest ih => exact (declare_plain x).seq ih

theorem assign {x : Name} : Keeps group noValue (assign x) noValue := by
  refine effect fun s hq hr => ?_
  split
  · refine ⟨⟨hq.inside, fun b hb hheld => ?_⟩, hr⟩
    rcases mem_store hb with hb | rfl
    · exact hq.held b hb hheld
    · exact absurd hheld (by simp [hr])
  · exact ⟨⟨by simp [hq.inside, hr], hq.held⟩, hr⟩

theorem load (x : Name) : Keeps group r (load x) fun s => s.value = true → group x :=
  effect fun _ hq _ => ⟨⟨hq.inside, hq.held⟩, hq.holds⟩

theorem capture {names : List Name} (h : ∀ y, group y → y ∉ names) :
    Keeps group r (capture names) anyFrame := by
  refine effect fun s hq _ => ⟨⟨?_, hq.held⟩, trivial⟩
  have hnone : names.any s.holds = false := by
    rw [List.any_eq_false]
    intro x hx hheld
    exact h x (hq.holds hheld) hx
  simp [hq.inside, hnone]

end Keeps

/-! ### Parts of a check -/

section
variable {group : Name → Prop} {a b c d : Name → Bool}

theorem parts₂ (h : ∀ y, group y → (a y && b y) = true) :
    (∀ y, group y → a y = true) ∧ ∀ y, group y → b y = true :=
  forall₂_and.mp fun y hy => Bool.and_eq_true_iff.mp (h y hy)

theorem parts₃ (h : ∀ y, group y → (a y && b y && c y) = true) :
    ((∀ y, group y → a y = true) ∧ ∀ y, group y → b y = true) ∧ ∀ y, group y → c y = true :=
  (parts₂ h).imp_left parts₂

theorem parts₄ (h : ∀ y, group y → (a y && b y && c y && d y) = true) :
    (((∀ y, group y → a y = true) ∧ ∀ y, group y → b y = true) ∧ ∀ y, group y → c y = true) ∧
      ∀ y, group y → d y = true :=
  (parts₂ h).imp_left parts₃

end

/-! ### Safe operands -/

section
variable {y : Name} {ctx : ExprCtx}

theorem head_safe_of_not_mention {es : List Expr} (h : exprsMentionVar y es = false) :
    headUsesVarSafely .stackSlot y es = true := by
  cases es with
  | nil => rfl
  | cons e rest =>
    obtain ⟨he, hrest⟩ := Bool.or_eq_false_iff.mp h
    simp [headUsesVarSafely, safe_of_not_mention he, exprs_safe_of_not_mention hrest]

/-- Operators whose operands the analysis checks as data, or does not allow to be mentioned. -/
def dataForm : Operator → Bool
  | .grouping => true
  | .binary _ => true
  | .unary _ => true
  | .postfixUnary _ => true
  | .spread => true
  | .ternary => true
  | .objectLiteral _ => true
  | .arrayLiteral => true
  | .propagate => true
  | .view _ => true
  | .chanSend => true
  | .close => true
  | _ => false

def baseForm : Operator → Bool
  | .member _ => true
  | .optionalMember _ => true
  | .copy => true
  | .tupleIndex _ => true
  | .borrow _ => true
  | .rawDeref => true
  | _ => false

def headForm : Operator → Bool
  | .indexGet => true
  | .indexSet => true
  | .memberSet _ => true
  | .await => true
  | _ => false

variable {form : Operator} {operands : List Expr}

theorem dataForm_safe (hform : dataForm form = true)
    (h : exprUsesVarSafely .stackSlot y ctx (.operator form operands) = true) :
    exprsUseVarSafely .stackSlot y .data operands = true := by
  by_cases hmention : exprsMentionVar y operands = true
  · cases form with
    | chanSend => exact absurd (of_mentioned hmention h) Bool.false_ne_true
    | close => exact absurd (of_mentioned hmention h) Bool.false_ne_true
    | _ => first | exact absurd hform Bool.false_ne_true | exact of_mentioned hmention h
  · exact exprs_safe_of_not_mention (by simpa using hmention)

theorem baseForm_safe (hform : baseForm form = true)
    (h : exprUsesVarSafely .stackSlot y ctx (.operator form operands) = true) :
    exprsUseVarSafely .stackSlot y .base operands = true := by
  by_cases hmention : exprsMentionVar y operands = true
  · cases form with
    | member _ => exact (Bool.and_eq_true_iff.mp (of_mentioned hmention h)).1
    | optionalMember _ => exact (Bool.and_eq_true_iff.mp (of_mentioned hmention h)).1
    | _ => first | exact absurd hform Bool.false_ne_true | exact of_mentioned hmention h
  · exact exprs_safe_of_not_mention (by simpa using hmention)

theorem headForm_safe (hform : headForm form = true)
    (h : exprUsesVarSafely .stackSlot y ctx (.operator form operands) = true) :
    headUsesVarSafely .stackSlot y operands = true := by
  by_cases hmention : exprsMentionVar y operands = true
  · cases form with
    | indexGet => exact (Bool.and_eq_true_iff.mp (of_mentioned hmention h)).1
    | _ => first | exact absurd hform Bool.false_ne_true | exact of_mentioned hmention h
  · exact head_safe_of_not_mention (by simpa using hmention)

end

/-- The callee of a call is safe as data unless it is the variable itself. -/
theorem callee_safe {y : Name} {ctx : ExprCtx} {callee : Expr} {arguments : List Expr}
    (h : exprUsesVarSafely .stackSlot y ctx (.operator .call (callee :: arguments)) = true)
    (hne : callee ≠ .var y) : exprUsesVarSafely .stackSlot y .data callee = true := by
  rcases (call_safe h).1 with hbase | ⟨property, rfl⟩
  · exact base_safe_data hbase hne
  · exact method_safe property

theorem exprsTame_of_operator {keeps : Name → Bool} {y : Name} {form : Operator}
    {operands : List Expr} (h : exprTame keeps y (.operator form operands) = true) :
    exprsTame keeps y operands = true := by
  have hparts : exprsTame keeps y operands = true ∧ _ := Bool.and_eq_true_iff.mp h
  exact hparts.1

/-- A variable of the group is no operand of an operator that keeps or forwards it. -/
theorem notVar_of_tame {keeps : Name → Bool} {y : Name} {form : Operator} {operands : List Expr}
    (hform : baseForm form = true) (h : exprTame keeps y (.operator form operands) = true)
    (hmem : .var y ∈ operands) :
    forwards form = false ∧ ∀ i, keepsOperand keeps form i = false := by
  have hvar : notVar y operands = false := by
    simp only [notVar, List.all_eq_false]
    exact ⟨.var y, hmem, by simp [copySource]⟩
  have hparts := (Bool.and_eq_true_iff.mp h).2
  cases form with
  | member property | optionalMember property =>
    have hkeeps : keeps property = false := by simpa [hvar] using hparts
    exact ⟨rfl, fun i => by simp [keepsOperand, hkeeps]⟩
  | borrow _ | rawDeref => exact absurd (hvar.symm.trans hparts) Bool.false_ne_true
  | copy | tupleIndex _ => exact ⟨rfl, fun i => rfl⟩
  | _ => exact absurd hform Bool.false_ne_true

/-! ### Expressions -/

section
variable {keeps isClass hasInit : Name → Bool} {v : Name} {group : Name → Prop}

/-- The value is an instance only where a variable of the group is dereferenced. -/
def Yields (group : Name → Prop) (ctx : ExprCtx) (e : Expr) (s : Frame) : Prop :=
  s.value = true → ctx = .base ∧ ∃ y, group y ∧ e = .var y

theorem Yields.noValue {e : Expr} {s : Frame} (h : Yields group .data e s) : noValue s := by
  cases hvalue : s.value with
  | false => exact hvalue
  | true => exact absurd (h hvalue).1 (by decide)

theorem yields_of_noValue {ctx : ExprCtx} {e : Expr} {s : Frame} (h : noValue s) :
    Yields group ctx e s := fun hvalue => absurd hvalue (by simp [h])

theorem Keeps.finish (form : Operator) :
    Keeps group (fun s => forwards form = true → s.value = false) (Escape.finish form)
      Escape.noValue := by
  have hresult : Keeps group (fun s => forwards form = true → s.value = false)
      (if forwards form then Behaviour.done .normal else Escape.reread) Escape.noValue := by
    split
    case isTrue hforwards => exact skip.weaken (fun _ => id) fun _ h => h hforwards
    case isFalse => exact reread
  refine (hresult.seq mayThrow).either ?_
  split
  case isTrue hform =>
    subst hform
    exact (keep.weaken (fun _ h => h rfl) fun _ => id).seq (jump (by decide))
  case isFalse => exact jump (by decide)

/-- The operands of all operators but three are run in order. -/
theorem exprFlow_operator {form : Operator} (operands : List Expr) (hliteral : ∀ t, form ≠ .literal t)
    (hthis : form ≠ .this) (hternary : form ≠ .ternary) :
    exprFlow keeps isClass hasInit v (.operator form operands) =
      plain.seq ((operandsFlow keeps isClass hasInit v form 0 operands).seq (finish form)) := by
  cases form <;> first | rfl | simp at hliteral hthis hternary

theorem Keeps.operator {form : Operator} {e : Expr} {ctx : ExprCtx} {p : Behaviour Frame}
    (hp : Keeps group Escape.noValue p fun s => forwards form = true → s.value = false) :
    Keeps group anyFrame (Escape.plain.seq (p.seq (Escape.finish form))) (Yields group ctx e) :=
  (plain.seq (hp.seq (finish form))).weaken (fun _ => id) fun _ => yields_of_noValue

variable {e : Expr} {rest : List Expr}

theorem safe_cons {ctx : ExprCtx} (h : ∀ y, group y → exprsUseVarSafely .stackSlot y ctx (e :: rest) = true) :
    (∀ y, group y → exprUsesVarSafely .stackSlot y ctx e = true) ∧
      ∀ y, group y → exprsUseVarSafely .stackSlot y ctx rest = true := by
  simp only [exprsUseVarSafely, Bool.and_eq_true] at h
  exact ⟨fun y hy => (h y hy).1, fun y hy => (h y hy).2⟩

theorem head_safe_cons (h : ∀ y, group y → headUsesVarSafely .stackSlot y (e :: rest) = true) :
    (∀ y, group y → exprUsesVarSafely .stackSlot y .base e = true) ∧
      ∀ y, group y → exprsUseVarSafely .stackSlot y .data rest = true := by
  simp only [headUsesVarSafely, Bool.and_eq_true] at h
  exact ⟨fun y hy => (h y hy).1, fun y hy => (h y hy).2⟩

theorem tame_cons (h : ∀ y, group y → exprsTame keeps y (e :: rest) = true) :
    (∀ y, group y → exprTame keeps y e = true) ∧ ∀ y, group y → exprsTame keeps y rest = true := by
  simp only [exprsTame, Bool.and_eq_true] at h
  exact ⟨fun y hy => (h y hy).1, fun y hy => (h y hy).2⟩

mutual
theorem exprFlow_keeps (ctx : ExprCtx) :
    ∀ e, (∀ y, group y → exprUsesVarSafely .stackSlot y ctx e = true) →
      (∀ y, group y → exprTame keeps y e = true) →
      Keeps group anyFrame (exprFlow keeps isClass hasInit v e) (Yields group ctx e)
  | .var x, hsafe, _ => by
    refine (Keeps.load x).weaken (fun _ => id) fun s h hvalue => ?_
    have hx := h hvalue
    have hsafe : (if x = x then decide (ctx = .base) else true) = true := hsafe x hx
    have hbase : ctx = .base := by simpa using hsafe
    exact ⟨hbase, x, hx, rfl⟩
  | .assign x value, hsafe, htame => by
    have hvalue : ∀ y, group y → exprUsesVarSafely .stackSlot y .data value = true := by
      intro y hy
      by_cases hmention : exprMentionsVar y value = true
      · have hassign : exprMentionsVar y (.assign x value) = true :=
          Bool.or_eq_true_iff.mpr (.inr hmention)
        exact (Bool.and_eq_true_iff.mp (of_mentioned hassign (hsafe y hy))).2
      · exact safe_of_not_mention (by simpa using hmention)
    have hflow := exprFlow_keeps .data value hvalue htame
    exact (hflow.weaken (fun _ => id) fun _ => Yields.noValue).seq
      (Keeps.assign.weaken (fun _ => id) fun _ => yields_of_noValue)
  | .operator form operands, hsafe, htame => by
    have htames : ∀ y, group y → exprsTame keeps y operands = true :=
      fun y hy => exprsTame_of_operator (htame y hy)
    by_cases hdata : dataForm form = true ∨ form = .tupleLiteral
    · have hoperands : ∀ y, group y → exprsUseVarSafely .stackSlot y .data operands = true := by
        intro y hy
        rcases hdata with hdata | rfl
        · exact dataForm_safe hdata (hsafe y hy)
        · exact (parts₂ htame).2 y hy
      by_cases hternary : form = .ternary
      · subst hternary
        have hflow := ternaryFlow_keeps operands hoperands htames
        exact Keeps.operator (hflow.weaken (fun _ => id) fun _ h _ => h)
      · rw [exprFlow_operator operands (by rintro t rfl; simp [dataForm] at hdata)
          (by rintro rfl; simp [dataForm] at hdata) hternary]
        have hflow := operandsFlow_keeps .data form False (by simp) 0 operands hoperands htames
          (by simp)
        refine Keeps.operator (hflow.weaken (fun _ h hv => by simp [h] at hv) fun s h _ => ?_)
        simpa using h
    by_cases hhead : headForm form = true ∨ form = .rawDerefSet
    · rw [exprFlow_operator operands (by rintro t rfl; simp [headForm] at hhead)
        (by rintro rfl; simp [headForm] at hhead) (by rintro rfl; simp [headForm] at hhead)]
      have hoperands : ∀ y, group y → headUsesVarSafely .stackSlot y operands = true := by
        intro y hy
        rcases hhead with hhead | rfl
        · exact headForm_safe hhead (hsafe y hy)
        · exact (parts₂ htame).2 y hy
      have hkeep : keepsOperand keeps form 0 = false := by
        revert hhead; cases form <;> simp [headForm, keepsOperand]
      have hforwards : forwards form = false := by
        revert hhead; cases form <;> simp [headForm, forwards]
      have hflow := headFlow_keeps form hkeep operands hoperands htames
      exact Keeps.operator (hflow.weaken (fun _ _ => trivial) fun s _ h => by simp [hforwards] at h)
    by_cases hbase : baseForm form = true
    · rw [exprFlow_operator operands (by rintro t rfl; simp [baseForm] at hbase)
        (by rintro rfl; simp [baseForm] at hbase) (by rintro rfl; simp [baseForm] at hbase)]
      have hflow := operandsFlow_keeps .base form
        (forwards form = false ∧ ∀ i, keepsOperand keeps form i = false)
        (fun i hi h => by simp [h.2 i] at hi) 0 operands
        (fun y hy => baseForm_safe hbase (hsafe y hy)) htames
        fun y hy _ hmem => notVar_of_tame hbase (htame y hy) hmem
      refine Keeps.operator (hflow.weaken (fun _ h hv => by simp [h] at hv) fun s h hf => ?_)
      by_contra hv
      simp [(h (by simpa using hv)).1] at hf
    cases form <;> simp [dataForm, headForm, baseForm] at hdata hhead hbase
    case literal => exact Keeps.operator (Keeps.skip.weaken (fun _ => id) fun _ h _ => h)
    case this => exact Keeps.operator (Keeps.skip.weaken (fun _ => id) fun _ h _ => h)
    case call =>
      have hflow := callFlow_keeps operands hsafe htames
      exact Keeps.operator (hflow.weaken (fun _ _ => trivial) fun _ _ h => by simp [forwards] at h)
  | .structLiteral className keys fields update, _, htame => by
    have hparts := parts₄ htame
    have hfields := operandsFlow_keeps .data .arrayLiteral False (by simp) 0 fields
      hparts.1.2 hparts.1.1.1 (by simp)
    have hupdate := exprOptionFlow_keeps .base update hparts.2
      hparts.1.1.2
    have hresult : Keeps group anyFrame (reread.seq mayThrow)
        (Yields group ctx (.structLiteral className keys fields update)) :=
      (Keeps.reread.seq Keeps.mayThrow).weaken (fun _ => id) fun _ => yields_of_noValue
    exact Keeps.plain.seq ((hfields.weaken (fun _ h hv => by simp [h] at hv) fun _ _ => trivial).seq
      (hupdate.forget.seq hresult))
  | .lambda params returnType body, _, htame => by
    refine (Keeps.capture fun y hy => ?_).seq
      (Keeps.reread.weaken (fun _ => id) fun _ => yields_of_noValue)
    exact of_decide_eq_true (htame y hy)
  | .asyncBlock returnType body, _, htame => by
    refine (Keeps.capture fun y hy => ?_).seq
      (Keeps.reread.weaken (fun _ => id) fun _ => yields_of_noValue)
    exact of_decide_eq_true (htame y hy)
  | .chanRecv receiver channel site, hsafe, htame => by
    have hchannel : ∀ y, group y → exprUsesVarSafely .stackSlot y .data channel = true := by
      intro y hy
      have hmention : (!exprMentionsVar y channel) = true := hsafe y hy
      exact safe_of_not_mention (by simpa using hmention)
    have hflow := exprFlow_keeps .data channel hchannel htame
    have hreceive : Keeps group anyFrame (reread.seq (declare receiver))
        (Yields group ctx (.chanRecv receiver channel site)) :=
      (Keeps.reread.seq (Keeps.declare_plain receiver)).weaken (fun _ => id)
        fun _ => yields_of_noValue
    exact hflow.forget.seq (Keeps.mayThrow.seq hreceive)
theorem operandsFlow_keeps (ctx : ExprCtx) (form : Operator) (Q : Prop)
    (hkeep : ∀ i, keepsOperand keeps form i = true → ¬ Q) :
    ∀ i es, (∀ y, group y → exprsUseVarSafely .stackSlot y ctx es = true) →
      (∀ y, group y → exprsTame keeps y es = true) →
      (∀ y, group y → ctx = .base → .var y ∈ es → Q) →
      Keeps group (fun s => s.value = true → Q)
        (operandsFlow keeps isClass hasInit v form i es) fun s => s.value = true → Q
  | _, [], _, _, _ => Keeps.skip
  | i, e :: rest, hsafe, htame, hQ => by
    obtain ⟨hsafe, hsafes⟩ := safe_cons hsafe
    obtain ⟨htame, htames⟩ := tame_cons htame
    have hhead : Keeps group (fun s => s.value = true → Q) (exprFlow keeps isClass hasInit v e)
        fun s => s.value = true → Q := by
      refine (exprFlow_keeps ctx e hsafe htame).weaken (fun _ _ => trivial) fun s h hv => ?_
      obtain ⟨hbase, y, hy, rfl⟩ := h hv
      exact hQ y hy hbase List.mem_cons_self
    have hrest := operandsFlow_keeps ctx form Q hkeep (i + 1) rest hsafes htames
      fun y hy hbase hmem => hQ y hy hbase (List.mem_cons_of_mem _ hmem)
    refine hhead.seq (Keeps.seq ?_ hrest)
    split
    case isTrue hi =>
      have hnot := hkeep i hi
      exact Keeps.keep.weaken (fun s h => by simpa [hnot] using h) fun s h hv => by simp [h] at hv
    case isFalse => exact Keeps.skip
theorem headFlow_keeps (form : Operator) (hform : keepsOperand keeps form 0 = false) :
    ∀ es, (∀ y, group y → headUsesVarSafely .stackSlot y es = true) →
      (∀ y, group y → exprsTame keeps y es = true) →
      Keeps group anyFrame (operandsFlow keeps isClass hasInit v form 0 es) anyFrame
  | [], _, _ => Keeps.skip
  | e :: rest, hsafe, htame => by
    obtain ⟨hsafe, hsafes⟩ := head_safe_cons hsafe
    obtain ⟨htame, htames⟩ := tame_cons htame
    have hhead := exprFlow_keeps .base e hsafe htame
    have hskip : Keeps group anyFrame (if keepsOperand keeps form 0 then keep else done .normal)
        anyFrame := by
      rw [hform]
      exact Keeps.skip
    exact hhead.forget.seq (hskip.seq (argumentsFlow_keeps form 1 rest hsafes htames))
theorem argumentsFlow_keeps (form : Operator) :
    ∀ i es, (∀ y, group y → exprsUseVarSafely .stackSlot y .data es = true) →
      (∀ y, group y → exprsTame keeps y es = true) →
      Keeps group anyFrame (operandsFlow keeps isClass hasInit v form i es) anyFrame
  | _, [], _, _ => Keeps.skip
  | i, e :: rest, hsafe, htame => by
    obtain ⟨hsafe, hsafes⟩ := safe_cons hsafe
    obtain ⟨htame, htames⟩ := tame_cons htame
    have hhead := exprFlow_keeps .data e hsafe htame
    refine (hhead.weaken (fun _ => id) fun _ => Yields.noValue).seq (Keeps.seq (m := noValue) ?_
      ((argumentsFlow_keeps form (i + 1) rest hsafes htames).weaken (fun _ _ => trivial) fun _ => id))
    split
    · exact Keeps.keep
    · exact Keeps.skip
theorem callFlow_keeps {ctx : ExprCtx} :
    ∀ es, (∀ y, group y → exprUsesVarSafely .stackSlot y ctx (.operator .call es) = true) →
      (∀ y, group y → exprsTame keeps y es = true) →
      Keeps group anyFrame (operandsFlow keeps isClass hasInit v .call 0 es) anyFrame
  | [], _, _ => Keeps.skip
  | callee :: arguments, hsafe, htame => by
    obtain ⟨htame, htames⟩ := tame_cons htame
    have hcallee : Keeps group anyFrame (exprFlow keeps isClass hasInit v callee) anyFrame := by
      by_cases hvar : ∃ y, group y ∧ callee = .var y
      · obtain ⟨y, -, rfl⟩ := hvar
        exact (Keeps.load y).forget
      · push Not at hvar
        exact (exprFlow_keeps .data callee (fun y hy => callee_safe (hsafe y hy) (hvar y hy))
          htame).forget
    exact hcallee.seq (Keeps.skip.seq (argumentsFlow_keeps .call 1 arguments
      (fun y hy => (call_safe (hsafe y hy)).2) htames))
theorem ternaryFlow_keeps :
    ∀ es, (∀ y, group y → exprsUseVarSafely .stackSlot y .data es = true) →
      (∀ y, group y → exprsTame keeps y es = true) →
      Keeps group noValue (ternaryFlow keeps isClass hasInit v es) noValue
  | [], _, _ => Keeps.skip
  | e :: rest, hsafe, htame => by
    obtain ⟨hsafe, hsafes⟩ := safe_cons hsafe
    obtain ⟨htame, htames⟩ := tame_cons htame
    have hhead := exprFlow_keeps .data e hsafe htame
    exact (hhead.forget.weaken (fun _ _ => trivial) fun _ => id).seq (Keeps.plain.seq
      (branchesFlow_keeps rest hsafes htames))
theorem branchesFlow_keeps :
    ∀ es, (∀ y, group y → exprsUseVarSafely .stackSlot y .data es = true) →
      (∀ y, group y → exprsTame keeps y es = true) →
      Keeps group noValue (branchesFlow keeps isClass hasInit v es) noValue
  | [], _, _ => Keeps.skip
  | e :: rest, hsafe, htame => by
    obtain ⟨hsafe, hsafes⟩ := safe_cons hsafe
    obtain ⟨htame, htames⟩ := tame_cons htame
    have hhead := exprFlow_keeps .data e hsafe htame
    exact (hhead.weaken (fun _ _ => trivial) fun _ => Yields.noValue).either
      (branchesFlow_keeps rest hsafes htames)
theorem exprOptionFlow_keeps (ctx : ExprCtx) :
    ∀ e, (∀ y, group y → exprOptionUsesVarSafely .stackSlot y ctx true e = true) →
      (∀ y, group y → exprOptionTame keeps y e = true) →
      Keeps group anyFrame (exprOptionFlow keeps isClass hasInit v e)
        fun s => s.value = true → ctx = .base
  | none, _, _ => Keeps.plain.weaken (fun _ => id) fun _ h hv => by simp [h] at hv
  | some e, hsafe, htame =>
    (exprFlow_keeps ctx e hsafe htame).weaken (fun _ => id) fun _ h hv => (h hv).1
end

/-! ### Statements -/

/-- Only a copy of a variable of the group gives an instance. -/
theorem initializer_keeps {initializer : Expr}
    (hsafe : ∀ y, group y →
      copySource initializer = some y ∨ exprUsesVarSafely .stackSlot y .data initializer = true)
    (htame : ∀ y, group y → exprTame keeps y initializer = true) :
    Keeps group anyFrame (exprFlow keeps isClass hasInit v initializer)
      fun s => s.value = true → ∃ z, group z ∧ initializer = .var z := by
  by_cases hcopy : ∃ z, group z ∧ initializer = .var z
  · obtain ⟨z, hz, rfl⟩ := hcopy
    exact (Keeps.load z).weaken (fun _ => id) fun _ _ _ => ⟨z, hz, rfl⟩
  · have hdata : ∀ y, group y → exprUsesVarSafely .stackSlot y .data initializer = true := by
      intro y hy
      refine (hsafe y hy).resolve_left fun hsource => hcopy ⟨y, hy, ?_⟩
      cases initializer <;> simp_all [copySource]
    exact (exprFlow_keeps .data initializer hdata htame).weaken (fun _ => id)
      fun _ h hvalue => absurd (h hvalue).1 (by decide)

theorem Keeps.test {condition : Expr}
    (hsafe : ∀ y, group y → exprUsesVarSafely .stackSlot y .data condition = true)
    (htame : ∀ y, group y → exprTame keeps y condition = true) :
    Keeps group anyFrame (exprFlow keeps isClass hasInit v condition) Escape.noValue :=
  (exprFlow_keeps .data condition hsafe htame).weaken (fun _ => id) fun _ => Yields.noValue

theorem Keeps.testOption {condition : Option Expr}
    (hsafe : ∀ y, group y → exprOptionUsesVarSafely .stackSlot y .data true condition = true)
    (htame : ∀ y, group y → exprOptionTame keeps y condition = true) :
    Keeps group anyFrame (exprOptionFlow keeps isClass hasInit v condition) Escape.noValue :=
  (exprOptionFlow_keeps .data condition hsafe htame).weaken (fun _ => id)
    fun s h => by
      cases hvalue : s.value with
      | false => exact hvalue
      | true => exact absurd (h hvalue) (by decide)

/-- A part that binds a variable to something from the heap. -/
theorem Keeps.binding {x : Name} {p : Behaviour Frame} (hp : Keeps group anyFrame p anyFrame) :
    Keeps group anyFrame (Escape.inScope (Escape.reread.seq ((Escape.declare x).seq p)))
      anyFrame :=
  (reread.seq ((declare_plain x).forget.seq hp)).inScope

theorem varFlow_keeps (hv : group v) {x : Name} {initializer : Expr} {isStatic : Bool}
    (hsafe : ∀ y, group y →
      copySource initializer = some y ∨ exprUsesVarSafely .stackSlot y .data initializer = true)
    (htame : ∀ y, group y → exprTame keeps y initializer = true ∧
      (isStatic = true → x ≠ y ∧ copySource initializer ≠ some y))
    (hcopy : ∀ z, initializer = .var z → group z → group x) :
    Keeps group anyFrame ((exprFlow keeps isClass hasInit v initializer).seq
      ((if constructs isClass hasInit initializer ∧ x = v then fresh else done .normal).seq
        (if isStatic then keep else declare x))) anyFrame := by
  have hvalue : Keeps group (fun s => s.value = true → ∃ z, group z ∧ initializer = .var z)
      (if constructs isClass hasInit initializer ∧ x = v then fresh else done .normal)
      fun s => s.value = true → group x ∧ isStatic = false := by
    split
    case isTrue hnew =>
      refine Keeps.weaken Keeps.fresh (fun _ _ => trivial) fun _ _ _ => ?_
      obtain ⟨-, rfl⟩ := hnew
      refine ⟨hv, ?_⟩
      by_contra hstatic
      exact ((htame x hv).2 (by simpa using hstatic)).1 rfl
    case isFalse =>
      refine Keeps.skip.weaken (fun _ => id) fun s h hheld => ?_
      obtain ⟨z, hz, hinit⟩ := h hheld
      refine ⟨hcopy z hinit hz, ?_⟩
      by_contra hstatic
      exact ((htame z hz).2 (by simpa using hstatic)).2 (by simp [hinit, copySource])
  refine (initializer_keeps hsafe fun y hy => (htame y hy).1).seq (hvalue.seq ?_)
  split
  case isTrue hstatic =>
    refine (Keeps.keep.weaken (fun s h => ?_) fun _ => id).forget
    by_contra hheld
    simp [(h (by simpa using hheld)).2] at hstatic
  case isFalse => exact Keeps.declare fun s h hheld => (h hheld).1

mutual
theorem stmtFlow_keeps (hv : group v) :
    ∀ s, (∀ y, group y → stmtUsesVarSafely .stackSlot y s = true) →
      (∀ y, group y → stmtTame keeps y s = true) →
      (∀ edge ∈ copyEdges s, group edge.1 → group edge.2) →
      Keeps group anyFrame (stmtFlow keeps isClass hasInit v s) anyFrame
  | .expression e, hsafe, htame, _ => (Keeps.test hsafe htame).forget
  | .say e, hsafe, htame, _ => ((Keeps.test hsafe htame).seq Keeps.mayThrow).forget
  | .var x _ none isStatic _ _, _, _, _ => by
    refine Keeps.plain.seq ?_
    split
    · exact Keeps.keep.forget
    · exact (Keeps.declare_plain x).forget
  | .var x ann (some initializer) isStatic isConst view, hsafe, htame, hedges => by
    refine varFlow_keeps hv (fun y hy => ?_) (fun y hy => ?_) fun z hinit hz => ?_
    · have hinit : (copySource initializer = some y || exprUsesVarSafely .stackSlot y .data initializer) = true :=
        hsafe y hy
      simpa using hinit
    · have hstatic := (parts₂ htame).2 y hy
      refine ⟨(parts₂ htame).1 y hy, fun h => ?_⟩
      simpa [h] using hstatic
    · subst hinit
      exact hedges (z, x) (List.mem_singleton_self _) hz
  | .block statements, hsafe, htame, hedges =>
    (stmtsFlow_keeps hv statements hsafe htame hedges).inScope
  | .ifThen condition thenBranch elifs elseBranch, hsafe, htame, hedges => by
    replace hsafe := parts₄ hsafe
    replace htame := parts₄ htame
    replace hedges := edges₃ hedges
    refine (Keeps.test hsafe.1.1.1 htame.1.1.1).forget.seq
      ((stmtFlow_keeps hv thenBranch hsafe.1.1.2 htame.1.1.2 hedges.1.1).either ?_)
    exact elifsFlow_keeps hv (stmtOptionFlow_keeps hv elseBranch hsafe.2 htame.2 hedges.2) elifs
      hsafe.1.2 htame.1.2 hedges.1.2
  | .while condition body, hsafe, htame, hedges => by
    replace hsafe := parts₂ hsafe
    replace htame := parts₂ htame
    have hbody := stmtFlow_keeps hv body hsafe.2 htame.2 hedges
    exact Keeps.loop ((Keeps.test hsafe.1 htame.1).forget.seq ((Keeps.jump (by decide)).either hbody.rename))
  | .doWhile body condition, hsafe, htame, hedges => by
    replace hsafe := parts₂ hsafe
    replace htame := parts₂ htame
    have hbody := stmtFlow_keeps hv body hsafe.1 htame.1 hedges
    exact Keeps.loop (hbody.rename.seq ((Keeps.test hsafe.2 htame.2).forget.seq
      ((Keeps.jump (by decide)).either Keeps.skip)))
  | .for init condition update body, hsafe, htame, hedges => by
    replace hsafe := parts₄ hsafe
    replace htame := parts₄ htame
    replace hedges := edges₂ hedges
    have hinit := stmtOptionFlow_keeps hv init hsafe.1.1.1 htame.1.1.1 hedges.1
    have hbody := stmtFlow_keeps hv body hsafe.2 htame.2 hedges.2
    have hcondition :
        Keeps group anyFrame (exprOptionFlow keeps isClass hasInit v condition) anyFrame :=
      (Keeps.testOption hsafe.1.1.2 htame.1.1.2).forget
    have hupdate : Keeps group anyFrame (exprOptionFlow keeps isClass hasInit v update) anyFrame :=
      (Keeps.testOption hsafe.1.2 htame.1.2).forget
    exact (hinit.seq (Keeps.loop (hcondition.seq ((Keeps.jump (by decide)).either
      (hbody.rename.seq hupdate))))).inScope
  | .each form x source site body, hsafe, htame, hedges => by
    cases form with
    | chanRecvFor => exact absurd (hsafe v hv) Bool.false_ne_true
    | forIn | forAwait =>
      replace hsafe := parts₂ hsafe
      replace htame := parts₂ htame
      have hbody := stmtFlow_keeps hv body hsafe.2 htame.2 hedges
      exact (Keeps.test hsafe.1 htame.1).forget.seq
        (Keeps.loop ((Keeps.jump (by decide)).either hbody.binding.rename))
  | .go call block site, hsafe, _, _ => absurd (hsafe v hv) Bool.false_ne_true
  | .ret value, hsafe, htame, _ =>
    (Keeps.testOption hsafe htame).seq (Keeps.keep.seq (Keeps.jump (by decide)))
  | .throw value, hsafe, htame, _ =>
    (Keeps.test hsafe htame).seq (Keeps.keep.seq (Keeps.jump (by decide)))
  | .break, _, _, _ => Keeps.jump (by decide)
  | .continue, _, _, _ => Keeps.jump (by decide)
  | .match scrutinee cases defaultCase, hsafe, htame, hedges => by
    replace hsafe := parts₃ hsafe
    replace htame := parts₃ htame
    replace hedges := edges₂ hedges
    have hdefault := stmtOptionFlow_keeps hv defaultCase hsafe.2 htame.2 hedges.2
    exact (Keeps.test hsafe.1.1 htame.1.1).forget.seq
      (casesFlow_keeps hv hdefault cases hsafe.1.2 htame.1.2 hedges.1)
  | .tryCatch body none none, hsafe, htame, hedges => by
    replace hsafe := parts₂ hsafe
    replace htame := parts₂ htame
    replace hedges := edges₂ hedges
    exact stmtFlow_keeps hv body hsafe.1 htame.1 hedges.1
  | .tryCatch body none (some last), hsafe, htame, hedges => by
    replace hsafe := parts₂ hsafe
    replace htame := parts₂ htame
    replace hedges := edges₂ hedges
    exact (stmtFlow_keeps hv body hsafe.1 htame.1 hedges.1).withFinally
      (stmtFlow_keeps hv last hsafe.2 htame.2 hedges.2)
  | .tryCatch body (some (.mk x handler)) last, hsafe, htame, hedges => by
    replace hsafe := parts₃ hsafe
    replace htame := parts₃ htame
    replace hedges := edges₃ hedges
    have hbody := stmtFlow_keeps hv body hsafe.1.1 htame.1.1 hedges.1.1
    have hhandler := stmtFlow_keeps hv handler hsafe.1.2 htame.1.2 hedges.1.2
    exact (hbody.handle hhandler.binding).withFinally
      (stmtOptionFlow_keeps hv last hsafe.2 htame.2 hedges.2)
  | .retry count body none, hsafe, htame, hedges => by
    replace hsafe := parts₂ hsafe
    replace htame := parts₂ htame
    exact (Keeps.test hsafe.1 htame.1).forget.seq (stmtFlow_keeps hv body hsafe.2 htame.2
        hedges).retrying
  | .retry count body (some (.mk x handler)), hsafe, htame, hedges => by
    replace hsafe := parts₃ hsafe
    replace htame := parts₃ htame
    replace hedges := edges₂ hedges
    have hbody := stmtFlow_keeps hv body hsafe.1.2 htame.1.2 hedges.1
    have hhandler := stmtFlow_keeps hv handler hsafe.2 htame.2 hedges.2
    exact (Keeps.test hsafe.1.1 htame.1.1).forget.seq
      (hbody.retrying.handle hhandler.binding)
  | .within form body, hsafe, htame, hedges => stmtFlow_keeps hv body hsafe htame hedges
  | .destructure names keys initializer, hsafe, htame, _ =>
    (Keeps.test hsafe htame).forget.seq (Keeps.reread.seq (Keeps.declareAll names).forget)
  | .function _ _ _ _ _ _, _, _, _ => Keeps.skip
  | .classDecl _ _ _ _, _, _, _ => Keeps.skip
  | .use _ _ _ _, _, _, _ => Keeps.skip
  | .enumDecl _ _ _, _, _, _ => Keeps.skip
  | .typeAlias _ _ _, _, _, _ => Keeps.skip
  | .traitDecl _ _ _ _, _, _, _ => Keeps.skip
  | .implDecl _ _ _, _, _, _ => Keeps.skip
  | .test _ _, _, _, _ => Keeps.skip
theorem stmtsFlow_keeps (hv : group v) :
    ∀ ss, (∀ y, group y → stmtsUseVarSafely .stackSlot y ss = true) →
      (∀ y, group y → stmtsTame keeps y ss = true) →
      (∀ edge ∈ copyEdgesAll ss, group edge.1 → group edge.2) →
      Keeps group anyFrame (stmtsFlow keeps isClass hasInit v ss) anyFrame
  | [], _, _, _ => Keeps.skip
  | s :: rest, hsafe, htame, hedges => by
    replace hsafe := parts₂ hsafe
    replace htame := parts₂ htame
    replace hedges := edges₂ hedges
    exact (stmtFlow_keeps hv s hsafe.1 htame.1 hedges.1).seq
      (stmtsFlow_keeps hv rest hsafe.2 htame.2 hedges.2)
theorem stmtOptionFlow_keeps (hv : group v) :
    ∀ s, (∀ y, group y → stmtOptionUsesVarSafely .stackSlot y s = true) →
      (∀ y, group y → stmtOptionTame keeps y s = true) →
      (∀ edge ∈ copyEdgesOption s, group edge.1 → group edge.2) →
      Keeps group anyFrame (stmtOptionFlow keeps isClass hasInit v s) anyFrame
  | none, _, _, _ => Keeps.skip
  | some s, hsafe, htame, hedges => stmtFlow_keeps hv s hsafe htame hedges
theorem elifsFlow_keeps (hv : group v) {last : Behaviour Frame}
    (hlast : Keeps group anyFrame last anyFrame) :
    ∀ bs, (∀ y, group y → elifsUseVarSafely .stackSlot y bs = true) →
      (∀ y, group y → elifsTame keeps y bs = true) →
      (∀ edge ∈ copyEdgesElifs bs, group edge.1 → group edge.2) →
      Keeps group anyFrame (elifsFlow keeps isClass hasInit v last bs) anyFrame
  | [], _, _, _ => hlast
  | .mk condition body :: rest, hsafe, htame, hedges => by
    replace hsafe := parts₃ hsafe
    replace htame := parts₃ htame
    replace hedges := edges₂ hedges
    have hbody := stmtFlow_keeps hv body hsafe.1.2 htame.1.2 hedges.1
    have hrest := elifsFlow_keeps hv hlast rest hsafe.2 htame.2 hedges.2
    exact (Keeps.test hsafe.1.1 htame.1.1).forget.seq
      (hbody.either hrest)
theorem casesFlow_keeps (hv : group v) {last : Behaviour Frame}
    (hlast : Keeps group anyFrame last anyFrame) :
    ∀ cs, (∀ y, group y → casesUseVarSafely .stackSlot y cs = true) →
      (∀ y, group y → casesTame keeps y cs = true) →
      (∀ edge ∈ copyEdgesCases cs, group edge.1 → group edge.2) →
      Keeps group anyFrame (casesFlow keeps isClass hasInit v last cs) anyFrame
  | [], _, _, _ => hlast
  | .mk value variant binding guard body :: rest, hsafe, htame, hedges => by
    replace hsafe := parts₄ hsafe
    replace htame := parts₄ htame
    replace hedges := edges₂ hedges
    have hguard : Keeps group anyFrame (exprOptionFlow keeps isClass hasInit v guard) anyFrame :=
      (Keeps.testOption hsafe.1.1.2 htame.1.1.2).forget
    have hbody := stmtFlow_keeps hv body hsafe.1.2 htame.1.2 hedges.1
    have hrest := casesFlow_keeps hv hlast rest hsafe.2 htame.2 hedges.2
    cases variant with
    | none =>
      have hvalue : Keeps group anyFrame (exprFlow keeps isClass hasInit v value) anyFrame :=
        (Keeps.test hsafe.1.1.1 htame.1.1.1).forget
      exact hvalue.seq ((hguard.seq (hbody.either hrest)).either hrest)
    | some variant =>
      have hbind : Keeps group noValue (declareAll binding.toList) anyFrame :=
        (Keeps.declareAll binding.toList).forget
      exact (Keeps.reread.seq (hbind.seq (hguard.seq hbody))).inScope.either
        (((Keeps.reread.seq (hbind.seq hguard)).inScope.either Keeps.skip).seq hrest)
end

end

/-- In no execution, from a frame in which no variable holds an instance of `v` yet, does such an
instance leave the frame. -/
def Confined (keeps isClass hasInit : Name → Bool) (body : List Stmt) (v : Name) : Prop :=
  ∀ start o s, start.escaped = false → (∀ b ∈ start.env, b.2 = false) →
    stmtsFlow keeps isClass hasInit v body start o s → s.escaped = false

theorem confined_of_tame (keeps isClass hasInit : Name → Bool) (body : List Stmt) (v : Name)
    (hv : v ∈ analyzeStackAllocatable isClass hasInit body) (htame : Tame keeps body v) :
    Confined keeps isClass hasInit body v := by
  intro start o s hstart hempty hrun
  have hkeeps : Keeps (CopyGroup body v) anyFrame (stmtsFlow keeps isClass hasInit v body)
      anyFrame :=
    stmtsFlow_keeps .refl body (fun y hy => htame.safe hv hy) htame.tame
      fun edge hedge hz => hz.tail hedge
  have hquiet : Quiet (CopyGroup body v) start :=
    ⟨hstart, fun b hb hheld => absurd hheld (by simp [hempty b hb])⟩
  exact (hkeeps ⟨hquiet, trivial⟩ hrun).1.inside

/-! ### A confined instance, and one that is not -/

section
variable {keeps isClass hasInit : Name → Bool} {v : Name}

theorem seq_run {p q : Behaviour Frame} {s s' : Frame} {o : Outcome} (t : Frame)
    (hp : p s .normal t) (hq : q t o s') : p.seq q s o s' := .inl ⟨t, hp, hq⟩

theorem finish_run {form : Operator} (hform : forwards form = false) (s : Frame) :
    finish form s .normal { s with value := false } := by
  refine .inl (seq_run _ ?_ (.inl ⟨rfl, rfl⟩))
  rw [hform]
  exact ⟨rfl, false, by simp, rfl⟩

theorem literal_run (t : Name) (s : Frame) :
    exprFlow keeps isClass hasInit v (.operator (.literal t) []) s .normal
      { s with value := false } := by
  exact seq_run _ ⟨rfl, rfl⟩ (seq_run _ ⟨rfl, rfl⟩ (finish_run rfl _))

/-- `var p = Point()`. -/
def newPoint : Stmt := .var "p" none (some (.operator .call [.var "Point"])) false false none

theorem newPoint_run :
    stmtFlow keeps (· = "Point") (fun _ => false) "p" newPoint ⟨[], false, false⟩ .normal
      ⟨[("p", true)], true, false⟩ := by
  change Behaviour.seq _ _ _ _ _
  rw [exprFlow_operator _ (by simp) (by simp) (by simp)]
  refine seq_run ⟨[], false, false⟩ (seq_run _ ⟨rfl, rfl⟩ (seq_run ⟨[], false, false⟩ ?_
    (finish_run rfl _))) (seq_run _ ⟨rfl, rfl⟩ ⟨rfl, rfl⟩)
  exact seq_run _ ⟨rfl, rfl⟩ (seq_run _ ⟨rfl, rfl⟩ ⟨rfl, rfl⟩)

end

/-- `var p = Point(); var q = p; q.x = 3`. -/
def copiedPoint : List Stmt :=
  [newPoint,
    .var "q" none (some (.var "p")) false false none,
    .expression (.operator (.memberSet "x") [.var "q", .operator (.literal "3") []])]

theorem accepted_copiedPoint :
    "p" ∈ analyzeStackAllocatable (· = "Point") (fun _ => false) copiedPoint := by decide

theorem tame_copiedPoint : Tame (fun _ => false) copiedPoint "p" := by
  have hedge : ∀ z y, (z, y) ∈ copyEdgesAll copiedPoint ↔
      ∃ isConst, Stmt.var y none (some (.var z)) false isConst none ∈ copiedPoint := by
    intro z y
    have hedges : copyEdgesAll copiedPoint = [("p", "q")] := rfl
    rw [hedges]
    simp [copiedPoint, newPoint, and_comm]
  refine ⟨fun y hy => .inl ?_, fun y _ => ?_⟩
  · exact Relation.ReflTransGen.mono (fun z y h => (hedge z y).mp h) _ _ hy
  · rfl

theorem copiedPoint_run :
    stmtsFlow (fun _ => false) (· = "Point") (fun _ => false) "p" copiedPoint ⟨[], false, false⟩
      .normal ⟨[("q", true), ("p", true)], false, false⟩ := by
  refine seq_run _ newPoint_run (seq_run ⟨[("q", true), ("p", true)], true, false⟩ ?_
    (seq_run _ ?_ ⟨rfl, rfl⟩))
  · exact seq_run _ ⟨rfl, rfl⟩ (seq_run _ ⟨rfl, rfl⟩ ⟨rfl, rfl⟩)
  · change exprFlow _ _ _ _ _ _ _ _
    rw [exprFlow_operator _ (by simp) (by simp) (by simp)]
    refine seq_run _ ⟨rfl, rfl⟩ (seq_run ⟨[("q", true), ("p", true)], false, false⟩ ?_
      (finish_run rfl _))
    exact seq_run _ ⟨rfl, rfl⟩ (seq_run _ ⟨rfl, rfl⟩
      (seq_run _ (literal_run "3" _) (seq_run _ ⟨rfl, rfl⟩ ⟨rfl, rfl⟩)))

theorem confined_copiedPoint :
    Confined (fun _ => false) (· = "Point") (fun _ => false) copiedPoint "p" ∧
      ∃ s, stmtsFlow (fun _ => false) (· = "Point") (fun _ => false) "p" copiedPoint
        ⟨[], false, false⟩ .normal s ∧ s.holds "q" = true ∧ s.escaped = false :=
  ⟨confined_of_tame (fun _ => false) (· = "Point") (fun _ => false) copiedPoint "p"
    accepted_copiedPoint tame_copiedPoint, _, copiedPoint_run, rfl, rfl⟩

/-- `var p = Point(); return (p, 1)`. -/
def returnedTuple : List Stmt :=
  [newPoint, .ret (some (.operator .tupleLiteral [.var "p", .operator (.literal "1") []]))]

/-- The literal `1` makes the tuple a safe use of `p`. -/
theorem not_confined_returnedTuple :
    "p" ∈ analyzeStackAllocatable (· = "Point") (fun _ => false) returnedTuple ∧
      ¬ Confined (fun _ => false) (· = "Point") (fun _ => false) returnedTuple "p" := by
  refine ⟨by decide, fun hconfined => ?_⟩
  have hrun : stmtsFlow (fun _ => false) (· = "Point") (fun _ => false) "p" returnedTuple
      ⟨[], false, false⟩ .returned ⟨[("p", true)], false, true⟩ := by
    refine seq_run _ newPoint_run (.inr ⟨by decide, ?_⟩)
    change Behaviour.seq (exprFlow _ _ _ _ _) _ _ _ _
    rw [exprFlow_operator _ (by simp) (by simp) (by simp)]
    refine seq_run ⟨[("p", true)], false, true⟩ (seq_run _ ⟨rfl, rfl⟩
      (seq_run ⟨[("p", true)], false, true⟩ ?_ (finish_run rfl _))) (seq_run _ ⟨rfl, rfl⟩ ⟨rfl, rfl⟩)
    exact seq_run _ ⟨rfl, rfl⟩ (seq_run _ ⟨rfl, rfl⟩
      (seq_run _ (literal_run "1" _) (seq_run _ ⟨rfl, rfl⟩ ⟨rfl, rfl⟩)))
  exact absurd (hconfined _ _ _ rfl (by simp) hrun) (by decide)

end Neutron.Escape
