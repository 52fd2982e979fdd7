import Neutron.GenericsEnvironment

/-!
# Types of the arguments of generic calls

The environment of the pass is one map by names for a whole body. It is read at the calls of generic functions
and grows with every parameter and declaration, but nothing is taken out where a scope ends, and the variables
of loops, patterns, handlers and destructurings are not put in.
-/

namespace Neutron.Generics
open Syntax TypeNames Fuelled

/-! ### Maps -/

section
variable {α β : Type} [BEq α] [LawfulBEq α] [DecidableEq α]

theorem lookup_put (key : α) (value : β) (map : Map α β) :
    (put key value map).lookup key = some value := by
  simp [put]

theorem lookup_put_of_ne {key other : α} (hne : other ≠ key) (value : β) (map : Map α β) :
    (put key value map).lookup other = map.lookup other := by
  have hfilter : (map.filter (·.1 ≠ key)).lookup other = map.lookup other := by
    induction map with
    | nil => rfl
    | cons entry rest ih =>
      obtain ⟨k, v⟩ := entry
      by_cases hk : k = key
      · have hother : (other == k) = false := by simpa [hk] using hne
        rw [List.filter_cons_of_neg (by simpa using hk), ih, List.lookup_cons, hother]
      · rw [List.filter_cons_of_pos (by simpa using hk), List.lookup_cons, List.lookup_cons, ih]
  have hkey : (other == key) = false := by simpa using hne
  rw [put, List.lookup_cons, hkey, hfilter]

end

section
variable (equal : TypeAnnotation → TypeAnnotation → Bool) (d : Decls)

/-! ### The events of the pass -/

/-- What happens to the variables in scope: a scope begins or ends, or a variable is bound, with the type the
pass records for it if it records one. -/
inductive Mark where
  | enter
  | leave
  | bind (x : Name) (ty : Option TypeAnnotation)

/-- The steps of the pass through a body that read or change the environment, with the fuel they run on. -/
inductive Event where
  | enter
  | leave
  | shadow (x : Name)
  | call (n : ℕ) (arguments : List Expr) (name : Name)
  | param (n : ℕ) (param : FunctionParam)
  | declare (n : ℕ) (name : Name) (ann : Option TypeAnnotation) (initializer : Option Expr)
  | returnType (n : ℕ) (function : Name) (body : List Stmt) (ty : TypeAnnotation)

/-- A declaration gives its type as it is written in the output and the type recorded for its variable. -/
abbrev Event.Outcome : Event → Type
  | .enter => Unit
  | .leave => Unit
  | .shadow _ => Unit
  | .call _ _ _ => Expr
  | .param _ _ => FunctionParam
  | .declare _ _ _ _ => Option TypeAnnotation × Option TypeAnnotation
  | .returnType _ _ _ _ => TypeAnnotation

def recordInitializer (name : Name) : Option Expr → Gen (Option TypeAnnotation)
  | none => pure none
  | some e => do
    match ← infer d e with
    | some ty => do
      bindEnv name ty
      pure (some ty)
    | none => pure none

def recordDeclaration (calls : Calls) (name : Name) (ann : Option TypeAnnotation) (initializer : Option Expr) :
    Gen (Option TypeAnnotation × Option TypeAnnotation) := do
  let ann ← eachOption (fun ty => calls.normalizeType (substituteType [] ty)) ann
  match ann with
  | some ty => do
    bindEnv name ty
    pure (some ty, some ty)
  | none => do
    let recorded ← recordInitializer d name initializer
    pure (none, recorded)

def perform : (e : Event) → Gen e.Outcome
  | .enter => pure ()
  | .leave => pure ()
  | .shadow _ => pure ()
  | .call n arguments name => transformCallee equal d (lower equal d n) arguments (.var name)
  | .param n param => transformParam (lower equal d n) param
  | .declare n name ann initializer => recordDeclaration d (lower equal d n) name ann initializer
  | .returnType n function body ty => transformReturnType d (lower equal d n) function body ty

def marks : (e : Event) → e.Outcome → List Mark
  | .enter, _ => [.enter]
  | .leave, _ => [.leave]
  | .shadow x, _ => [.bind x none]
  | .param _ _, param => [.bind param.name param.ann]
  | .declare _ name _ _, r => [.bind name r.2]
  | .call _ _ _, _ => []
  | .returnType _ _ _ _, _ => []

abbrev Walk := EventTree Event Event.Outcome

structure Walks where
  stmt : Stmt → Walk Stmt
  expr : Expr → Walk Expr

def occur (e : Event) : Walk e.Outcome := .ask e .done

def enter : Walk Unit := occur .enter

def leave : Walk Unit := occur .leave

def shadow (x : Name) : Walk Unit := occur (.shadow x)

def walkParam (n : ℕ) (param : FunctionParam) : Walk FunctionParam := occur (.param n param)

def walkDeclaration (n : ℕ) (name : Name) (ann : Option TypeAnnotation) (initializer : Option Expr) :
    Walk (Option TypeAnnotation × Option TypeAnnotation) := occur (.declare n name ann initializer)

def walkReturnType (n : ℕ) (function : Name) (body : List Stmt) (ty : TypeAnnotation) : Walk TypeAnnotation :=
  occur (.returnType n function body ty)

/-- A part of the tree with a scope of its own. -/
def inScope {α : Type} (t : Walk α) : Walk α := do
  enter
  let a ← t
  leave
  pure a

/-- A part of the tree in which a variable is bound whose type the pass does not record. -/
def binding {α : Type} (x : Option Name) (t : Walk α) : Walk α :=
  match x with
  | none => t
  | some x => inScope do
    shadow x
    t

section
variable (n : ℕ) (walks : Walks)

def walkCallee (arguments : List Expr) : Expr → Walk Expr
  | .var name => occur (.call n arguments name)
  | other => walks.expr other

def walkExpr : Expr → Walk Expr
  | .operator .call (callee :: arguments) => do
    let arguments ← EventTree.each walks.expr arguments
    let callee ← walkCallee n walks arguments callee
    pure (.operator .call (callee :: arguments))
  | .operator form operands =>
    if leavesOperands form then pure (.operator form operands)
    else do
      let operands ← EventTree.each walks.expr operands
      pure (.operator form operands)
  | .assign name value => do
    let value ← walks.expr value
    pure (.assign name value)
  | .structLiteral className keys fields update => do
    let fields ← EventTree.each walks.expr fields
    let update ← EventTree.eachOption walks.expr update
    pure (.structLiteral className keys fields update)
  | other => pure other

def walkElif : ElifBranch → Walk ElifBranch
  | .mk condition body => do
    let condition ← walks.expr condition
    let body ← walks.stmt body
    pure (.mk condition body)

def walkCase : MatchCase → Walk MatchCase
  | .mk value variant x guard body => binding x do
    let value ← walks.expr value
    let guard ← EventTree.eachOption walks.expr guard
    let body ← walks.stmt body
    pure (.mk value variant x guard body)

def walkCatch : CatchClause → Walk CatchClause
  | .mk x body => binding (some x) do
    let body ← walks.stmt body
    pure (.mk x body)

/-- `transform_stmt` as a tree, with the scopes of the type checker. -/
def walkStmt : Stmt → Walk Stmt
  | .function false name generics params returnType body => inScope do
    let params ← EventTree.each (walkParam n) params
    let body ← EventTree.each walks.stmt body
    let returnType ← EventTree.eachOption (walkReturnType n name body) returnType
    pure (.function false name generics params returnType body)
  | .var name ann initializer isStatic isConst view => do
    let initializer ← EventTree.eachOption walks.expr initializer
    let declared ← walkDeclaration n name ann initializer
    pure (.var name declared.1 initializer isStatic isConst view)
  | .expression e => do
    let e ← walks.expr e
    pure (.expression e)
  | .say e => do
    let e ← walks.expr e
    pure (.say e)
  | .ret value => do
    let value ← EventTree.eachOption walks.expr value
    pure (.ret value)
  | .block statements => inScope do
    let statements ← EventTree.each walks.stmt statements
    pure (.block statements)
  | .ifThen condition thenBranch elifs elseBranch => do
    let condition ← walks.expr condition
    let thenBranch ← walks.stmt thenBranch
    let elifs ← EventTree.each (walkElif walks) elifs
    let elseBranch ← EventTree.eachOption walks.stmt elseBranch
    pure (.ifThen condition thenBranch elifs elseBranch)
  | .while condition body => do
    let condition ← walks.expr condition
    let body ← walks.stmt body
    pure (.while condition body)
  | .doWhile body condition => do
    let body ← walks.stmt body
    let condition ← walks.expr condition
    pure (.doWhile body condition)
  | .for init condition update body => inScope do
    let init ← EventTree.eachOption walks.stmt init
    let condition ← EventTree.eachOption walks.expr condition
    let update ← EventTree.eachOption walks.expr update
    let body ← walks.stmt body
    pure (.for init condition update body)
  | .each form x source site body =>
    if form = .chanRecvFor then pure (.each form x source site body)
    else do
      let source ← walks.expr source
      let body ← binding (some x) (walks.stmt body)
      pure (.each form x source site body)
  | .classDecl name generics parent body => inScope do
    let body ← EventTree.each walks.stmt body
    pure (.classDecl name generics parent body)
  | .match scrutinee cases defaultCase => do
    let scrutinee ← walks.expr scrutinee
    let cases ← EventTree.each (walkCase walks) cases
    let defaultCase ← EventTree.eachOption walks.stmt defaultCase
    pure (.match scrutinee cases defaultCase)
  | .tryCatch body handler last => do
    let body ← walks.stmt body
    let handler ← EventTree.eachOption (walkCatch walks) handler
    let last ← EventTree.eachOption walks.stmt last
    pure (.tryCatch body handler last)
  | .throw value => do
    let value ← walks.expr value
    pure (.throw value)
  | .retry count body handler => do
    let count ← walks.expr count
    let body ← walks.stmt body
    let handler ← EventTree.eachOption (walkCatch walks) handler
    pure (.retry count body handler)
  | .within form body => do
    let body ← walks.stmt body
    pure (.within form body)
  | .destructure names keys initializer => do
    let initializer ← walks.expr initializer
    let _ ← EventTree.each shadow names
    pure (.destructure names keys initializer)
  | other => pure other

end

def walk : ℕ → Walks
  | 0 => ⟨fun _ => .stuck, fun _ => .stuck⟩
  | n + 1 => ⟨walkStmt n (walk n), walkExpr n (walk n)⟩

/-! ### The tree is the pass -/

@[simp] theorem interp_occur (e : Event) : (occur e).interp (perform equal d) = perform equal d e :=
  EventTree.interp_event (perform equal d) e

@[simp] theorem interp_enter : enter.interp (perform equal d) = pure () := interp_occur equal d .enter

@[simp] theorem interp_leave : leave.interp (perform equal d) = pure () := interp_occur equal d .leave

@[simp] theorem interp_shadow (x : Name) : (shadow x).interp (perform equal d) = pure () :=
  interp_occur equal d (.shadow x)

@[simp] theorem interp_walkParam (n : ℕ) (param : FunctionParam) :
    (walkParam n param).interp (perform equal d) = transformParam (lower equal d n) param :=
  interp_occur equal d (.param n param)

@[simp] theorem interp_walkDeclaration (n : ℕ) (name : Name) (ann : Option TypeAnnotation)
    (initializer : Option Expr) : (walkDeclaration n name ann initializer).interp (perform equal d) =
      recordDeclaration d (lower equal d n) name ann initializer :=
  interp_occur equal d (.declare n name ann initializer)

@[simp] theorem interp_walkReturnType (n : ℕ) (function : Name) (body : List Stmt) (ty : TypeAnnotation) :
    (walkReturnType n function body ty).interp (perform equal d) =
      transformReturnType d (lower equal d n) function body ty :=
  interp_occur equal d (.returnType n function body ty)

variable {α : Type}

@[simp] theorem interp_inScope (t : Walk α) :
    (inScope t).interp (perform equal d) = t.interp (perform equal d) := by
  simp only [inScope, EventTree.interp_bind, interp_enter, interp_leave, EventTree.interp_pure,
    Fuelled.pure_bind, Fuelled.bind_pure]

@[simp] theorem interp_binding (x : Option Name) (t : Walk α) :
    (binding x t).interp (perform equal d) = t.interp (perform equal d) := by
  cases x with
  | none => rfl
  | some x =>
    simp only [binding, interp_inScope, EventTree.interp_bind, interp_shadow, Fuelled.pure_bind]

theorem recordInitializer_bind (name : Name) (initializer : Option Expr) (p : Gen α) :
    (recordInitializer d name initializer >>= fun _ => p) = bindInitializer d name initializer >>= fun _ => p := by
  cases initializer with
  | none => rfl
  | some e =>
    simp only [recordInitializer, bindInitializer, Fuelled.bind_assoc]
    congr 1
    funext ty
    cases ty with
    | none => rfl
    | some ty => rfl

/-- The statement a declaration becomes does not tell how its type was found. -/
theorem recordDeclaration_bind (calls : Calls) (name : Name) (ann : Option TypeAnnotation)
    (initializer : Option Expr) (f : Option TypeAnnotation → Gen α) :
    (recordDeclaration d calls name ann initializer >>= fun r => f r.1) =
      (eachOption (fun ty => calls.normalizeType (substituteType [] ty)) ann >>= fun ann =>
        match ann with
        | some ty => bindEnv name ty >>= fun _ => f ann
        | none => bindInitializer d name initializer >>= fun _ => f ann) := by
  rw [recordDeclaration, Fuelled.bind_assoc]
  congr 1
  funext ty
  cases ty with
  | none => rw [← recordInitializer_bind]; simp only [Fuelled.bind_assoc]; rfl
  | some ty => simp only [Fuelled.bind_assoc]; rfl

theorem each_pure (l : List α) : Fuelled.each (fun _ => (pure () : Gen Unit)) l = pure (l.map fun _ => ()) := by
  induction l with
  | nil => rfl
  | cons a rest ih =>
    rw [Fuelled.each, ih]
    rfl

section
variable {n : ℕ} {walks : Walks}
  (hstmt : ∀ s, (walks.stmt s).interp (perform equal d) = (lower equal d n).transformStmt s)
  (hexpr : ∀ e, (walks.expr e).interp (perform equal d) = (lower equal d n).transformExpr e)
include hexpr

theorem interp_walkCallee (arguments : List Expr) (callee : Expr) :
    (walkCallee n walks arguments callee).interp (perform equal d) =
      transformCallee equal d (lower equal d n) arguments callee := by
  cases callee with
  | var name => exact interp_occur equal d (.call n arguments name)
  | _ => exact hexpr _

theorem interp_walkOperands (form : Operator) (operands : List Expr) :
    EventTree.interp (perform equal d)
        (if leavesOperands form then pure (.operator form operands)
          else do
            let operands ← EventTree.each walks.expr operands
            pure (.operator form operands) : Walk Expr) =
      (if leavesOperands form then pure (.operator form operands)
        else do pure (.operator form (← each (lower equal d n).transformExpr operands)) : Gen Expr) := by
  split
  · rfl
  · simp only [EventTree.interp_bind, EventTree.interp_each, EventTree.interp_pure, hexpr]

theorem interp_walkExpr (e : Expr) :
    (walkExpr n walks e).interp (perform equal d) = transformExpr equal d (lower equal d n) e := by
  cases e with
  | operator form operands =>
    by_cases hcall : form = .call ∧ operands ≠ []
    · obtain ⟨rfl, hne⟩ := hcall
      cases operands with
      | nil => exact (hne rfl).elim
      | cons callee arguments =>
        simp only [walkExpr, transformExpr, EventTree.interp_bind, EventTree.interp_each, EventTree.interp_pure,
          hexpr, interp_walkCallee equal d hexpr]
    · rw [walkExpr, transformExpr]
      · exact interp_walkOperands equal d hexpr form operands
      · rintro callee arguments rfl rfl
        exact hcall ⟨rfl, List.cons_ne_nil _ _⟩
      · rintro callee arguments rfl rfl
        exact hcall ⟨rfl, List.cons_ne_nil _ _⟩
  | assign => simp only [walkExpr, transformExpr, EventTree.interp_bind, EventTree.interp_pure, hexpr]
  | structLiteral =>
    simp only [walkExpr, transformExpr, EventTree.interp_bind, EventTree.interp_each, EventTree.interp_eachOption,
      EventTree.interp_pure, hexpr]
  | _ => rfl

include hstmt

theorem interp_walkElif (branch : ElifBranch) :
    (walkElif walks branch).interp (perform equal d) = transformElif (lower equal d n) branch := by
  cases branch with
  | mk condition body =>
    simp only [walkElif, transformElif, EventTree.interp_bind, EventTree.interp_pure, hexpr, hstmt]

theorem interp_walkCase (case : MatchCase) :
    (walkCase walks case).interp (perform equal d) = transformCase (lower equal d n) case := by
  cases case with
  | mk value variant x guard body =>
    simp only [walkCase, transformCase, interp_binding, EventTree.interp_bind, EventTree.interp_eachOption,
      EventTree.interp_pure, hexpr, hstmt]

omit hexpr in
theorem interp_walkCatch (handler : CatchClause) :
    (walkCatch walks handler).interp (perform equal d) = transformCatch (lower equal d n) handler := by
  cases handler with
  | mk x body =>
    simp only [walkCatch, transformCatch, interp_binding, EventTree.interp_bind, EventTree.interp_pure, hstmt]

theorem interp_walkStmt (s : Stmt) :
    (walkStmt n walks s).interp (perform equal d) = transformStmt d (lower equal d n) s := by
  cases s with
  | function async name generics params returnType body =>
    cases async with
    | true => rfl
    | false =>
      simp only [walkStmt, transformStmt, interp_inScope, interp_walkParam, interp_walkReturnType,
        EventTree.interp_bind, EventTree.interp_each, EventTree.interp_eachOption, EventTree.interp_pure, hstmt]
  | var name ann initializer isStatic isConst view =>
    simp only [walkStmt, transformStmt, interp_walkDeclaration, EventTree.interp_bind, EventTree.interp_eachOption,
      EventTree.interp_pure, hexpr]
    congr 1
    funext initializer
    exact recordDeclaration_bind d _ name ann initializer fun ann =>
      pure (Stmt.var name ann initializer isStatic isConst view)
  | block => simp only [walkStmt, transformStmt, interp_inScope, EventTree.interp_bind, EventTree.interp_each,
      EventTree.interp_pure, hstmt]
  | ifThen =>
    simp only [walkStmt, transformStmt, EventTree.interp_bind, EventTree.interp_each, EventTree.interp_eachOption,
      EventTree.interp_pure, hexpr, hstmt, interp_walkElif equal d hstmt hexpr]
  | each form x source site body =>
    rw [walkStmt, transformStmt]
    split
    · rfl
    · simp only [interp_binding, EventTree.interp_bind, EventTree.interp_pure, hexpr, hstmt]
  | destructure names keys initializer =>
    simp only [walkStmt, transformStmt, interp_shadow, EventTree.interp_bind, EventTree.interp_each,
      EventTree.interp_pure, hexpr, each_pure, Fuelled.pure_bind]
  | _ =>
    simp only [walkStmt, transformStmt, interp_inScope, EventTree.interp_bind, EventTree.interp_each,
      EventTree.interp_eachOption, EventTree.interp_pure, hexpr, hstmt, interp_walkCase equal d hstmt hexpr,
      interp_walkCatch equal d hstmt]

end

/-- The events of the tree, performed in their order, are the pass. -/
theorem interp_walk (n : ℕ) :
    (∀ s, ((walk n).stmt s).interp (perform equal d) = (lower equal d n).transformStmt s) ∧
      ∀ e, ((walk n).expr e).interp (perform equal d) = (lower equal d n).transformExpr e := by
  induction n with
  | zero => exact ⟨fun _ => rfl, fun _ => rfl⟩
  | succ n ih =>
    obtain ⟨hstmt, hexpr⟩ := ih
    exact ⟨interp_walkStmt equal d hstmt hexpr, interp_walkExpr equal d hexpr⟩

/-- A body of statements that share an environment. -/
def walkBody (n : ℕ) (body : List Stmt) : Walk (List Stmt) := EventTree.each (walk n).stmt body

theorem interp_walkBody (n : ℕ) (body : List Stmt) :
    (walkBody n body).interp (perform equal d) = each (lower equal d n).transformStmt body := by
  simp only [walkBody, EventTree.interp_each, (interp_walk equal d n).1]

/-! ### Bindings and the environment -/

/-- The types recorded by the marks: the environment they leave behind. -/
def recordedEnv (h : List Mark) : Subst :=
  h.foldl (fun env m =>
    match m with
    | .bind x (some ty) => put x ty env
    | _ => env) []

/-- The type recorded last for a name, in the order of the pass. -/
def lastRecorded (h : List Mark) (x : Name) : Option TypeAnnotation :=
  h.reverse.findSome? fun m =>
    match m with
    | .bind y (some ty) => if y = x then some ty else none
    | _ => none

theorem recordedEnv_append (h : List Mark) (m : Mark) :
    recordedEnv (h ++ [m]) =
      match m with
      | .bind x (some ty) => put x ty (recordedEnv h)
      | _ => recordedEnv h := by
  rw [recordedEnv, List.foldl_append]
  rfl

theorem recordedEnv_lookup (h : List Mark) (x : Name) : (recordedEnv h).lookup x = lastRecorded h x := by
  induction h using List.reverseRecOn with
  | nil => rfl
  | append_singleton h m ih =>
    rw [recordedEnv_append, lastRecorded, List.reverse_append]
    rw [lastRecorded] at ih
    rcases m with _ | _ | ⟨y, _ | ty⟩
    · exact ih
    · exact ih
    · exact ih
    · by_cases hy : y = x
      · subst hy
        simp [lookup_put]
      · simp [lookup_put_of_ne (Ne.symm hy), hy, ih]

variable {w w' : Work}

theorem transformParam_env {n : ℕ} {param param' : FunctionParam}
    (h : ((transformParam (lower equal d n) param).run w).result = some (param', w')) (hist : List Mark)
    (hw : w.env = recordedEnv hist) : w'.env = recordedEnv (hist ++ [.bind param'.name param'.ann]) := by
  obtain ⟨ann, w₁, hann, hrest⟩ := bind_result h
  have hkeep : w₁.env = w.env :=
    Keeps.eachOption (fun ty => (lower_keepEnv equal d n).normalizeType _) param.ann w ann w₁ hann
  rw [recordedEnv_append]
  cases ann with
  | none =>
    cases hrest
    exact hkeep.trans hw
  | some ty =>
    cases hrest
    change put param.name ty w₁.env = _
    rw [hkeep, hw]

theorem recordInitializer_env {name : Name} {initializer : Option Expr} {recorded : Option TypeAnnotation}
    (h : ((recordInitializer d name initializer).run w).result = some (recorded, w'))
    (hist : List Mark) (hw : w.env = recordedEnv hist) : w'.env = recordedEnv (hist ++ [.bind name recorded]) := by
  rw [recordedEnv_append]
  cases initializer with
  | none =>
    cases h
    exact hw
  | some e =>
    obtain ⟨ty, w₁, hinfer, hrest⟩ := bind_result h
    cases hinfer
    revert hrest
    cases inferExprType d w e with
    | none =>
      intro hrest
      cases hrest
      exact hw
    | some ty =>
      intro hrest
      cases hrest
      change put name ty w.env = _
      rw [hw]

theorem recordDeclaration_env {n : ℕ} {name : Name} {ann : Option TypeAnnotation} {initializer : Option Expr}
    {r : Option TypeAnnotation × Option TypeAnnotation}
    (h : ((recordDeclaration d (lower equal d n) name ann initializer).run w).result = some (r, w'))
    (hist : List Mark) (hw : w.env = recordedEnv hist) : w'.env = recordedEnv (hist ++ [.bind name r.2]) := by
  obtain ⟨ann', w₁, hann, hrest⟩ := bind_result h
  have hkeep : w₁.env = w.env :=
    Keeps.eachOption (fun ty => (lower_keepEnv equal d n).normalizeType _) ann w ann' w₁ hann
  rw [← hkeep] at hw
  cases ann' with
  | none =>
    obtain ⟨recorded, w₂, hrecord, hpure⟩ := bind_result hrest
    cases hpure
    exact recordInitializer_env d hrecord hist hw
  | some ty =>
    cases hrest
    rw [recordedEnv_append]
    change put name ty w₁.env = _
    rw [hw]

/-- What an event puts into the environment is what its marks record. -/
theorem perform_env {e : Event} {r : e.Outcome} (h : ((perform equal d e).run w).result = some (r, w'))
    {hist : List Mark} (hw : w.env = recordedEnv hist) : w'.env = recordedEnv (hist ++ marks e r) := by
  cases e with
  | enter =>
    cases h
    exact (recordedEnv_append hist .enter).symm ▸ hw
  | leave =>
    cases h
    exact (recordedEnv_append hist .leave).symm ▸ hw
  | shadow x =>
    cases h
    exact (recordedEnv_append hist (.bind x none)).symm ▸ hw
  | call n arguments name =>
    have hkeep := keepsEnv_transformCallee equal d (lower_keepEnv equal d n) arguments (.var name) w r w' h
    rw [hkeep, hw, marks, List.append_nil]
  | param n param => exact transformParam_env equal d h hist hw
  | declare n name ann initializer => exact recordDeclaration_env equal d h hist hw
  | returnType n function body ty =>
    have hkeep := keepsEnv_transformReturnType d (lower_keepEnv equal d n) function body ty w r w' h
    rw [hkeep, hw, marks, List.append_nil]

theorem reaches_env {t t' : Walk α} {h h' : List Mark}
    (hreach : EventTree.Reaches (perform equal d) marks t w h t' w' h') (hw : w.env = recordedEnv h) :
    w'.env = recordedEnv h' :=
  hreach.invariant (I := fun w h => w.env = recordedEnv h) _ _
    (fun _ _ _ _ _ hrun hw => perform_env equal d hrun hw) hw

/-! ### Scopes -/

/-- The bindings of the open scopes, innermost scope and latest binding first. -/
def frames : List (List (Name × Option TypeAnnotation)) → Mark → List (List (Name × Option TypeAnnotation))
  | scopes, .enter => [] :: scopes
  | scopes, .leave => scopes.tail
  | [], .bind x ty => [[(x, ty)]]
  | scope :: scopes, .bind x ty => ((x, ty) :: scope) :: scopes

/-- The binding of a name in scope, where `globals` are the bindings around the body. -/
def bindingInScope (globals : List (Name × Option TypeAnnotation)) (h : List Mark) (x : Name) :
    Option (Option TypeAnnotation) :=
  ((h.foldl frames []).flatten ++ globals).lookup x

/-- The declared or inferred type of the variable in scope, of which there is none for the variables of loops,
patterns, handlers and destructurings; a name that is no variable may be a class. -/
def typeInScope (w : Work) (globals : List (Name × Option TypeAnnotation)) (h : List Mark) (x : Name) :
    Option TypeAnnotation :=
  match bindingInScope globals h x with
  | some ty => ty
  | none => if namesClass d w x then some (.named x) else none

/-- A variable, or a grouping of one. -/
inductive IsVariable : Expr → Name → Prop
  | var (x : Name) : IsVariable (.var x) x
  | grouping {e : Expr} {x : Name} (h : IsVariable e x) : IsVariable (.operator .grouping [e]) x

theorem IsVariable.inferExprType {e : Expr} {x : Name} (h : IsVariable e x) (w : Work) :
    inferExprType d w e = inferExprType d w (.var x) := by
  induction h with
  | var x => rfl
  | grouping h ih => exact ih

/-- The binding in scope is the one recorded last for its name, or has the same type; where it has no recorded
type nothing is recorded for the name, and the name is no class. -/
def RecordedLast (w : Work) (globals : List (Name × Option TypeAnnotation)) (h : List Mark) (x : Name) : Prop :=
  match bindingInScope globals h x with
  | some (some ty) =>
    lastRecorded h x = some ty ∨ (lastRecorded h x = none ∧ namesClass d w x = true ∧ ty = .named x)
  | some none => lastRecorded h x = none ∧ namesClass d w x = false
  | none => lastRecorded h x = none ∨ (lastRecorded h x = some (.named x) ∧ namesClass d w x = true)

theorem inferred_iff {w : Work} {h : List Mark} (hw : w.env = recordedEnv h)
    (globals : List (Name × Option TypeAnnotation)) (x : Name) :
    inferExprType d w (.var x) = typeInScope d w globals h x ↔ RecordedLast d w globals h x := by
  rw [inferExprType, hw, recordedEnv_lookup, typeInScope, RecordedLast]
  rcases bindingInScope globals h x with _ | _ | ty <;> rcases lastRecorded h x with _ | ty' <;>
    cases namesClass d w x <;> simp
  exact eq_comm

/-- The walk through a body is the pass through it, and at a call of a generic function in it the type inferred for
a variable is that of the variable in scope exactly if the binding in scope is the one recorded last. -/
theorem inferArgument_inScope_iff {n m : ℕ} {body : List Stmt} {w w' : Work} {h₀ h : List Mark}
    {arguments : List Expr} {name : Name} {next : Expr → Walk (List Stmt)} (hstart : w.env = recordedEnv h₀)
    (hreach : EventTree.Reaches (perform equal d) marks (walkBody n body) w h₀
      (.ask (.call m arguments name) next) w' h) (globals : List (Name × Option TypeAnnotation)) :
    (walkBody n body).interp (perform equal d) = each (lower equal d n).transformStmt body ∧
      ∀ argument ∈ arguments, ∀ x, IsVariable argument x →
        (inferExprType d w' argument = typeInScope d w' globals h x ↔ RecordedLast d w' globals h x) := by
  refine ⟨interp_walkBody equal d n body, ?_⟩
  intro argument _ x hvariable
  rw [hvariable.inferExprType d w']
  exact inferred_iff d (reaches_env equal d hreach hstart) globals x

end

/-- The declarations of a program with one generic function, `show`. -/
def showDecls : Decls :=
  { traits := [], traitParents := [], traitAssociatedTypes := [], implementations := []
    associatedTypeBindings := [], classTemplates := [], enumTemplates := [], aliases := []
    templates := [("show", ⟨[⟨"T", []⟩], [⟨"value", some (.named "T")⟩], none, []⟩)] }

def noWork : Work :=
  { classes := [], classSpecializations := [], enumSpecializations := [], resolvingAliases := []
    specializations := [], specializationReturns := [], generated := [], generatedClasses := [], errors := []
    env := [] }

def declared (ty : TypeAnnotation) : Stmt := .var "x" (some ty) none false false none

def showX : Stmt := .expression (.operator .call [.var "show", .var "x"])

theorem inferArgument_inScope_declared : ∃ m w' h next,
    EventTree.Reaches (perform (fun _ _ => true) showDecls) marks (walkBody 3 [declared .int, showX]) noWork []
      (.ask (.call m [.var "x"] "show") next) w' h ∧
    inferExprType showDecls w' (.var "x") = typeInScope showDecls w' [] h "x" := by
  have hreach := EventTree.reaches_of_advance (perform (fun _ _ => true) showDecls) marks (n := 1)
    (t := walkBody 3 [declared .int, showX]) (w := noWork) (h := []) rfl
  have hrecorded : RecordedLast showDecls noWork [] [.bind "x" (some .int)] "x" := .inl rfl
  exact ⟨_, _, _, _, hreach,
    ((inferArgument_inScope_iff _ showDecls rfl hreach []).2 (.var "x") List.mem_cons_self "x" (.var "x")).mpr
      hrecorded⟩

/-- The variable of an inner block gives its type to the outer one of the same name. -/
theorem inferArgument_of_inner_block : ¬ ∀ (equal : TypeAnnotation → TypeAnnotation → Bool) (d : Decls) (n m : ℕ)
    (body : List Stmt) (w w' : Work) (h : List Mark) (arguments : List Expr) (name : Name)
    (next : Expr → Walk (List Stmt)), w.env = [] →
    EventTree.Reaches (perform equal d) marks (walkBody n body) w [] (.ask (.call m arguments name) next) w' h →
    ∀ argument ∈ arguments, ∀ x, IsVariable argument x →
      inferExprType d w' argument = typeInScope d w' [] h x := by
  intro hclaim
  have hreach := EventTree.reaches_of_advance (perform (fun _ _ => true) showDecls) marks (n := 4)
    (t := walkBody 3 [declared .int, .block [declared .string], showX]) (w := noWork) (h := []) rfl
  have hsame := hclaim _ showDecls 3 _ _ _ _ _ _ _ _ rfl hreach (.var "x") List.mem_cons_self "x" (.var "x")
  have hinferred : some TypeAnnotation.string = some TypeAnnotation.int := hsame
  cases hinferred

end Neutron.Generics
