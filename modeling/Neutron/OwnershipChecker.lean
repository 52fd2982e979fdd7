import Neutron.OwnershipSyntax

/-!
# The ownership checker

`OwnershipChecker` of the type checker crate. `Flow` is what the checker snapshots around
branches and loops: the moved map, as the set of dead bindings, and the declared borrows, one
layer for each scope. Scopes and borrow layers are kept innermost first. The enclosing
statements' uses and the tails after them only matter through the union of all layers, and
the views held by enclosing `for in` loops form a stack, so both are passed down in
`Context`.
-/

namespace Neutron.Ownership

/-- A variable binding: its name and the depth of the scope that defines it. -/
abbrev Binding := Name × ℕ

abbrev Scope := List (Name × ValueKind)

structure BorrowRecord where
  source : Name
  sourceDepth : ℕ
  kind : ViewKind
  origin : Span
  deriving DecidableEq, Repr

/-- The borrows of the holders declared in one scope. -/
abbrev Layer := List (Name × List BorrowRecord)

structure Flow where
  moved : Finset Binding
  borrows : List Layer
  deriving DecidableEq

structure Checker where
  errors : List (String × Span)
  scopes : List Scope
  flow : Flow
  views : List (Name × Span)
  mutViews : List (Name × Span)
  deriving DecidableEq

structure Context where
  fns : Name → Option (List ParamKind × ValueKind)
  held : List (Name × ViewKind × Span)
  live : Finset Name

/-- A view currently held on a source, with the holder of a declared borrow. -/
structure ViewRef where
  kind : ViewKind
  holder : Option Name
  origin : Span

/-! ### Scopes -/

/-- `lookup_depth`: the depth of the innermost scope that binds the name, and the kind. -/
def lookupDepth : List Scope → Name → Option (ℕ × ValueKind)
  | [], _ => none
  | scope :: rest, x =>
    match scope.lookup x with
    | some kind => some (rest.length, kind)
    | none => lookupDepth rest x

def lookupKind (sc : List Scope) (x : Name) : Option ValueKind := (lookupDepth sc x).map Prod.snd

/-- `define_kind`. -/
def defineKind (x : Name) (kind : ValueKind) : List Scope → List Scope
  | [] => []
  | scope :: rest => ((x, kind) :: scope) :: rest

def isBorrowableKind : Option ValueKind → Bool
  | some .heap => true
  | some .shared => true
  | some .chan => true
  | _ => false

/-- The binding a name resolves to. -/
def resolve (sc : List Scope) (x : Name) : Option Binding :=
  (lookupDepth sc x).map fun found => (x, found.1)

/-! ### Joins -/

def Layer.insert (layer : Layer) (holder : Name) (records : List BorrowRecord) : Layer :=
  match layer with
  | [] => [(holder, records)]
  | (h, rs) :: rest =>
    if h = holder then (h, records) :: rest else (h, rs) :: Layer.insert rest holder records

def Layer.remove (layer : Layer) (holder : Name) : Layer :=
  layer.filter fun entry => entry.1 ≠ holder

def addRecords (records : List BorrowRecord) : List BorrowRecord → List BorrowRecord
  | [] => records
  | r :: rest => addRecords (if r ∈ records then records else records ++ [r]) rest

def mergeLayer (a : Layer) : Layer → Layer
  | [] => a
  | (holder, records) :: rest =>
    mergeLayer (a.insert holder (addRecords ((a.lookup holder).getD []) records)) rest

/-- `union_borrows`. The layers are innermost first, so the shorter list is padded in front. -/
def unionBorrows (a b : List Layer) : List Layer :=
  List.zipWith mergeLayer (List.replicate (b.length - a.length) [] ++ a)
    (List.replicate (a.length - b.length) [] ++ b)

def Flow.union (a b : Flow) : Flow := ⟨a.moved ∪ b.moved, unionBorrows a.borrows b.borrows⟩

/-- One more branch that falls through: the join so far, if any branch has reached it. -/
def joinBranch (merged : Option Flow) (branch : Flow) : Option Flow :=
  match merged with
  | some prior => some (prior.union branch)
  | none => some branch

namespace Checker

variable (ctx : Context)

def error (message : String) (sp : Span) (σ : Checker) : Checker :=
  if (message, sp) ∈ σ.errors then σ else { σ with errors := σ.errors ++ [(message, sp)] }

def withMoved (moved : Finset Binding) (σ : Checker) : Checker :=
  { σ with flow := { σ.flow with moved := moved } }

def withBorrows (borrows : List Layer) (σ : Checker) : Checker :=
  { σ with flow := { σ.flow with borrows := borrows } }

def withFlow (flow : Flow) (σ : Checker) : Checker := { σ with flow := flow }

def pushScope (σ : Checker) : Checker :=
  { σ with scopes := [] :: σ.scopes, flow := ⟨σ.flow.moved, [] :: σ.flow.borrows⟩ }

/-- The dead marks of the popped scope's own variables are forgotten. -/
def popScope (σ : Checker) : Checker :=
  { σ with
    scopes := σ.scopes.tail
    flow := ⟨σ.flow.moved.filter fun b => b.2 < σ.scopes.tail.length, σ.flow.borrows.tail⟩ }

def define (x : Name) (kind : ValueKind) (σ : Checker) : Checker :=
  { σ with scopes := defineKind x kind σ.scopes }

def isMoved (x : Name) (σ : Checker) : Bool :=
  match resolve σ.scopes x with
  | some b => b ∈ σ.flow.moved
  | none => false

def reinitialize (x : Name) (σ : Checker) : Checker :=
  match resolve σ.scopes x with
  | some b => σ.withMoved (σ.flow.moved.erase b)
  | none => σ

/-! ### Views -/

def clearStatementViews (σ : Checker) : Checker := { σ with views := [], mutViews := [] }

/-- The live declared borrows of `x`, outermost layer first. -/
def declaredViews (x : Name) (σ : Checker) : List ViewRef :=
  σ.flow.borrows.reverse.flatMap fun layer => layer.flatMap fun entry =>
    (entry.2.filter fun record =>
      record.source = x ∧ some record.sourceDepth = (lookupDepth σ.scopes x).map Prod.fst ∧
        entry.1 ∈ ctx.live).map fun record => ⟨record.kind, some entry.1, record.origin⟩

/-- `is_viewed`: statement views first, then the views held by enclosing loops, then the
declared borrows, of which an exclusive one outranks a shared one. -/
def isViewed (x : Name) (σ : Checker) : Option ViewRef :=
  match σ.mutViews.lookup x with
  | some origin => some ⟨.mutable, none, origin⟩
  | none =>
    match σ.views.lookup x with
    | some origin => some ⟨.shared, none, origin⟩
    | none =>
      match ctx.held.lookup x with
      | some (kind, origin) => some ⟨kind, none, origin⟩
      | none =>
        (σ.declaredViews ctx x).foldl
          (fun best candidate =>
            if best.isNone || candidate.kind = .mutable then some candidate else best) none

def viewDescription (view : ViewRef) : String :=
  match view.holder with
  | some holder => s!"it is borrowed by `{holder}` (borrowed at {view.origin.text})"
  | none => s!"it is viewed (viewed at {view.origin.text})"

def kindWord (kind : ViewKind) : String := if kind = .mutable then "mutable" else "shared"

/-- The conflict that `borrow_source` and `register_view` report in the same words. -/
def reportConflict (x : Name) (kind : ViewKind) (sp : Span) (σ : Checker) : Checker :=
  match σ.isViewed ctx x with
  | some existing =>
    if existing.kind = .mutable ∨ kind = .mutable then
      σ.error s!"cannot take a {kindWord kind} view of `{x}`: it is already viewed; {viewDescription existing}" sp
    else σ
  | none => σ

def releaseBorrow (holder : Name) (σ : Checker) : Checker :=
  σ.withBorrows (σ.flow.borrows.map fun layer => layer.remove holder)

def findBorrows (holder : Name) (σ : Checker) : Option (List BorrowRecord) :=
  σ.flow.borrows.findSome? fun layer => layer.lookup holder

/-- The layer at scope depth `depth`, counted from the outermost one. -/
def insertAt (depth : ℕ) (holder : Name) (records : List BorrowRecord) (layers : List Layer) :
    List Layer :=
  layers.modify (layers.length - 1 - depth) fun layer => layer.insert holder records

def borrowSource (holder source : Name) (kind : ViewKind) (origin : Span) (σ : Checker) :
    Checker :=
  if σ.isMoved source then
    σ.error s!"cannot view `{source}`: it was moved" origin
  else
    match lookupDepth σ.scopes source with
    | none => σ
    | some (sourceDepth, _) =>
      let holderDepth := ((lookupDepth σ.scopes holder).map Prod.fst).getD (σ.scopes.length - 1)
      if holderDepth < sourceDepth then
        σ.error s!"view `{holder}` cannot borrow `{source}`: owner `{source}` is declared in a shorter-lived inner scope" origin
      else
        let σ := σ.reportConflict ctx source kind origin
        σ.withBorrows
          (insertAt holderDepth holder [⟨source, sourceDepth, kind, origin⟩] σ.flow.borrows)

def addView (x : Name) (sp : Span) (views : List (Name × Span)) : List (Name × Span) :=
  if (views.lookup x).isSome then views else views ++ [(x, sp)]

def registerView (x : Name) (kind : ViewKind) (sp : Span) (σ : Checker) : Checker :=
  if σ.isMoved x then
    σ.error s!"cannot view `{x}`: it was moved" sp
  else
    let σ := σ.reportConflict ctx x kind sp
    match kind with
    | .shared => { σ with views := addView x sp σ.views }
    | .mutable => { σ with mutViews := addView x sp σ.mutViews }

def moveValue (x : Name) (sp : Span) (context : String) (σ : Checker) : Checker :=
  match σ.isViewed ctx x with
  | some view =>
    σ.error s!"cannot move `{x}` while it is viewed: {viewDescription view} ({context})" sp
  | none =>
    if σ.isMoved x then
      σ.error s!"use of moved value: `{x}`" sp
    else
      match resolve σ.scopes x with
      | some b => σ.withMoved (insert b σ.flow.moved)
      | none => σ

def moveHeapValue (x : Name) (sp : Span) (context : String) (σ : Checker) : Checker :=
  if lookupKind σ.scopes x = some .heap then σ.moveValue ctx x sp context else σ

/-- `move_heap_value` of a value that is a variable. -/
def moveSource (e : Expr) (context : String) (σ : Checker) : Checker :=
  match e with
  | .var x sp => σ.moveHeapValue ctx x sp context
  | _ => σ

def readVar (x : Name) (sp : Span) (σ : Checker) : Checker :=
  if σ.isMoved x then σ.error s!"use of moved value: `{x}`" sp else σ

/-- Two passes over a loop, the second only if the first has moved something. -/
def checkLoop (parts : Checker → Checker) (σ : Checker) : Checker :=
  let before := σ.flow
  let first := parts σ
  let first := first.withFlow (before.union first.flow)
  if first.flow.moved = before.moved then first
  else
    let second := parts first
    second.withFlow (first.flow.union second.flow)

/-- The parts of `check_try`: the try block joined with the state before it, -/
def checkTried (body : Checker → Checker) (σ : Checker) : Checker :=
  let tried := body σ
  tried.withFlow (tried.flow.union σ.flow)

/-- the handler, checked in the state before the try block and joined with both, -/
def checkCaught (body handler : Checker → Checker) (σ : Checker) : Checker :=
  let tried := body σ
  let caught := handler (tried.withFlow σ.flow)
  caught.withFlow ((tried.flow.union σ.flow).union caught.flow)

/-- and `finally`, checked with an empty moved map. -/
def checkFinally (fin : Checker → Checker) (σ : Checker) : Checker :=
  let final := fin (σ.withMoved ∅)
  final.withFlow (σ.flow.union final.flow)

/-- The handler of a `retry` starts from the moves of the body and the borrows from before
it. -/
def checkRetry (body handler : Checker → Checker) (σ : Checker) : Checker :=
  let tried := checkLoop body σ
  let caught := handler (tried.withBorrows σ.flow.borrows)
  caught.withFlow ⟨σ.flow.moved ∪ caught.flow.moved,
    unionBorrows tried.flow.borrows caught.flow.borrows⟩

end Checker

/-! ### Declarations -/

/-- `ref_borrow`: the declaration is a reference by its annotation, or by `&x` without one. -/
def refBorrow (ann : Option Annotation) (init : Option Expr) : Option Bool :=
  match ann, init with
  | some (.ref mutable), _ => some mutable
  | none, some (.borrow _ mutable) => some mutable
  | _, _ => none

def declaresBorrow (ann : Option Annotation) (view : Option Bool) (init : Option Expr) : Bool :=
  view.isSome || (refBorrow ann init).isSome

def borrowKind (ann : Option Annotation) (view : Option Bool) (init : Option Expr) : ViewKind :=
  ViewKind.of (view = some true || refBorrow ann init = some true)

def declaredKind (ann : Option Annotation) (view : Option Bool) (init : Option Expr) : ValueKind :=
  if declaresBorrow ann view init then .view else (ann.map Annotation.kind).getD .unknown

/-- What `&place` refers to. -/
def borrowTarget : Expr → Expr
  | .borrow target _ => target
  | e => e

def calleeSignature (fns : Name → Option (List ParamKind × ValueKind)) :
    Expr → Option (List ParamKind × ValueKind)
  | .var f _ => fns f
  | _ => none

/-- The kind `check_expr` returns. It depends on the scopes only, and no expression of the
fragment changes them. -/
def exprKind (fns : Name → Option (List ParamKind × ValueKind)) (sc : List Scope) :
    Expr → ValueKind
  | .lit text => if text then .heap else .scalar
  | .var x _ => (lookupKind sc x).getD .unknown
  | .assign _ _ value => exprKind fns sc value
  | .binary plus left right =>
    if plus ∧ (exprKind fns sc left = .heap ∨ exprKind fns sc right = .heap) then .heap
    else .scalar
  | .call callee _ => ((calleeSignature fns callee).map Prod.snd).getD .unknown
  | .view _ _ => .view
  | .borrow _ _ => .view
  | .copy e => if exprKind fns sc e = .view then .heap else exprKind fns sc e
  | .lambda _ _ => .function

/-- The kind the declared variable is defined with. -/
def finalKind (fns : Name → Option (List ParamKind × ValueKind)) (sc : List Scope)
    (ann : Option Annotation) (view : Option Bool) (init : Option Expr) : ValueKind :=
  match declaredKind ann view init, init with
  | .unknown, some e => if exprKind fns sc e = .view then .unknown else exprKind fns sc e
  | kind, _ => kind

def Context.during (ctx : Context) (uses : Finset Name) : Context :=
  { ctx with live := ctx.live ∪ uses }

namespace Checker

variable (ctx : Context)

/-- The declared borrow of `view var x = init`, `var x = &init` and their `mut` forms. -/
def recordBorrow (x : Name) (sp : Span) (ann : Option Annotation) (view : Option Bool)
    (init : Expr) (σ : Checker) : Checker :=
  let ref := (refBorrow ann (some init)).isSome
  let σ := if ref then σ.clearStatementViews else σ
  match borrowTarget init with
  | .var source sourceSpan =>
    if isBorrowableKind (lookupKind σ.scopes source) || ref then
      σ.borrowSource ctx x source (borrowKind ann view (some init)) sourceSpan
    else σ
  | _ =>
    σ.error s!"cannot store a view of a temporary value in `{x}`; borrow a variable, element, or field instead" sp

/-- What a declaration does once its initialiser has been checked. -/
def declareVar (x : Name) (sp : Span) (ann : Option Annotation) (view : Option Bool)
    (init : Expr) (σ : Checker) : Checker :=
  let σ := if declaresBorrow ann view (some init) then σ else σ.moveSource ctx init "assignment"
  let σ :=
    if exprKind ctx.fns σ.scopes init = .view ∧ declaredKind ann view (some init) ≠ .view then
      σ.error s!"cannot store a view in `{x}`; a view may not be kept beyond the current block" sp
    else σ
  let kind := finalKind ctx.fns σ.scopes ann view (some init)
  let σ :=
    if declaresBorrow ann view (some init) then σ.recordBorrow ctx x sp ann view init else σ
  σ.define x kind

/-- A declaration without an initialiser; a view has nothing to borrow then. -/
def declareBare (x : Name) (sp : Span) (ann : Option Annotation) (view : Option Bool)
    (σ : Checker) : Checker :=
  let σ :=
    if declaresBorrow ann view none then
      σ.error s!"cannot store a view of a temporary value in `{x}`; borrow a variable, element, or field instead" sp
    else σ
  σ.define x (finalKind ctx.fns σ.scopes ann view none)

/-- Assigning to a declared view ends its old borrow and records the new one. -/
def rebindView (x : Name) (value : Expr) (σ : Checker) : Checker :=
  let σ := σ.releaseBorrow x
  match value with
  | .view (.var source sp) mutable =>
    if isBorrowableKind (lookupKind σ.scopes source) then
      σ.borrowSource ctx x source (ViewKind.of mutable) sp
    else σ
  | .var source _ =>
    match σ.findBorrows source, lookupDepth σ.scopes x with
    | some records, some (depth, _) => σ.withBorrows (insertAt depth x records σ.flow.borrows)
    | _, _ => σ
  | _ => σ

/-- What an assignment does once its value has been checked. -/
def assignVar (x : Name) (sp : Span) (value : Expr) (σ : Checker) : Checker :=
  let σ := σ.moveSource ctx value "assignment"
  let σ :=
    if isBorrowableKind (lookupKind σ.scopes x) && (σ.isViewed ctx x).isSome then
      σ.error s!"cannot assign to `{x}` while it is viewed" sp
    else σ
  let σ := if lookupKind σ.scopes x = some .view then σ.rebindView ctx x value else σ
  Checker.reinitialize x σ

/-- What a call does with an argument once it has been checked. -/
def passArgument (param : ParamKind) (arg : Expr) (σ : Checker) : Checker :=
  match arg with
  | .var x sp =>
    match (lookupKind σ.scopes x).getD .unknown, param with
    | .heap, .owned => σ.moveValue ctx x sp "argument"
    | .heap, .viewMut => σ.registerView ctx x .mutable sp
    | .heap, _ => σ.registerView ctx x .shared sp
    | .shared, .owned => σ
    | .shared, _ => σ.registerView ctx x .shared sp
    | _, _ => σ
  | _ => σ

def viewVar (x : Name) (sp : Span) (mutable : Bool) (σ : Checker) : Checker :=
  if isBorrowableKind (lookupKind σ.scopes x) then σ.registerView ctx x (ViewKind.of mutable) sp
  else σ

def defineParams : List (Name × ValueKind) → Checker → Checker
  | [], σ => σ
  | (x, kind) :: rest, σ => defineParams rest (σ.define x kind)

end Checker

open Checker

mutual
/-- `check_expr`. -/
def Expr.check : Expr → Context → Checker → Checker
  | .lit _, _, σ => σ
  | .var x sp, _, σ => σ.readVar x sp
  | .assign x sp value, ctx, σ => (value.check ctx σ).assignVar ctx x sp value
  | .binary _ left right, ctx, σ => right.check ctx (left.check ctx σ)
  | .call callee args, ctx, σ =>
    -- the borrows of the arguments end with the call
    let inner := args.check ctx (((calleeSignature ctx.fns callee).map Prod.fst).getD [])
      (callee.check ctx σ.clearStatementViews)
    { inner with views := σ.views, mutViews := σ.mutViews }
  | .view target mutable, ctx, σ =>
    match target with
    | .var x sp => σ.viewVar ctx x sp mutable
    | _ => target.check ctx σ
  | .borrow target mutable, ctx, σ =>
    match target with
    | .var x sp => (target.check ctx σ).viewVar ctx x sp mutable
    | _ => target.check ctx σ
  | .copy e, ctx, σ => e.check ctx σ
  | .lambda params body, ctx, σ =>
    let inner := body.check ctx (defineParams params (σ.pushScope.withMoved ∅))
    (inner.withMoved σ.flow.moved).popScope
/-- The argument loop of `check_call_inner`, with the parameter kinds that are left. -/
def Exprs.check : Exprs → Context → List ParamKind → Checker → Checker
  | .nil, _, _, σ => σ
  | .cons e rest, ctx, params, σ =>
    rest.check ctx params.tail ((e.check ctx σ).passArgument ctx (params.headD .unknown) e)
/-- `check_stmt`. -/
def Stmt.check : Stmt → Context → Checker → Checker
  | .declare x sp ann view, ctx, σ => σ.clearStatementViews.declareBare ctx x sp ann view
  | .var x sp ann view init, ctx, σ =>
    (init.check ctx σ.clearStatementViews).declareVar ctx x sp ann view init
  | .expr e, ctx, σ => e.check ctx σ.clearStatementViews
  | .block body, ctx, σ => (body.check ctx σ.clearStatementViews.pushScope).popScope
  | .ifThen cond body rest, ctx, σ =>
    let σ := cond.check ctx σ.clearStatementViews
    let inner := body.check ctx σ
    rest.check ctx σ.flow (if body.diverges then none else some inner.flow) inner
  | .while cond body, ctx, σ =>
    checkLoop (fun σ => body.check ctx (cond.check ctx σ)) σ.clearStatementViews
  | .doWhile body cond, ctx, σ =>
    checkLoop (fun σ => cond.check ctx (body.check ctx σ)) σ.clearStatementViews
  | .for init cond update body, ctx, σ =>
    (checkLoop (fun σ => body.check ctx (update.check ctx (cond.check ctx σ)))
      (init.check ctx σ.clearStatementViews.pushScope)).popScope
  | .forIn x iterable body, ctx, σ =>
    let σ := σ.clearStatementViews
    match iterable with
    | .var y sp =>
      let held := if lookupKind σ.scopes y = some .heap && !σ.isMoved y then
        ctx.held ++ [(y, .shared, sp)] else ctx.held
      (checkLoop (body.check { ctx with held := held }) (σ.pushScope.define x .unknown)).popScope
    | _ =>
      (checkLoop (body.check ctx) ((iterable.check ctx σ).pushScope.define x .unknown)).popScope
  | .chanRecvFor x channel body, ctx, σ =>
    (body.check ctx ((channel.check ctx σ.clearStatementViews).pushScope.define x .heap)).popScope
  | .match scrutinee cases, ctx, σ =>
    let σ := scrutinee.check ctx σ.clearStatementViews
    cases.check ctx σ.flow none σ
  | .ret value, ctx, σ =>
    (value.check ctx σ.clearStatementViews).moveSource ctx value "return"
  | .throw value, ctx, σ => value.check ctx σ.clearStatementViews
  | .break, _, σ => σ.clearStatementViews
  | .continue, _, σ => σ.clearStatementViews
  | .tryCatch body catchVar handler fin, ctx, σ =>
    let caught := match catchVar with
      | some x => fun σ => (handler.check ctx (σ.pushScope.define x .heap)).popScope
      | none => handler.check ctx
    checkFinally (fin.check ctx) (checkCaught (body.check ctx) caught σ.clearStatementViews)
  | .tryFinally body fin, ctx, σ =>
    checkFinally (fin.check ctx) (checkTried (body.check ctx) σ.clearStatementViews)
  | .retry count body, ctx, σ =>
    checkLoop (body.check ctx) (count.check ctx σ.clearStatementViews)
  | .retryCatch count body handler, ctx, σ =>
    checkRetry (body.check ctx) (handler.check ctx) (count.check ctx σ.clearStatementViews)
/-- `check_sequence`: while a statement is checked, the names it uses and those used after
it are live. -/
def Stmts.check : Stmts → Context → Checker → Checker
  | .nil, _, σ => σ
  | .cons s rest, ctx, σ => rest.check ctx (s.check (ctx.during (s.uses ∪ rest.uses)) σ)
/-- The rest of `check_if`, with the state before the branches and the join so far. -/
def Elifs.check : Elifs → Context → Flow → Option Flow → Checker → Checker
  | .none, _, before, merged, σ => σ.withFlow ((joinBranch merged before).getD before)
  | .else body, ctx, before, merged, σ =>
    let σ := body.check ctx (σ.withFlow before)
    σ.withFlow ((if body.diverges then merged else joinBranch merged σ.flow).getD before)
  | .elif cond body rest, ctx, before, merged, σ =>
    let σ := body.check ctx (cond.check ctx (σ.withFlow before))
    rest.check ctx before (if body.diverges then merged else joinBranch merged σ.flow) σ
/-- The arms of `check_match`, likewise. -/
def Cases.check : Cases → Context → Flow → Option Flow → Checker → Checker
  | .none, _, before, merged, σ => σ.withFlow ((joinBranch merged before).getD before)
  | .default body, ctx, before, merged, σ =>
    let σ := body.check ctx (σ.withFlow before)
    σ.withFlow ((if body.diverges then merged else joinBranch merged σ.flow).getD before)
  | .case value guard body rest, ctx, before, merged, σ =>
    let σ := body.check ctx (guard.check ctx (value.check ctx (σ.withFlow before)))
    rest.check ctx before (if body.diverges then merged else joinBranch merged σ.flow) σ
end

/-- `check_function`: the body starts with nothing moved, and what was moved outside is put
back after it. -/
def checkFunction (ctx : Context) (params : List (Name × ValueKind)) (body : Stmts)
    (σ : Checker) : Checker :=
  ((body.check ctx (defineParams params (σ.pushScope.withMoved ∅))).withMoved
    σ.flow.moved).popScope

/-- `OwnershipChecker::new` and the program scope of `check_program`. -/
def Checker.new : Checker := ⟨[], [[], []], ⟨∅, [[], []]⟩, [], []⟩

end Neutron.Ownership
