import Neutron.Syntax

/-!
# Namespacing a module under an import alias

`use "file.nt" as arm` turns every top-level declaration of the file into `arm::name`, and the
rewriter follows the file's own references. The scopes of the source are one list of names here:
a scope that is pushed and popped around a call is a longer list passed to that call.
-/

namespace Neutron.Aliases
open Syntax

/-- The name a top-level statement declares, for the kinds `top_level_names` collects. -/
def declared : Stmt → Option Name
  | .function _ name _ _ _ _ => some name
  | .classDecl name _ _ _ => some name
  | .enumDecl name _ _ => some name
  | .typeAlias name _ _ => some name
  | .traitDecl name _ _ _ => some name
  | .var name _ _ true _ _ => some name
  | _ => none

def topLevelNames (statements : List Stmt) : List Name := statements.filterMap declared

/-- The part of the `Rewriter` that does not change. -/
structure Rewriter where
  qualifier : Name
  own : List Name

/-- The names a statement enters in the scope that is innermost while it is rewritten. They are
gone with that scope, so only a caller that rewrites several statements in one scope sees them. -/
def entered : Stmt → List Name
  | .each _ x _ _ body => x :: entered body
  | .function _ _ _ params _ _ => params.map FunctionParam.name
  | .match _ cases _ => enteredCases cases
  | .tryCatch _ (some (.mk x _)) _ => [x]
  | .retry _ _ (some (.mk x _)) => [x]
  | .destructure names _ _ => names
  | .traitDecl _ _ _ methods => enteredAll methods
  | .implDecl _ _ body => enteredAll body
  | .test name _ => [name]
  | _ => []
where
  enteredCases : List MatchCase → List Name
    | [] => []
    | .mk _ _ binding _ _ :: rest => binding.toList ++ enteredCases rest
  enteredAll : List Stmt → List Name
    | [] => []
    | s :: rest => entered s ++ enteredAll rest

namespace Rewriter
variable (r : Rewriter)

def rename (lexeme : Name) : Name := r.qualifier ++ "::" ++ lexeme

/-- One of the module's own top-level symbols, and not shadowed by a local binding. -/
def shouldRename (scope : List Name) (name : Name) : Bool :=
  decide (name ∈ r.own) && !decide (name ∈ scope)

def idToken (scope : List Name) (name : Name) (bind : Bool) : Name :=
  if !bind && r.shouldRename scope name then r.rename name else name

/-- `ty`. A name with type arguments is one token, and channel types are left as they are. -/
def ty (scope : List Name) : TypeAnnotation → TypeAnnotation
  | .named lexeme => .named (r.idToken scope lexeme false)
  | .array none => .array none
  | .array (some inner) => .array (some (ty scope inner))
  | .option inner => .option (ty scope inner)
  | .result ok err => .result (ty scope ok) (ty scope err)
  | .view inner mutable => .view (ty scope inner) mutable
  | .shared inner => .shared (ty scope inner)
  | .slice none => .slice none
  | .slice (some inner) => .slice (some (ty scope inner))
  | .own inner => .own (ty scope inner)
  | .ref inner mutable => .ref (ty scope inner) mutable
  | .rawPointer inner mutable => .rawPointer (ty scope inner) mutable
  | .implTrait lexeme => .implTrait (r.idToken scope lexeme false)
  | .dyn lexeme => .dyn (r.idToken scope lexeme false)
  | .tuple elements => .tuple (tys scope elements)
  | .int => .int
  | .float => .float
  | .string => .string
  | .bool => .bool
  | .object => .object
  | .any => .any
  | .pointer => .pointer
  | .chan element => .chan element
where
  tys (scope : List Name) : List TypeAnnotation → List TypeAnnotation
    | [] => []
    | t :: rest => ty scope t :: tys scope rest

/-- `params`: each name is entered before the annotation is looked at. -/
def params (scope : List Name) : List FunctionParam → List FunctionParam
  | [] => []
  | p :: rest =>
    ⟨p.name, p.ann.map (r.ty (p.name :: scope))⟩ :: params (p.name :: scope) rest

mutual
def expr (scope : List Name) : Expr → Expr
  | .var name => .var (r.idToken scope name false)
  | .assign name value => .assign (r.idToken scope name false) (expr scope value)
  | .operator form operands => .operator form (exprs scope operands)
  | .structLiteral className keys fields update =>
    .structLiteral (r.idToken scope className false) keys (exprs scope fields)
      (exprOption scope update)
  | .lambda params returnType body =>
    let inner := (params.map FunctionParam.name).reverse ++ scope
    .lambda (r.params scope params) (returnType.map (r.ty inner)) (stmts inner body)
  | .asyncBlock returnType body => .asyncBlock (returnType.map (r.ty scope)) (stmts scope body)
  | .chanRecv receiver channel site =>
    .chanRecv (r.idToken scope receiver true) (expr scope channel) site
def exprs (scope : List Name) : List Expr → List Expr
  | [] => []
  | e :: rest => expr scope e :: exprs scope rest
def exprOption (scope : List Name) : Option Expr → Option Expr
  | none => none
  | some e => some (expr scope e)
/-- `stmt`, and `stmt_push` at the callers that give the statement a scope of its own. -/
def stmt (scope : List Name) : Stmt → Stmt
  | .expression e => .expression (expr scope e)
  | .say e => .say (expr scope e)
  | .var name ann initializer isStatic isConst view =>
    .var (r.idToken scope name (!isStatic)) (ann.map (r.ty scope))
      (exprOption scope initializer) isStatic isConst view
  | .block statements => .block (stmts scope statements)
  | .ifThen condition thenBranch elifs elseBranch =>
    .ifThen (expr scope condition) (stmt scope thenBranch) (elifBranches scope elifs)
      (stmtOption scope elseBranch)
  | .while condition body => .while (expr scope condition) (stmt scope body)
  | .doWhile body condition => .doWhile (stmt scope body) (expr scope condition)
  | .for init condition update body =>
    .for (stmtOption scope init) (exprOption scope condition) (exprOption scope update)
      (stmt scope body)
  | .each form x source site body =>
    .each form (r.idToken scope x true) (expr (x :: scope) source) site (stmt (x :: scope) body)
  | .go call block site => .go (expr scope call) (stmtsOption scope block) site
  | .function async name generics params returnType body =>
    let inner := (params.map FunctionParam.name).reverse ++ scope
    .function async (r.idToken scope name false) generics (r.params scope params)
      (returnType.map (r.ty inner)) (stmts inner body)
  | .ret value => .ret (exprOption scope value)
  | .classDecl name generics parent body =>
    .classDecl (r.idToken scope name false) generics
      (parent.map fun parent => r.idToken scope parent false) (stmts scope body)
  | .break => .break
  | .continue => .continue
  | .match scrutinee cases defaultCase =>
    .match (expr scope scrutinee) (matchCases scope cases)
      (stmtOption (entered.enteredCases cases ++ scope) defaultCase)
  | .tryCatch body none last => .tryCatch (stmt scope body) none (stmtOption scope last)
  | .tryCatch body (some (.mk x handler)) last =>
    .tryCatch (stmt (x :: scope) body)
      (some (.mk (r.idToken (x :: scope) x true) (stmt (x :: scope) handler)))
      (stmtOption (x :: scope) last)
  | .throw value => .throw (expr scope value)
  | .retry count body none => .retry (expr scope count) (stmt scope body) none
  | .retry count body (some (.mk x handler)) =>
    .retry (expr (x :: scope) count) (stmt (x :: scope) body)
      (some (.mk (r.idToken (x :: scope) x true) (stmt (x :: scope) handler)))
  | .within form body => .within form (stmt scope body)
  | .destructure names keys initializer =>
    .destructure (names.map fun name => r.idToken scope name true) keys
      (expr (names ++ scope) initializer)
  | .use library isFilePath symbols asName => .use library isFilePath symbols asName
  | .enumDecl name generics members =>
    .enumDecl (r.idToken scope name false) generics (enumMembers scope members)
  | .typeAlias name generics target =>
    .typeAlias (r.idToken scope name false) generics (r.ty scope target)
  | .traitDecl name parents associatedTypes methods =>
    .traitDecl (r.idToken scope name false) (parents.map fun parent => r.idToken scope parent false)
      (associatedTypes.map fun name => r.idToken scope name false) (methodList scope methods)
  | .implDecl traitName typeName body =>
    .implDecl (r.idToken scope traitName false) (r.idToken scope typeName false)
      (methodList scope body)
  | .test name body => .test (r.idToken scope name true) (stmts (name :: scope) body)
/-- `stmts`: every statement has a scope of its own. -/
def stmts (scope : List Name) : List Stmt → List Stmt
  | [] => []
  | s :: rest => stmt scope s :: stmts scope rest
def stmtOption (scope : List Name) : Option Stmt → Option Stmt
  | none => none
  | some s => some (stmt scope s)
def stmtsOption (scope : List Name) : Option (List Stmt) → Option (List Stmt)
  | none => none
  | some body => some (stmts scope body)
/-- The methods of a trait or an `impl` share one scope. -/
def methodList (scope : List Name) : List Stmt → List Stmt
  | [] => []
  | s :: rest => stmt scope s :: methodList (entered s ++ scope) rest
def elifBranches (scope : List Name) : List ElifBranch → List ElifBranch
  | [] => []
  | .mk condition body :: rest =>
    .mk (expr scope condition) (stmt scope body) :: elifBranches scope rest
/-- The arms of a `match` share one scope. -/
def matchCases (scope : List Name) : List MatchCase → List MatchCase
  | [] => []
  | .mk value variant binding guard body :: rest =>
    let inner := binding.toList ++ scope
    .mk (expr inner value) (variant.map fun name => r.idToken inner name false)
      (binding.map fun name => r.idToken inner name true) (exprOption inner guard)
      (stmt inner body) :: matchCases inner rest
def enumMembers (scope : List Name) : List EnumMember → List EnumMember
  | [] => []
  | .mk name value dataTypes :: rest =>
    .mk name (exprOption scope value) (dataTypes.map (r.ty scope)) :: enumMembers scope rest
end

end Rewriter

/-- `namespaced`. -/
def namespaced (statements : List Stmt) (qualifier : Name) (own : List Name) : List Stmt :=
  Rewriter.stmts ⟨qualifier, own⟩ [] statements

/-! ### A rewriter without own names -/

namespace Rewriter
variable {r : Rewriter}

theorem idToken_eq_self (hr : r.own = []) (scope : List Name) (x : Name) (bind : Bool) :
    r.idToken scope x bind = x := by
  simp [idToken, shouldRename, hr]

theorem ty_eq_self (hr : r.own = []) (scope : List Name) : ∀ t, r.ty scope t = t := by
  apply ty.induct fun ts => ty.tys r scope ts = ts
  all_goals
    intros
    simp_all [ty, ty.tys, idToken_eq_self hr]

theorem map_ty_eq_self (hr : r.own = []) (scope : List Name) (ann : Option TypeAnnotation) :
    ann.map (r.ty scope) = ann := by
  cases ann <;> simp [ty_eq_self hr]

theorem params_eq_self (hr : r.own = []) (scope : List Name) (params : List FunctionParam) :
    r.params scope params = params := by
  induction params generalizing scope with
  | nil => rfl
  | cons p rest ih => simp [Rewriter.params, map_ty_eq_self hr, ih]

/-- A rewriter without own names changes nothing. -/
theorem trees_eq_self (hr : r.own = []) :
    (∀ scope e, r.expr scope e = e) ∧ (∀ scope ss, r.stmts scope ss = ss) ∧
      (∀ scope s, r.stmt scope s = s) ∧ (∀ scope ss, r.methodList scope ss = ss) ∧
      (∀ scope ms, r.enumMembers scope ms = ms) ∧ (∀ scope e, r.exprOption scope e = e) ∧
      (∀ scope cs, r.matchCases scope cs = cs) ∧ (∀ scope body, r.stmtsOption scope body = body) ∧
      (∀ scope s, r.stmtOption scope s = s) ∧ (∀ scope bs, r.elifBranches scope bs = bs) ∧
      (∀ scope es, r.exprs scope es = es) := by
  have hty : ∀ scope, r.ty scope = id := fun scope => funext (ty_eq_self hr scope)
  apply expr.mutual_induct
  all_goals
    intros
    simp_all +zetaDelta [expr, exprs, exprOption, stmt, stmts, stmtOption, stmtsOption, methodList, elifBranches,
      matchCases, enumMembers, idToken_eq_self, params_eq_self]

theorem stmts_eq_self (hr : r.own = []) : ∀ scope ss, r.stmts scope ss = ss := (trees_eq_self hr).2.1

end Rewriter

end Neutron.Aliases
