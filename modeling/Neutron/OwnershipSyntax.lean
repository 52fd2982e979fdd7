import Mathlib.Data.Finset.Union
import Mathlib.Data.Finset.Lattice.Basic

/-!
# The syntax the ownership checker walks

The statements and expressions of a function body as far as ownership is concerned: moves,
re-initialisations, views, calls, lambdas and every control construct. A missing initialiser
is a constructor of its own; a missing `else`, `default`, `finally`, loop condition or guard
is the form that evaluates nothing. `uses` is `collect_stmt_uses`, `diverges` the function of
that name.
-/

namespace Neutron.Ownership

abbrev Name := String

structure Span where
  start : ℕ
  stop : ℕ
  line : ℕ
  column : ℕ
  deriving DecidableEq, Repr

def Span.text (sp : Span) : String := s!"{sp.line}:{sp.column}"

/-- How a value of a given type behaves under assignment. -/
inductive ValueKind where
  | scalar
  | heap
  | shared
  | chan
  | function
  | view
  | unknown
  deriving DecidableEq, Repr

inductive ViewKind where
  | shared
  | mutable
  deriving DecidableEq, Repr

def ViewKind.of (mutable : Bool) : ViewKind := if mutable then .mutable else .shared

inductive ParamKind where
  | owned
  | viewShared
  | viewMut
  | unknown
  deriving DecidableEq, Repr

/-- A type annotation: `&T` or `&mut T`, or any other, by its `kind_of_annotation`. -/
inductive Annotation where
  | ref (mutable : Bool)
  | plain (kind : ValueKind)
  deriving DecidableEq, Repr

def Annotation.kind : Annotation → ValueKind
  | .ref _ => .view
  | .plain kind => kind

mutual
inductive Expr where
  | lit (text : Bool)
  | var (x : Name) (sp : Span)
  | assign (x : Name) (sp : Span) (value : Expr)
  | binary (plus : Bool) (left right : Expr)
  | call (callee : Expr) (args : Exprs)
  | view (target : Expr) (mutable : Bool)
  | borrow (target : Expr) (mutable : Bool)
  | copy (e : Expr)
  | lambda (params : List (Name × ValueKind)) (body : Stmts)
inductive Exprs where
  | nil
  | cons (e : Expr) (rest : Exprs)
inductive Stmt where
  | declare (x : Name) (sp : Span) (ann : Option Annotation) (view : Option Bool)
  | var (x : Name) (sp : Span) (ann : Option Annotation) (view : Option Bool) (init : Expr)
  | expr (e : Expr)
  | block (body : Stmts)
  | ifThen (cond : Expr) (body : Stmt) (rest : Elifs)
  | while (cond : Expr) (body : Stmt)
  | doWhile (body : Stmt) (cond : Expr)
  | for (init : Stmt) (cond update : Expr) (body : Stmt)
  | forIn (x : Name) (iterable : Expr) (body : Stmt)
  | chanRecvFor (x : Name) (channel : Expr) (body : Stmt)
  | match (scrutinee : Expr) (cases : Cases)
  | ret (value : Expr)
  | throw (value : Expr)
  | break
  | continue
  | tryCatch (body : Stmt) (catchVar : Option Name) (handler : Stmt) (fin : Stmt)
  | tryFinally (body : Stmt) (fin : Stmt)
  | retry (count : Expr) (body : Stmt)
  | retryCatch (count : Expr) (body : Stmt) (handler : Stmt)
inductive Stmts where
  | nil
  | cons (s : Stmt) (rest : Stmts)
/-- What follows the first branch of an `if`: nothing, an `else`, or an `elif`. -/
inductive Elifs where
  | none
  | else (body : Stmt)
  | elif (cond : Expr) (body : Stmt) (rest : Elifs)
inductive Cases where
  | none
  | default (body : Stmt)
  | case (value guard : Expr) (body : Stmt) (rest : Cases)
end

mutual
/-- `collect_expr_uses`: the names an expression reads or writes. A lambda's are not among
them. -/
def Expr.uses : Expr → Finset Name
  | .lit _ => ∅
  | .var x _ => {x}
  | .assign x _ value => insert x value.uses
  | .binary _ left right => left.uses ∪ right.uses
  | .call callee args => callee.uses ∪ args.uses
  | .view target _ => target.uses
  | .borrow target _ => target.uses
  | .copy e => e.uses
  | .lambda _ _ => ∅
def Exprs.uses : Exprs → Finset Name
  | .nil => ∅
  | .cons e rest => e.uses ∪ rest.uses
end

mutual
/-- `collect_stmt_uses`. -/
def Stmt.uses : Stmt → Finset Name
  | .declare _ _ _ _ => ∅
  | .var _ _ _ _ init => init.uses
  | .expr e => e.uses
  | .block body => body.uses
  | .ifThen cond body rest => cond.uses ∪ body.uses ∪ rest.uses
  | .while cond body => cond.uses ∪ body.uses
  | .doWhile body cond => cond.uses ∪ body.uses
  | .for init cond update body => init.uses ∪ cond.uses ∪ update.uses ∪ body.uses
  | .forIn _ iterable body => iterable.uses ∪ body.uses
  | .chanRecvFor _ channel body => channel.uses ∪ body.uses
  | .match scrutinee cases => scrutinee.uses ∪ cases.uses
  | .ret value => value.uses
  | .throw value => value.uses
  | .break => ∅
  | .continue => ∅
  | .tryCatch body _ handler fin => body.uses ∪ handler.uses ∪ fin.uses
  | .tryFinally body fin => body.uses ∪ fin.uses
  | .retry count body => count.uses ∪ body.uses
  | .retryCatch count body handler => count.uses ∪ body.uses ∪ handler.uses
def Stmts.uses : Stmts → Finset Name
  | .nil => ∅
  | .cons s rest => s.uses ∪ rest.uses
def Elifs.uses : Elifs → Finset Name
  | .none => ∅
  | .else body => body.uses
  | .elif cond body rest => cond.uses ∪ body.uses ∪ rest.uses
def Cases.uses : Cases → Finset Name
  | .none => ∅
  | .default body => body.uses
  | .case value guard body rest => value.uses ∪ guard.uses ∪ body.uses ∪ rest.uses
end

mutual
/-- Whether a statement can never fall through. -/
def Stmt.diverges : Stmt → Bool
  | .ret _ => true
  | .throw _ => true
  | .break => true
  | .continue => true
  | .block body => body.diverges
  | .ifThen _ body rest => body.diverges && rest.diverges
  | .match _ cases => cases.diverges
  | .tryCatch body _ handler fin => fin.diverges || (body.diverges && handler.diverges)
  | .tryFinally _ fin => fin.diverges
  | _ => false
def Stmts.diverges : Stmts → Bool
  | .nil => false
  | .cons s rest => s.diverges || rest.diverges
def Elifs.diverges : Elifs → Bool
  | .none => false
  | .else body => body.diverges
  | .elif _ body rest => body.diverges && rest.diverges
def Cases.diverges : Cases → Bool
  | .none => false
  | .default body => body.diverges
  | .case _ _ body rest => body.diverges && rest.diverges
end

def Stmt.isDeclaration : Stmt → Bool
  | .declare _ _ _ _ => true
  | .var _ _ _ _ _ => true
  | _ => false

mutual
/-- No branch, arm, loop body or handler is a bare declaration: those that declare are
blocks. -/
def Expr.tidy : Expr → Bool
  | .lit _ => true
  | .var _ _ => true
  | .assign _ _ value => value.tidy
  | .binary _ left right => left.tidy && right.tidy
  | .call callee args => callee.tidy && args.tidy
  | .view target _ => target.tidy
  | .borrow target _ => target.tidy
  | .copy e => e.tidy
  | .lambda _ body => body.tidy
def Exprs.tidy : Exprs → Bool
  | .nil => true
  | .cons e rest => e.tidy && rest.tidy
def Stmt.tidy : Stmt → Bool
  | .declare _ _ _ _ => true
  | .var _ _ _ _ init => init.tidy
  | .expr e => e.tidy
  | .block body => body.tidy
  | .ifThen cond body rest => cond.tidy && (body.tidy && !body.isDeclaration) && rest.tidy
  | .while cond body => cond.tidy && (body.tidy && !body.isDeclaration)
  | .doWhile body cond => (body.tidy && !body.isDeclaration) && cond.tidy
  | .for init cond update body =>
    init.tidy && cond.tidy && update.tidy && (body.tidy && !body.isDeclaration)
  | .forIn _ iterable body => iterable.tidy && (body.tidy && !body.isDeclaration)
  | .chanRecvFor _ channel body => channel.tidy && (body.tidy && !body.isDeclaration)
  | .match scrutinee cases => scrutinee.tidy && cases.tidy
  | .ret value => value.tidy
  | .throw value => value.tidy
  | .break => true
  | .continue => true
  | .tryCatch body _ handler fin =>
    (body.tidy && !body.isDeclaration) && (handler.tidy && !handler.isDeclaration) &&
      (fin.tidy && !fin.isDeclaration)
  | .tryFinally body fin =>
    (body.tidy && !body.isDeclaration) && (fin.tidy && !fin.isDeclaration)
  | .retry count body => count.tidy && (body.tidy && !body.isDeclaration)
  | .retryCatch count body handler =>
    count.tidy && (body.tidy && !body.isDeclaration) && (handler.tidy && !handler.isDeclaration)
def Stmts.tidy : Stmts → Bool
  | .nil => true
  | .cons s rest => s.tidy && rest.tidy
def Elifs.tidy : Elifs → Bool
  | .none => true
  | .else body => body.tidy && !body.isDeclaration
  | .elif cond body rest => cond.tidy && (body.tidy && !body.isDeclaration) && rest.tidy
def Cases.tidy : Cases → Bool
  | .none => true
  | .default body => body.tidy && !body.isDeclaration
  | .case value guard body rest =>
    value.tidy && guard.tidy && (body.tidy && !body.isDeclaration) && rest.tidy
end

end Neutron.Ownership
