import Mathlib.Data.List.Basic
import Neutron.SourceTree

/-!
# Name resolution

The pass that runs before type checking: a stack of scopes, the errors found so far, and one arm
for each form of the syntax. The innermost scope comes first.
-/

namespace Neutron.Names
open Source

structure ResolveError where
  message : String
  span : Span
  suggestion : Option String

structure Resolver where
  scopes : List (List String)
  errors : List ResolveError

/-! ### Suggestions -/

/-- One row of the distance table: `diagonal` and `left` are the entries before and beside. -/
def nextRow (ca : Char) (diagonal left : ℕ) : List Char → List ℕ → List ℕ
  | cb :: b, above :: prev =>
    let entry := min (min (above + 1) (left + 1)) (diagonal + if ca = cb then 0 else 1)
    entry :: nextRow ca above entry b prev
  | _, _ => []

/-- Edit distance between two strings. -/
def levenshtein (a b : List Char) : ℕ :=
  let rows := a.foldl (fun prev ca =>
    match prev with
    | [] => []
    | first :: rest => (first + 1) :: nextRow ca first (first + 1) b rest) (List.range (b.length + 1))
  rows.getLastD 0

/-- The candidate with the least distance, the first one among equals. -/
def bestMatch (target : String) : List String → Option (ℕ × String) → Option (ℕ × String)
  | [], best => best
  | candidate :: rest, best =>
    if candidate = target then bestMatch target rest best
    else
      let distance := levenshtein target.toList candidate.toList
      match best with
      | none => bestMatch target rest (some (distance, candidate))
      | some (d, name) =>
        bestMatch target rest (some (if distance < d then (distance, candidate) else (d, name)))

def closestMatch (target : String) (candidates : List String) : Option String :=
  match bestMatch target candidates none with
  | none => none
  | some (distance, candidate) =>
    if distance ≤ 2 ∨ distance * 2 ≤ max target.length 2 then some candidate else none

/-! ### Scopes -/

/-- Some open scope has the name. -/
def visible (name : String) (scopes : List (List String)) : Bool :=
  scopes.any fun scope => scope.contains name

def declareIn (name : String) : List (List String) → List (List String)
  | [] => []
  | scope :: rest => (name :: scope) :: rest

def undefinedName (name : String) : String := "undefined name `" ++ name ++ "`"

def undefinedParent (name : String) : String := "parent class `" ++ name ++ "` is not defined"

def alreadyDefined (name : String) : String := "`" ++ name ++ "` is already defined in this scope"

namespace Resolver

def new : Resolver :=
  ⟨[["say", "alloc", "wait_any", "wait_all", "Ok", "Err", "_", "async", "chan"]], []⟩

def push (r : Resolver) (e : ResolveError) : Resolver := { r with errors := r.errors ++ [e] }

def inScope (operation : Resolver → Resolver) (r : Resolver) : Resolver :=
  let r := operation { r with scopes := [] :: r.scopes }
  { r with scopes := r.scopes.tail }

/-- The result constructors start as globals: a definition of the same name shadows the builtin. -/
def shadowsBuiltin (name : String) (r : Resolver) : Bool :=
  (name == "Ok" || name == "Err") && r.scopes.length == 1

def define (name : String) (span : Span) (r : Resolver) : Resolver :=
  match r.scopes with
  | [] => r
  | scope :: _ =>
    if scope.contains name then
      if r.shadowsBuiltin name then r else r.push ⟨alreadyDefined name, span, none⟩
    else { r with scopes := declareIn name r.scopes }

/-- A name that must be visible, with the message for when it is not. -/
def need (message : String → String) (name : String) (span : Span) (r : Resolver) : Resolver :=
  if visible name r.scopes then r
  else r.push ⟨message name, span, closestMatch name r.scopes.reverse.flatten⟩

def require : String → Span → Resolver → Resolver := need undefinedName

/-- An import binds its name once, however often it is repeated. -/
def bring (name : String) (span : Span) (r : Resolver) : Resolver :=
  if visible name r.scopes then r else r.define name span

def defineAll : List Token → Resolver → Resolver
  | [], r => r
  | name :: rest, r => defineAll rest (r.define name.lexeme name.span)

end Resolver

open Resolver

def paramNames (params : List FunctionParam) : List Token := params.map FunctionParam.name

/-- The methods of a class body that are entered before the members are resolved. -/
def methodNames : List Stmt → List Token
  | [] => []
  | .function name _ _ _ _ :: rest => name :: methodNames rest
  | _ :: rest => methodNames rest

/-- The names of the variants of an enum. -/
def memberNames : List EnumMember → List Token
  | [] => []
  | .mk name _ _ :: rest => name :: memberNames rest

/-- The declarations of a program that are entered before its statements are resolved. -/
def hoistedNames : List Stmt → List Token
  | [] => []
  | .function name _ _ _ _ :: rest => name :: hoistedNames rest
  | .asyncFunction name _ _ _ :: rest => name :: hoistedNames rest
  | .class name _ _ _ :: rest => name :: hoistedNames rest
  | .test name _ :: rest => name :: hoistedNames rest
  | .enum name _ members :: rest => name :: memberNames members ++ hoistedNames rest
  | _ :: rest => hoistedNames rest

/-! ### The traversal -/

mutual
def resolveExpression : Expr → Resolver → Resolver
  | .literal _ _, r => r
  | .this keyword, r => r.require "this" keyword.span
  | .variable name, r => r.require name.lexeme name.span
  | .assign name value, r => resolveExpression value (r.require name.lexeme name.span)
  | .unary _ right, r => resolveExpression right r
  | .spread value _, r => resolveExpression value r
  | .postfixUnary _ left, r => resolveExpression left r
  | .grouping expression _ _, r => resolveExpression expression r
  | .binary left _ right, r => resolveExpression right (resolveExpression left r)
  | .indexGet object index, r => resolveExpression index (resolveExpression object r)
  | .ternary condition thenBranch elseBranch, r =>
    resolveExpression elseBranch (resolveExpression thenBranch (resolveExpression condition r))
  | .call callee _ arguments, r => resolveExpressions arguments (resolveExpression callee r)
  | .await callee arguments _, r => resolveExpressions arguments (resolveExpression callee r)
  | .asyncBlock body _ _, r => resolveStatements body r
  | .chanSend channel value _, r => resolveExpression value (resolveExpression channel r)
  | .chanRecv receiver channel _, r =>
    (resolveExpression channel r).define receiver.lexeme receiver.span
  | .close channel _, r => resolveExpression channel r
  | .member object _, r => resolveExpression object r
  | .optionalMember object _, r => resolveExpression object r
  | .view target _ _, r => resolveExpression target r
  | .borrow target _ _, r => resolveExpression target r
  | .rawDeref target _, r => resolveExpression target r
  | .rawDerefSet target value _, r => resolveExpression value (resolveExpression target r)
  | .copy expression _, r => resolveExpression expression r
  | .propagate value _, r => resolveExpression value r
  | .indexSet object index value, r =>
    resolveExpression value (resolveExpression index (resolveExpression object r))
  | .memberSet object _ value, r => resolveExpression value (resolveExpression object r)
  | .lambda params _ body _, r =>
    r.inScope fun r => resolveStatements body (defineAll (paramNames params) r)
  | .objectLiteral properties _, r => resolveProperties properties r
  | .arrayLiteral elements _, r => resolveExpressions elements r
  | .structLiteral className fields update _, r =>
    resolveOption update (resolveProperties fields (r.require className.lexeme className.span))
  | .tupleLiteral elements _, r => resolveExpressions elements r
  | .tupleIndex object _ _, r => resolveExpression object r
def resolveExpressions : List Expr → Resolver → Resolver
  | [], r => r
  | e :: rest, r => resolveExpressions rest (resolveExpression e r)
def resolveOption : Option Expr → Resolver → Resolver
  | none, r => r
  | some e, r => resolveExpression e r
def resolveProperties : List ObjectProperty → Resolver → Resolver
  | [], r => r
  | .mk _ value _ :: rest, r => resolveProperties rest (resolveExpression value r)
def resolveStatement : Stmt → Resolver → Resolver
  | .expression expression, r => resolveExpression expression r
  | .throw value, r => resolveExpression value r
  | .say expression _, r => resolveExpression expression r
  | .var name _ initializer _ _ _, r =>
    (resolveOption initializer r).define name.lexeme name.span
  | .destructure _ _ names _ initializer, r => defineAll names (resolveExpression initializer r)
  | .block statements _ _, r => r.inScope (resolveStatements statements)
  | .if condition thenBranch elifBranches elseBranch, r =>
    resolveBranch elseBranch
      (resolveElifs elifBranches (resolveStatement thenBranch (resolveExpression condition r)))
  | .while condition body, r => resolveStatement body (resolveExpression condition r)
  | .doWhile body condition, r => resolveStatement body (resolveExpression condition r)
  | .for init condition update body, r =>
    r.inScope fun r =>
      resolveStatement body
        (resolveOption update (resolveOption condition (resolveBranch init r)))
  | .forIn name iterable body, r =>
    (resolveExpression iterable r).inScope fun r =>
      resolveStatement body (r.define name.lexeme name.span)
  | .forAwait name producer body, r =>
    (resolveExpression producer r).inScope fun r =>
      resolveStatement body (r.define name.lexeme name.span)
  | .chanRecvFor name channel body, r =>
    (resolveExpression channel r).inScope fun r =>
      resolveStatement body (r.define name.lexeme name.span)
  | .go call none _, r => resolveExpression call r
  | .go call (some block) _, r => (resolveExpression call r).inScope (resolveStatements block)
  | .function _ _ params _ body, r =>
    r.inScope fun r => resolveStatements body (defineAll (paramNames params) r)
  | .asyncFunction _ params _ body, r =>
    r.inScope fun r => resolveStatements body (defineAll (paramNames params) r)
  | .test _ body, r => r.inScope (resolveStatements body)
  | .return value, r => resolveOption value r
  | .class name _ parent body, r =>
    let r := match parent with
      | none => r
      | some parent => r.need undefinedParent parent.lexeme parent.span
    r.inScope fun r =>
      resolveStatements body (defineAll (methodNames body) (r.define "this" name.span))
  | .match expression cases defaultCase, r =>
    resolveBranch defaultCase (resolveCases cases (resolveExpression expression r))
  | .try tryBlock catchVar catchBlock finallyBlock, r =>
    resolveBranch finallyBlock
      (resolveHandler catchBlock catchVar (resolveStatement tryBlock r))
  | .retry count body catchVar catchBlock, r =>
    resolveHandler catchBlock catchVar (resolveStatement body (resolveExpression count r))
  | .unsafeBlock body, r => resolveStatement body r
  | .quiet _ body, r => resolveStatement body r
  | .break _, r => r
  | .continue _, r => r
  | .enum _ _ _, r => r
  | .typeAlias _ _ _, r => r
  | .trait _ _ _ _, r => r
  | .impl _ _ _, r => r
  | .use library false _ asName, r =>
    r.bring (match asName with | some name => name.lexeme | none => library.lexeme) library.span
  | .use _ true _ (some asName), r => r.bring asName.lexeme asName.span
  | .use _ true _ none, r => r
def resolveStatements : List Stmt → Resolver → Resolver
  | [], r => r
  | s :: rest, r => resolveStatements rest (resolveStatement s r)
def resolveBranch : Option Stmt → Resolver → Resolver
  | none, r => r
  | some s, r => resolveStatement s r
def resolveElifs : List ElifBranch → Resolver → Resolver
  | [], r => r
  | .mk condition body _ :: rest, r =>
    resolveElifs rest (resolveStatement body (resolveExpression condition r))
/-- The catch clause of `try` and of `retry`. -/
def resolveHandler : Option Stmt → Option Token → Resolver → Resolver
  | none, _, r => r
  | some body, none, r => r.inScope (resolveStatement body)
  | some body, some name, r =>
    r.inScope fun r => resolveStatement body (r.define name.lexeme name.span)
def resolveCases : List MatchCase → Resolver → Resolver
  | [], r => r
  | .mk _ (some ⟨_, some binding⟩) _ body _ :: rest, r =>
    resolveCases rest
      (r.inScope fun r => resolveStatement body (r.define binding.lexeme binding.span))
  | .mk _ (some ⟨_, none⟩) _ body _ :: rest, r => resolveCases rest (resolveStatement body r)
  | .mk value none guard body _ :: rest, r =>
    resolveCases rest
      (resolveStatement body (resolveOption guard (resolveExpression value r)))
end

/-- `resolve_program`: the errors in the order they were found. -/
def resolveProgram (statements : List Stmt) : List ResolveError :=
  (resolveStatements statements (defineAll (hoistedNames statements) Resolver.new)).errors

end Neutron.Names
