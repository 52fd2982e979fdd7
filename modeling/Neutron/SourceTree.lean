import Mathlib.Data.List.Basic
import Neutron.Tokens

/-!
# The syntax tree with its spans

The tree as the parser builds it: every constructor of the source's syntax, with its tokens and
the spans stored beside them.
-/

namespace Neutron.Source

/-- `TypeAnnotation`. -/
inductive TypeAnnotation where
  | int
  | float
  | string
  | bool
  | array (element : Option TypeAnnotation)
  | object
  | option (inner : TypeAnnotation)
  | result (ok err : TypeAnnotation)
  | view (inner : TypeAnnotation) (mutable : Bool)
  | shared (inner : TypeAnnotation)
  | any
  | pointer
  | slice (element : Option TypeAnnotation)
  | own (inner : TypeAnnotation)
  | ref (inner : TypeAnnotation) (mutable : Bool)
  | rawPointer (inner : TypeAnnotation) (mutable : Bool)
  | named (token : Token)
  | implTrait (token : Token)
  | dyn (token : Token)
  | tuple (elements : List TypeAnnotation)
  | chan (element : TypeAnnotation)

structure ReturnType where
  ty : TypeAnnotation
  arrowSpan : Span

structure FunctionParam where
  name : Token
  ann : Option TypeAnnotation

structure GenericParam where
  name : Token
  bounds : List Token

structure MatchPattern where
  variant : Token
  binding : Option Token

inductive LiteralValue where
  | nil
  | bool (b : Bool)
  | number (text : String)
  | string (text : String)
  deriving DecidableEq

mutual
inductive Expr where
  | literal (value : LiteralValue) (span : Span)
  | variable (name : Token)
  | binary (left : Expr) (op : Token) (right : Expr)
  | unary (op : Token) (right : Expr)
  | postfixUnary (op : Token) (left : Expr)
  | grouping (expression : Expr) (openSpan closeSpan : Span)
  | member (object : Expr) (property : Token)
  | optionalMember (object : Expr) (property : Token)
  | call (callee : Expr) (paren : Span) (arguments : List Expr)
  | assign (name : Token) (value : Expr)
  | indexGet (object index : Expr)
  | indexSet (object index value : Expr)
  | memberSet (object : Expr) (property : Token) (value : Expr)
  | this (keyword : Token)
  | lambda (params : List FunctionParam) (returnType : Option ReturnType) (body : List Stmt)
      (span : Span)
  | ternary (condition thenBranch elseBranch : Expr)
  | spread (value : Expr) (opSpan : Span)
  | objectLiteral (properties : List ObjectProperty) (span : Span)
  | arrayLiteral (elements : List Expr) (span : Span)
  | await (callee : Expr) (arguments : List Expr) (span : Span)
  | asyncBlock (body : List Stmt) (returnType : Option ReturnType) (span : Span)
  | view (target : Expr) (mutable : Bool) (keyword : Span)
  | copy (expression : Expr) (keyword : Span)
  | borrow (target : Expr) (mutable : Bool) (keyword : Span)
  | rawDeref (target : Expr) (star : Span)
  | rawDerefSet (target value : Expr) (star : Span)
  | structLiteral (className : Token) (fields : List ObjectProperty) (update : Option Expr)
      (span : Span)
  | propagate (value : Expr) (questionSpan : Span)
  | tupleLiteral (elements : List Expr) (span : Span)
  | tupleIndex (object : Expr) (index : ℕ) (dotSpan : Span)
  | chanSend (channel value : Expr) (opSpan : Span)
  | chanRecv (receiver : Token) (channel : Expr) (opSpan : Span)
  | close (channel : Expr) (keyword : Span)
inductive ObjectProperty where
  | mk (key : String) (value : Expr) (keySpan : Span)
inductive Stmt where
  | expression (expression : Expr)
  | say (expression : Expr) (keywordSpan : Span)
  | var (name : Token) (ann : Option TypeAnnotation) (initializer : Option Expr)
      (isStatic isConst : Bool) (view : Option Bool)
  | block (statements : List Stmt) (openSpan closeSpan : Span)
  | if (condition : Expr) (thenBranch : Stmt) (elifBranches : List ElifBranch)
      (elseBranch : Option Stmt)
  | while (condition : Expr) (body : Stmt)
  | doWhile (body : Stmt) (condition : Expr)
  | for (init : Option Stmt) (condition update : Option Expr) (body : Stmt)
  | forIn (name : Token) (iterable : Expr) (body : Stmt)
  | forAwait (name : Token) (producer : Expr) (body : Stmt)
  | chanRecvFor (name : Token) (channel : Expr) (body : Stmt)
  | go (call : Expr) (block : Option (List Stmt)) (keywordSpan : Span)
  | function (name : Token) (genericParams : List GenericParam) (params : List FunctionParam)
      (returnType : Option ReturnType) (body : List Stmt)
  | asyncFunction (name : Token) (params : List FunctionParam) (returnType : Option ReturnType)
      (body : List Stmt)
  | return (value : Option Expr)
  | class (name : Token) (genericParams : List GenericParam) (parent : Option Token)
      (body : List Stmt)
  | break (span : Span)
  | continue (span : Span)
  | match (expression : Expr) (cases : List MatchCase) (defaultCase : Option Stmt)
  | try (tryBlock : Stmt) (catchVar : Option Token) (catchBlock finallyBlock : Option Stmt)
  | throw (value : Expr)
  | retry (count : Expr) (body : Stmt) (catchVar : Option Token) (catchBlock : Option Stmt)
  | unsafeBlock (body : Stmt)
  | quiet (suppressed : List String) (body : Stmt)
  | destructure (isArray isTuple : Bool) (names : List Token) (keys : List String)
      (initializer : Expr)
  | use (library : Token) (isFilePath : Bool) (importedSymbols : List Token) (asName : Option Token)
  | enum (name : Token) (genericParams : List GenericParam) (members : List EnumMember)
  | typeAlias (name : Token) (genericParams : List GenericParam) (target : TypeAnnotation)
  | trait (name : Token) (parents associatedTypes : List Token) (methods : List Stmt)
  | impl (traitName typeName : Token) (body : List Stmt)
  | test (name : Token) (body : List Stmt)
inductive ElifBranch where
  | mk (condition : Expr) (body : Stmt) (elifSpan : Span)
inductive MatchCase where
  | mk (value : Expr) (pattern : Option MatchPattern) (guard : Option Expr) (body : Stmt)
      (caseSpan : Span)
inductive EnumMember where
  | mk (name : Token) (value : Option Expr) (dataTypes : List TypeAnnotation)
end

/-- The best-effort span of an expression: from its first to its last part. -/
def Expr.span : Expr → Span
  | literal _ span => span
  | .variable name => name.span
  | binary left _ right => left.span.to right.span
  | unary op right => op.span.to right.span
  | postfixUnary op left => left.span.to op.span
  | grouping _ openSpan closeSpan => openSpan.to closeSpan
  | member object property => object.span.to property.span
  | optionalMember object property => object.span.to property.span
  | call callee _ arguments => callee.span.to (lastSpan callee.span arguments)
  | assign name value => name.span.to value.span
  | indexGet object index => object.span.to index.span
  | indexSet object index _ => object.span.to index.span
  | memberSet object property _ => object.span.to property.span
  | this keyword => keyword.span
  | lambda _ _ _ span => span
  | ternary condition _ elseBranch => condition.span.to elseBranch.span
  | spread value opSpan => opSpan.to value.span
  | objectLiteral _ span => span
  | arrayLiteral _ span => span
  | await _ _ span => span
  | asyncBlock _ _ span => span
  | view target _ keyword => keyword.to target.span
  | copy expression keyword => keyword.to expression.span
  | borrow target _ keyword => keyword.to target.span
  | rawDeref target star => star.to target.span
  | rawDerefSet target value star => (star.to value.span).to target.span
  | structLiteral _ _ _ span => span
  | propagate value questionSpan => value.span.to questionSpan
  | tupleLiteral _ span => span
  | tupleIndex object _ dotSpan => object.span.to dotSpan
  | chanSend channel value opSpan => (channel.span.to value.span).to opSpan
  | chanRecv receiver channel opSpan => (receiver.span.to channel.span).to opSpan
  | close channel keyword => keyword.to channel.span
where
  /-- The span of the last expression of a list, or the given one. -/
  lastSpan (fallback : Span) : List Expr → Span
    | [] => fallback
    | [e] => e.span
    | _ :: rest => lastSpan fallback rest

end Neutron.Source
