import Mathlib.Data.List.Basic

/-!
# The syntax tree

The statements and expressions the parser produces, as the passes after it walk them. A token
is its lexeme. The expressions whose operands every pass visits in order and that bind nothing
share one constructor, with the operands in the order of the source; a position is kept where a
pass uses it as a key.
-/

namespace Neutron.Syntax

abbrev Name := String

/-- `TypeAnnotation`. -/
inductive TypeAnnotation where
  | int
  | float
  | string
  | bool
  | array (element : Option TypeAnnotation)
  | object
  | option (inner : TypeAnnotation)
  | result (ok err : TypeAnnotation)
  | view (inner : TypeAnnotation) (mutable : Bool)
  | shared (inner : TypeAnnotation)
  | any
  | pointer
  | slice (element : Option TypeAnnotation)
  | own (inner : TypeAnnotation)
  | ref (inner : TypeAnnotation) (mutable : Bool)
  | rawPointer (inner : TypeAnnotation) (mutable : Bool)
  | named (lexeme : Name)
  | implTrait (lexeme : Name)
  | dyn (lexeme : Name)
  | tuple (elements : List TypeAnnotation)
  | chan (element : TypeAnnotation)

structure FunctionParam where
  name : Name
  ann : Option TypeAnnotation

structure GenericParam where
  name : Name
  bounds : List Name

/-- The expressions that only evaluate their operands. -/
inductive Operator where
  | literal (text : String)
  | this
  | binary (op : String)
  | unary (op : String)
  | postfixUnary (op : String)
  | grouping
  | member (property : Name)
  | optionalMember (property : Name)
  | call
  | indexGet
  | indexSet
  | memberSet (property : Name)
  | ternary
  | spread
  | objectLiteral (keys : List String)
  | arrayLiteral
  | await
  | view (mutable : Bool)
  | copy
  | borrow (mutable : Bool)
  | rawDeref
  | rawDerefSet
  | propagate
  | tupleLiteral
  | tupleIndex (index : ℕ)
  | chanSend
  | close
  deriving DecidableEq

/-- The loops over what an expression yields: `for x in e`, `for await x in e` and the loop over
a channel. -/
inductive EachForm where
  | forIn
  | forAwait
  | chanRecvFor
  deriving DecidableEq

inductive WithinForm where
  | unsafeBlock
  | quiet (suppressed : List String)
  deriving DecidableEq

mutual
inductive Expr where
  | var (name : Name)
  | assign (name : Name) (value : Expr)
  | operator (form : Operator) (operands : List Expr)
  | structLiteral (className : Name) (keys : List String) (fields : List Expr) (update : Option Expr)
  | lambda (params : List FunctionParam) (returnType : Option TypeAnnotation) (body : List Stmt)
  | asyncBlock (returnType : Option TypeAnnotation) (body : List Stmt)
  | chanRecv (receiver : Name) (channel : Expr) (site : ℕ)
inductive Stmt where
  | expression (e : Expr)
  | say (e : Expr)
  | var (name : Name) (ann : Option TypeAnnotation) (initializer : Option Expr)
      (isStatic isConst : Bool) (view : Option Bool)
  | block (statements : List Stmt)
  | ifThen (condition : Expr) (thenBranch : Stmt) (elifs : List ElifBranch)
      (elseBranch : Option Stmt)
  | while (condition : Expr) (body : Stmt)
  | doWhile (body : Stmt) (condition : Expr)
  | for (init : Option Stmt) (condition update : Option Expr) (body : Stmt)
  | each (form : EachForm) (x : Name) (source : Expr) (site : ℕ) (body : Stmt)
  | go (call : Expr) (block : Option (List Stmt)) (site : ℕ)
  | function (async : Bool) (name : Name) (generics : List GenericParam)
      (params : List FunctionParam) (returnType : Option TypeAnnotation) (body : List Stmt)
  | ret (value : Option Expr)
  | classDecl (name : Name) (generics : List GenericParam) (parent : Option Name) (body : List Stmt)
  | break
  | continue
  | match (scrutinee : Expr) (cases : List MatchCase) (defaultCase : Option Stmt)
  | tryCatch (body : Stmt) (handler : Option CatchClause) (last : Option Stmt)
  | throw (value : Expr)
  | retry (count : Expr) (body : Stmt) (handler : Option CatchClause)
  | within (form : WithinForm) (body : Stmt)
  | destructure (names : List Name) (keys : List String) (initializer : Expr)
  | use (library : Name) (isFilePath : Bool) (symbols : List Name) (asName : Option Name)
  | enumDecl (name : Name) (generics : List GenericParam) (members : List EnumMember)
  | typeAlias (name : Name) (generics : List GenericParam) (target : TypeAnnotation)
  | traitDecl (name : Name) (parents associatedTypes : List Name) (methods : List Stmt)
  | implDecl (traitName typeName : Name) (body : List Stmt)
  | test (name : Name) (body : List Stmt)
inductive ElifBranch where
  | mk (condition : Expr) (body : Stmt)
/-- `catch (x) body`: the parser sets the variable and the block together. -/
inductive CatchClause where
  | mk (x : Name) (body : Stmt)
/-- An arm; `variant` and `binding` are the pattern, when the head is one. -/
inductive MatchCase where
  | mk (value : Expr) (variant binding : Option Name) (guard : Option Expr) (body : Stmt)
inductive EnumMember where
  | mk (name : Name) (value : Option Expr) (dataTypes : List TypeAnnotation)
end

structure Program where
  statements : List Stmt

end Neutron.Syntax
