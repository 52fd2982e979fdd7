import Mathlib.Data.List.Basic
import Mathlib.Data.String.Basic
import Neutron.ModuleAliases

/-!
# Scopes of the names of a module

The identifier occurrences of a module with the bindings in force at each, under the scoping the
checker applies: a local is in scope from its declaration to the end of its block, a loop, catch
or match variable in its body, a type parameter in the types of its declaration. Beside it stands
what the rewriter has entered at the same occurrence.
-/

namespace Neutron.NameScopes
open Syntax Aliases

/-- A binding around an occurrence: whether it binds values, whether it binds types, and whether
the rewriter has it in its scopes there. -/
structure Binder where
  name : Name
  value : Bool
  type : Bool
  entered : Bool

namespace Binder

/-- In scope for the language and for the rewriter. -/
def shared (x : Name) : Binder := ⟨x, true, false, true⟩

/-- In scope, but not entered by the rewriter. -/
def missed (x : Name) : Binder := ⟨x, true, false, false⟩

/-- Entered by the rewriter where it is not in scope. -/
def stray (x : Name) : Binder := ⟨x, false, false, true⟩

def typeParam (x : Name) : Binder := ⟨x, false, true, false⟩

end Binder

abbrev Context := List Binder

namespace Context

def values (ctx : Context) : List Name := (ctx.filter Binder.value).map Binder.name

def types (ctx : Context) : List Name := (ctx.filter Binder.type).map Binder.name

def entered (ctx : Context) : List Name := (ctx.filter Binder.entered).map Binder.name

end Context

/-- How an occurrence is resolved. -/
inductive Role where
  /-- A value, looked up among the local bindings and then the module's declarations. -/
  | value
  /-- A type: local variables do not hide it, type parameters do. -/
  | type
  /-- A type name the rewriter does not look at. -/
  | hidden
  /-- The name of a declaration; only one at the top level is the module's own. -/
  | declaration (top : Bool)
  /-- A local binding, or a name that belongs to another declaration. -/
  | bound
  deriving DecidableEq

structure Occurrence where
  name : Name
  role : Role
  context : Context

namespace Occurrence

/-- No local binding takes the name: it means the module's own declaration, where there is one. -/
def free (o : Occurrence) : Bool :=
  match o.role with
  | .value => decide (o.name ∉ o.context.values)
  | .type => decide (o.name ∉ o.context.types)
  | .hidden => decide (o.name ∉ o.context.types)
  | .declaration top => top
  | .bound => false

/-- The rewriter looks the name up and has no binding of it. -/
def looked (o : Occurrence) : Bool :=
  match o.role with
  | .value => decide (o.name ∉ o.context.entered)
  | .type => decide (o.name ∉ o.context.entered)
  | .declaration _ => decide (o.name ∉ o.context.entered)
  | .hidden => false
  | .bound => false

end Occurrence

/-- The characters that separate names in the text of an applied type. -/
def separators : List Char := ['<', '>', '[', ']', '(', ')', ',', ' ', '&', '*', '?']

/-- The names in the text of a type. -/
def segments (lexeme : Name) : List Name :=
  ((lexeme.toList.splitOnP fun c => decide (c ∈ separators)).filter fun text => !text.isEmpty).map
    String.ofList

section
variable (ctx : Context)

def valueAt (x : Name) : Occurrence := ⟨x, .value, ctx⟩

def typeAt (x : Name) : Occurrence := ⟨x, .type, ctx⟩

def hiddenAt (x : Name) : Occurrence := ⟨x, .hidden, ctx⟩

def declarationAt (top : Bool) (x : Name) : Occurrence := ⟨x, .declaration top, ctx⟩

def localName (x : Name) : Occurrence := ⟨x, .bound, []⟩

/-- The lexeme of a named type; the arguments of an applied type are in the lexeme. -/
def lexemeAt (lexeme : Name) : List Occurrence :=
  if segments lexeme = [lexeme] then [typeAt ctx lexeme]
  else (segments lexeme).map (hiddenAt ctx)

def typeOccurrences : TypeAnnotation → List Occurrence
  | .named lexeme => lexemeAt ctx lexeme
  | .array none => []
  | .array (some inner) => typeOccurrences inner
  | .option inner => typeOccurrences inner
  | .result ok err => typeOccurrences ok ++ typeOccurrences err
  | .view inner _ => typeOccurrences inner
  | .shared inner => typeOccurrences inner
  | .slice none => []
  | .slice (some inner) => typeOccurrences inner
  | .own inner => typeOccurrences inner
  | .ref inner _ => typeOccurrences inner
  | .rawPointer inner _ => typeOccurrences inner
  | .implTrait lexeme => lexemeAt ctx lexeme
  | .dyn lexeme => lexemeAt ctx lexeme
  | .tuple elements => typesOccurrences elements
  | .chan element => (typeOccurrences element).map fun o => { o with role := .hidden }
  | _ => []
where
  typesOccurrences : List TypeAnnotation → List Occurrence
    | [] => []
    | t :: rest => typeOccurrences t ++ typesOccurrences rest

def annotationOccurrences : Option TypeAnnotation → List Occurrence
  | none => []
  | some t => typeOccurrences ctx t

end

def paramsOccurrences (ctx : Context) : List FunctionParam → List Occurrence
  | [] => []
  | p :: rest =>
    localName p.name :: annotationOccurrences (.shared p.name :: ctx) p.ann ++
      paramsOccurrences (.shared p.name :: ctx) rest

def genericsOccurrences (ctx : Context) : List GenericParam → List Occurrence
  | [] => []
  | g :: rest =>
    localName g.name :: g.bounds.map (hiddenAt ctx) ++ genericsOccurrences ctx rest

/-! ### What a statement leaves in scope -/

mutual
/-- The receivers of an expression; a lambda and an `async` block keep theirs. -/
def exprDefined : Expr → List Name
  | .var _ => []
  | .assign _ value => exprDefined value
  | .operator _ operands => exprsDefined operands
  | .structLiteral _ _ fields update => exprsDefined fields ++ exprOptionDefined update
  | .lambda _ _ _ => []
  | .asyncBlock _ _ => []
  | .chanRecv receiver channel _ => receiver :: exprDefined channel
def exprsDefined : List Expr → List Name
  | [] => []
  | e :: rest => exprDefined e ++ exprsDefined rest
def exprOptionDefined : Option Expr → List Name
  | none => []
  | some e => exprDefined e
end

mutual
/-- The names in scope for the statements after this one in the same block. -/
def stmtDefined : Stmt → List Name
  | .expression e => exprDefined e
  | .say e => exprDefined e
  | .var name _ initializer _ _ _ => name :: exprOptionDefined initializer
  | .ifThen condition thenBranch elifs elseBranch =>
    exprDefined condition ++ stmtDefined thenBranch ++ elifsDefined elifs ++
      stmtOptionDefined elseBranch
  | .while condition body => exprDefined condition ++ stmtDefined body
  | .doWhile body condition => stmtDefined body ++ exprDefined condition
  | .each _ _ source _ _ => exprDefined source
  | .go call _ _ => exprDefined call
  | .ret value => exprOptionDefined value
  | .match scrutinee cases defaultCase =>
    exprDefined scrutinee ++ casesDefined cases ++ stmtOptionDefined defaultCase
  | .tryCatch body _ last => stmtDefined body ++ stmtOptionDefined last
  | .throw value => exprDefined value
  | .retry count body _ => exprDefined count ++ stmtDefined body
  | .within _ body => stmtDefined body
  | .destructure names _ initializer => names ++ exprDefined initializer
  | _ => []
def stmtOptionDefined : Option Stmt → List Name
  | none => []
  | some s => stmtDefined s
def elifsDefined : List ElifBranch → List Name
  | [] => []
  | .mk condition body :: rest => exprDefined condition ++ stmtDefined body ++ elifsDefined rest
/-- An arm that binds its payload has a scope of its own. -/
def casesDefined : List MatchCase → List Name
  | [] => []
  | .mk _ _ (some _) _ _ :: rest => casesDefined rest
  | .mk _ (some _) none _ body :: rest => stmtDefined body ++ casesDefined rest
  | .mk value none none guard body :: rest =>
    exprDefined value ++ exprOptionDefined guard ++ stmtDefined body ++ casesDefined rest
end

/-- The context after these names were defined, which the rewriter does not enter. -/
def after (names : List Name) (ctx : Context) : Context := names.map Binder.missed ++ ctx

/-- What the statement leaves in scope; the module's own declarations are no local bindings. -/
def localDefined (top : Bool) (s : Stmt) : List Name :=
  if top && (declared s).isSome then [] else stmtDefined s

/-! ### Occurrences -/

mutual
def exprOccurrences (ctx : Context) : Expr → List Occurrence
  | .var name => [valueAt ctx name]
  | .assign name value => valueAt ctx name :: exprOccurrences ctx value
  | .operator _ operands => exprsOccurrences ctx operands
  | .structLiteral className _ fields update =>
    valueAt ctx className :: exprsOccurrences ctx fields ++
      exprOptionOccurrences (after (exprsDefined fields) ctx) update
  | .lambda params returnType body =>
    let inner := (params.map fun p => Binder.shared p.name).reverse ++ ctx
    paramsOccurrences ctx params ++ annotationOccurrences inner returnType ++
      stmtsOccurrences false inner body
  | .asyncBlock returnType body =>
    annotationOccurrences ctx returnType ++ stmtsOccurrences false ctx body
  | .chanRecv receiver channel _ => localName receiver :: exprOccurrences ctx channel
def exprsOccurrences (ctx : Context) : List Expr → List Occurrence
  | [] => []
  | e :: rest => exprOccurrences ctx e ++ exprsOccurrences (after (exprDefined e) ctx) rest
def exprOptionOccurrences (ctx : Context) : Option Expr → List Occurrence
  | none => []
  | some e => exprOccurrences ctx e
def stmtOccurrences (top : Bool) (ctx : Context) : Stmt → List Occurrence
  | .expression e => exprOccurrences ctx e
  | .say e => exprOccurrences ctx e
  | .var name ann initializer isStatic _ _ =>
    (if isStatic then declarationAt ctx top name else localName name) ::
      annotationOccurrences ctx ann ++ exprOptionOccurrences ctx initializer
  | .block statements => stmtsOccurrences false ctx statements
  | .ifThen condition thenBranch elifs elseBranch =>
    let inThen := after (exprDefined condition) ctx
    let inElifs := after (stmtDefined thenBranch) inThen
    exprOccurrences ctx condition ++ stmtOccurrences false inThen thenBranch ++
      elifsOccurrences inElifs elifs ++
      stmtOptionOccurrences (after (elifsDefined elifs) inElifs) elseBranch
  | .while condition body =>
    exprOccurrences ctx condition ++
      stmtOccurrences false (after (exprDefined condition) ctx) body
  | .doWhile body condition =>
    stmtOccurrences false ctx body ++ exprOccurrences (after (stmtDefined body) ctx) condition
  | .for init condition update body =>
    let inLoop := after (stmtOptionDefined init) ctx
    let inUpdate := after (exprOptionDefined condition) inLoop
    stmtOptionOccurrences ctx init ++ exprOptionOccurrences inLoop condition ++
      exprOptionOccurrences inUpdate update ++
      stmtOccurrences false (after (exprOptionDefined update) inUpdate) body
  | .each _ x source _ body =>
    localName x :: exprOccurrences (.stray x :: ctx) source ++
      stmtOccurrences false (.shared x :: after (exprDefined source) ctx) body
  | .go call block _ =>
    exprOccurrences ctx call ++ stmtsOptionOccurrences (after (exprDefined call) ctx) block
  | .function _ name generics params returnType body =>
    let outer := (generics.map fun g => Binder.typeParam g.name) ++ ctx
    let inner := (params.map fun p => Binder.shared p.name).reverse ++ outer
    declarationAt ctx top name :: genericsOccurrences outer generics ++
      paramsOccurrences outer params ++ annotationOccurrences inner returnType ++
      stmtsOccurrences false inner body
  | .ret value => exprOptionOccurrences ctx value
  | .classDecl name generics parent body =>
    let inner := (generics.map fun g => Binder.typeParam g.name) ++ ctx
    declarationAt ctx top name :: genericsOccurrences inner generics ++
      parent.toList.map (valueAt ctx) ++ stmtsOccurrences false inner body
  | .break => []
  | .continue => []
  | .match scrutinee cases defaultCase =>
    let inCases := after (exprDefined scrutinee) ctx
    exprOccurrences ctx scrutinee ++ casesOccurrences inCases cases ++
      stmtOptionOccurrences
        ((entered.enteredCases cases).map Binder.stray ++ after (casesDefined cases) inCases)
        defaultCase
  | .tryCatch body none last =>
    stmtOccurrences false ctx body ++ stmtOptionOccurrences (after (stmtDefined body) ctx) last
  | .tryCatch body (some (.mk x handler)) last =>
    stmtOccurrences false (.stray x :: ctx) body ++ localName x ::
      stmtOccurrences false (.shared x :: after (stmtDefined body) ctx) handler ++
      stmtOptionOccurrences (.stray x :: after (stmtDefined body) ctx) last
  | .throw value => exprOccurrences ctx value
  | .retry count body none =>
    exprOccurrences ctx count ++ stmtOccurrences false (after (exprDefined count) ctx) body
  | .retry count body (some (.mk x handler)) =>
    let inBody := after (exprDefined count) ctx
    exprOccurrences (.stray x :: ctx) count ++ stmtOccurrences false (.stray x :: inBody) body ++
      localName x ::
      stmtOccurrences false (.shared x :: after (stmtDefined body) inBody) handler
  | .within _ body => stmtOccurrences false ctx body
  | .destructure names _ initializer =>
    names.map localName ++ exprOccurrences (names.map Binder.stray ++ ctx) initializer
  | .use _ _ _ _ => []
  | .enumDecl name generics members =>
    let inner := (generics.map fun g => Binder.typeParam g.name) ++ ctx
    declarationAt ctx top name :: genericsOccurrences inner generics ++
      membersOccurrences inner members
  | .typeAlias name generics target =>
    let inner := (generics.map fun g => Binder.typeParam g.name) ++ ctx
    declarationAt ctx top name :: genericsOccurrences inner generics ++
      typeOccurrences inner target
  | .traitDecl name parents associatedTypes methods =>
    declarationAt ctx top name :: parents.map (typeAt ctx) ++
      associatedTypes.map (declarationAt ctx false) ++ methodsOccurrences ctx methods
  | .implDecl traitName typeName body =>
    typeAt ctx traitName :: typeAt ctx typeName :: methodsOccurrences ctx body
  | .test name body => localName name :: stmtsOccurrences false (.stray name :: ctx) body
def stmtsOccurrences (top : Bool) (ctx : Context) : List Stmt → List Occurrence
  | [] => []
  | s :: rest =>
    stmtOccurrences top ctx s ++ stmtsOccurrences top (after (localDefined top s) ctx) rest
def stmtOptionOccurrences (ctx : Context) : Option Stmt → List Occurrence
  | none => []
  | some s => stmtOccurrences false ctx s
def stmtsOptionOccurrences (ctx : Context) : Option (List Stmt) → List Occurrence
  | none => []
  | some body => stmtsOccurrences false ctx body
/-- What an earlier method entered is still there at the next one. -/
def methodsOccurrences (ctx : Context) : List Stmt → List Occurrence
  | [] => []
  | s :: rest =>
    stmtOccurrences false ctx s ++ methodsOccurrences ((entered s).map Binder.stray ++ ctx) rest
def elifsOccurrences (ctx : Context) : List ElifBranch → List Occurrence
  | [] => []
  | .mk condition body :: rest =>
    let inBody := after (exprDefined condition) ctx
    exprOccurrences ctx condition ++ stmtOccurrences false inBody body ++
      elifsOccurrences (after (stmtDefined body) inBody) rest
/-- The head of an arm with a pattern repeats the variant and the binding of the pattern. -/
def casesOccurrences (ctx : Context) : List MatchCase → List Occurrence
  | [] => []
  | .mk value variant binding guard body :: rest =>
    let inHead := variant.toList.map Binder.missed ++ (binding.toList.map Binder.shared ++ ctx)
    let inGuard := after (exprDefined value) (binding.toList.map Binder.shared ++ ctx)
    exprOccurrences inHead value ++ variant.toList.map (declarationAt inGuard false) ++
      binding.toList.map localName ++ exprOptionOccurrences inGuard guard ++
      stmtOccurrences false (after (exprOptionDefined guard) inGuard) body ++
      casesOccurrences (binding.toList.map Binder.stray ++
        after (casesDefined [.mk value variant binding guard body]) ctx) rest
def membersOccurrences (ctx : Context) : List EnumMember → List Occurrence
  | [] => []
  | .mk name value dataTypes :: rest =>
    localName name :: exprOptionOccurrences ctx value ++
      typeOccurrences.typesOccurrences ctx dataTypes ++ membersOccurrences ctx rest
end

/-! ### Names of a tree, in the same order -/

def typeNames : TypeAnnotation → List Name
  | .named lexeme => segments lexeme
  | .array none => []
  | .array (some inner) => typeNames inner
  | .option inner => typeNames inner
  | .result ok err => typeNames ok ++ typeNames err
  | .view inner _ => typeNames inner
  | .shared inner => typeNames inner
  | .slice none => []
  | .slice (some inner) => typeNames inner
  | .own inner => typeNames inner
  | .ref inner _ => typeNames inner
  | .rawPointer inner _ => typeNames inner
  | .implTrait lexeme => segments lexeme
  | .dyn lexeme => segments lexeme
  | .tuple elements => typesNames elements
  | .chan element => typeNames element
  | _ => []
where
  typesNames : List TypeAnnotation → List Name
    | [] => []
    | t :: rest => typeNames t ++ typesNames rest

def annotationNames : Option TypeAnnotation → List Name
  | none => []
  | some t => typeNames t

def paramsNames : List FunctionParam → List Name
  | [] => []
  | p :: rest => p.name :: annotationNames p.ann ++ paramsNames rest

def genericsNames : List GenericParam → List Name
  | [] => []
  | g :: rest => g.name :: g.bounds ++ genericsNames rest

mutual
def exprNames : Expr → List Name
  | .var name => [name]
  | .assign name value => name :: exprNames value
  | .operator _ operands => exprsNames operands
  | .structLiteral className _ fields update =>
    className :: exprsNames fields ++ exprOptionNames update
  | .lambda params returnType body =>
    paramsNames params ++ annotationNames returnType ++ stmtsNames body
  | .asyncBlock returnType body => annotationNames returnType ++ stmtsNames body
  | .chanRecv receiver channel _ => receiver :: exprNames channel
def exprsNames : List Expr → List Name
  | [] => []
  | e :: rest => exprNames e ++ exprsNames rest
def exprOptionNames : Option Expr → List Name
  | none => []
  | some e => exprNames e
def stmtNames : Stmt → List Name
  | .expression e => exprNames e
  | .say e => exprNames e
  | .var name ann initializer _ _ _ =>
    name :: annotationNames ann ++ exprOptionNames initializer
  | .block statements => stmtsNames statements
  | .ifThen condition thenBranch elifs elseBranch =>
    exprNames condition ++ stmtNames thenBranch ++ elifsNames elifs ++ stmtOptionNames elseBranch
  | .while condition body => exprNames condition ++ stmtNames body
  | .doWhile body condition => stmtNames body ++ exprNames condition
  | .for init condition update body =>
    stmtOptionNames init ++ exprOptionNames condition ++ exprOptionNames update ++ stmtNames body
  | .each _ x source _ body => x :: exprNames source ++ stmtNames body
  | .go call block _ => exprNames call ++ stmtsOptionNames block
  | .function _ name generics params returnType body =>
    name :: genericsNames generics ++ paramsNames params ++ annotationNames returnType ++
      stmtsNames body
  | .ret value => exprOptionNames value
  | .classDecl name generics parent body =>
    name :: genericsNames generics ++ parent.toList ++ stmtsNames body
  | .break => []
  | .continue => []
  | .match scrutinee cases defaultCase =>
    exprNames scrutinee ++ casesNames cases ++ stmtOptionNames defaultCase
  | .tryCatch body none last => stmtNames body ++ stmtOptionNames last
  | .tryCatch body (some (.mk x handler)) last =>
    stmtNames body ++ x :: stmtNames handler ++ stmtOptionNames last
  | .throw value => exprNames value
  | .retry count body none => exprNames count ++ stmtNames body
  | .retry count body (some (.mk x handler)) =>
    exprNames count ++ stmtNames body ++ x :: stmtNames handler
  | .within _ body => stmtNames body
  | .destructure names _ initializer => names ++ exprNames initializer
  | .use _ _ _ _ => []
  | .enumDecl name generics members => name :: genericsNames generics ++ membersNames members
  | .typeAlias name generics target => name :: genericsNames generics ++ typeNames target
  | .traitDecl name parents associatedTypes methods =>
    name :: parents ++ associatedTypes ++ stmtsNames methods
  | .implDecl traitName typeName body => traitName :: typeName :: stmtsNames body
  | .test name body => name :: stmtsNames body
def stmtsNames : List Stmt → List Name
  | [] => []
  | s :: rest => stmtNames s ++ stmtsNames rest
def stmtOptionNames : Option Stmt → List Name
  | none => []
  | some s => stmtNames s
def stmtsOptionNames : Option (List Stmt) → List Name
  | none => []
  | some body => stmtsNames body
def elifsNames : List ElifBranch → List Name
  | [] => []
  | .mk condition body :: rest => exprNames condition ++ stmtNames body ++ elifsNames rest
def casesNames : List MatchCase → List Name
  | [] => []
  | .mk value variant binding guard body :: rest =>
    exprNames value ++ variant.toList ++ binding.toList ++ exprOptionNames guard ++
      stmtNames body ++ casesNames rest
def membersNames : List EnumMember → List Name
  | [] => []
  | .mk name value dataTypes :: rest =>
    name :: exprOptionNames value ++ typeNames.typesNames dataTypes ++ membersNames rest
end

end Neutron.NameScopes
