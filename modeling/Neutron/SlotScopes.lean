import Mathlib.Data.List.Basic
import Neutron.SourceTree

/-!
# Slots of variables

The code generator keeps one map from names to slots. A declaration takes a new slot and enters
it under its name; a block and an arm of a match on variants put the map back as it was, the other
constructs that bind a name leave their binding in it. What the emission of a body does to this
map is a list of steps: the names it looks up, the names it declares, the constructs around them
and the basic blocks it ends.
-/

namespace Neutron.Slots
open Source

/-- A name whose slot the code loads or stores. The head of a call is routed to a builtin or to a
function of the module before any variable of its name is considered. -/
structure Use where
  name : String
  routed : Bool
  deriving DecidableEq

/-- The constructs that bind a name, or whose body is a scope. -/
inductive Construct where
  | block
  /-- An arm of a match with variant patterns, with or without a binder of its own. -/
  | arm (binds : Bool)
  | forLoop
  /-- The body of a `for`, which is emitted before the update. -/
  | forBody
  | forIn
  /-- The catch clause of `try` and of `retry`. -/
  | handler
  deriving DecidableEq

inductive Step where
  | use (u : Use)
  /-- A declaration of the language, and whether the code enters a slot for it. -/
  | declare (name : String) (bound : Bool)
  | inside (construct : Construct) (body : List Step)
  /-- Code of a basic block of its own; the emission goes on in another one. -/
  | branch (body : List Step)
  /-- The current basic block gets its terminator. -/
  | stop
  /-- The emission of the body fails. -/
  | fail

/-- What the emission of a body asks of its surroundings: the calls that go to a builtin, a function
of the module or a constructor, by name and by receiver and property; the names that a `go` block
captures; the elements of an expression that is emitted as a tuple; and the expressions whose emission
fails, for their types or the functions and classes of the module. A variable of a function type does not
have the name of a class. -/
structure Surroundings where
  direct : String → Bool
  member : String → String → Bool
  captures : Span → List String
  tupleLength : Expr → Option ℕ
  refuses : Expr → Bool

/-- The calls that take async blocks, which a function that is not async has none of. -/
def isWaitAnyOrAll (name : Token) : Bool := name.lexeme == "wait_any" || name.lexeme == "wait_all"

section
variable (m : Surroundings)

def plain (name : String) : Step := .use ⟨name, false⟩

mutual
/-- The names of an expression, with the head of a call routed as `emit_call` does it. The bodies of
lambdas are functions of their own; async blocks, awaits and channel operations are only emitted in async
bodies. -/
def exprSteps : Expr → List Step
  | .literal _ _ => []
  | .variable name => [plain name.lexeme]
  | .this _ => [plain "this"]
  | .assign name value => exprSteps value ++ [plain name.lexeme]
  | .binary left _ right => exprSteps left ++ exprSteps right
  | .unary _ right => exprSteps right
  | .postfixUnary _ left => exprSteps left
  | .grouping expression _ _ => exprSteps expression
  | .member object _ => exprSteps object
  | .optionalMember object _ => exprSteps object
  | .call (.variable name) _ arguments =>
    if isWaitAnyOrAll name then [.fail]
    else .use ⟨name.lexeme, m.direct name.lexeme⟩ :: exprsSteps arguments
  | .call (.member (.variable name) property) _ arguments =>
    .use ⟨name.lexeme, m.member name.lexeme property.lexeme⟩ :: exprsSteps arguments
  | .call callee _ arguments => exprSteps callee ++ exprsSteps arguments
  | .indexGet object index => exprSteps object ++ exprSteps index
  | .indexSet object index value => exprSteps object ++ exprSteps index ++ exprSteps value
  | .memberSet object _ value => exprSteps value ++ exprSteps object
  | .lambda _ _ _ _ => []
  | .ternary condition thenBranch elseBranch =>
    exprSteps condition ++ exprSteps thenBranch ++ exprSteps elseBranch
  | .spread value _ => exprSteps value
  | .objectLiteral properties _ => propertiesSteps properties
  | .arrayLiteral elements _ => exprsSteps elements
  | .await _ _ _ => [.fail]
  | .asyncBlock _ _ _ => [.fail]
  | .view target _ _ => exprSteps target
  | .copy expression _ => exprSteps expression
  | .borrow target _ _ => exprSteps target
  | .rawDeref target _ => exprSteps target
  | .rawDerefSet target value _ => exprSteps value ++ exprSteps target
  | .structLiteral _ fields update _ => propertiesSteps fields ++ optionSteps update
  | .propagate value _ => exprSteps value
  | .tupleLiteral elements _ => exprsSteps elements
  | .tupleIndex object _ _ => exprSteps object
  | .chanSend _ _ _ => [.fail]
  | .chanRecv _ _ _ => [.fail]
  | .close channel _ => exprSteps channel
def exprsSteps : List Expr → List Step
  | [] => []
  | e :: rest => exprSteps e ++ exprsSteps rest
def optionSteps : Option Expr → List Step
  | none => []
  | some e => exprSteps e
def propertiesSteps : List ObjectProperty → List Step
  | [] => []
  | .mk _ value _ :: rest => exprSteps value ++ propertiesSteps rest
end

/-- The code of an expression of a statement. -/
def valueSteps (e : Expr) : List Step := exprSteps m e ++ if m.refuses e then [.fail] else []

def valuesSteps : List Expr → List Step
  | [] => []
  | e :: rest => valueSteps m e ++ valuesSteps rest

def valueOptionSteps : Option Expr → List Step
  | none => []
  | some e => valueSteps m e

/-- `emit_tuple_destructure` takes the names up to the length of the tuple, and none of what is no tuple;
`emit_destructure` takes all of them. -/
def boundNames (isTuple : Bool) (initializer : Expr) (names : List Token) : ℕ :=
  if isTuple then (m.tupleLength initializer).getD 0 else names.length

def destructureSteps (bound : ℕ) (names : List Token) : List Step :=
  names.mapIdx fun i name => .declare name.lexeme (decide (i < bound))

/-- `case _`: neither the value nor the guard is looked at. -/
def isWildcard : Expr → Bool
  | .variable name => name.lexeme == "_"
  | _ => false

/-- The value and the guard of an arm without a variant pattern. -/
def headSteps (value : Expr) (guard : Option Expr) : List Step :=
  if isWildcard value then [] else valueSteps m value ++ valueOptionSteps m guard

def bindSteps : Option Token → List Step
  | none => []
  | some name => [.declare name.lexeme true]

def hasPattern : List MatchCase → Bool
  | [] => false
  | .mk _ pattern _ _ _ :: rest => pattern.isSome || hasPattern rest

/-- `emit_break` and `emit_continue`, which need the targets of a loop or a `retry`. -/
def jumpSteps (inLoop : Bool) : List Step := if inLoop then [.stop] else [.fail]

mutual
/-- `emit_statement_in_function`. -/
def stmtSteps (inLoop : Bool) : Stmt → List Step
  | .expression expression => valueSteps m expression
  | .say expression _ => valueSteps m expression
  | .return value => valueOptionSteps m value ++ [.stop]
  | .throw value => valueSteps m value ++ [.stop]
  | .break _ => jumpSteps inLoop
  | .continue _ => jumpSteps inLoop
  | .var name _ initializer _ _ _ => valueOptionSteps m initializer ++ [.declare name.lexeme true]
  | .destructure _ isTuple names _ initializer =>
    valueSteps m initializer ++ destructureSteps (boundNames m isTuple initializer names) names
  | .block statements _ _ => [.inside .block (stmtsSteps inLoop statements)]
  | .if condition thenBranch elifBranches elseBranch =>
    valueSteps m condition ++ .branch (stmtSteps inLoop thenBranch) ::
      elifSteps inLoop elseBranch.isSome (branchSteps inLoop elseBranch) elifBranches
  | .while condition body => valueSteps m condition ++ [.branch (stmtSteps true body)]
  | .doWhile body condition => .branch (stmtSteps true body) :: valueSteps m condition
  | .for init condition update body =>
    [.inside .forLoop (branchSteps inLoop init ++ valueOptionSteps m condition ++
      .inside .forBody [.branch (stmtSteps true body)] :: valueOptionSteps m update)]
  | .forIn name iterable body =>
    valueSteps m iterable ++
      [.inside .forIn [.declare name.lexeme true, .branch (stmtSteps true body)]]
  | .forAwait name producer body =>
    valueSteps m producer ++ valueSteps m producer ++
      [.inside .forIn [.declare name.lexeme true, .branch (stmtSteps true body)]]
  | .chanRecvFor _ _ _ => [.fail]
  | .go (.call (.variable _) _ arguments) none _ => valuesSteps m arguments
  | .go _ none _ => [.fail]
  | .go _ (some _) keywordSpan => (m.captures keywordSpan).map plain
  | .match expression cases defaultCase =>
    valueSteps m expression ++ casesSteps inLoop (hasPattern cases) cases ++
      [.branch (branchSteps inLoop defaultCase)]
  | .try tryBlock _ none none => stmtSteps inLoop tryBlock
  | .try tryBlock catchVar catchBlock finallyBlock =>
    .branch (stmtSteps inLoop tryBlock) :: handlerSteps inLoop catchBlock catchVar ++
      [.branch (branchSteps inLoop finallyBlock)]
  | .retry count body catchVar catchBlock =>
    valueSteps m count ++ .branch (stmtSteps true body) :: handlerSteps true catchBlock catchVar
  | .unsafeBlock body => stmtSteps inLoop body
  | .quiet _ body => stmtSteps inLoop body
  | .function _ _ _ _ _ => []
  | .asyncFunction _ _ _ _ => []
  | .class _ _ _ _ => []
  | .enum _ _ _ => []
  | .typeAlias _ _ _ => []
  | .trait _ _ _ _ => []
  | .impl _ _ _ => []
  | .test _ _ => []
  | .use _ _ _ _ => []
def stmtsSteps (inLoop : Bool) : List Stmt → List Step
  | [] => []
  | s :: rest => stmtSteps inLoop s ++ stmtsSteps inLoop rest
def branchSteps (inLoop : Bool) : Option Stmt → List Step
  | none => []
  | some s => stmtSteps inLoop s
/-- The chain after the first branch of `emit_if`, with the steps of the `else`: it goes on with
the second `elif`, and indexes an empty list where one `elif` is left with an `else`. -/
def elifSteps (inLoop hasElse : Bool) (last : List Step) : List ElifBranch → List Step
  | [] => [.branch last]
  | [.mk condition body _] =>
    valueSteps m condition ++ .branch (stmtSteps inLoop body) :: if hasElse then [.fail] else []
  | .mk condition body _ :: .mk condition' body' _ :: rest =>
    valueSteps m condition ++ .branch (stmtSteps inLoop body) :: valueSteps m condition' ++
      .branch (stmtSteps inLoop body') :: elifSteps inLoop hasElse last rest
def handlerSteps (inLoop : Bool) : Option Stmt → Option Token → List Step
  | some body, some name => [.inside .handler [.declare name.lexeme true, .branch (stmtSteps inLoop body)]]
  | _, _ => []
/-- The arms of a match. Where some arm has a variant pattern each has a scope, with the binder in
it before the guard. -/
def casesSteps (inLoop patterns : Bool) : List MatchCase → List Step
  | [] => []
  | .mk _ (some ⟨_, binding⟩) guard body _ :: rest =>
    .inside (.arm binding.isSome)
        (bindSteps binding ++ valueOptionSteps m guard ++ [.branch (stmtSteps inLoop body)]) ::
      casesSteps inLoop patterns rest
  | .mk value none guard body _ :: rest =>
    headSteps m value guard ++
      (if patterns then .inside (.arm false) [.branch (stmtSteps inLoop body)]
        else .branch (stmtSteps inLoop body)) :: casesSteps inLoop patterns rest
end

/-- The steps of a function: its parameters take their slots first. -/
def bodySteps (params : List String) (body : List Stmt) : List Step :=
  params.map (.declare · true) ++ stmtsSteps m false body

end

/-! ### Running the steps -/

/-- An environment: how a declaration enters its slot and what is left of it after a construct,
given the environment before the construct and the one at its end. -/
structure Scoping (ε : Type) where
  declare : String → ℕ → Bool → ε → ε
  leave : Construct → ε → ε → ε

structure Emission (ε : Type) where
  env : ε
  next : ℕ
  terminated : Bool
  failed : Bool
  accesses : List (Use × ε)

section
variable {ε : Type} (σ : Scoping ε)

mutual
/-- One step; nothing is emitted after a terminator. -/
def step : Step → Emission ε → Emission ε
  | .use u, s => if s.terminated then s else { s with accesses := s.accesses ++ [(u, s.env)] }
  | .declare name bound, s =>
    if s.terminated then s
    else { s with env := σ.declare name s.next bound s.env, next := s.next + 1 }
  | .inside construct body, s =>
    if s.terminated then s
    else
      let t := run body s
      { t with env := σ.leave construct s.env t.env }
  | .branch body, s => if s.terminated then s else { run body s with terminated := false }
  | .stop, s => { s with terminated := true }
  | .fail, s => if s.terminated then s else { s with failed := true }
def run : List Step → Emission ε → Emission ε
  | [], s => s
  | a :: rest, s => run rest (step a s)
end

def start (env : ε) : Emission ε := ⟨env, 0, false, false, []⟩

end

/-- The map of the code generator, the newest entry first. -/
abbrev SlotMap := List (String × ℕ)

/-- Only a block and an arm put the map back. -/
def emitRestores : Construct → Bool
  | .block => true
  | .arm _ => true
  | .forLoop => false
  | .forBody => false
  | .forIn => false
  | .handler => false

/-- Every construct that binds a name is a scope of the language. -/
def scopeEnds : Construct → Bool
  | .block => true
  | .arm binds => binds
  | .forLoop => true
  | .forBody => true
  | .forIn => true
  | .handler => true

/-- Entries of the newest declarations, dropped again after the constructs that end them. The code enters
the bound ones, the language all of them. -/
def slotMap (enters : Bool → Bool) (ends : Construct → Bool) : Scoping SlotMap where
  declare name slot bound env := if enters bound then (name, slot) :: env else env
  leave construct before env := if ends construct then before else env

/-- The slots that the code of a body loads and stores, in the order of the code. A routed use has
none. -/
def emittedSlots (m : Surroundings) (params : List String) (body : List Stmt) :
    List (Option ℕ) :=
  (run (slotMap id emitRestores) (bodySteps m params body) (start [])).accesses.map fun (u, env) =>
    if u.routed then none else env.lookup u.name

/-- The slots of the declarations that lexical scoping selects for the same uses. -/
def lexicalSlots (m : Surroundings) (params : List String) (body : List Stmt) :
    List (Option ℕ) :=
  (run (slotMap (fun _ => true) scopeEnds) (bodySteps m params body) (start [])).accesses.map fun (u, env) =>
    env.lookup u.name

end Neutron.Slots
