import Neutron.ParserExpressions

/-!
# Parsing statements and programs

The statement parsers, the unrolling of the recursion and the top-level loop with its error
recovery.
-/

namespace Neutron.Source
open CursorParser

namespace Calls
variable (calls : Calls)

def parseInitializer : Parser ParseError (Option Expr) := do
  match ← consume .equal with
  | some _ =>
    let value ← calls.expression
    return some value
  | none => return none

/-- `= expression` and the end of the statement, after a destructuring pattern. -/
def parseDestructured (message : String) (build : Expr → Stmt) : Parser ParseError Stmt := do
  let _ ← expect .equal message
  let initializer ← calls.expression
  let _ ← consumeTerminator
  return build initializer

/-- The end of a statement, if `c` says that one may stand here. -/
def terminateIf (c : Bool) : Parser ParseError (Option Span) :=
  if c then consumeTerminator else pure none

/-- What a name of a pattern binds: itself, or its alias in an object pattern. -/
def parseBound (isArray : Bool) (name : Token) : Parser ParseError Token :=
  if isArray then pure name
  else do
    match ← consume .colon with
    | some _ => expectIdent "expected alias name"
    | none => return name

def parseDestructure (ann : Option TypeAnnotation) (isStatic : Bool) : Parser ParseError Stmt := do
  let isArray ← check .leftBracket
  let _ ← advance
  let closeKind := if isArray then TokenKind.rightBracket else .rightBrace
  let content ← loop (fun content => do
    if ← check closeKind then return .inr content
    else
      let name ← expectIdent "expected variable name in destructuring"
      let bound ← parseBound isArray name
      let content := (content.1 ++ [bound], content.2 ++ [name.lexeme])
      match ← consume .comma with
      | some _ => return .inl content
      | none => return .inr content) (([], []) : List Token × List String)
  let _ ← expect closeKind "expected closing bracket/brace"
  let _ ← terminateIf (ann.isSome || isStatic)
  calls.parseDestructured "expected '=' in destructuring" fun initializer =>
    .destructure isArray false content.1 content.2 initializer

/-- The source calls it without an annotation only. -/
def parseTupleDestructure (ann : Option TypeAnnotation) : Parser ParseError Stmt := do
  let _ ← advance
  let names ← loop (fun names => do
    if ← check .rightParen then return .inr names
    else
      let name ← expectIdent "expected variable name in tuple destructuring"
      match ← consume .comma with
      | some _ => return .inl (names ++ [name])
      | none => return .inr (names ++ [name])) []
  let _ ← expect .rightParen "expected ')' after tuple destructuring"
  let _ ← terminateIf ann.isSome
  calls.parseDestructured "expected '=' in tuple destructuring" fun initializer =>
    .destructure false true names [] initializer

/-- Looks from a `(` for names, the matching `)` and a `=` behind it. -/
def isTupleDestructure : Parser ParseError Bool := do
  let _ ← advance
  if ← look fun rest => kindAt rest 0 != .rightParen && isIdent (kindAt rest 0) &&
      (kindAt rest 1 == .comma || kindAt rest 1 == .rightParen) then
    skipWhile fun kind => kind != .rightParen && kind != .eof
    if ← check .rightParen then
      let _ ← advance
      check .equal
    else return false
  else return false

/-- A declaration that does not begin with a tuple pattern. -/
def parseTypedDeclaration (view : Option Bool) (isStatic isConst : Bool) :
    Parser ParseError Stmt := do
  let ann ← optional parseDeclarationTypeAnnotation
  if ← kindIs fun kind => kind == .leftBracket || kind == .leftBrace then
    if view.isSome then errorHere "cannot destructure a view declaration"
    else calls.parseDestructure ann isStatic
  else
    let name ← expectIdent "expected variable name"
    let initializer ← calls.parseInitializer
    let _ ← consumeTerminator
    return .var name ann initializer isStatic isConst view

def parseVarDeclarationTail (view : Option Bool) (isStatic isConst : Bool) :
    Parser ParseError Stmt := do
  if ← kindIs fun kind => kind == .leftParen && !isStatic then
    if ← ahead isTupleDestructure then
      if view.isSome then errorHere "cannot destructure a view declaration"
      else calls.parseTupleDestructure none
    else calls.parseTypedDeclaration view isStatic isConst
  else calls.parseTypedDeclaration view isStatic isConst

/-- A non-static declaration; the source has no call for a static one. -/
def parseVarDeclaration : Parser ParseError Stmt := do
  let _ ← advance
  calls.parseVarDeclarationTail none false false

def parseViewVarDeclaration : Parser ParseError Stmt := do
  let _ ← advance
  let mutable ← consume .mut
  let _ ← expect .var "expected 'var' after 'view'"
  calls.parseVarDeclarationTail (some mutable.isSome) false false

def parseSharedVarDeclaration : Parser ParseError Stmt := do
  let ann ← orError "expected a heap type after 'shared'" ( parseTypeAnnotation true)
  let name ← expectIdent "expected variable name"
  let initializer ← calls.parseInitializer
  let _ ← consumeTerminator
  return .var name (some ann) initializer false false none

def parseStaticVar : Parser ParseError Stmt := do
  let _ ← advance
  let isConst ← consumeKeyword "const"
  let _ ← expect .var "expected 'var' after 'static'"
  calls.parseVarDeclarationTail none true isConst

def parseSayStatement : Parser ParseError Stmt := do
  let keyword ← advance
  let _ ← expect .leftParen "expected '(' after 'say'"
  let expression ← calls.expression
  let _ ← expect .rightParen "expected ')'"
  let _ ← consumeTerminator
  return .say expression keyword.span

def parseExpressionStatement : Parser ParseError Stmt := do
  let expression ← calls.expression
  let _ ← consumeTerminator
  return .expression expression

def parseFunctionDeclaration : Parser ParseError Stmt := do
  let _ ← advance
  let name ← parseMethodName
  let genericParams ← parseGenericParams
  let signature ← parseFunctionSignature
  let genericParams ← parseWhereBounds genericParams
  skipNewlines
  let body ← calls.parseFunctionBody
  return .function name genericParams signature.1 signature.2 body

/-- The default implementation of a trait method, or none. -/
def parseTraitMethodBody : Parser ParseError (List Stmt) := do
  if ← check .leftBrace then calls.parseFunctionBody
  else
    let _ ← consumeTerminator
    return []

/-- An associated type of a trait, or one of its methods. -/
def parseTraitItem (associatedTypes : List Token) (methods : List Stmt) :
    Parser ParseError (List Token × List Stmt) := do
  if ← check .type then
    let _ ← advance
    let name ← expectIdent "expected associated type name"
    let _ ← consumeTerminator
    skipNewlines
    return (associatedTypes ++ [name], methods)
  else
    let _ ← expect .fun "expected `fun` in trait"
    let name ← expectIdent "expected trait method name"
    let signature ← parseFunctionSignature
    let body ← calls.parseTraitMethodBody
    skipNewlines
    return (associatedTypes, methods ++ [.function name [] signature.1 signature.2 body])

def parseTraitParents : Parser ParseError (List Token) := do
  match ← consume .colon with
  | some _ => parseBounds "expected trait name after `:`"
  | none => return []

def parseTraitDeclaration : Parser ParseError Stmt := do
  let _ ← advance
  let name ← expectIdent "expected trait name"
  let parents ← parseTraitParents
  skipNewlines
  let _ ← expect .leftBrace "expected `\x7b` after trait name"
  skipNewlines
  let content ← loop (fun content => do
    if ← kindIs fun kind => kind != .rightBrace && kind != .eof then
      let content ← calls.parseTraitItem content.1 content.2
      return .inl content
    else return .inr content) ([], [])
  let _ ← expect .rightBrace "expected `\x7d` after trait"
  return .trait name parents content.1 content.2

def parseImplDeclaration : Parser ParseError Stmt := do
  let _ ← advance
  let traitName ← expectIdent "expected trait name after `impl`"
  let _ ← expect .for "expected `for` in trait implementation"
  let typeName ← expectIdent "expected type name after `for`"
  skipNewlines
  let _ ← expect .leftBrace "expected `\x7b` after impl target"
  let body ← calls.parseStatements
  let _ ← expect .rightBrace "expected `\x7d` after impl"
  return .impl traitName typeName body

/-- After `async`. -/
def parseAsyncFunctionDeclaration : Parser ParseError Stmt := do
  let _ ← advance
  let name ← expectIdent "expected function name"
  let signature ← parseFunctionSignature
  skipNewlines
  let body ← calls.parseFunctionBody
  return .asyncFunction name signature.1 signature.2 body

def parseTestBlock : Parser ParseError Stmt := do
  let _ ← advance
  let name ← expectIdent "expected test name"
  skipNewlines
  let _ ← expect .leftBrace "expected '\x7b' after test name"
  let body ← calls.parseStatements
  let _ ← expect .rightBrace "expected '\x7d'"
  return .test name body

def parseParentClass : Parser ParseError (Option Token) := do
  if ← checkIdent "extends" then
    let _ ← advance
    let parent ← expectIdent "expected parent class name"
    return some parent
  else return none

def parseClassDeclaration : Parser ParseError Stmt := do
  let _ ← advance
  let name ← expectIdent "expected class name"
  let genericParams ← parseGenericParams
  let parent ← parseParentClass
  let genericParams ← parseWhereBounds genericParams
  skipNewlines
  let _ ← expect .leftBrace "expected '\x7b' after class name"
  let body ← calls.parseStatements
  let _ ← expect .rightBrace "expected '\x7d'"
  return .class name genericParams parent body

def parseVariantData : Parser ParseError (List TypeAnnotation) := do
  match ← consume .leftParen with
  | some _ =>
    let types ← unlessClosed .rightParen
      (separated .comma (orError "expected type in enum variant data" ( parseTypeAnnotation true)))
    let _ ← expect .rightParen "expected ')' after enum variant data"
    return types
  | none => return []

def parseEnumMember : Parser ParseError EnumMember := do
  let name ← expectIdent "expected enum member name"
  let dataTypes ← parseVariantData
  let value ← calls.parseInitializer
  let _ ← consume .comma
  skipNewlines
  return .mk name value dataTypes

def parseEnumDeclaration : Parser ParseError Stmt := do
  let _ ← advance
  let name ← expectIdent "expected enum name"
  let genericParams ← parseGenericParams
  let genericParams ← parseWhereBounds genericParams
  skipNewlines
  let _ ← expect .leftBrace "expected '\x7b' after enum name"
  skipNewlines
  let members ← loop (fun members => do
    if ← kindIs fun kind => kind != .rightBrace && kind != .eof then
      let member ← calls.parseEnumMember
      return .inl (members ++ [member])
    else return .inr members) []
  let _ ← expect .rightBrace "expected '\x7d'"
  return .enum name genericParams members

def parseTypeAliasDeclaration : Parser ParseError Stmt := do
  let _ ← advance
  let name ← expectIdent "expected type alias name"
  let genericParams ← parseGenericParams
  let _ ← expect .equal "expected `=` after type alias name"
  let target ← orError "expected aliased type after `=`" ( parseTypeAnnotation true)
  let _ ← consumeTerminator
  return .typeAlias name genericParams target

/-- A condition in parentheses and the newlines after it. -/
def parseCondition (message : String) : Parser ParseError Expr := do
  let _ ← expect .leftParen message
  let condition ← calls.expression
  let _ ← expect .rightParen "expected ')'"
  skipNewlines
  return condition

/-- The statement that a keyword announces, when the keyword is there. -/
def parseClause (keyword : TokenKind) : Parser ParseError (Option Stmt) := do
  match ← consume keyword with
  | some _ =>
    skipNewlines
    let body ← calls.statement
    return some body
  | none => return none

def parseIfStatement : Parser ParseError Stmt := do
  let _ ← advance
  let condition ← calls.parseCondition "expected '(' after 'if'"
  let thenBranch ← calls.statement
  let elifBranches ← loop (fun elifBranches => do
    if ← check .elif then
      let elifToken ← advance
      let condition ← calls.parseCondition "expected '(' after 'elif'"
      let body ← calls.statement
      return .inl (elifBranches ++ [ElifBranch.mk condition body elifToken.span])
    else return .inr elifBranches) []
  let elseBranch ← calls.parseClause .else
  return .if condition thenBranch elifBranches elseBranch

def parseWhileStatement : Parser ParseError Stmt := do
  let _ ← advance
  let condition ← calls.parseCondition "expected '(' after 'while'"
  let body ← calls.statement
  return .while condition body

def parseDoWhileStatement : Parser ParseError Stmt := do
  let _ ← advance
  skipNewlines
  let body ← calls.statement
  let _ ← expect .while "expected 'while'"
  let _ ← expect .leftParen "expected '('"
  let condition ← calls.expression
  let _ ← expect .rightParen "expected ')'"
  let _ ← consumeTerminator
  return .doWhile body condition

/-- `name in expression { body }`, the tail of the loops over a producer. -/
def parseForTail (variableMessage inMessage braceMessage : String)
    (build : Token → Expr → Stmt → Stmt) : Parser ParseError Stmt := do
  let name ← expectIdent variableMessage
  let _ ← expect .in inMessage
  let producer ← calls.expression
  skipNewlines
  let _ ← expect .leftBrace braceMessage
  let body ← calls.parseStatements
  let _ ← expect .rightBrace "expected '\x7d'"
  return build name producer (.block body Span.dummy Span.dummy)

def parseForInStatement : Parser ParseError Stmt := do
  let _ ← expect .leftParen "expected '('"
  let _ ← expect .var "expected 'var'"
  let name ← expectIdent "expected loop variable name"
  let _ ← expect .in "expected 'in'"
  let iterable ← calls.expression
  let _ ← expect .rightParen "expected ')'"
  skipNewlines
  let body ← calls.statement
  return .forIn name iterable body

/-- Looks from a `(` for `var name in`. -/
def isForIn : Parser ParseError Bool := do
  let _ ← advance
  if ← check .var then
    let _ ← advance
    if ← kindIs isIdent then
      let _ ← advance
      check .in
    else return false
  else return false

def detectsForIn : Parser ParseError Bool := do
  if ← check .leftParen then ahead isForIn else return false

def parseForInit : Parser ParseError (Option Stmt) := do
  if ← check .var then
    let declaration ← calls.parseVarDeclaration
    return some declaration
  else if ← kindIs fun kind => kind != .semicolon && kind != .newline then
    let expression ← calls.expression
    let _ ← consumeTerminator
    return some (.expression expression)
  else
    let _ ← consumeTerminator
    return none

def parseForCondition : Parser ParseError (Option Expr) := do
  if ← kindIs fun kind => kind == .semicolon || kind == .newline then
    let _ ← consumeTerminator
    return none
  else
    let condition ← calls.expression
    let _ ← consumeTerminator
    return some condition

def parseForUpdate : Parser ParseError (Option Expr) := do
  if ← check .rightParen then return none
  else
    let update ← calls.expression
    return some update

/-- `(init; condition; update) body`. -/
def parseForClauses : Parser ParseError Stmt := do
  let _ ← expect .leftParen "expected '(' after 'for'"
  let init ← calls.parseForInit
  let condition ← calls.parseForCondition
  let update ← calls.parseForUpdate
  let _ ← expect .rightParen "expected ')'"
  skipNewlines
  let body ← calls.statement
  return .for init condition update body

def parseForStatement : Parser ParseError Stmt := do
  let _ ← advance
  if ← check .await then
    let _ ← advance
    calls.parseForTail "expected variable name after 'for await'"
      "expected 'in' after 'for await variable'" "expected '\x7b' for for-await body" .forAwait
  else if ← look fun rest => isIdent (kindAt rest 0) && kindAt rest 1 == .in then
    calls.parseForTail "expected channel element variable name" "expected 'in' after 'for variable'"
      "expected '\x7b' for channel-for body" .chanRecvFor
  else
    if ← detectsForIn then calls.parseForInStatement else calls.parseForClauses

def parseGoStatement : Parser ParseError Stmt := do
  let keyword ← advance
  skipNewlines
  if ← check .leftBrace then
    let _ ← advance
    let body ← calls.parseStatements
    let _ ← expect .rightBrace "expected '\x7d' after go block"
    return .go (.literal .nil keyword.span) (some body) keyword.span
  else
    let call ← calls.expression
    return .go call none keyword.span

def parseReturnValue : Parser ParseError (Option Expr) := do
  if ← kindIs fun kind => kind == .newline || kind == .semicolon then return none
  else
    let value ← calls.expression
    return some value

def parseReturnStatement : Parser ParseError Stmt := do
  let _ ← advance
  let value ← calls.parseReturnValue
  let _ ← consumeTerminator
  return .return value

/-- `break` and `continue`. -/
def parseJump (build : Span → Stmt) : Parser ParseError Stmt := do
  let tok ← advance
  let _ ← consumeTerminator
  return build tok.span

/-- The variant pattern that a match arm headed `Ok(binder)` or `Err(binder)` stands for. -/
def matchPatternHead : Expr → Option MatchPattern
  | .call (.variable variant) _ [.variable binding] =>
    if variant.lexeme = "Ok" || variant.lexeme = "Err" then
      some ⟨variant, if binding.lexeme = "_" then none else some binding⟩
    else none
  | _ => none

def parseGuard : Parser ParseError (Option Expr) := do
  if ← check .if then
    let _ ← advance
    let guard ← calls.expression
    return some guard
  else return none

def parseMatchCase (cases : List MatchCase) (defaultCase : Option Stmt) :
    Parser ParseError (List MatchCase × Option Stmt) := do
  if ← check .default then
    let _ ← advance
    let _ ← expect .arrow "expected '=>' after 'default'"
    let body ← calls.statement
    return (cases, some body)
  else
    let caseToken ← advance
    let value ← calls.expression
    let guard ← calls.parseGuard
    let _ ← expect .arrow "expected '=>'"
    let body ← calls.statement
    return (cases ++ [.mk value (matchPatternHead value) guard body caseToken.span], defaultCase)

def parseMatchStatement : Parser ParseError Stmt := do
  let _ ← advance
  let expression ← calls.parseCondition "expected '(' after 'match'"
  let _ ← expect .leftBrace "expected '\x7b'"
  skipNewlines
  let content ← loop (fun content => do
    if ← kindIs fun kind => kind != .rightBrace && kind != .eof then
      let content ← calls.parseMatchCase content.1 content.2
      skipNewlines
      return .inl content
    else return .inr content) ([], none)
  let _ ← expect .rightBrace "expected '\x7d'"
  return .match expression content.1 content.2

/-- `catch (name) body`, when it is there. -/
def parseCatch : Parser ParseError (Option Token × Option Stmt) := do
  match ← consume .catch with
  | some _ =>
    let _ ← expect .leftParen "expected '(' after 'catch'"
    let name ← expectIdent "expected catch variable name"
    let _ ← expect .rightParen "expected ')'"
    skipNewlines
    let body ← calls.statement
    return (some name, some body)
  | none => return (none, none)

def parseTryStatement : Parser ParseError Stmt := do
  let _ ← advance
  skipNewlines
  let tryBlock ← calls.statement
  let handler ← calls.parseCatch
  let finallyBlock ← calls.parseClause .finally
  return .try tryBlock handler.1 handler.2 finallyBlock

def parseThrowStatement : Parser ParseError Stmt := do
  let _ ← advance
  let value ← calls.expression
  let _ ← consumeTerminator
  return .throw value

def parseRetryStatement : Parser ParseError Stmt := do
  let _ ← advance
  let count ← calls.expression
  skipNewlines
  let body ← calls.statement
  let handler ← calls.parseCatch
  return .retry count body handler.1 handler.2

def parseUnsafeStatement : Parser ParseError Stmt := do
  let _ ← advance
  skipNewlines
  let body ← calls.statement
  return .unsafeBlock body

def parseSuppressed : Parser ParseError (List String) := do
  match ← consume .leftBracket with
  | some _ =>
    if ← check .rightBracket then
      errorHere "expected at least one warning name in `quiet [...]`"
    else
      let names ← separated .comma (expectIdent "expected a warning name")
      let _ ← expect .rightBracket "expected ']' after warning names"
      skipNewlines
      return names.map Token.lexeme
  | none => return []

def parseQuietStatement : Parser ParseError Stmt := do
  let _ ← advance
  skipNewlines
  let suppressed ← parseSuppressed
  let body ← calls.statement
  return .quiet suppressed body

/-- A file path in quotes, or the name of a module. -/
def parseLibrary (message : String) : Parser ParseError (Token × Bool) := do
  if ← kindIs isStringLiteral then
    let tok ← advance
    return (⟨.identifier tok.lexeme, tok.span⟩, true)
  else
    let tok ← expectIdent message
    return (tok, false)

def parseSelectiveUse : Parser ParseError Stmt := do
  let _ ← advance
  let importedSymbols ← unlessClosed .rightParen
    (separated .comma (expectIdent "expected imported symbol name"))
  let _ ← expect .rightParen "expected ')'"
  let _ ← expect .equal "expected '='"
  let _ ← expect .from "expected 'from'"
  let library ← parseLibrary "expected module name"
  let _ ← consumeTerminator
  return .use library.1 library.2 importedSymbols none

def parseAlias : Parser ParseError (Option Token) := do
  if ← check .as then
    let _ ← advance
    let name ← expectIdent "expected alias name"
    return some name
  else return none

def parseUseStatement : Parser ParseError Stmt := do
  let _ ← advance
  if ← check .leftParen then parseSelectiveUse
  else
    let library ← parseLibrary "expected module name or file path"
    let asName ← parseAlias
    let _ ← consumeTerminator
    return .use library.1 library.2 [] asName

/-- After `async` at the start of a statement. -/
def parseAsyncStatement : Parser ParseError Stmt := do
  let _ ← advance
  if ← check .fun then calls.parseAsyncFunctionDeclaration
  else if ← kindIs fun kind => kind == .leftBrace || kind == .returnArrow then
    let t ← peek
    let block ← calls.parseAsyncBlockBody t.span
    return .expression block
  else errorHere "expected 'fun', '\x7b', or '->' after 'async'"

/-- The statement that a token of this kind begins. -/
def parseStatementOf (kind : TokenKind) : Parser ParseError Stmt := do
  match kind with
  | .var => calls.parseVarDeclaration
  | .static => calls.parseStaticVar
  | .shared => calls.parseSharedVarDeclaration
  | .view =>
    if ← look fun rest => kindAt rest 1 == .var || (kindAt rest 1 == .mut && kindAt rest 2 == .var)
    then calls.parseViewVarDeclaration
    else calls.parseExpressionStatement
  | .fun =>
    if ← look fun rest => (isIdent (kindAt rest 1) && !(kindAt rest 1).isTypeKeyword) ||
      isOperatorToken (kindAt rest 1)
    then calls.parseFunctionDeclaration
    else calls.parseExpressionStatement
  | .async => calls.parseAsyncStatement
  | .go => calls.parseGoStatement
  | .class => calls.parseClassDeclaration
  | .enum => calls.parseEnumDeclaration
  | .type => parseTypeAliasDeclaration
  | .trait => calls.parseTraitDeclaration
  | .impl => calls.parseImplDeclaration
  | .if => calls.parseIfStatement
  | .while => calls.parseWhileStatement
  | .do => calls.parseDoWhileStatement
  | .for => calls.parseForStatement
  | .match => calls.parseMatchStatement
  | .try => calls.parseTryStatement
  | .throw => calls.parseThrowStatement
  | .retry => calls.parseRetryStatement
  | .unsafeBlock => calls.parseUnsafeStatement
  | .quiet => calls.parseQuietStatement
  | .return => calls.parseReturnStatement
  | .break => parseJump .break
  | .continue => parseJump .continue
  | .use => parseUseStatement
  | .test => calls.parseTestBlock
  | .leftBrace => calls.parseBlock
  | .say => calls.parseSayStatement
  | _ => calls.parseExpressionStatement

def parseStatement : Parser ParseError Stmt := do
  skipNewlines
  let kind ← look fun rest => kindAt rest 0
  calls.parseStatementOf kind

end Calls

/-- The parsers with their recursion unrolled `n` times. -/
def level : ℕ → Calls
  | 0 => ⟨exhausted, fun _ => exhausted⟩
  | n + 1 => ⟨Calls.parseStatement ⟨(level n).statement, (level n).parsePrecedence⟩,
    (level n).parsePrecedence⟩

def parseStatement : Parser ParseError Stmt :=
  fun ts pos => (level (ts.length + 1)).statement ts pos

def parsePrecedence (precedence : Precedence) : Parser ParseError Expr :=
  fun ts pos => (level (ts.length + 1)).precedence precedence ts pos

def parseExpression : Parser ParseError Expr := parsePrecedence .assignment

/-- The statements and the errors so far. -/
structure Parsed where
  statements : List Stmt
  errors : List ParseError

/-- One turn of the top-level loop, which no error leaves. -/
def parseTopLevel (parsed : Parsed) : Parser Empty (Parsed ⊕ Parsed) := do
  if ← kindIs (· != .eof) then
    if ← check .newline then
      let _ ← advance
      return .inl parsed
    else
      match ← attempt parseStatement with
      | .ok statement =>
        return .inl { parsed with statements := parsed.statements ++ [statement] }
      | .error e =>
        synchronize
        return .inl { parsed with errors := parsed.errors ++ [e] }
  else return .inr parsed

def parse : Parser Empty (Except (List ParseError) (List Stmt)) := do
  let parsed ← loop parseTopLevel ⟨[], []⟩
  if parsed.errors.isEmpty then return .ok parsed.statements
  else return .error parsed.errors

end Neutron.Source
