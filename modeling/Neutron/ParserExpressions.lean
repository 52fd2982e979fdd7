import Mathlib.Algebra.Group.Nat.Defs
import Neutron.ParserTypes

/-!
# Parsing expressions

The precedence climbing of the parser with every prefix and infix form. The parsers call each
other through `Calls`, which is unrolled where the statements are added.
-/

namespace Neutron.Source
open CursorParser

inductive Precedence where
  | none
  | assignment
  | ternary
  | or
  | and
  | equality
  | comparison
  | bitwiseOr
  | bitwiseXor
  | bitwiseAnd
  | shift
  | term
  | factor
  | unary
  | call
  deriving DecidableEq

namespace Precedence

/-- The place in the order of binding strengths. -/
def rank : Precedence → ℕ
  | none => 0
  | assignment => 1
  | ternary => 2
  | or => 3
  | and => 4
  | equality => 5
  | comparison => 6
  | bitwiseOr => 7
  | bitwiseXor => 8
  | bitwiseAnd => 9
  | shift => 10
  | term => 11
  | factor => 12
  | unary => 13
  | call => 14

def nextHigher : Precedence → Precedence
  | none => assignment
  | assignment => ternary
  | ternary => or
  | or => and
  | and => equality
  | equality => comparison
  | comparison => bitwiseOr
  | bitwiseOr => bitwiseXor
  | bitwiseXor => bitwiseAnd
  | bitwiseAnd => shift
  | shift => term
  | term => factor
  | factor => unary
  | unary => call
  | call => call

end Precedence

def infixPrecedence : TokenKind → Precedence
  | .equal => .assignment
  | .question => .ternary
  | .orSym => .or
  | .andSym => .and
  | .equalEqual | .bangEqual => .equality
  | .greater | .greaterEqual | .less | .lessEqual => .comparison
  | .pipe => .bitwiseOr
  | .caret => .bitwiseXor
  | .ampersand => .bitwiseAnd
  | .lessLess | .greaterGreater | .lessPipe | .pipeGreater => .shift
  | .plus | .minus => .term
  | .star | .slash | .percent => .factor
  | .plusPlus | .minusMinus => .call
  | .dot | .questionDot | .leftParen | .leftBracket => .call
  | _ => .none

/-- The operators that make a binary expression. -/
def isBinaryOperator : TokenKind → Bool
  | .plus | .minus | .star | .slash | .percent | .equalEqual | .bangEqual | .greater
  | .greaterEqual | .less | .lessEqual | .andSym | .orSym | .ampersand | .pipe | .caret
  | .lessLess | .greaterGreater => true
  | _ => false

/-- `str::parse::<usize>` on a 64-bit target: digits, after a `+` if there is one. -/
def parseUsize (s : String) : Option ℕ :=
  let digits := match s.toList with
    | '+' :: rest => rest
    | cs => cs
  if digits.isEmpty || !digits.all Char.isDigit then none
  else
    let value := digits.foldl (fun n c => 10 * n + (c.toNat - '0'.toNat)) 0
    if value < 2 ^ 64 then some value else none

/-- The functions that the parsers call recursively. -/
structure Calls where
  statement : Parser ParseError Stmt
  precedence : Precedence → Parser ParseError Expr

namespace Calls
variable (calls : Calls)

def expression : Parser ParseError Expr := calls.precedence .assignment

/-- Statements up to a closing brace or the end, with the newlines around them. -/
def parseStatements : Parser ParseError (List Stmt) := do
  skipNewlines
  loop (fun statements => do
    if ← kindIs fun kind => kind != .rightBrace && kind != .eof then
      let statement ← calls.statement
      skipNewlines
      return .inl (statements ++ [statement])
    else return .inr statements) []

def parseBlock : Parser ParseError Stmt := do
  let opening ← advance
  let statements ← calls.parseStatements
  let closing ← expect .rightBrace "expected '\x7d'"
  return .block statements opening.span closing.span

def parseFunctionBody : Parser ParseError (List Stmt) := do
  if ← check .leftBrace then
    match ← calls.parseBlock with
    | .block statements _ _ => return statements
    | _ => crash
  else if ← check .arrow then
    let _ ← advance
    skipNewlines
    let value ← calls.expression
    let _ ← consumeTerminator
    return [.return (some value)]
  else
    skipNewlines
    let value ← calls.expression
    let _ ← consumeTerminator
    return [.return (some value)]

def parseAsyncReturnType : Parser ParseError (Option ReturnType) := do
  match ← consume .returnArrow with
  | some _ =>
    let arrow ← peek
    let ty ← orError "expected return type" ( parseTypeAnnotation true)
    return some ⟨ty, arrow.span⟩
  | none => return none

/-- The rest of an async block, after `async`. -/
def parseAsyncBlockBody (asyncTokSpan : Span) : Parser ParseError Expr := do
  let returnType ← parseAsyncReturnType
  let _ ← expect .leftBrace "expected '\x7b' after 'async'"
  let body ← calls.parseStatements
  let closing ← expect .rightBrace "expected '\x7d'"
  return .asyncBlock body returnType (asyncTokSpan.to closing.span)

def parseAsyncBlock : Parser ParseError Expr := do
  let asyncTok ← advance
  calls.parseAsyncBlockBody asyncTok.span

/-- The string segment at the cursor, as a literal. -/
def parseSegment (parts : List Expr) : Parser ParseError (List Expr ⊕ List Expr) := do
  if ← kindIs isStringSegment then
    match ← look fun rest => kindAt rest 0 with
    | .stringSegment text =>
      let tok ← advance
      return .inl (parts ++ [.literal (.string text) tok.span])
    | _ => crash
  else return .inr parts

/-- The parts of an interpolated string joined by `+`. -/
def joinParts : List Expr → Expr
  | [] => .literal (.string "") Span.dummy
  | first :: parts =>
    parts.foldl (fun result part => .binary result ⟨.plus, first.span⟩ part) first

/-- The segments at the cursor and the expression behind them, if one can start there. -/
def parseParts (parts : List Expr) : Parser ParseError (List Expr ⊕ List Expr) := do
  let parts ← loop parseSegment parts
  if ← kindIs fun kind => !canStartExpression kind then return .inr parts
  else
    let part ← calls.expression
    return .inl (parts ++ [part])

def parseStringWithInterpolation : Parser ParseError Expr := do
  let parts ← loop calls.parseParts []
  return joinParts parts

def parseArrayLiteral : Parser ParseError Expr := do
  let opening ← advance
  let elements ← unlessClosed .rightBracket (separated .comma calls.expression)
  let closing ← expect .rightBracket "expected ']'"
  return .arrayLiteral elements (opening.span.to closing.span)

/-- The key of a property: a string literal or a name. -/
def parseKey (message : String) : Parser ParseError (String × Span) := do
  if ← kindIs isStringLiteral then
    let tok ← advance
    return (tok.lexeme, tok.span)
  else
    let tok ← expectIdent message
    return (tok.lexeme, tok.span)

def parseProperties : Parser ParseError (List ObjectProperty) :=
  loop (fun properties => do
    let key ← parseKey "expected property name"
    let _ ← expect .colon "expected ':'"
    let value ← calls.expression
    let properties := properties ++ [ObjectProperty.mk key.1 value key.2]
    match ← consume .comma with
    | some _ =>
      skipNewlines
      return .inl properties
    | none => return .inr properties) []

def parseObjectLiteral : Parser ParseError Expr := do
  let opening ← advance
  skipNewlines
  let properties ← unlessClosed .rightBrace calls.parseProperties
  let closing ← expect .rightBrace "expected '\x7d'"
  return .objectLiteral properties (opening.span.to closing.span)

/-- `..base` in a struct literal, or one of its fields. -/
def parseStructField (fields : List ObjectProperty) (update : Option Expr) :
    Parser ParseError (List ObjectProperty × Option Expr) := do
  if ← check .dotDot then
    if update.isSome then errorHere "struct literal can have only one `..` update"
    else
      let dot ← advance
      skipNewlines
      if ← kindIs fun kind => kind == .rightBrace || kind == .comma then
        fail ⟨"expected an expression after `..` in struct literal", dot.span⟩
      else
        let base ← calls.expression
        return (fields, some base)
  else
    let key ← parseKey "expected field name"
    match ← consume .colon with
    | some _ =>
      let value ← calls.expression
      return (fields ++ [.mk key.1 value key.2], update)
    | none => return (fields ++ [.mk key.1 (.variable ⟨.identifier key.1, key.2⟩) key.2], update)

/-- A struct literal, after its class name. -/
def parseStructLiteral (className : Token) : Parser ParseError Expr := do
  let _ ← advance
  skipNewlines
  let content ← loop (fun content => do
    if ← kindIs fun kind => kind != .rightBrace && kind != .eof then
      let content ← calls.parseStructField content.1 content.2
      match ← consume .comma with
      | some _ =>
        skipNewlines
        return .inl content
      | none => return .inr content
    else return .inr content) ([], none)
  let closing ← expect .rightBrace "expected '\x7d'"
  return .structLiteral className content.1 content.2 (className.span.to closing.span)

def parseLambda : Parser ParseError Expr := do
  let funToken ← advance
  let signature ← parseFunctionSignature
  skipNewlines
  let body ← calls.parseFunctionBody
  return .lambda signature.1 signature.2 body funToken.span

/-- The type arguments of a name that looks like a generic call become part of it. -/
def parseTypeApplication (tok : Token) : Parser ParseError Token := do
  if ← look looksLikeGenericCall then
    let arguments ← parseTypeArguments
    return ⟨.identifier (mangleAppliedType tok.lexeme arguments), tok.span⟩
  else return tok

/-- A name or a struct literal. -/
def parseIdentifier : Parser ParseError Expr := do
  let tok ← advance
  let tok ← parseTypeApplication tok
  if ← look fun rest => kindAt rest 0 == .leftBrace && lookaheadStructLiteralFields rest then
    calls.parseStructLiteral tok
  else return .variable tok

/-- The elements of a tuple behind the first. -/
def parseElement (elements : List Expr) : Parser ParseError (List Expr ⊕ List Expr) := do
  match ← consume .comma with
  | some _ =>
    if ← check .rightParen then return .inr elements
    else
      let element ← calls.expression
      return .inl (elements ++ [element])
  | none => return .inr elements

/-- The rest of a grouping, or of a tuple when a comma follows the first expression. -/
def closeParenthesized (opening : Token) (first : Expr) : Parser ParseError Expr := do
  if ← check .comma then
    let elements ← loop calls.parseElement [first]
    let closing ← expect .rightParen "expected ')' after tuple"
    return .tupleLiteral elements (opening.span.to closing.span)
  else
    let closing ← expect .rightParen "expected ')'"
    return .grouping first opening.span closing.span

def parseParenthesized : Parser ParseError Expr := do
  let opening ← advance
  let first ← calls.expression
  calls.closeParenthesized opening first

/-- Whether an async block follows at an offset from the cursor. -/
def asyncBlockAt (offset : ℕ) (rest : List Token) : Bool :=
  kindAt rest offset == .leftBrace || kindAt rest offset == .returnArrow

def parseAwait : Parser ParseError Expr := do
  let awaitTok ← advance
  if ← look fun rest => kindAt rest 0 == .async && asyncBlockAt 1 rest then
    let block ← calls.parseAsyncBlock
    return .await block [] (awaitTok.span.to block.span)
  else
    match ← calls.precedence .call with
    | .call callee _ arguments => return .await callee arguments (awaitTok.span.to callee.span)
    | other => fail ⟨"await requires an async function call", other.span⟩

/-- `name(expression)`, for the keywords that take one argument. -/
def parseKeywordCall (before after : String) (build : Expr → Span → Expr) :
    Parser ParseError Expr := do
  let keyword ← advance
  let _ ← expect .leftParen before
  let argument ← calls.expression
  let _ ← expect .rightParen after
  return build argument keyword.span

/-- An operator and its operand, with `mut` between them if it is there. -/
def parseBorrow (build : Expr → Bool → Span → Expr) : Parser ParseError Expr := do
  let keyword ← advance
  let mutable ← consume .mut
  let target ← calls.precedence .unary
  return build target mutable.isSome keyword.span

/-- The expression that a token of this kind begins. -/
def parsePrefixOf (kind : TokenKind) : Parser ParseError Expr := do
  match kind with
  | .numberLiteral _ =>
    let tok ← advance
    return .literal (.number tok.lexeme) tok.span
  | .stringLiteral _ =>
    let tok ← advance
    return .literal (.string tok.lexeme) tok.span
  | .stringSegment _ => calls.parseStringWithInterpolation
  | .true =>
    let tok ← advance
    return .literal (.bool true) tok.span
  | .false =>
    let tok ← advance
    return .literal (.bool false) tok.span
  | .nil =>
    let tok ← advance
    return .literal .nil tok.span
  | .close =>
    calls.parseKeywordCall "expected '(' after 'close'" "expected ')' after close argument" .close
  | .identifier _ => calls.parseIdentifier
  | .this =>
    let tok ← advance
    return .this tok
  | .minus | .bang | .tilde | .plusPlus | .minusMinus =>
    let op ← advance
    let right ← calls.precedence .unary
    return .unary op right
  | .dotDotDot =>
    let op ← advance
    let value ← calls.precedence .unary
    return .spread value op.span
  | .leftParen => calls.parseParenthesized
  | .await => calls.parseAwait
  | .async =>
    if ← look fun rest => asyncBlockAt 1 rest then calls.parseAsyncBlock
    else if ← look fun rest => kindAt rest 1 == .dot then
      let tok ← advance
      return .variable ⟨.identifier "async", tok.span⟩
    else errorHere "unexpected 'async' in expression"
  | .chan =>
    if ← look fun rest => kindAt rest 1 == .dot then
      let tok ← advance
      return .variable ⟨.identifier "chan", tok.span⟩
    else errorHere "unexpected 'chan' in expression; use `chan.new(capacity)`"
  | .view => calls.parseBorrow .view
  | .copy =>
    calls.parseKeywordCall "expected '(' after `copy`" "expected ')' after copy expression" .copy
  | .ampersand => calls.parseBorrow .borrow
  | .star =>
    let star ← advance
    let target ← calls.precedence .unary
    return .rawDeref target star.span
  | .leftBracket => calls.parseArrayLiteral
  | .leftBrace => calls.parseObjectLiteral
  | .fun => calls.parseLambda
  | kind => errorHere ("unexpected token '" ++ tokenDebugName kind ++ "' in expression")

def parsePrefix : Parser ParseError Expr := do
  let kind ← look fun rest => kindAt rest 0
  calls.parsePrefixOf kind

/-- What an assignment to an expression builds. -/
def assignTo (left value : Expr) : Option Expr :=
  match left with
  | .variable name => some (.assign name value)
  | .member object property => some (.memberSet object property value)
  | .indexGet object index => some (.indexSet object index value)
  | .rawDeref target star => some (.rawDerefSet target value star)
  | _ => none

def parseAssignment (left : Expr) : Parser ParseError Expr := do
  let _ ← advance
  let value ← calls.precedence .assignment
  match assignTo left value with
  | some e => return e
  | none => errorHere "invalid assignment target"

/-- A ternary, or the propagation operator when its branches do not parse. -/
def parseQuestion (left : Expr) : Parser ParseError Expr :=
  orRewind
    (do
      let _ ← advance
      let ternary ← attempt do
        let thenBranch ← calls.expression
        let _ ← expect .colon "expected ':' in ternary"
        let elseBranch ← calls.expression
        return Expr.ternary left thenBranch elseBranch
      return ternary.toOption)
    (do
      let question ← advance
      return .propagate left question.span)

/-- The tuple index that a token gives after a dot. -/
def tupleIndexOf : TokenKind → Option ℕ
  | .numberLiteral s => parseUsize s
  | _ => none

def parseDot (left : Expr) : Parser ParseError Expr := do
  let dotToken ← advance
  match ← look fun rest => tupleIndexOf (kindAt rest 0) with
  | some index =>
    let numToken ← advance
    return .tupleIndex left index (dotToken.span.to numToken.span)
  | none =>
    let property ← parseMemberName
    return .member left property

def parseArgument : Parser ParseError Expr := do
  if ← check .dotDotDot then
    let spreadOp ← advance
    let value ← calls.precedence .unary
    return .spread value spreadOp.span
  else calls.precedence .assignment

def parseCall (left : Expr) : Parser ParseError Expr := do
  let paren ← advance
  let arguments ← unlessClosed .rightParen (separated .comma calls.parseArgument)
  let _ ← expect .rightParen "expected ')'"
  return .call left paren.span arguments

def parseReceive (operand : Precedence) (left : Expr) : Parser ParseError Expr := do
  let op ← advance
  let channel ← calls.precedence operand
  match left with
  | .variable name => return .chanRecv name channel op.span
  | _ => fail ⟨"receive target must be a variable", op.span⟩

/-- How a token of this kind continues an expression. -/
def parseInfixOf (kind : TokenKind) (left : Expr) : Parser ParseError Expr := do
  let operand := (infixPrecedence kind).nextHigher
  if isBinaryOperator kind then
    let op ← advance
    let right ← calls.precedence operand
    return .binary left op right
  else
    match kind with
    | .pipeGreater =>
      let op ← advance
      let channel ← calls.precedence operand
      return .chanSend channel left op.span
    | .lessPipe => calls.parseReceive operand left
    | .equal => calls.parseAssignment left
    | .plusPlus | .minusMinus =>
      let op ← advance
      return .postfixUnary op left
    | .question => calls.parseQuestion left
    | .dot => parseDot left
    | .questionDot =>
      let _ ← advance
      let property ← parseMemberName
      return .optionalMember left property
    | .leftParen => calls.parseCall left
    | .leftBracket =>
      let _ ← advance
      let index ← calls.expression
      let _ ← expect .rightBracket "expected ']'"
      return .indexGet left index
    | _ => crash

def parseInfix (left : Expr) : Parser ParseError Expr := do
  let kind ← look fun rest => kindAt rest 0
  calls.parseInfixOf kind left

/-- Whether the token at the cursor continues an expression of this precedence. -/
def continues (precedence : Precedence) (kind : TokenKind) : Bool :=
  kind != .eof && decide (precedence.rank ≤ (infixPrecedence kind).rank)

def parseContinuation (precedence : Precedence) (left : Expr) :
    Parser ParseError (Expr ⊕ Expr) := do
  if ← kindIs (continues precedence) then
    let left ← calls.parseInfix left
    return .inl left
  else return .inr left

def parsePrecedence (precedence : Precedence) : Parser ParseError Expr := do
  let left ← calls.parsePrefix
  loop (calls.parseContinuation precedence) left

end Calls

end Neutron.Source
