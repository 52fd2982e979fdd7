import Neutron.CursorParser
import Neutron.SourceTree

/-!
# The parser's view of the tokens

The tables and the navigation primitives of the parser: what it reads at the cursor, how it takes
expected tokens, where a statement may end and where it resumes after an error.
-/

namespace Neutron.Source
open CursorParser

structure ParseError where
  message : String
  span : Span

abbrev Parser := CursorParser Token

/-- Operator tokens that may be used as an overloaded method name. -/
def isOperatorToken : TokenKind → Bool
  | .plus | .minus | .star | .slash | .percent | .bang | .equalEqual | .bangEqual | .less
  | .lessEqual | .greater | .greaterEqual => true
  | _ => false

def operatorTokenLexeme : TokenKind → String
  | .plus => "+"
  | .minus => "-"
  | .star => "*"
  | .slash => "/"
  | .percent => "%"
  | .bang => "!"
  | .equalEqual => "=="
  | .bangEqual => "!="
  | .less => "<"
  | .lessEqual => "<="
  | .greater => ">"
  | .greaterEqual => ">="
  | _ => ""

def tokenDebugName : TokenKind → String
  | .leftParen => "("
  | .rightParen => ")"
  | .leftBrace => "\x7b"
  | .rightBrace => "\x7d"
  | .leftBracket => "["
  | .rightBracket => "]"
  | .comma => ","
  | .dot => "."
  | .minus => "-"
  | .plus => "+"
  | .semicolon => ";"
  | .slash => "/"
  | .star => "*"
  | .colon => ":"
  | .percent => "%"
  | .ampersand => "&"
  | .pipe => "|"
  | .caret => "^"
  | .tilde => "~"
  | .question => "?"
  | .bang => "!"
  | .bangEqual => "!="
  | .equal => "="
  | .equalEqual => "=="
  | .greater => ">"
  | .greaterEqual => ">="
  | .greaterGreater => ">>"
  | .less => "<"
  | .lessEqual => "<="
  | .lessLess => "<<"
  | .lessPipe => "<|"
  | .pipeGreater => "|>"
  | .plusPlus => "++"
  | .minusMinus => "--"
  | .andSym => "&&"
  | .orSym => "||"
  | .arrow => "=>"
  | .returnArrow => "->"
  | .dotDotDot => "..."
  | .dotDot => ".."
  | .questionDot => "?."
  | .identifier _ => "identifier"
  | .stringLiteral _ => "string literal"
  | .stringSegment _ => "string segment"
  | .numberLiteral _ => "number literal"
  | .newline => "newline"
  | .eof => "end of file"
  | keyword => keyword.keywordLexeme.getD ""

/-- Read past the end of the tokens. -/
def eofToken : Token := ⟨.eof, Span.dummy⟩

/-- The token at an offset from the cursor, where `rest` is what is left. -/
def tokenAt (rest : List Token) (offset : ℕ) : Token := rest.getD offset eofToken

def kindAt (rest : List Token) (offset : ℕ) : TokenKind := (tokenAt rest offset).kind

def isIdent : TokenKind → Bool
  | .identifier _ => true
  | _ => false

def isStringLiteral : TokenKind → Bool
  | .stringLiteral _ => true
  | _ => false

def isStringSegment : TokenKind → Bool
  | .stringSegment _ => true
  | _ => false

section Navigation
variable {ε α : Type}

def peek : Parser ε Token := look fun rest => tokenAt rest 0

/-- Whether the kind of the token at the cursor passes a test. -/
def kindIs (c : TokenKind → Bool) : Parser ε Bool := look fun rest => c (kindAt rest 0)

def check (kind : TokenKind) : Parser ε Bool := kindIs (· == kind)

def isAtEnd : Parser ε Bool := check .eof

def checkIdent (text : String) : Parser ε Bool := check (.identifier text)

def consume (kind : TokenKind) : Parser ε (Option Token) := do
  if ← check kind then
    let t ← advance
    return some t
  else return none

def consumeKeyword (text : String) : Parser ε Bool := do
  if ← checkIdent text then
    let _ ← advance
    return true
  else return false

def errorHere (message : String) : Parser ParseError α := do
  let t ← peek
  fail ⟨message, t.span⟩

def expect (kind : TokenKind) (message : String) : Parser ParseError Token := do
  if ← check kind then advance else errorHere message

def expectIdent (message : String) : Parser ParseError Token := do
  if ← kindIs isIdent then advance else errorHere message

/-- A property name after `.` or `?.`; keywords become identifiers. -/
def parseMemberName : Parser ParseError Token := do
  let property ← peek
  if isIdent property.kind then
    let _ ← advance
    return property
  else
    match property.kind.keywordLexeme with
    | some lexeme =>
      let _ ← advance
      return ⟨.identifier lexeme, property.span⟩
    | none => fail ⟨"expected property name after '.'", property.span⟩

def nextIsContinuation : TokenKind → Bool
  | .dot | .questionDot | .leftParen | .leftBracket | .plus | .minus | .star | .slash | .percent
  | .equal | .equalEqual | .bangEqual | .greater | .greaterEqual | .less | .lessEqual | .andSym
  | .orSym | .ampersand | .pipe | .caret | .tilde | .bang | .plusPlus | .minusMinus | .dotDotDot
  | .semicolon => true
  | _ => false

def consumeTerminator : Parser ε (Option Span) := do
  match ← consume .semicolon with
  | some t => return some t.span
  | none =>
    if ← kindIs fun kind => kind == .newline && !nextIsContinuation kind then
      let t ← advance
      return some t.span
    else if ← isAtEnd then
      let t ← peek
      return some t.span
    else return none

/-- Take tokens while their kind passes a test. -/
def skipWhile (c : TokenKind → Bool) : Parser ε Unit :=
  loop (fun _ => do
    if ← kindIs c then
      let _ ← advance
      return .inl ()
    else return .inr ()) ()

def skipNewlines : Parser ε Unit := skipWhile (· == .newline)

/-- The keywords at which parsing resumes after an error. -/
def resumes : TokenKind → Bool
  | .class | .fun | .async | .var | .static | .for | .if | .while | .return | .match | .try
  | .throw | .unsafeBlock | .quiet | .enum | .type | .use | .test => true
  | _ => false

/-- One turn of the search for a place to resume. -/
def skipToken : Parser ε (Unit ⊕ Unit) := do
  if ← isAtEnd then return .inr ()
  else if ← kindIs fun kind => kind == .newline || kind == .semicolon then
    let _ ← advance
    return .inr ()
  else if ← kindIs resumes then return .inr ()
  else
    let _ ← advance
    return .inl ()

def synchronize : Parser ε Unit := loop (fun _ => skipToken) ()

/-- An item of a list, which goes on after a separator. -/
def separatedItem (separator : TokenKind) (item : Parser ε α) (items : List α) :
    Parser ε (List α ⊕ List α) := do
  let a ← item
  match ← consume separator with
  | some _ => return .inl (items ++ [a])
  | none => return .inr (items ++ [a])

def separated (separator : TokenKind) (item : Parser ε α) : Parser ε (List α) :=
  loop (separatedItem separator item) []

/-- Nothing before the closing token, or the items. -/
def unlessClosed (closing : TokenKind) (items : Parser ε (List α)) : Parser ε (List α) := do
  if ← check closing then return [] else items

end Navigation

def looksLikeGenericCall (rest : List Token) : Bool :=
  kindAt rest 0 == .less && scan 0 rest
where
  /-- Looks for the `>` that balances the first `<`. -/
  scan (depth : ℕ) : List Token → Bool
    | [] => false
    | t :: rest =>
      match t.kind with
      | .less => scan (depth + 1) rest
      | .greater => if depth - 1 = 0 then kindAt rest 0 == .leftParen else scan (depth - 1) rest
      | .eof | .newline | .semicolon => false
      | _ => scan depth rest

def canStartExpression : TokenKind → Bool
  | .numberLiteral _ | .stringLiteral _ | .stringSegment _ | .true | .false | .nil | .identifier _
  | .this | .minus | .bang | .tilde | .plusPlus | .minusMinus | .dotDotDot | .leftParen
  | .leftBracket | .leftBrace | .fun | .typeInt | .typeFloat | .typeString | .typeBool | .typeArray
  | .typeObject | .typeAny | .typePointer | .typeSlice => true
  | _ => false

def lookaheadStructLiteralFields (rest : List Token) : Bool :=
  match kindAt rest 1 with
  | .rightBrace => false
  | .dotDot => true
  | .identifier _ | .stringLiteral _ =>
    match kindAt rest 2 with
    | .colon | .comma | .rightBrace => true
    | _ => false
  | _ => false

@[simp] theorem kindAt_cons_zero (t : Token) (rest : List Token) :
    kindAt (t :: rest) 0 = t.kind := rfl

theorem lt_length_of_kindAt {ts : List Token} {pos : ℕ} (h : kindAt (ts.drop pos) 0 ≠ .eof) :
    pos < ts.length := by
  by_contra hout
  rw [List.drop_eq_nil_of_le (by omega)] at h
  exact h rfl

section Tests
variable {ε α : Type} {ts : List Token} {pos : ℕ} {p q : Parser ε α}

theorem kindIs_of_true {c : TokenKind → Bool} (h : c (kindAt (ts.drop pos) 0) = true) :
    (kindIs c >>= fun b => if b then p else q) ts pos = p ts pos := look_of_true h

theorem kindIs_of_false {c : TokenKind → Bool} (h : c (kindAt (ts.drop pos) 0) = false) :
    (kindIs c >>= fun b => if b then p else q) ts pos = q ts pos := look_of_false h

variable {kind : TokenKind}

theorem check_of_eq (h : kindAt (ts.drop pos) 0 = kind) :
    (check kind >>= fun b => if b then p else q) ts pos = p ts pos :=
  kindIs_of_true (beq_iff_eq.mpr h)

theorem check_of_ne (h : kindAt (ts.drop pos) 0 ≠ kind) :
    (check kind >>= fun b => if b then p else q) ts pos = q ts pos :=
  kindIs_of_false (beq_eq_false_iff_ne.mpr h)

variable {rest : List Token}

theorem peek_of_eq {t : Token} (h : ts.drop pos = t :: rest) : peek (ε := ε) ts pos = .ok t pos := by
  show Outcome.ok (tokenAt (ts.drop pos) 0) pos = _
  rw [h]
  rfl

theorem parseMemberName_of_eq {name : String} {span : Span}
    (h : ts.drop pos = ⟨.identifier name, span⟩ :: rest) :
    parseMemberName ts pos = .ok ⟨.identifier name, span⟩ (pos + 1) := by
  rw [parseMemberName, bind_of_ok (peek_of_eq h)]
  show (advance >>= fun _ => pure (⟨.identifier name, span⟩ : Token)) ts pos = _
  rw [bind_of_ok (advance_eq h)]
  rfl

theorem expect_of_eq {message : String} {span : Span} (h : ts.drop pos = ⟨kind, span⟩ :: rest) :
    expect kind message ts pos = .ok ⟨kind, span⟩ (pos + 1) := by
  rw [expect, check_of_eq (by rw [h]; rfl), advance_eq h]

theorem consume_of_eq {span : Span} (h : ts.drop pos = ⟨kind, span⟩ :: rest) :
    consume (ε := ε) kind ts pos = .ok (some ⟨kind, span⟩) (pos + 1) := by
  rw [consume, check_of_eq (by rw [h]; rfl), bind_of_ok (advance_eq h)]
  rfl

theorem consume_of_ne (h : kindAt (ts.drop pos) 0 ≠ kind) : consume (ε := ε) kind ts pos = .ok none pos := by
  rw [consume, check_of_ne h]
  rfl

end Tests

end Neutron.Source
