/-!
# Tokens

The tokens the lexer hands to the parser and the spans that locate them in a source text. Byte
offsets and line numbers are natural numbers.
-/

namespace Neutron.Source

/-- A byte range of the source text with the line and the column where it starts. -/
structure Span where
  start : Nat
  stop : Nat
  line : Nat
  column : Nat
  deriving DecidableEq

namespace Span

/-- The placeholder span. -/
def dummy : Span := ⟨0, 0, 1, 1⟩

/-- From the start of one span to the end of another. -/
def «to» (s t : Span) : Span := { s with stop := t.stop }

/-- The sentinel byte range of the placeholder span, which no token of a text has. -/
def isDummy (s : Span) : Bool := s.start == 0 && s.stop == 0

end Span

inductive TokenKind where
  | leftParen
  | rightParen
  | leftBrace
  | rightBrace
  | leftBracket
  | rightBracket
  | comma
  | dot
  | minus
  | plus
  | semicolon
  | slash
  | star
  | colon
  | percent
  | ampersand
  | pipe
  | caret
  | tilde
  | question
  | bang
  | bangEqual
  | equal
  | equalEqual
  | greater
  | greaterEqual
  | greaterGreater
  | less
  | lessEqual
  | lessLess
  | plusPlus
  | minusMinus
  | pipeGreater
  | lessPipe
  | andSym
  | orSym
  | arrow
  | returnArrow
  | dotDotDot
  | dotDot
  | questionDot
  | identifier (text : String)
  | stringLiteral (text : String)
  | stringSegment (text : String)
  | numberLiteral (text : String)
  | newline
  | and
  | «class»
  | else
  | elif
  | false
  | fun
  | for
  | if
  | nil
  | or
  | say
  | return
  | static
  | super
  | this
  | true
  | var
  | while
  | do
  | break
  | continue
  | match
  | case
  | default
  | try
  | catch
  | finally
  | throw
  | retry
  | unsafeBlock
  | quiet
  | enum
  | type
  | trait
  | impl
  | in
  | use
  | from
  | as
  | test
  | async
  | await
  | view
  | mut
  | shared
  | copy
  | own
  | go
  | chan
  | close
  | typeInt
  | typeFloat
  | typeString
  | typeBool
  | typeArray
  | typeObject
  | typeOption
  | typeResult
  | typeAny
  | typePointer
  | typeSlice
  | eof
  deriving DecidableEq

namespace TokenKind

def isTypeKeyword : TokenKind → Bool
  | .typeInt | .typeFloat | .typeString | .typeBool | .typeArray | .typeObject | .typeOption
  | .typeResult | .typeAny | .typePointer | .typeSlice => Bool.true
  | _ => Bool.false

/-- The source text of a keyword, which the parser accepts as a property name. -/
def keywordLexeme : TokenKind → Option String
  | .and => some "and"
  | .class => some "class"
  | .else => some "else"
  | .elif => some "elif"
  | .false => some "false"
  | .fun => some "fun"
  | .for => some "for"
  | .if => some "if"
  | .nil => some "nil"
  | .or => some "or"
  | .say => some "say"
  | .return => some "return"
  | .static => some "static"
  | .super => some "super"
  | .this => some "this"
  | .true => some "true"
  | .var => some "var"
  | .while => some "while"
  | .do => some "do"
  | .break => some "break"
  | .continue => some "continue"
  | .match => some "match"
  | .case => some "case"
  | .default => some "default"
  | .try => some "try"
  | .catch => some "catch"
  | .finally => some "finally"
  | .throw => some "throw"
  | .retry => some "retry"
  | .unsafeBlock => some "unsafe"
  | .quiet => some "quiet"
  | .enum => some "enum"
  | .type => some "type"
  | .trait => some "trait"
  | .impl => some "impl"
  | .in => some "in"
  | .use => some "use"
  | .from => some "from"
  | .as => some "as"
  | .test => some "test"
  | .async => some "async"
  | .await => some "await"
  | .view => some "view"
  | .mut => some "mut"
  | .shared => some "shared"
  | .copy => some "copy"
  | .own => some "own"
  | .go => some "go"
  | .chan => some "chan"
  | .close => some "close"
  | .typeInt => some "int"
  | .typeFloat => some "float"
  | .typeString => some "string"
  | .typeBool => some "bool"
  | .typeArray => some "array"
  | .typeObject => some "object"
  | .typeOption => some "option"
  | .typeResult => some "result"
  | .typeAny => some "any"
  | .typePointer => some "pointer"
  | .typeSlice => some "slice"
  | _ => none

end TokenKind

structure Token where
  kind : TokenKind
  span : Span
  deriving DecidableEq

/-- The source text of a token; empty for keywords, operators and punctuation. -/
def Token.lexeme (t : Token) : String :=
  match t.kind with
  | .identifier s | .stringLiteral s | .stringSegment s | .numberLiteral s => s
  | _ => ""

end Neutron.Source
