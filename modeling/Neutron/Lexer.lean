import Mathlib.Algebra.GroupWithZero.Nat
import Mathlib.Data.List.Infix
import Mathlib.Data.List.TakeWhile
import Mathlib.Order.Defs.LinearOrder
import Neutron.Tokens

/-!
# The lexer

The raw tokens of a text come from a generated lexer, which is a parameter: it cuts the text into
skipped gaps, slices and what is skipped at the end. The lexer proper keeps the position through
gaps and slices, strips the quotes of strings and splits interpolated strings into segments and
the tokens of their expressions, which a fresh lexer reads from the text between the braces.
-/

namespace Neutron.Source

abbrev Text := List Char

/-- The length of a text in bytes. -/
def bytes (t : Text) : ℕ := (t.map fun c => c.utf8Size).sum

/-! ### Raw tokens -/

/-- The kinds without text that a raw token stands for. -/
def TokenKind.isFixed : TokenKind → Bool
  | .identifier _ | .stringLiteral _ | .stringSegment _ | .numberLiteral _ | .eof => Bool.false
  | _ => Bool.true

inductive RawToken where
  | fixed (kind : TokenKind) (isFixed : kind.isFixed)
  | numberLiteral
  | stringLiteral
  | singleQuoteStringLiteral
  | rawStringLiteral
  | rawSingleQuoteStringLiteral
  | identifier

/-- A raw token, or an error, with the skipped text before it. -/
structure RawItem where
  gap : Text
  token : Option RawToken
  slice : Text

structure RawStream where
  items : List RawItem
  trailing : Text

abbrev Logos := Text → RawStream

/-- The generated lexer reports where its tokens are: gaps, slices and the rest make up the text,
and no slice is empty. -/
structure Reports (logos : Logos) : Prop where
  whole : ∀ src, (logos src).items.flatMap (fun i => i.gap ++ i.slice) ++ (logos src).trailing = src
  nonempty : ∀ src, ∀ i ∈ (logos src).items, i.slice ≠ []

/-! ### Positions -/

structure Pos where
  offset : ℕ
  line : ℕ
  column : ℕ

namespace Pos

def advance (p : Pos) (c : Char) : Pos :=
  if c = '\n' then ⟨p.offset + c.utf8Size, p.line + 1, 1⟩
  else ⟨p.offset + c.utf8Size, p.line, p.column + 1⟩

def advanceThrough (p : Pos) (t : Text) : Pos := t.foldl advance p

def start : Pos := ⟨0, 1, 1⟩

end Pos

/-! ### Interpolated strings -/

inductive InterpPart where
  | text (text : Text)
  | expression (source : Text)

/-- Whether a string contains `${`. -/
def hasHole : Text → Bool
  | '$' :: '{' :: _ => true
  | _ :: rest => hasHole rest
  | [] => false

/-- Where the split of an interpolated string stands: in a text, or in an expression under a number
of open braces. The characters read so far are in reverse order. -/
inductive SplitState where
  | text (read : Text)
  | hole (depth : ℕ) (read : Text)

def splitFrom : SplitState → Text → List InterpPart
  | .text [], [] => []
  | .text (c :: read), [] => [.text (c :: read).reverse]
  | .text [], '$' :: '{' :: rest => splitFrom (.hole 1 []) rest
  | .text (c :: read), '$' :: '{' :: rest =>
    .text (c :: read).reverse :: splitFrom (.hole 1 []) rest
  | .text read, c :: rest => splitFrom (.text (c :: read)) rest
  | .hole _ read, [] => [.expression read.reverse]
  | .hole depth read, '{' :: rest => splitFrom (.hole (depth + 1) ('{' :: read)) rest
  | .hole depth read, '}' :: rest =>
    if depth = 1 then .expression read.reverse :: splitFrom (.text []) rest
    else splitFrom (.hole (depth - 1) ('}' :: read)) rest
  | .hole depth read, c :: rest => splitFrom (.hole depth (c :: read)) rest

def splitInterpolatedString (content : Text) : List InterpPart := splitFrom (.text []) content

section
variable (nested : Text → Option (List Token)) (span : Span)

/-- The tokens of the parts of an interpolated string, with the lexer of the expressions as
`nested`. -/
def partsTokens : List InterpPart → Option (List Token)
  | [] => some []
  | .text text :: rest => do
    let tokens ← partsTokens rest
    some (⟨.stringSegment (String.ofList text), span⟩ :: tokens)
  | .expression source :: rest => do
    let expression ← nested source
    let tokens ← partsTokens rest
    some (expression.filter (fun t => t.kind ≠ .eof) ++ tokens)

def emitStringTokens (content : Text) : Option (List Token) :=
  if hasHole content then do
    let tokens ← partsTokens nested span (splitInterpolatedString content)
    match tokens with
    | [] => some [⟨.stringLiteral "", span⟩]
    | ⟨.stringSegment text, first⟩ :: rest => some (⟨.stringSegment text, first⟩ :: rest)
    | tokens => some (⟨.stringSegment "", span⟩ :: tokens)
  else some [⟨.stringLiteral (String.ofList content), span⟩]

/-- The text of a literal between its quotes. -/
def unquote (slice : Text) : Text := (slice.drop 1).dropLast

/-- The text of a raw literal between its quotes. -/
def unquoteRaw (slice : Text) : Text := (slice.drop 2).dropLast

def convertRaw (slice : Text) : RawToken → Option (List Token)
  | .fixed kind _ => some [⟨kind, span⟩]
  | .numberLiteral => some [⟨.numberLiteral (String.ofList slice), span⟩]
  | .stringLiteral | .singleQuoteStringLiteral => emitStringTokens nested span (unquote slice)
  | .rawStringLiteral | .rawSingleQuoteStringLiteral =>
    some [⟨.stringLiteral (String.ofList (unquoteRaw slice)), span⟩]
  | .identifier => some [⟨.identifier (String.ofList slice), span⟩]

/-- The tokens of a raw item; unknown characters become one-character identifiers. -/
def convertItem (i : RawItem) : Option (List Token) :=
  match i.token with
  | some token => convertRaw nested span i.slice token
  | none => some [⟨.identifier (String.ofList [i.slice.headD '?']), span⟩]

end

/-- The loop over the raw tokens. The tokens of a string are handed out before the next raw token
is read. -/
def lexItems (nested : Text → Option (List Token)) : Pos → List RawItem → Option (List Token × Pos)
  | p, [] => some ([], p)
  | p, i :: rest => do
    let first := p.advanceThrough i.gap
    let last := first.advanceThrough i.slice
    let tokens ← convertItem nested ⟨first.offset, last.offset, first.line, first.column⟩ i
    let (others, final) ← lexItems nested last rest
    some (tokens ++ others, final)

/-- The nesting of interpolations is the fuel. -/
def tokenize (logos : Logos) : ℕ → Text → Option (List Token)
  | 0, _ => none
  | fuel + 1, src => do
    let (tokens, final) ← lexItems (tokenize logos fuel) .start (logos src).items
    some (tokens ++ [⟨.eof, final.offset, final.offset, final.line, final.column⟩])

end Neutron.Source
