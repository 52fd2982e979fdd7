import Neutron.ParserStatements

/-!
# The imports of a parsed file

A file imports the files that its `use "<path>"` statements name, wherever they stand in its parsed
program. Its tokens show imports when the line after each `use` token holds at most one string: these
strings, whether the `use` begins a statement or not.
-/

namespace Neutron.Source

/-! ### Use statements -/

mutual
/-- The paths of the file imports inside an expression. -/
def exprUses : Expr → List String
  | .literal _ _ | .variable _ | .this _ => []
  | .binary left _ right => exprUses left ++ exprUses right
  | .unary _ right => exprUses right
  | .postfixUnary _ left => exprUses left
  | .grouping expression _ _ => exprUses expression
  | .member object _ | .optionalMember object _ => exprUses object
  | .call callee _ arguments => exprUses callee ++ exprsUses arguments
  | .assign _ value => exprUses value
  | .indexGet object index => exprUses object ++ exprUses index
  | .indexSet object index value => exprUses object ++ exprUses index ++ exprUses value
  | .memberSet object _ value => exprUses object ++ exprUses value
  | .lambda _ _ body _ => stmtsUses body
  | .ternary condition thenBranch elseBranch =>
    exprUses condition ++ exprUses thenBranch ++ exprUses elseBranch
  | .spread value _ => exprUses value
  | .objectLiteral properties _ => propertiesUses properties
  | .arrayLiteral elements _ => exprsUses elements
  | .await callee arguments _ => exprUses callee ++ exprsUses arguments
  | .asyncBlock body _ _ => stmtsUses body
  | .view target _ _ | .borrow target _ _ | .rawDeref target _ => exprUses target
  | .copy expression _ => exprUses expression
  | .rawDerefSet target value _ => exprUses target ++ exprUses value
  | .structLiteral _ fields update _ => propertiesUses fields ++ exprOptionUses update
  | .propagate value _ => exprUses value
  | .tupleLiteral elements _ => exprsUses elements
  | .tupleIndex object _ _ => exprUses object
  | .chanSend channel value _ => exprUses channel ++ exprUses value
  | .chanRecv _ channel _ | .close channel _ => exprUses channel
def exprsUses : List Expr → List String
  | [] => []
  | e :: rest => exprUses e ++ exprsUses rest
def exprOptionUses : Option Expr → List String
  | none => []
  | some e => exprUses e
def propertiesUses : List ObjectProperty → List String
  | [] => []
  | .mk _ value _ :: rest => exprUses value ++ propertiesUses rest
/-- The paths of the file imports in a statement. -/
def stmtUses : Stmt → List String
  | .use library true _ _ => [library.lexeme]
  | .use _ false _ _ | .break _ | .continue _ | .typeAlias _ _ _ => []
  | .expression expression | .say expression _ | .throw expression => exprUses expression
  | .var _ _ initializer _ _ _ => exprOptionUses initializer
  | .destructure _ _ _ _ initializer => exprUses initializer
  | .block statements _ _ => stmtsUses statements
  | .if condition thenBranch elifBranches elseBranch =>
    exprUses condition ++ stmtUses thenBranch ++ elifsUses elifBranches ++ stmtOptionUses elseBranch
  | .while condition body => exprUses condition ++ stmtUses body
  | .doWhile body condition => stmtUses body ++ exprUses condition
  | .for init condition update body =>
    stmtOptionUses init ++ exprOptionUses condition ++ exprOptionUses update ++ stmtUses body
  | .forIn _ iterable body | .forAwait _ iterable body | .chanRecvFor _ iterable body =>
    exprUses iterable ++ stmtUses body
  | .go call block _ => exprUses call ++ stmtsOptionUses block
  | .function _ _ _ _ body | .asyncFunction _ _ _ body | .class _ _ _ body | .trait _ _ _ body
  | .impl _ _ body | .test _ body => stmtsUses body
  | .return value => exprOptionUses value
  | .match expression cases defaultCase =>
    exprUses expression ++ casesUses cases ++ stmtOptionUses defaultCase
  | .try tryBlock _ catchBlock finallyBlock =>
    stmtUses tryBlock ++ stmtOptionUses catchBlock ++ stmtOptionUses finallyBlock
  | .retry count body _ catchBlock => exprUses count ++ stmtUses body ++ stmtOptionUses catchBlock
  | .unsafeBlock body | .quiet _ body => stmtUses body
  | .enum _ _ members => membersUses members
def stmtsUses : List Stmt → List String
  | [] => []
  | s :: rest => stmtUses s ++ stmtsUses rest
def stmtOptionUses : Option Stmt → List String
  | none => []
  | some s => stmtUses s
def stmtsOptionUses : Option (List Stmt) → List String
  | none => []
  | some ss => stmtsUses ss
def elifsUses : List ElifBranch → List String
  | [] => []
  | .mk condition body _ :: rest => exprUses condition ++ stmtUses body ++ elifsUses rest
def casesUses : List MatchCase → List String
  | [] => []
  | .mk value _ guard body _ :: rest => exprUses value ++ exprOptionUses guard ++ stmtUses body ++ casesUses rest
def membersUses : List EnumMember → List String
  | [] => []
  | .mk _ value _ :: rest => exprOptionUses value ++ membersUses rest
end

/-- The statements of a file that parses. -/
def program (tokens : List Token) : Option (List Stmt) :=
  match parse tokens 0 with
  | .ok (.ok statements) _ => some statements
  | _ => none

/-! ### What the tokens show -/

/-- No string, no `as` and no end of a line. -/
def Quiet (t : Token) : Prop :=
  isStringLiteral t.kind = false ∧ t.kind ≠ .as ∧ t.kind ≠ .semicolon ∧ t.kind ≠ .newline

instance (t : Token) : Decidable (Quiet t) := inferInstanceAs (Decidable (_ ∧ _ ∧ _ ∧ _))

/-- A line after a `use` token, with the string in it if there is one. -/
inductive UseLine : List Token → Option String → Prop
  | nil : UseLine [] none
  | quiet {line : List Token} {path : Option String} (t : Token) (h : UseLine line path) (ht : Quiet t) :
    UseLine (line ++ [t]) path
  | file {line : List Token} (text : String) (span : Span) (h : UseLine line none) :
    UseLine (line ++ [⟨.stringLiteral text, span⟩]) (some text)
  | named {line : List Token} {path : Option String} (span : Span) (name : Token) (h : UseLine line path)
    (hname : Quiet name) : UseLine (line ++ [⟨.as, span⟩, name]) path

/-- The tokens stand at the end of a line. -/
def EndsLine (tokens : List Token) : Prop :=
  ∀ t ∈ tokens.head?, t.kind = .semicolon ∨ t.kind = .newline

theorem endsLine_nil : EndsLine [] := by
  intro t ht
  cases ht

theorem endsLine_newline (span : Span) (rest : List Token) : EndsLine (⟨.newline, span⟩ :: rest) := by
  intro t ht
  cases ht
  exact Or.inr rfl

/-- The strings after the `use` tokens. -/
inductive Shows : List Token → List String → Prop
  | nil : Shows [] []
  | other {tokens : List Token} {paths : List String} (t : Token) (ht : t.kind ≠ .use) (h : Shows tokens paths) :
    Shows (t :: tokens) paths
  | use {line tokens : List Token} {path : Option String} {paths : List String} (span : Span)
    (hline : UseLine line path) (hend : EndsLine tokens) (h : Shows tokens paths) :
    Shows (⟨.use, span⟩ :: (line ++ tokens)) (path.toList ++ paths)

end Neutron.Source
