import Neutron.ParserStatements

/-!
# Operator trees

Expressions as they are written: names, numbers, groupings, prefix operators, binary operators and
the postfix forms, with the spans of all their tokens. A tree has its in-order tokens and the
expression it stands for. It fits when every operand binds as strongly as its position asks for.

A name followed by `<` may be read as a generic call. A tree is clear when this happens at none of
its names; whether it does depends on the tokens behind the tree as well.
-/

namespace Neutron.Source

mutual
inductive OperatorTree where
  | name (text : String) (span : Span)
  | number (text : String) (span : Span)
  | grouping (opening : Span) (inner : OperatorTree) (closing : Span)
  | unary (op : Token) (operand : OperatorTree)
  | binary (left : OperatorTree) (op : Token) (right : OperatorTree)
  | emptyCall (callee : OperatorTree) (opening closing : Span)
  | call (callee : OperatorTree) (opening : Span) (arguments : ArgumentTrees) (closing : Span)
  | index (object : OperatorTree) (opening : Span) (position : OperatorTree) (closing : Span)
  | member (object : OperatorTree) (dot : Span) (property : String) (span : Span)
inductive ArgumentTrees where
  | last (argument : OperatorTree)
  | cons (argument : OperatorTree) (comma : Span) (rest : ArgumentTrees)
end

mutual
def OperatorTree.tokens : OperatorTree → List Token
  | .name text span => [⟨.identifier text, span⟩]
  | .number text span => [⟨.numberLiteral text, span⟩]
  | .grouping opening inner closing =>
    ⟨.leftParen, opening⟩ :: (inner.tokens ++ [⟨.rightParen, closing⟩])
  | .unary op operand => op :: operand.tokens
  | .binary left op right => left.tokens ++ op :: right.tokens
  | .emptyCall callee opening closing =>
    callee.tokens ++ [⟨.leftParen, opening⟩, ⟨.rightParen, closing⟩]
  | .call callee opening arguments closing =>
    callee.tokens ++ ⟨.leftParen, opening⟩ :: (arguments.tokens ++ [⟨.rightParen, closing⟩])
  | .index object opening position closing =>
    object.tokens ++ ⟨.leftBracket, opening⟩ :: (position.tokens ++ [⟨.rightBracket, closing⟩])
  | .member object dot property span =>
    object.tokens ++ [⟨.dot, dot⟩, ⟨.identifier property, span⟩]
def ArgumentTrees.tokens : ArgumentTrees → List Token
  | .last argument => argument.tokens
  | .cons argument comma rest => argument.tokens ++ ⟨.comma, comma⟩ :: rest.tokens
end

mutual
def OperatorTree.expr : OperatorTree → Expr
  | .name text span => .variable ⟨.identifier text, span⟩
  | .number text span => .literal (.number text) span
  | .grouping opening inner closing => .grouping inner.expr opening closing
  | .unary op operand => .unary op operand.expr
  | .binary left op right => .binary left.expr op right.expr
  | .emptyCall callee opening _ => .call callee.expr opening []
  | .call callee opening arguments _ => .call callee.expr opening arguments.exprs
  | .index object _ position _ => .indexGet object.expr position.expr
  | .member object _ property span => .member object.expr ⟨.identifier property, span⟩
def ArgumentTrees.exprs : ArgumentTrees → List Expr
  | .last argument => [argument.expr]
  | .cons argument _ rest => argument.expr :: rest.exprs
end

def isPrefixOperator : TokenKind → Bool
  | .minus | .bang | .tilde => true
  | _ => false

/-- How strongly a tree binds. -/
def OperatorTree.strength : OperatorTree → Precedence
  | .binary _ op _ => infixPrecedence op.kind
  | .unary _ _ => .unary
  | _ => .call

mutual
/-- Every operand binds as strongly as its position asks for; binary operators associate to the
left. -/
def OperatorTree.Fits : OperatorTree → Prop
  | .name _ _ | .number _ _ => True
  | .grouping _ inner _ => inner.Fits
  | .unary op operand => isPrefixOperator op.kind = true ∧ operand.Fits ∧
      Precedence.unary.rank ≤ operand.strength.rank
  | .binary left op right => isBinaryOperator op.kind = true ∧ left.Fits ∧ right.Fits ∧
      (infixPrecedence op.kind).rank ≤ left.strength.rank ∧
      (infixPrecedence op.kind).nextHigher.rank ≤ right.strength.rank
  | .emptyCall callee _ _ => callee.Fits ∧ Precedence.call.rank ≤ callee.strength.rank
  | .call callee _ arguments _ =>
    callee.Fits ∧ Precedence.call.rank ≤ callee.strength.rank ∧ arguments.Fits
  | .index object _ position _ =>
    object.Fits ∧ Precedence.call.rank ≤ object.strength.rank ∧ position.Fits
  | .member object _ _ _ => object.Fits ∧ Precedence.call.rank ≤ object.strength.rank
def ArgumentTrees.Fits : ArgumentTrees → Prop
  | .last argument => argument.Fits
  | .cons argument _ rest => argument.Fits ∧ rest.Fits
end

mutual
/-- No name of the tree looks like a generic call, where `rest` follows the tree. -/
def OperatorTree.Clear : OperatorTree → List Token → Prop
  | .name _ _, rest => looksLikeGenericCall rest = false
  | .number _ _, _ => True
  | .grouping _ inner closing, rest => inner.Clear (⟨.rightParen, closing⟩ :: rest)
  | .unary _ operand, rest => operand.Clear rest
  | .binary left op right, rest => left.Clear (op :: (right.tokens ++ rest)) ∧ right.Clear rest
  | .emptyCall callee opening closing, rest =>
    callee.Clear (⟨.leftParen, opening⟩ :: ⟨.rightParen, closing⟩ :: rest)
  | .call callee opening arguments closing, rest =>
    callee.Clear (⟨.leftParen, opening⟩ :: (arguments.tokens ++ ⟨.rightParen, closing⟩ :: rest)) ∧
      arguments.Clear (⟨.rightParen, closing⟩ :: rest)
  | .index object opening position closing, rest =>
    object.Clear (⟨.leftBracket, opening⟩ :: (position.tokens ++ ⟨.rightBracket, closing⟩ :: rest)) ∧
      position.Clear (⟨.rightBracket, closing⟩ :: rest)
  | .member object dot property span, rest =>
    object.Clear (⟨.dot, dot⟩ :: ⟨.identifier property, span⟩ :: rest)
def ArgumentTrees.Clear : ArgumentTrees → List Token → Prop
  | .last argument, rest => argument.Clear rest
  | .cons argument comma trees, rest =>
    argument.Clear (⟨.comma, comma⟩ :: (trees.tokens ++ rest)) ∧ trees.Clear rest
end

end Neutron.Source
