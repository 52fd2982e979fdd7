import Neutron.NameResolver

/-!
# The scoping rule

A program as the rule of scoping sees it: the names it needs, the names it declares and the parts
that open a scope, in the order of the text. A name must have a declaration in an open scope, and
a scope declares no name twice; the result constructors lie outside the program's own scope, so
that one declaration of them shadows the builtin. Beside it stands what the resolver does with the
same parts.
-/

namespace Neutron.Names
open Source Resolver

inductive Item where
  | need (message : String → String) (name : String) (span : Span)
  | declare (name : String) (span : Span)
  | bring (name : String) (span : Span)
  | scope (items : List Item)
  /-- The body of an `async` block. -/
  | asyncBody (items : List Item)
  /-- The guard of an arm with a variant pattern, an enum value, the methods of a trait or impl. -/
  | unvisited (items : List Item)
  /-- The body of a `do` loop and its condition, which follows it. -/
  | bodyFirst (body condition : List Item)

abbrev Report := String × Span

namespace Item

mutual
/-- The scopes after an item. -/
def scopesAfter : Item → List (List String) → List (List String)
  | .need _ _ _, scopes => scopes
  | .declare name _, scopes => declareIn name scopes
  | .bring name _, scopes => if visible name scopes then scopes else declareIn name scopes
  | .scope _, scopes => scopes
  | .asyncBody _, scopes => scopes
  | .unvisited items, scopes => listAfter items scopes
  | .bodyFirst body condition, scopes => listAfter condition (listAfter body scopes)
def listAfter : List Item → List (List String) → List (List String)
  | [], scopes => scopes
  | item :: rest, scopes => listAfter rest (scopesAfter item scopes)
end

mutual
/-- The names that have no declaration in scope and those declared twice in one scope. -/
def faults (scopes : List (List String)) : Item → List Report
  | .need message name span => if visible name scopes then [] else [(message name, span)]
  | .declare name span =>
    if (scopes.headD []).contains name then [(alreadyDefined name, span)] else []
  | .bring _ _ => []
  | .scope items => listFaults ([] :: scopes) items
  | .asyncBody items => listFaults ([] :: scopes) items
  | .unvisited items => listFaults scopes items
  | .bodyFirst body condition =>
    listFaults scopes body ++ listFaults (listAfter body scopes) condition
def listFaults (scopes : List (List String)) : List Item → List Report
  | [] => []
  | item :: rest => faults scopes item ++ listFaults (scopesAfter item scopes) rest
end

mutual
/-- What the resolver does with an item. -/
def visit : Item → Resolver → Resolver
  | .need message name span, r => r.need message name span
  | .declare name span, r => r.define name span
  | .bring name span, r => r.bring name span
  | .scope items, r => r.inScope (visitAll items)
  | .asyncBody items, r => visitAll items r
  | .unvisited _, r => r
  | .bodyFirst body condition, r => visitAll body (visitAll condition r)
def visitAll : List Item → Resolver → Resolver
  | [], r => r
  | item :: rest, r => visitAll rest (visit item r)
end

end Item

/-! ### The items of a program -/

def declareAll (names : List Token) : List Item :=
  names.map fun name => .declare name.lexeme name.span

/-- A scope with `this` and the methods, around the members. -/
def memberScope (name : Token) (body : List Stmt) (items : List Item) : Item :=
  .scope (.declare "this" name.span :: declareAll (methodNames body) ++ items)

mutual
def exprItems : Expr → List Item
  | .literal _ _ => []
  | .this keyword => [.need undefinedName "this" keyword.span]
  | .variable name => [.need undefinedName name.lexeme name.span]
  | .assign name value => .need undefinedName name.lexeme name.span :: exprItems value
  | .unary _ right => exprItems right
  | .spread value _ => exprItems value
  | .postfixUnary _ left => exprItems left
  | .grouping expression _ _ => exprItems expression
  | .binary left _ right => exprItems left ++ exprItems right
  | .indexGet object index => exprItems object ++ exprItems index
  | .ternary condition thenBranch elseBranch =>
    exprItems condition ++ exprItems thenBranch ++ exprItems elseBranch
  | .call callee _ arguments => exprItems callee ++ exprsItems arguments
  | .await callee arguments _ => exprItems callee ++ exprsItems arguments
  | .asyncBlock body _ _ => [.asyncBody (stmtsItems body)]
  | .chanSend channel value _ => exprItems channel ++ exprItems value
  | .chanRecv receiver channel _ => exprItems channel ++ [.declare receiver.lexeme receiver.span]
  | .close channel _ => exprItems channel
  | .member object _ => exprItems object
  | .optionalMember object _ => exprItems object
  | .view target _ _ => exprItems target
  | .borrow target _ _ => exprItems target
  | .rawDeref target _ => exprItems target
  | .rawDerefSet target value _ => exprItems target ++ exprItems value
  | .copy expression _ => exprItems expression
  | .propagate value _ => exprItems value
  | .indexSet object index value => exprItems object ++ exprItems index ++ exprItems value
  | .memberSet object _ value => exprItems object ++ exprItems value
  | .lambda params _ body _ => [.scope (declareAll (paramNames params) ++ stmtsItems body)]
  | .objectLiteral properties _ => propertiesItems properties
  | .arrayLiteral elements _ => exprsItems elements
  | .structLiteral className fields update _ =>
    .need undefinedName className.lexeme className.span :: propertiesItems fields ++
      optionItems update
  | .tupleLiteral elements _ => exprsItems elements
  | .tupleIndex object _ _ => exprItems object
def exprsItems : List Expr → List Item
  | [] => []
  | e :: rest => exprItems e ++ exprsItems rest
def optionItems : Option Expr → List Item
  | none => []
  | some e => exprItems e
def propertiesItems : List ObjectProperty → List Item
  | [] => []
  | .mk _ value _ :: rest => exprItems value ++ propertiesItems rest
def stmtItems : Stmt → List Item
  | .expression expression => exprItems expression
  | .throw value => exprItems value
  | .say expression _ => exprItems expression
  | .var name _ initializer _ _ _ => optionItems initializer ++ [.declare name.lexeme name.span]
  | .destructure _ _ names _ initializer => exprItems initializer ++ declareAll names
  | .block statements _ _ => [.scope (stmtsItems statements)]
  | .if condition thenBranch elifBranches elseBranch =>
    exprItems condition ++ stmtItems thenBranch ++ elifsItems elifBranches ++
      branchItems elseBranch
  | .while condition body => exprItems condition ++ stmtItems body
  | .doWhile body condition => [.bodyFirst (stmtItems body) (exprItems condition)]
  | .for init condition update body =>
    [.scope (branchItems init ++ optionItems condition ++ optionItems update ++ stmtItems body)]
  | .forIn name iterable body =>
    exprItems iterable ++ [.scope (.declare name.lexeme name.span :: stmtItems body)]
  | .forAwait name producer body =>
    exprItems producer ++ [.scope (.declare name.lexeme name.span :: stmtItems body)]
  | .chanRecvFor name channel body =>
    exprItems channel ++ [.scope (.declare name.lexeme name.span :: stmtItems body)]
  | .go call none _ => exprItems call
  | .go call (some block) _ => exprItems call ++ [.scope (stmtsItems block)]
  | .function _ _ params _ body => [.scope (declareAll (paramNames params) ++ stmtsItems body)]
  | .asyncFunction _ params _ body => [.scope (declareAll (paramNames params) ++ stmtsItems body)]
  | .test _ body => [.scope (stmtsItems body)]
  | .return value => optionItems value
  | .class name _ none body => [memberScope name body (stmtsItems body)]
  | .class name _ (some parent) body =>
    [.need undefinedParent parent.lexeme parent.span, memberScope name body (stmtsItems body)]
  | .match expression cases defaultCase =>
    exprItems expression ++ casesItems cases ++ branchItems defaultCase
  | .try tryBlock catchVar catchBlock finallyBlock =>
    stmtItems tryBlock ++ handlerItems catchBlock catchVar ++ branchItems finallyBlock
  | .retry count body catchVar catchBlock =>
    exprItems count ++ stmtItems body ++ handlerItems catchBlock catchVar
  | .unsafeBlock body => stmtItems body
  | .quiet _ body => stmtItems body
  | .break _ => []
  | .continue _ => []
  | .enum _ _ members => [.unvisited (membersItems members)]
  | .typeAlias _ _ _ => []
  | .trait name _ _ methods => [.unvisited [memberScope name methods (stmtsItems methods)]]
  | .impl _ typeName body => [.unvisited [memberScope typeName body (stmtsItems body)]]
  | .use library false _ asName =>
    [.bring (match asName with | some name => name.lexeme | none => library.lexeme) library.span]
  | .use _ true _ (some asName) => [.bring asName.lexeme asName.span]
  | .use _ true _ none => []
def stmtsItems : List Stmt → List Item
  | [] => []
  | s :: rest => stmtItems s ++ stmtsItems rest
def branchItems : Option Stmt → List Item
  | none => []
  | some s => stmtItems s
def elifsItems : List ElifBranch → List Item
  | [] => []
  | .mk condition body _ :: rest => exprItems condition ++ stmtItems body ++ elifsItems rest
def handlerItems : Option Stmt → Option Token → List Item
  | none, _ => []
  | some body, none => [.scope (stmtItems body)]
  | some body, some name => [.scope (.declare name.lexeme name.span :: stmtItems body)]
/-- The binder of a variant pattern is in scope in the guard and in the body of its arm. -/
def casesItems : List MatchCase → List Item
  | [] => []
  | .mk _ (some ⟨_, some binding⟩) guard body _ :: rest =>
    .scope (.declare binding.lexeme binding.span :: .unvisited (optionItems guard) ::
      stmtItems body) :: casesItems rest
  | .mk _ (some ⟨_, none⟩) guard body _ :: rest =>
    .unvisited (optionItems guard) :: stmtItems body ++ casesItems rest
  | .mk value none guard body _ :: rest =>
    exprItems value ++ optionItems guard ++ stmtItems body ++ casesItems rest
def membersItems : List EnumMember → List Item
  | [] => []
  | .mk _ value _ :: rest => optionItems value ++ membersItems rest
end

def programItems (statements : List Stmt) : List Item :=
  declareAll (hoistedNames statements) ++ stmtsItems statements

/-! ### The resolver visits the items -/

section
variable {a b : List Item} {f g : Resolver → Resolver} {name : String} {span : Span}

theorem visit_nil : Item.visitAll [] = fun r => r := by
  funext r
  rfl

theorem visit_then (ha : Item.visitAll a = f) (hb : Item.visitAll b = g) :
    Item.visitAll (a ++ b) = fun r => g (f r) := by
  subst ha hb
  funext r
  induction a generalizing r with
  | nil => rfl
  | cons item a ih => exact ih (item.visit r)

theorem visit_declareAll (names : List Token) :
    Item.visitAll (declareAll names) = defineAll names := by
  funext r
  induction names generalizing r with
  | nil => rfl
  | cons name names ih => exact ih (r.define name.lexeme name.span)

theorem visit_need {message : String → String} (ha : Item.visitAll a = f) :
    Item.visitAll (.need message name span :: a) = fun r => f (r.need message name span) := by
  subst ha
  rfl

theorem visit_declare (ha : Item.visitAll a = f) :
    Item.visitAll (.declare name span :: a) = fun r => f (r.define name span) := by
  subst ha
  rfl

theorem visit_bring : Item.visitAll [.bring name span] = fun r => r.bring name span := rfl

theorem visit_scope (ha : Item.visitAll a = f) (hb : Item.visitAll b = g) :
    Item.visitAll (.scope a :: b) = fun r => g (r.inScope f) := by
  subst ha hb
  rfl

theorem visit_asyncBody (ha : Item.visitAll a = f) : Item.visitAll [.asyncBody a] = f := by
  subst ha
  rfl

theorem visit_unvisited {items : List Item} (ha : Item.visitAll a = f) :
    Item.visitAll (.unvisited items :: a) = f := by
  subst ha
  rfl

theorem visit_bodyFirst (ha : Item.visitAll a = f) (hb : Item.visitAll b = g) :
    Item.visitAll [.bodyFirst b a] = fun r => g (f r) := by
  subst ha hb
  rfl

/-- `this` and the methods are declared around the members. -/
theorem visit_memberScope {token : Token} {body : List Stmt} (ha : Item.visitAll a = f) :
    Item.visitAll [memberScope token body a] = fun r =>
      r.inScope fun r => f (defineAll (methodNames body) (r.define "this" token.span)) :=
  visit_scope (visit_then (visit_declare (visit_declareAll (methodNames body))) ha) visit_nil

end

-- The traversal of the resolver and that of the items go side by side, one arm at a time.
mutual
theorem visit_exprItems : ∀ e : Expr, Item.visitAll (exprItems e) = resolveExpression e
  | .literal _ _ => visit_nil
  | .this _ => (visit_need visit_nil :)
  | .variable _ => (visit_need visit_nil :)
  | .assign _ value => (visit_need (visit_exprItems value) :)
  | .unary _ right => visit_exprItems right
  | .spread value _ => visit_exprItems value
  | .postfixUnary _ left => visit_exprItems left
  | .grouping expression _ _ => visit_exprItems expression
  | .binary left _ right => (visit_then (visit_exprItems left) (visit_exprItems right) :)
  | .indexGet object index => (visit_then (visit_exprItems object) (visit_exprItems index) :)
  | .ternary condition thenBranch elseBranch =>
    (visit_then (visit_then (visit_exprItems condition) (visit_exprItems thenBranch))
      (visit_exprItems elseBranch) :)
  | .call callee _ arguments => (visit_then (visit_exprItems callee) (visit_exprsItems arguments) :)
  | .await callee arguments _ => (visit_then (visit_exprItems callee) (visit_exprsItems arguments) :)
  | .asyncBlock body _ _ => visit_asyncBody (visit_stmtsItems body)
  | .chanSend channel value _ => (visit_then (visit_exprItems channel) (visit_exprItems value) :)
  | .chanRecv _ channel _ => (visit_then (visit_exprItems channel) (visit_declare visit_nil) :)
  | .close channel _ => visit_exprItems channel
  | .member object _ => visit_exprItems object
  | .optionalMember object _ => visit_exprItems object
  | .view target _ _ => visit_exprItems target
  | .borrow target _ _ => visit_exprItems target
  | .rawDeref target _ => visit_exprItems target
  | .rawDerefSet target value _ => (visit_then (visit_exprItems target) (visit_exprItems value) :)
  | .copy expression _ => visit_exprItems expression
  | .propagate value _ => visit_exprItems value
  | .indexSet object index value =>
    (visit_then (visit_then (visit_exprItems object) (visit_exprItems index))
      (visit_exprItems value) :)
  | .memberSet object _ value => (visit_then (visit_exprItems object) (visit_exprItems value) :)
  | .lambda _ _ body _ =>
    (visit_scope (visit_then (visit_declareAll _) (visit_stmtsItems body)) visit_nil :)
  | .objectLiteral properties _ => visit_propertiesItems properties
  | .arrayLiteral elements _ => visit_exprsItems elements
  | .structLiteral _ fields update _ =>
    (visit_then (visit_need (visit_propertiesItems fields)) (visit_optionItems update) :)
  | .tupleLiteral elements _ => visit_exprsItems elements
  | .tupleIndex object _ _ => visit_exprItems object
theorem visit_exprsItems : ∀ es : List Expr,
    Item.visitAll (exprsItems es) = resolveExpressions es
  | [] => visit_nil
  | e :: rest => (visit_then (visit_exprItems e) (visit_exprsItems rest) :)
theorem visit_optionItems : ∀ o : Option Expr, Item.visitAll (optionItems o) = resolveOption o
  | none => visit_nil
  | some e => visit_exprItems e
theorem visit_propertiesItems : ∀ ps : List ObjectProperty,
    Item.visitAll (propertiesItems ps) = resolveProperties ps
  | [] => visit_nil
  | .mk _ value _ :: rest => (visit_then (visit_exprItems value) (visit_propertiesItems rest) :)
theorem visit_stmtItems : ∀ s : Stmt, Item.visitAll (stmtItems s) = resolveStatement s
  | .expression expression => visit_exprItems expression
  | .throw value => visit_exprItems value
  | .say expression _ => visit_exprItems expression
  | .var _ _ initializer _ _ _ =>
    (visit_then (visit_optionItems initializer) (visit_declare visit_nil) :)
  | .destructure _ _ names _ initializer =>
    (visit_then (visit_exprItems initializer) (visit_declareAll names) :)
  | .block statements _ _ => (visit_scope (visit_stmtsItems statements) visit_nil :)
  | .if condition thenBranch elifBranches elseBranch =>
    (visit_then (visit_then (visit_then (visit_exprItems condition) (visit_stmtItems thenBranch))
      (visit_elifsItems elifBranches)) (visit_branchItems elseBranch) :)
  | .while condition body => (visit_then (visit_exprItems condition) (visit_stmtItems body) :)
  | .doWhile body condition => (visit_bodyFirst (visit_exprItems condition) (visit_stmtItems body) :)
  | .for init condition update body =>
    (visit_scope (visit_then (visit_then (visit_then (visit_branchItems init)
      (visit_optionItems condition)) (visit_optionItems update)) (visit_stmtItems body)) visit_nil :)
  | .forIn _ iterable body =>
    (visit_then (visit_exprItems iterable)
      (visit_scope (visit_declare (visit_stmtItems body)) visit_nil) :)
  | .forAwait _ producer body =>
    (visit_then (visit_exprItems producer)
      (visit_scope (visit_declare (visit_stmtItems body)) visit_nil) :)
  | .chanRecvFor _ channel body =>
    (visit_then (visit_exprItems channel)
      (visit_scope (visit_declare (visit_stmtItems body)) visit_nil) :)
  | .go call none _ => visit_exprItems call
  | .go call (some block) _ =>
    (visit_then (visit_exprItems call) (visit_scope (visit_stmtsItems block) visit_nil) :)
  | .function _ _ _ _ body =>
    (visit_scope (visit_then (visit_declareAll _) (visit_stmtsItems body)) visit_nil :)
  | .asyncFunction _ _ _ body =>
    (visit_scope (visit_then (visit_declareAll _) (visit_stmtsItems body)) visit_nil :)
  | .test _ body => (visit_scope (visit_stmtsItems body) visit_nil :)
  | .return value => visit_optionItems value
  | .class _ _ none body => (visit_memberScope (visit_stmtsItems body) :)
  | .class _ _ (some _) body => (visit_need (visit_memberScope (visit_stmtsItems body)) :)
  | .match expression cases defaultCase =>
    (visit_then (visit_then (visit_exprItems expression) (visit_casesItems cases))
      (visit_branchItems defaultCase) :)
  | .try tryBlock catchVar catchBlock finallyBlock =>
    (visit_then (visit_then (visit_stmtItems tryBlock) (visit_handlerItems catchBlock catchVar))
      (visit_branchItems finallyBlock) :)
  | .retry count body catchVar catchBlock =>
    (visit_then (visit_then (visit_exprItems count) (visit_stmtItems body))
      (visit_handlerItems catchBlock catchVar) :)
  | .unsafeBlock body => visit_stmtItems body
  | .quiet _ body => visit_stmtItems body
  | .break _ => visit_nil
  | .continue _ => visit_nil
  | .enum _ _ _ => visit_unvisited visit_nil
  | .typeAlias _ _ _ => visit_nil
  | .trait _ _ _ _ => visit_unvisited visit_nil
  | .impl _ _ _ => visit_unvisited visit_nil
  | .use _ false _ none => visit_bring
  | .use _ false _ (some _) => visit_bring
  | .use _ true _ (some _) => visit_bring
  | .use _ true _ none => visit_nil
theorem visit_stmtsItems : ∀ ss : List Stmt,
    Item.visitAll (stmtsItems ss) = resolveStatements ss
  | [] => visit_nil
  | s :: rest => (visit_then (visit_stmtItems s) (visit_stmtsItems rest) :)
theorem visit_branchItems : ∀ o : Option Stmt, Item.visitAll (branchItems o) = resolveBranch o
  | none => visit_nil
  | some s => visit_stmtItems s
theorem visit_elifsItems : ∀ bs : List ElifBranch,
    Item.visitAll (elifsItems bs) = resolveElifs bs
  | [] => visit_nil
  | .mk condition body _ :: rest =>
    (visit_then (visit_then (visit_exprItems condition) (visit_stmtItems body))
      (visit_elifsItems rest) :)
theorem visit_handlerItems : ∀ (o : Option Stmt) (name : Option Token),
    Item.visitAll (handlerItems o name) = resolveHandler o name
  | none, _ => visit_nil
  | some body, none => (visit_scope (visit_stmtItems body) visit_nil :)
  | some body, some _ => (visit_scope (visit_declare (visit_stmtItems body)) visit_nil :)
theorem visit_casesItems : ∀ cs : List MatchCase,
    Item.visitAll (casesItems cs) = resolveCases cs
  | [] => visit_nil
  | .mk _ (some ⟨_, some _⟩) _ body _ :: rest =>
    (visit_scope (visit_declare (visit_unvisited (visit_stmtItems body))) (visit_casesItems rest) :)
  | .mk _ (some ⟨_, none⟩) _ body _ :: rest =>
    (visit_then (visit_unvisited (visit_stmtItems body)) (visit_casesItems rest) :)
  | .mk value none guard body _ :: rest =>
    (visit_then (visit_then (visit_then (visit_exprItems value) (visit_optionItems guard))
      (visit_stmtItems body)) (visit_casesItems rest) :)
end

end Neutron.Names
