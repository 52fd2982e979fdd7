import Neutron.SourceTree

/-!
# Traversing the syntax tree

A traversal that only changes spans and type annotations, with what happens to these as
parameters. The leaves of a tree are what a traversal treats: two treatments give the same tree
exactly when they agree on its leaves.
-/

namespace Neutron.Source

/-! ### Types -/

mutual
/-- Every span of a type through a function. -/
def typeMap (f : Span → Span) : TypeAnnotation → TypeAnnotation
  | .array element => .array (typeOptionMap f element)
  | .option inner => .option (typeMap f inner)
  | .result ok err => .result (typeMap f ok) (typeMap f err)
  | .view inner mutable => .view (typeMap f inner) mutable
  | .shared inner => .shared (typeMap f inner)
  | .slice element => .slice (typeOptionMap f element)
  | .own inner => .own (typeMap f inner)
  | .ref inner mutable => .ref (typeMap f inner) mutable
  | .rawPointer inner mutable => .rawPointer (typeMap f inner) mutable
  | .named token => .named { token with span := f token.span }
  | .implTrait token => .implTrait { token with span := f token.span }
  | .dyn token => .dyn { token with span := f token.span }
  | .tuple elements => .tuple (typesMap f elements)
  | .chan element => .chan (typeMap f element)
  | .int => .int
  | .float => .float
  | .string => .string
  | .bool => .bool
  | .object => .object
  | .any => .any
  | .pointer => .pointer
def typeOptionMap (f : Span → Span) : Option TypeAnnotation → Option TypeAnnotation
  | none => none
  | some ty => some (typeMap f ty)
def typesMap (f : Span → Span) : List TypeAnnotation → List TypeAnnotation
  | [] => []
  | ty :: rest => typeMap f ty :: typesMap f rest
end

mutual
def typeSpans : TypeAnnotation → List Span
  | .array element => typeOptionSpans element
  | .option inner => typeSpans inner
  | .result ok err => typeSpans ok ++ typeSpans err
  | .view inner _ => typeSpans inner
  | .shared inner => typeSpans inner
  | .slice element => typeOptionSpans element
  | .own inner => typeSpans inner
  | .ref inner _ => typeSpans inner
  | .rawPointer inner _ => typeSpans inner
  | .named token => [token.span]
  | .implTrait token => [token.span]
  | .dyn token => [token.span]
  | .tuple elements => typesSpans elements
  | .chan element => typeSpans element
  | .int | .float | .string | .bool | .object | .any | .pointer => []
def typeOptionSpans : Option TypeAnnotation → List Span
  | none => []
  | some ty => typeSpans ty
def typesSpans : List TypeAnnotation → List Span
  | [] => []
  | ty :: rest => typeSpans ty ++ typesSpans rest
end

/-! ### The traversal -/

/-- What a traversal does to the spans, to the type annotations and to the data types of enum
variants. -/
structure Treatment where
  span : Span → Span
  ann : TypeAnnotation → TypeAnnotation
  data : TypeAnnotation → TypeAnnotation

namespace Treatment
variable (τ : Treatment)

def token (t : Token) : Token := { t with span := τ.span t.span }

def returnType (r : ReturnType) : ReturnType := ⟨τ.ann r.ty, τ.span r.arrowSpan⟩

def param (p : FunctionParam) : FunctionParam := ⟨τ.token p.name, p.ann.map τ.ann⟩

def genericParam (p : GenericParam) : GenericParam := ⟨τ.token p.name, p.bounds.map τ.token⟩

def pattern (p : MatchPattern) : MatchPattern := ⟨τ.token p.variant, p.binding.map τ.token⟩

mutual
def expr : Expr → Expr
  | .literal value span => .literal value (τ.span span)
  | .variable name => .variable (τ.token name)
  | .binary left op right => .binary (expr left) (τ.token op) (expr right)
  | .unary op right => .unary (τ.token op) (expr right)
  | .postfixUnary op left => .postfixUnary (τ.token op) (expr left)
  | .grouping expression openSpan closeSpan =>
    .grouping (expr expression) (τ.span openSpan) (τ.span closeSpan)
  | .member object property => .member (expr object) (τ.token property)
  | .optionalMember object property => .optionalMember (expr object) (τ.token property)
  | .call callee paren arguments => .call (expr callee) (τ.span paren) (exprs arguments)
  | .assign name value => .assign (τ.token name) (expr value)
  | .indexGet object index => .indexGet (expr object) (expr index)
  | .indexSet object index value => .indexSet (expr object) (expr index) (expr value)
  | .memberSet object property value => .memberSet (expr object) (τ.token property) (expr value)
  | .this keyword => .this (τ.token keyword)
  | .lambda params returnType body span =>
    .lambda (params.map τ.param) (returnType.map τ.returnType) (stmts body) (τ.span span)
  | .ternary condition thenBranch elseBranch =>
    .ternary (expr condition) (expr thenBranch) (expr elseBranch)
  | .spread value opSpan => .spread (expr value) (τ.span opSpan)
  | .objectLiteral properties span => .objectLiteral (objectProperties properties) (τ.span span)
  | .arrayLiteral elements span => .arrayLiteral (exprs elements) (τ.span span)
  | .await callee arguments span => .await (expr callee) (exprs arguments) (τ.span span)
  | .asyncBlock body returnType span =>
    .asyncBlock (stmts body) (returnType.map τ.returnType) (τ.span span)
  | .view target mutable keyword => .view (expr target) mutable (τ.span keyword)
  | .copy expression keyword => .copy (expr expression) (τ.span keyword)
  | .borrow target mutable keyword => .borrow (expr target) mutable (τ.span keyword)
  | .rawDeref target star => .rawDeref (expr target) (τ.span star)
  | .rawDerefSet target value star => .rawDerefSet (expr target) (expr value) (τ.span star)
  | .structLiteral className fields update span =>
    .structLiteral (τ.token className) (objectProperties fields) (exprOption update) (τ.span span)
  | .propagate value questionSpan => .propagate (expr value) (τ.span questionSpan)
  | .tupleLiteral elements span => .tupleLiteral (exprs elements) (τ.span span)
  | .tupleIndex object index dotSpan => .tupleIndex (expr object) index (τ.span dotSpan)
  | .chanSend channel value opSpan => .chanSend (expr channel) (expr value) (τ.span opSpan)
  | .chanRecv receiver channel opSpan =>
    .chanRecv (τ.token receiver) (expr channel) (τ.span opSpan)
  | .close channel keyword => .close (expr channel) (τ.span keyword)
def exprs : List Expr → List Expr
  | [] => []
  | e :: rest => expr e :: exprs rest
def exprOption : Option Expr → Option Expr
  | none => none
  | some e => some (expr e)
def objectProperties : List ObjectProperty → List ObjectProperty
  | [] => []
  | .mk key value keySpan :: rest => .mk key (expr value) (τ.span keySpan) :: objectProperties rest
def stmt : Stmt → Stmt
  | .expression expression => .expression (expr expression)
  | .say expression keywordSpan => .say (expr expression) (τ.span keywordSpan)
  | .var name ann initializer isStatic isConst view =>
    .var (τ.token name) (ann.map τ.ann) (exprOption initializer) isStatic isConst view
  | .block statements openSpan closeSpan =>
    .block (stmts statements) (τ.span openSpan) (τ.span closeSpan)
  | .if condition thenBranch elifBranches elseBranch =>
    .if (expr condition) (stmt thenBranch) (elifs elifBranches) (stmtOption elseBranch)
  | .while condition body => .while (expr condition) (stmt body)
  | .doWhile body condition => .doWhile (stmt body) (expr condition)
  | .for init condition update body =>
    .for (stmtOption init) (exprOption condition) (exprOption update) (stmt body)
  | .forIn name iterable body => .forIn (τ.token name) (expr iterable) (stmt body)
  | .forAwait name producer body => .forAwait (τ.token name) (expr producer) (stmt body)
  | .chanRecvFor name channel body => .chanRecvFor (τ.token name) (expr channel) (stmt body)
  | .go call block keywordSpan => .go (expr call) (stmtsOption block) (τ.span keywordSpan)
  | .function name genericParams params returnType body =>
    .function (τ.token name) (genericParams.map τ.genericParam) (params.map τ.param)
      (returnType.map τ.returnType) (stmts body)
  | .asyncFunction name params returnType body =>
    .asyncFunction (τ.token name) (params.map τ.param) (returnType.map τ.returnType) (stmts body)
  | .return value => .return (exprOption value)
  | .class name genericParams parent body =>
    .class (τ.token name) (genericParams.map τ.genericParam) (parent.map τ.token) (stmts body)
  | .break span => .break (τ.span span)
  | .continue span => .continue (τ.span span)
  | .match expression cases defaultCase =>
    .match (expr expression) (matchCases cases) (stmtOption defaultCase)
  | .try tryBlock catchVar catchBlock finallyBlock =>
    .try (stmt tryBlock) (catchVar.map τ.token) (stmtOption catchBlock)
      (stmtOption finallyBlock)
  | .throw value => .throw (expr value)
  | .retry count body catchVar catchBlock =>
    .retry (expr count) (stmt body) (catchVar.map τ.token) (stmtOption catchBlock)
  | .unsafeBlock body => .unsafeBlock (stmt body)
  | .quiet suppressed body => .quiet suppressed (stmt body)
  | .destructure isArray isTuple names keys initializer =>
    .destructure isArray isTuple (names.map τ.token) keys (expr initializer)
  | .use library isFilePath importedSymbols asName =>
    .use (τ.token library) isFilePath (importedSymbols.map τ.token) (asName.map τ.token)
  | .enum name genericParams members =>
    .enum (τ.token name) (genericParams.map τ.genericParam) (enumMembers members)
  | .typeAlias name genericParams target =>
    .typeAlias (τ.token name) (genericParams.map τ.genericParam) (τ.ann target)
  | .trait name parents associatedTypes methods =>
    .trait (τ.token name) (parents.map τ.token) (associatedTypes.map τ.token) (stmts methods)
  | .impl traitName typeName body => .impl (τ.token traitName) (τ.token typeName) (stmts body)
  | .test name body => .test (τ.token name) (stmts body)
def stmts : List Stmt → List Stmt
  | [] => []
  | s :: rest => stmt s :: stmts rest
def stmtOption : Option Stmt → Option Stmt
  | none => none
  | some s => some (stmt s)
def stmtsOption : Option (List Stmt) → Option (List Stmt)
  | none => none
  | some ss => some (stmts ss)
def elifs : List ElifBranch → List ElifBranch
  | [] => []
  | .mk condition body elifSpan :: rest =>
    .mk (expr condition) (stmt body) (τ.span elifSpan) :: elifs rest
def matchCases : List MatchCase → List MatchCase
  | [] => []
  | .mk value pattern guard body caseSpan :: rest =>
    .mk (expr value) (pattern.map τ.pattern) (exprOption guard) (stmt body) (τ.span caseSpan) ::
      matchCases rest
def enumMembers : List EnumMember → List EnumMember
  | [] => []
  | .mk name value dataTypes :: rest =>
    .mk (τ.token name) (exprOption value) (dataTypes.map τ.data) :: enumMembers rest
end

end Treatment

/-- Every span of a tree through a function. -/
def everySpan (f : Span → Span) : Treatment := ⟨f, typeMap f, typeMap f⟩

/-! ### The leaves of a tree -/

/-- What a traversal treats: a span, a type annotation, a data type of an enum variant. -/
inductive Leaf where
  | span (s : Span)
  | ann (ty : TypeAnnotation)
  | data (ty : TypeAnnotation)

def Treatment.leaf (τ : Treatment) : Leaf → Leaf
  | .span s => .span (τ.span s)
  | .ann ty => .ann (τ.ann ty)
  | .data ty => .data (τ.data ty)

def tokenLeaf (t : Token) : Leaf := .span t.span

def returnTypeLeaves (r : ReturnType) : List Leaf := [.ann r.ty, .span r.arrowSpan]

def paramLeaves (p : FunctionParam) : List Leaf := tokenLeaf p.name :: p.ann.toList.map .ann

def genericParamLeaves (p : GenericParam) : List Leaf := tokenLeaf p.name :: p.bounds.map tokenLeaf

def patternLeaves (p : MatchPattern) : List Leaf :=
  tokenLeaf p.variant :: p.binding.toList.map tokenLeaf

mutual
def exprLeaves : Expr → List Leaf
  | .literal _ span => [.span span]
  | .variable name => [tokenLeaf name]
  | .binary left op right => exprLeaves left ++ [tokenLeaf op] ++ exprLeaves right
  | .unary op right => [tokenLeaf op] ++ exprLeaves right
  | .postfixUnary op left => [tokenLeaf op] ++ exprLeaves left
  | .grouping expression openSpan closeSpan =>
    exprLeaves expression ++ [.span openSpan] ++ [.span closeSpan]
  | .member object property => exprLeaves object ++ [tokenLeaf property]
  | .optionalMember object property => exprLeaves object ++ [tokenLeaf property]
  | .call callee paren arguments => exprLeaves callee ++ [.span paren] ++ exprsLeaves arguments
  | .assign name value => [tokenLeaf name] ++ exprLeaves value
  | .indexGet object index => exprLeaves object ++ exprLeaves index
  | .indexSet object index value => exprLeaves object ++ exprLeaves index ++ exprLeaves value
  | .memberSet object property value =>
    exprLeaves object ++ [tokenLeaf property] ++ exprLeaves value
  | .this keyword => [tokenLeaf keyword]
  | .lambda params returnType body span =>
    params.flatMap paramLeaves ++ returnType.toList.flatMap returnTypeLeaves ++ stmtsLeaves body ++
      [.span span]
  | .ternary condition thenBranch elseBranch =>
    exprLeaves condition ++ exprLeaves thenBranch ++ exprLeaves elseBranch
  | .spread value opSpan => exprLeaves value ++ [.span opSpan]
  | .objectLiteral properties span => propertiesLeaves properties ++ [.span span]
  | .arrayLiteral elements span => exprsLeaves elements ++ [.span span]
  | .await callee arguments span => exprLeaves callee ++ exprsLeaves arguments ++ [.span span]
  | .asyncBlock body returnType span =>
    stmtsLeaves body ++ returnType.toList.flatMap returnTypeLeaves ++ [.span span]
  | .view target _ keyword => exprLeaves target ++ [.span keyword]
  | .copy expression keyword => exprLeaves expression ++ [.span keyword]
  | .borrow target _ keyword => exprLeaves target ++ [.span keyword]
  | .rawDeref target star => exprLeaves target ++ [.span star]
  | .rawDerefSet target value star => exprLeaves target ++ exprLeaves value ++ [.span star]
  | .structLiteral className fields update span =>
    [tokenLeaf className] ++ propertiesLeaves fields ++ exprOptionLeaves update ++ [.span span]
  | .propagate value questionSpan => exprLeaves value ++ [.span questionSpan]
  | .tupleLiteral elements span => exprsLeaves elements ++ [.span span]
  | .tupleIndex object _ dotSpan => exprLeaves object ++ [.span dotSpan]
  | .chanSend channel value opSpan => exprLeaves channel ++ exprLeaves value ++ [.span opSpan]
  | .chanRecv receiver channel opSpan =>
    [tokenLeaf receiver] ++ exprLeaves channel ++ [.span opSpan]
  | .close channel keyword => exprLeaves channel ++ [.span keyword]
def exprsLeaves : List Expr → List Leaf
  | [] => []
  | e :: rest => exprLeaves e ++ exprsLeaves rest
def exprOptionLeaves : Option Expr → List Leaf
  | none => []
  | some e => exprLeaves e
def propertiesLeaves : List ObjectProperty → List Leaf
  | [] => []
  | .mk _ value keySpan :: rest => exprLeaves value ++ [.span keySpan] ++ propertiesLeaves rest
def stmtLeaves : Stmt → List Leaf
  | .expression expression => exprLeaves expression
  | .say expression keywordSpan => exprLeaves expression ++ [.span keywordSpan]
  | .var name ann initializer _ _ _ =>
    [tokenLeaf name] ++ ann.toList.map .ann ++ exprOptionLeaves initializer
  | .block statements openSpan closeSpan =>
    stmtsLeaves statements ++ [.span openSpan] ++ [.span closeSpan]
  | .if condition thenBranch elifBranches elseBranch =>
    exprLeaves condition ++ stmtLeaves thenBranch ++ elifsLeaves elifBranches ++ stmtOptionLeaves
      elseBranch
  | .while condition body => exprLeaves condition ++ stmtLeaves body
  | .doWhile body condition => stmtLeaves body ++ exprLeaves condition
  | .for init condition update body =>
    stmtOptionLeaves init ++ exprOptionLeaves condition ++ exprOptionLeaves update ++ stmtLeaves
      body
  | .forIn name iterable body => [tokenLeaf name] ++ exprLeaves iterable ++ stmtLeaves body
  | .forAwait name producer body => [tokenLeaf name] ++ exprLeaves producer ++ stmtLeaves body
  | .chanRecvFor name channel body => [tokenLeaf name] ++ exprLeaves channel ++ stmtLeaves body
  | .go call block keywordSpan => exprLeaves call ++ stmtsOptionLeaves block ++ [.span keywordSpan]
  | .function name genericParams params returnType body =>
    [tokenLeaf name] ++ genericParams.flatMap genericParamLeaves ++ params.flatMap paramLeaves ++
      returnType.toList.flatMap returnTypeLeaves ++ stmtsLeaves body
  | .asyncFunction name params returnType body =>
    [tokenLeaf name] ++ params.flatMap paramLeaves ++ returnType.toList.flatMap returnTypeLeaves
      ++ stmtsLeaves body
  | .return value => exprOptionLeaves value
  | .class name genericParams parent body =>
    [tokenLeaf name] ++ genericParams.flatMap genericParamLeaves ++ parent.toList.map tokenLeaf ++
      stmtsLeaves body
  | .break span => [.span span]
  | .continue span => [.span span]
  | .match expression cases defaultCase =>
    exprLeaves expression ++ matchCasesLeaves cases ++ stmtOptionLeaves defaultCase
  | .try tryBlock catchVar catchBlock finallyBlock =>
    stmtLeaves tryBlock ++ catchVar.toList.map tokenLeaf ++ stmtOptionLeaves catchBlock ++
      stmtOptionLeaves finallyBlock
  | .throw value => exprLeaves value
  | .retry count body catchVar catchBlock =>
    exprLeaves count ++ stmtLeaves body ++ catchVar.toList.map tokenLeaf ++ stmtOptionLeaves
      catchBlock
  | .unsafeBlock body => stmtLeaves body
  | .quiet _ body => stmtLeaves body
  | .destructure _ _ names _ initializer => names.map tokenLeaf ++ exprLeaves initializer
  | .use library _ importedSymbols asName =>
    [tokenLeaf library] ++ importedSymbols.map tokenLeaf ++ asName.toList.map tokenLeaf
  | .enum name genericParams members =>
    [tokenLeaf name] ++ genericParams.flatMap genericParamLeaves ++ membersLeaves members
  | .typeAlias name genericParams target =>
    [tokenLeaf name] ++ genericParams.flatMap genericParamLeaves ++ [.ann target]
  | .trait name parents associatedTypes methods =>
    [tokenLeaf name] ++ parents.map tokenLeaf ++ associatedTypes.map tokenLeaf ++ stmtsLeaves
      methods
  | .impl traitName typeName body =>
    [tokenLeaf traitName] ++ [tokenLeaf typeName] ++ stmtsLeaves body
  | .test name body => [tokenLeaf name] ++ stmtsLeaves body
def stmtsLeaves : List Stmt → List Leaf
  | [] => []
  | s :: rest => stmtLeaves s ++ stmtsLeaves rest
def stmtOptionLeaves : Option Stmt → List Leaf
  | none => []
  | some s => stmtLeaves s
def stmtsOptionLeaves : Option (List Stmt) → List Leaf
  | none => []
  | some ss => stmtsLeaves ss
def elifsLeaves : List ElifBranch → List Leaf
  | [] => []
  | .mk condition body elifSpan :: rest =>
    exprLeaves condition ++ stmtLeaves body ++ [.span elifSpan] ++ elifsLeaves rest
def matchCasesLeaves : List MatchCase → List Leaf
  | [] => []
  | .mk value pattern guard body caseSpan :: rest =>
    exprLeaves value ++ pattern.toList.flatMap patternLeaves ++ exprOptionLeaves guard ++
      stmtLeaves body ++ [.span caseSpan] ++ matchCasesLeaves rest
def membersLeaves : List EnumMember → List Leaf
  | [] => []
  | .mk name value dataTypes :: rest =>
    [tokenLeaf name] ++ exprOptionLeaves value ++ dataTypes.map .data ++ membersLeaves rest
end

/-- Two treatments do the same to these leaves. -/
def AgreeOn (τ τ' : Treatment) (leaves : List Leaf) : Prop := ∀ l ∈ leaves, τ.leaf l = τ'.leaf l

namespace Treatment
variable {τ τ' : Treatment}

@[simp] theorem agreeOn_nil : AgreeOn τ τ' [] := by simp [AgreeOn]

@[simp] theorem agreeOn_cons (l : Leaf) (leaves : List Leaf) :
    AgreeOn τ τ' (l :: leaves) ↔ τ.leaf l = τ'.leaf l ∧ AgreeOn τ τ' leaves := by
  simp [AgreeOn]

@[simp] theorem agreeOn_append (leaves leaves' : List Leaf) :
    AgreeOn τ τ' (leaves ++ leaves') ↔ AgreeOn τ τ' leaves ∧ AgreeOn τ τ' leaves' := by
  simp [AgreeOn, or_imp, forall_and]

@[simp] theorem leaf_span (s : Span) : τ.leaf (.span s) = .span (τ.span s) := rfl
@[simp] theorem leaf_ann (ty : TypeAnnotation) : τ.leaf (.ann ty) = .ann (τ.ann ty) := rfl
@[simp] theorem leaf_data (ty : TypeAnnotation) : τ.leaf (.data ty) = .data (τ.data ty) := rfl
@[simp] theorem leaf_tokenLeaf (t : Token) : τ.leaf (tokenLeaf t) = .span (τ.span t.span) := rfl

@[simp] theorem token_eq_iff (t : Token) : τ.token t = τ'.token t ↔ τ.span t.span = τ'.span t.span := by
  simp [token]

@[simp] theorem agreeOn_map {α : Type} (f : α → Leaf) (l : List α) :
    AgreeOn τ τ' (l.map f) ↔ ∀ a ∈ l, τ.leaf (f a) = τ'.leaf (f a) := by
  simp [AgreeOn]

@[simp] theorem agreeOn_flatMap {α : Type} (f : α → List Leaf) (l : List α) :
    AgreeOn τ τ' (l.flatMap f) ↔ ∀ a ∈ l, AgreeOn τ τ' (f a) := by
  simp only [AgreeOn, List.mem_flatMap]
  constructor
  · exact fun h a ha l hl => h l ⟨a, ha, hl⟩
  · rintro h l ⟨a, ha, hl⟩
    exact h a ha l hl

@[simp] theorem option_map_eq_iff {α β : Type} {f g : α → β} (o : Option α) :
    o.map f = o.map g ↔ ∀ a, o = some a → f a = g a := by
  cases o <;> simp

@[simp] theorem param_eq_iff (p : FunctionParam) :
    τ.param p = τ'.param p ↔ AgreeOn τ τ' (paramLeaves p) := by
  simp [param, paramLeaves]

@[simp] theorem genericParam_eq_iff (p : GenericParam) :
    τ.genericParam p = τ'.genericParam p ↔ AgreeOn τ τ' (genericParamLeaves p) := by
  simp [genericParam, genericParamLeaves]

@[simp] theorem returnType_eq_iff (r : ReturnType) :
    τ.returnType r = τ'.returnType r ↔ AgreeOn τ τ' (returnTypeLeaves r) := by
  simp [returnType, returnTypeLeaves]

@[simp] theorem pattern_eq_iff (p : MatchPattern) :
    τ.pattern p = τ'.pattern p ↔ AgreeOn τ τ' (patternLeaves p) := by
  simp [pattern, patternLeaves]

/-- Two treatments give the same tree exactly when they agree on its leaves. -/
theorem eq_iff_agreeOn :
    (∀ e, τ.expr e = τ'.expr e ↔ AgreeOn τ τ' (exprLeaves e)) ∧
      (∀ o, τ.exprOption o = τ'.exprOption o ↔ AgreeOn τ τ' (exprOptionLeaves o)) ∧
      (∀ ps, τ.objectProperties ps = τ'.objectProperties ps ↔ AgreeOn τ τ' (propertiesLeaves ps)) ∧
      (∀ ss, τ.stmts ss = τ'.stmts ss ↔ AgreeOn τ τ' (stmtsLeaves ss)) ∧
      (∀ s, τ.stmt s = τ'.stmt s ↔ AgreeOn τ τ' (stmtLeaves s)) ∧
      (∀ ms, τ.enumMembers ms = τ'.enumMembers ms ↔ AgreeOn τ τ' (membersLeaves ms)) ∧
      (∀ cs, τ.matchCases cs = τ'.matchCases cs ↔ AgreeOn τ τ' (matchCasesLeaves cs)) ∧
      (∀ o, τ.stmtsOption o = τ'.stmtsOption o ↔ AgreeOn τ τ' (stmtsOptionLeaves o)) ∧
      (∀ o, τ.stmtOption o = τ'.stmtOption o ↔ AgreeOn τ τ' (stmtOptionLeaves o)) ∧
      (∀ bs, τ.elifs bs = τ'.elifs bs ↔ AgreeOn τ τ' (elifsLeaves bs)) ∧
      (∀ es, τ.exprs es = τ'.exprs es ↔ AgreeOn τ τ' (exprsLeaves es)) := by
  apply expr.mutual_induct
  all_goals
    intros
    simp_all [expr, exprOption, objectProperties, stmts, stmt, enumMembers, matchCases, stmtsOption,
      stmtOption, elifs, exprs, exprLeaves, exprOptionLeaves, propertiesLeaves, stmtsLeaves, stmtLeaves,
      membersLeaves, matchCasesLeaves, stmtsOptionLeaves, stmtOptionLeaves, elifsLeaves, exprsLeaves,
      and_assoc]

theorem stmts_eq_iff (ss : List Stmt) : τ.stmts ss = τ'.stmts ss ↔ AgreeOn τ τ' (stmtsLeaves ss) :=
  eq_iff_agreeOn.2.2.2.1 ss

/-- One treatment after another. -/
def comp (τ τ' : Treatment) : Treatment := ⟨τ.span ∘ τ'.span, τ.ann ∘ τ'.ann, τ.data ∘ τ'.data⟩

@[simp] theorem comp_span (s : Span) : τ.span (τ'.span s) = (τ.comp τ').span s := rfl

@[simp] theorem comp_ann (ty : TypeAnnotation) : τ.ann (τ'.ann ty) = (τ.comp τ').ann ty := rfl

@[simp] theorem comp_data : τ.data ∘ τ'.data = (τ.comp τ').data := rfl

@[simp] theorem comp_token (t : Token) : τ.token (τ'.token t) = (τ.comp τ').token t := rfl

@[simp] theorem comp_tokens : τ.token ∘ τ'.token = (τ.comp τ').token := rfl

@[simp] theorem comp_anns : τ.ann ∘ τ'.ann = (τ.comp τ').ann := rfl

@[simp] theorem comp_params : τ.param ∘ τ'.param = (τ.comp τ').param := by
  funext p
  simp [param]

@[simp] theorem comp_genericParams : τ.genericParam ∘ τ'.genericParam = (τ.comp τ').genericParam := by
  funext p
  simp [genericParam]

@[simp] theorem comp_returnTypes : τ.returnType ∘ τ'.returnType = (τ.comp τ').returnType := by
  funext r
  simp [returnType]

@[simp] theorem comp_patterns : τ.pattern ∘ τ'.pattern = (τ.comp τ').pattern := by
  funext p
  simp [pattern]

theorem comp_trees :
    (∀ e, τ.expr (τ'.expr e) = (τ.comp τ').expr e) ∧
      (∀ o, τ.exprOption (τ'.exprOption o) = (τ.comp τ').exprOption o) ∧
      (∀ ps, τ.objectProperties (τ'.objectProperties ps) = (τ.comp τ').objectProperties ps) ∧
      (∀ ss, τ.stmts (τ'.stmts ss) = (τ.comp τ').stmts ss) ∧
      (∀ s, τ.stmt (τ'.stmt s) = (τ.comp τ').stmt s) ∧
      (∀ ms, τ.enumMembers (τ'.enumMembers ms) = (τ.comp τ').enumMembers ms) ∧
      (∀ cs, τ.matchCases (τ'.matchCases cs) = (τ.comp τ').matchCases cs) ∧
      (∀ o, τ.stmtsOption (τ'.stmtsOption o) = (τ.comp τ').stmtsOption o) ∧
      (∀ o, τ.stmtOption (τ'.stmtOption o) = (τ.comp τ').stmtOption o) ∧
      (∀ bs, τ.elifs (τ'.elifs bs) = (τ.comp τ').elifs bs) ∧
      (∀ es, τ.exprs (τ'.exprs es) = (τ.comp τ').exprs es) := by
  apply expr.mutual_induct
  all_goals
    intros
    simp_all [expr, exprOption, objectProperties, stmts, stmt, enumMembers, matchCases, stmtsOption,
      stmtOption, elifs, exprs]

theorem stmts_comp (ss : List Stmt) : τ.stmts (τ'.stmts ss) = (τ.comp τ').stmts ss :=
  comp_trees.2.2.2.1 ss

/-! ### The leaves of a treated tree -/

@[simp] theorem leaf_comp_tokenLeaf : τ.leaf ∘ tokenLeaf = tokenLeaf ∘ τ.token := rfl

@[simp] theorem leaf_comp_ann : τ.leaf ∘ .ann = .ann ∘ τ.ann := rfl

@[simp] theorem leaf_comp_data : τ.leaf ∘ .data = .data ∘ τ.data := rfl

@[simp] theorem tokenLeaf_token (t : Token) : tokenLeaf (τ.token t) = .span (τ.span t.span) := rfl

theorem flatMap_leaves {α : Type} {f : α → α} {leaves : α → List Leaf}
    (h : ∀ a, leaves (f a) = (leaves a).map τ.leaf) (l : List α) :
    (l.map f).flatMap leaves = (l.flatMap leaves).map τ.leaf := by
  induction l with
  | nil => simp
  | cons a l ih => simp [h, ih]

@[simp] theorem paramsLeaves (l : List FunctionParam) :
    (l.map τ.param).flatMap paramLeaves = (l.flatMap paramLeaves).map τ.leaf :=
  flatMap_leaves (fun p => by cases h : p.ann <;> simp [param, paramLeaves, h]) l

@[simp] theorem genericParamsLeaves (l : List GenericParam) :
    (l.map τ.genericParam).flatMap genericParamLeaves =
      (l.flatMap genericParamLeaves).map τ.leaf :=
  flatMap_leaves (fun p => by simp [genericParam, genericParamLeaves]) l

@[simp] theorem returnTypesLeaves (l : List ReturnType) :
    (l.map τ.returnType).flatMap returnTypeLeaves = (l.flatMap returnTypeLeaves).map τ.leaf :=
  flatMap_leaves (fun r => by simp [returnType, returnTypeLeaves]) l

@[simp] theorem patternsLeaves (l : List MatchPattern) :
    (l.map τ.pattern).flatMap patternLeaves = (l.flatMap patternLeaves).map τ.leaf :=
  flatMap_leaves (fun p => by cases h : p.binding <;> simp [pattern, patternLeaves, h]) l

@[simp] theorem toList_map {α β : Type} (f : α → β) (o : Option α) :
    (o.map f).toList = o.toList.map f := by
  cases o <;> simp

theorem leaves_trees :
    (∀ e, exprLeaves (τ.expr e) = (exprLeaves e).map τ.leaf) ∧
      (∀ o, exprOptionLeaves (τ.exprOption o) = (exprOptionLeaves o).map τ.leaf) ∧
      (∀ ps, propertiesLeaves (τ.objectProperties ps) = (propertiesLeaves ps).map τ.leaf) ∧
      (∀ ss, stmtsLeaves (τ.stmts ss) = (stmtsLeaves ss).map τ.leaf) ∧
      (∀ s, stmtLeaves (τ.stmt s) = (stmtLeaves s).map τ.leaf) ∧
      (∀ ms, membersLeaves (τ.enumMembers ms) = (membersLeaves ms).map τ.leaf) ∧
      (∀ cs, matchCasesLeaves (τ.matchCases cs) = (matchCasesLeaves cs).map τ.leaf) ∧
      (∀ o, stmtsOptionLeaves (τ.stmtsOption o) = (stmtsOptionLeaves o).map τ.leaf) ∧
      (∀ o, stmtOptionLeaves (τ.stmtOption o) = (stmtOptionLeaves o).map τ.leaf) ∧
      (∀ bs, elifsLeaves (τ.elifs bs) = (elifsLeaves bs).map τ.leaf) ∧
      (∀ es, exprsLeaves (τ.exprs es) = (exprsLeaves es).map τ.leaf) := by
  apply expr.mutual_induct
  all_goals
    intros
    simp_all [expr, exprOption, objectProperties, stmts, stmt, enumMembers, matchCases, stmtsOption,
      stmtOption, elifs, exprs, exprLeaves, exprOptionLeaves, propertiesLeaves, stmtsLeaves, stmtLeaves,
      membersLeaves, matchCasesLeaves, stmtsOptionLeaves, stmtOptionLeaves, elifsLeaves, exprsLeaves]

theorem stmt_leaves (s : Stmt) : stmtLeaves (τ.stmt s) = (stmtLeaves s).map τ.leaf :=
  leaves_trees.2.2.2.2.1 s

end Treatment

end Neutron.Source
