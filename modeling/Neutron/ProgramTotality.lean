import Neutron.ParserTotality

/-!
# Parsing programs is total

The statement parsers keep their promises as well, and from any position on enough unrollings of
the recursion are enough fuel. Every turn of the top-level loop takes a token: a statement that
fails at once does not begin with a keyword at which parsing resumes.
-/

namespace Neutron.Source
open CursorParser

variable {excused : Prop} {ts : List Token} {start : ℕ} {moved atToken : Bool}

section Leaves

theorem runs_isTupleDestructure :
    Runs excused ts start moved true (fun _ => false) Calls.isTupleDestructure := by
  refine .eat .advance fun _ => .test rfl ?_ (.pure rfl)
  refine .pass (runs_skipWhile rfl) fun _ => runs_check rfl ?_ (.pure rfl)
  exact .eat .advance fun _ => runs_checked

theorem runs_terminateIf {c : Bool} :
    Runs excused ts start moved atToken (fun _ => false) (Calls.terminateIf c) :=
  .ite (fun _ => runs_consumeTerminator) fun _ => .pure rfl

theorem runs_parseBound {isArray : Bool} {name : Token} :
    Runs excused ts start moved atToken (fun _ => false) (Calls.parseBound isArray name) := by
  refine .ite (fun _ => .pure rfl) fun _ => ?_
  exact runs_consume_bind rfl (fun _ => runs_expectIdent) (.pure rfl)

theorem runs_parseTraitParents :
    Runs excused ts start moved atToken (fun _ => false) Calls.parseTraitParents :=
  runs_consume_bind rfl (fun _ => runs_parseBounds) (.pure rfl)

theorem runs_parseParentClass :
    Runs excused ts start moved atToken (fun _ => false) Calls.parseParentClass := by
  unfold Calls.parseParentClass checkIdent
  refine runs_check rfl ?_ (.pure rfl)
  exact .eat .advance fun _ => .eat runs_expectIdent fun _ => .pure rfl

theorem runs_parseVariantData :
    Runs excused ts start moved atToken (fun _ => false) Calls.parseVariantData := by
  refine runs_consume_bind rfl (fun _ => ?_) (.pure rfl)
  refine .pass (runs_unlessClosed rfl (runs_separated rfl (runs_orError runs_parseTypeAnnotation)))
    fun _ => ?_
  exact .eat (runs_expect rfl) fun _ => .pure rfl

theorem leads_parseTypeAliasDeclaration : Leads excused ts start Calls.parseTypeAliasDeclaration := by
  refine .intro fun _ => .eat runs_expectIdent fun _ => ?_
  refine .pass runs_parseGenericParams fun _ => .eat (runs_expect rfl) fun _ => ?_
  refine .eat (runs_orError runs_parseTypeAnnotation) fun _ => ?_
  exact .pass runs_consumeTerminator fun _ => .pure rfl

theorem runs_isForIn : Runs excused ts start moved true (fun _ => false) Calls.isForIn := by
  refine .eat .advance fun _ => runs_check rfl ?_ (.pure rfl)
  refine .eat .advance fun _ => runs_kindIs rfl ?_ (.pure rfl)
  exact .eat .advance fun _ => runs_checked

theorem runs_detectsForIn :
    Runs excused ts start moved atToken (fun _ => false) Calls.detectsForIn := by
  unfold Calls.detectsForIn
  exact runs_check rfl (.ahead runs_isForIn) (.pure rfl)

theorem leads_parseJump {build : Span → Stmt} :
    Leads excused ts start (Calls.parseJump build) :=
  .intro fun _ => .pass runs_consumeTerminator fun _ => .pure rfl

theorem runs_parseSuppressed :
    Runs excused ts start moved atToken (fun _ => false) Calls.parseSuppressed := by
  refine runs_consume_bind rfl (fun _ => runs_check rfl runs_errorHere ?_) (.pure rfl)
  refine .eat (runs_separated rfl runs_expectIdent) fun _ => .eat (runs_expect rfl) fun _ => ?_
  exact .pass runs_skipNewlines fun _ => .pure rfl

theorem runs_parseLibrary {message : String} {eats : Token × Bool → Bool} :
    Runs excused ts start moved atToken eats (Calls.parseLibrary message) := by
  unfold Calls.parseLibrary
  refine runs_kindIs rfl ?_ ?_
  · exact .eat .advance fun _ => .pure rfl
  · exact .eat runs_expectIdent fun _ => .pure rfl

theorem runs_parseAlias :
    Runs excused ts start moved atToken (fun _ => false) Calls.parseAlias := by
  unfold Calls.parseAlias
  refine runs_check rfl ?_ (.pure rfl)
  exact .eat .advance fun _ => .eat runs_expectIdent fun _ => .pure rfl

theorem runs_parseSelectiveUse {eats : Stmt → Bool} :
    Runs excused ts start moved true eats Calls.parseSelectiveUse := by
  refine .eat .advance fun _ => ?_
  refine .pass (runs_unlessClosed rfl (runs_separated rfl runs_expectIdent)) fun _ => ?_
  refine .eat (runs_expect rfl) fun _ => .eat (runs_expect rfl) fun _ => ?_
  refine .eat (runs_expect rfl) fun _ => .eat runs_parseLibrary fun _ => ?_
  exact .pass runs_consumeTerminator fun _ => .pure rfl

theorem leads_parseUseStatement : Leads excused ts start Calls.parseUseStatement := by
  refine .intro fun _ => runs_check rfl runs_parseSelectiveUse ?_
  refine .eat runs_parseLibrary fun _ => .pass runs_parseAlias fun _ => ?_
  exact .pass runs_consumeTerminator fun _ => .pure rfl

/-- An expression statement parses an expression where it starts. -/
theorem runs_parseExpressionStatement {calls : Calls} {eats : Stmt → Bool}
    (hexpression : Runs excused ts start moved atToken (fun _ => true) calls.expression) :
    Runs excused ts start moved atToken eats calls.parseExpressionStatement :=
  .eat hexpression fun _ => .pass runs_consumeTerminator fun _ => .pure rfl

end Leaves

namespace Calls.Sound
variable {calls : Calls} (h : calls.Sound excused ts start) {eats : Stmt → Bool}

include h

theorem parseInitializer :
    Runs excused ts start true atToken (fun _ => false) calls.parseInitializer := by
  refine runs_consume_bind rfl (fun _ => ?_) (.pure rfl)
  exact .eat h.expression fun _ => .pure rfl

theorem parseDestructured {message : String} {build : Expr → Stmt} :
    Runs excused ts start true atToken eats (calls.parseDestructured message build) := by
  refine .eat (runs_expect rfl) fun _ => .eat h.expression fun _ => ?_
  exact .pass runs_consumeTerminator fun _ => .pure rfl

theorem parseDestructure {ann : Option TypeAnnotation} {isStatic : Bool} :
    Runs excused ts start moved true eats (calls.parseDestructure ann isStatic) := by
  refine .bind_stays runs_checked (stays_check _) fun isArray => .eat .advance fun _ => ?_
  have hclose : (TokenKind.eof == if isArray then TokenKind.rightBracket else .rightBrace) = false := by
    cases isArray <;> rfl
  refine .pass (.loop fun content => runs_check hclose (.pure rfl) ?_) fun content => ?_
  · refine .eat runs_expectIdent fun _ => .pass runs_parseBound fun _ => ?_
    exact runs_consume_bind rfl (fun _ => .pure rfl) (.pure rfl)
  · refine .eat (runs_expect hclose) fun _ => .pass runs_terminateIf fun _ => ?_
    exact h.parseDestructured

theorem parseTupleDestructure {ann : Option TypeAnnotation} :
    Runs excused ts start moved true eats (calls.parseTupleDestructure ann) := by
  refine .eat .advance fun _ => .pass (.loop fun names => ?_) fun names => ?_
  · refine runs_check rfl (.pure rfl) (.eat runs_expectIdent fun _ => ?_)
    exact runs_consume_bind rfl (fun _ => .pure rfl) (.pure rfl)
  · refine .eat (runs_expect rfl) fun _ => .pass runs_terminateIf fun _ => ?_
    exact h.parseDestructured

theorem parseTypedDeclaration {view : Option Bool} {isStatic isConst : Bool} :
    Runs excused ts start true atToken eats
      (calls.parseTypedDeclaration view isStatic isConst) := by
  refine .pass (runs_optional runs_parseDeclarationTypeAnnotation) fun ann => ?_
  refine runs_kindIs rfl (.ite (fun _ => runs_errorHere) fun _ => h.parseDestructure) ?_
  refine .eat runs_expectIdent fun _ => .pass h.parseInitializer fun _ => ?_
  exact .pass runs_consumeTerminator fun _ => .pure rfl

theorem parseVarDeclarationTail {view : Option Bool} {isStatic isConst : Bool} :
    Runs excused ts start true atToken eats
      (calls.parseVarDeclarationTail view isStatic isConst) := by
  unfold Calls.parseVarDeclarationTail
  refine runs_kindIs rfl ?_ h.parseTypedDeclaration
  refine .bind_stays (.ahead runs_isTupleDestructure) (stays_ahead _) fun destructures => ?_
  refine .ite (fun _ => ?_) fun _ => h.parseTypedDeclaration
  exact .ite (fun _ => runs_errorHere) fun _ => h.parseTupleDestructure

theorem parseVarDeclaration : Leads excused ts start calls.parseVarDeclaration :=
  .intro fun _ => h.parseVarDeclarationTail

theorem parseViewVarDeclaration : Leads excused ts start calls.parseViewVarDeclaration := by
  refine .intro fun _ => .pass (runs_consume rfl).weaken fun _ => ?_
  exact .eat (runs_expect rfl) fun _ => h.parseVarDeclarationTail

theorem parseStaticVar : Leads excused ts start calls.parseStaticVar := by
  refine .intro fun _ => .pass runs_consumeKeyword fun _ => ?_
  exact .eat (runs_expect rfl) fun _ => h.parseVarDeclarationTail

theorem parseSharedVarDeclaration :
    Runs excused ts start moved atToken eats calls.parseSharedVarDeclaration := by
  refine .eat (runs_orError runs_parseTypeAnnotation) fun _ => .eat runs_expectIdent fun _ => ?_
  refine .pass h.parseInitializer fun _ => ?_
  exact .pass runs_consumeTerminator fun _ => .pure rfl

theorem parseSayStatement : Leads excused ts start calls.parseSayStatement := by
  refine .intro fun _ => .eat (runs_expect rfl) fun _ => .eat h.expression fun _ => ?_
  exact .eat (runs_expect rfl) fun _ => .pass runs_consumeTerminator fun _ => .pure rfl

theorem parseFunctionDeclaration : Leads excused ts start calls.parseFunctionDeclaration := by
  refine .intro fun _ => .eat runs_parseMethodName fun _ => ?_
  refine .pass runs_parseGenericParams fun _ => .eat runs_parseFunctionSignature fun _ => ?_
  refine .pass runs_parseWhereBounds fun _ => .pass runs_skipNewlines fun _ => ?_
  exact .eat h.parseFunctionBody fun _ => .pure rfl

theorem parseTraitMethodBody :
    Runs excused ts start true atToken (fun _ => false) calls.parseTraitMethodBody := by
  unfold Calls.parseTraitMethodBody
  refine runs_check rfl h.parseFunctionBody ?_
  exact .pass runs_consumeTerminator fun _ => .pure rfl

theorem parseTraitItem {associatedTypes : List Token} {methods : List Stmt}
    {eats : List Token × List Stmt → Bool} :
    Runs excused ts start true atToken eats (calls.parseTraitItem associatedTypes methods) := by
  unfold Calls.parseTraitItem
  refine runs_check rfl ?_ ?_
  · refine .eat .advance fun _ => .eat runs_expectIdent fun _ => ?_
    exact .pass runs_consumeTerminator fun _ => .pass runs_skipNewlines fun _ => .pure rfl
  · refine .eat (runs_expect rfl) fun _ => .eat runs_expectIdent fun _ => ?_
    refine .eat runs_parseFunctionSignature fun _ => .pass h.parseTraitMethodBody fun _ => ?_
    exact .pass runs_skipNewlines fun _ => .pure rfl

theorem parseTraitDeclaration : Leads excused ts start calls.parseTraitDeclaration := by
  refine .intro fun _ => .eat runs_expectIdent fun _ => ?_
  refine .pass runs_parseTraitParents fun _ => .pass runs_skipNewlines fun _ => ?_
  refine .eat (runs_expect rfl) fun _ => .pass runs_skipNewlines fun _ => ?_
  refine .pass (.loop fun content => ?_) fun content => ?_
  · exact runs_kindIs rfl (.eat h.parseTraitItem fun _ => .pure rfl) (.pure rfl)
  · exact .eat (runs_expect rfl) fun _ => .pure rfl

/-- The statements of a body and its closing brace. -/
theorem parseBody {message : String} {build : List Stmt → Stmt} :
    Runs excused ts start true atToken eats (do
      let body ← calls.parseStatements
      let _ ← expect .rightBrace message
      return build body) :=
  .pass h.parseStatements fun _ => .eat (runs_expect rfl) fun _ => .pure rfl

theorem parseImplDeclaration : Leads excused ts start calls.parseImplDeclaration := by
  refine .intro fun _ => .eat runs_expectIdent fun _ => .eat (runs_expect rfl) fun _ => ?_
  refine .eat runs_expectIdent fun _ => .pass runs_skipNewlines fun _ => ?_
  exact .eat (runs_expect rfl) fun _ => h.parseBody

theorem parseAsyncFunctionDeclaration : Leads excused ts start calls.parseAsyncFunctionDeclaration := by
  refine .intro fun _ => .eat runs_expectIdent fun _ => ?_
  refine .eat runs_parseFunctionSignature fun _ => .pass runs_skipNewlines fun _ => ?_
  exact .eat h.parseFunctionBody fun _ => .pure rfl

theorem parseTestBlock : Leads excused ts start calls.parseTestBlock := by
  refine .intro fun _ => .eat runs_expectIdent fun _ => .pass runs_skipNewlines fun _ => ?_
  exact .eat (runs_expect rfl) fun _ => h.parseBody

theorem parseClassDeclaration : Leads excused ts start calls.parseClassDeclaration := by
  refine .intro fun _ => .eat runs_expectIdent fun _ => ?_
  refine .pass runs_parseGenericParams fun _ => .pass runs_parseParentClass fun _ => ?_
  refine .pass runs_parseWhereBounds fun _ => .pass runs_skipNewlines fun _ => ?_
  exact .eat (runs_expect rfl) fun _ => h.parseBody

theorem parseEnumMember {eats : EnumMember → Bool} :
    Runs excused ts start true atToken eats calls.parseEnumMember := by
  refine .eat runs_expectIdent fun _ => .pass runs_parseVariantData fun _ => ?_
  refine .pass h.parseInitializer fun _ => .pass (runs_consume rfl).weaken fun _ => ?_
  exact .pass runs_skipNewlines fun _ => .pure rfl

theorem parseEnumDeclaration : Leads excused ts start calls.parseEnumDeclaration := by
  refine .intro fun _ => .eat runs_expectIdent fun _ => ?_
  refine .pass runs_parseGenericParams fun _ => .pass runs_parseWhereBounds fun _ => ?_
  refine .pass runs_skipNewlines fun _ => .eat (runs_expect rfl) fun _ => ?_
  refine .pass runs_skipNewlines fun _ => .pass (.loop fun members => ?_) fun members => ?_
  · exact runs_kindIs rfl (.eat h.parseEnumMember fun _ => .pure rfl) (.pure rfl)
  · exact .eat (runs_expect rfl) fun _ => .pure rfl

theorem parseCondition {message : String} {eats : Expr → Bool} :
    Runs excused ts start true atToken eats (calls.parseCondition message) := by
  refine .eat (runs_expect rfl) fun _ => .eat h.expression fun _ => ?_
  exact .eat (runs_expect rfl) fun _ => .pass runs_skipNewlines fun _ => .pure rfl

theorem parseClause {keyword : TokenKind} (hkeyword : (TokenKind.eof == keyword) = false) :
    Runs excused ts start true atToken (fun _ => false) (calls.parseClause keyword) := by
  refine runs_consume_bind hkeyword (fun _ => .pass runs_skipNewlines fun _ => ?_) (.pure rfl)
  exact .eat h.statement fun _ => .pure rfl

theorem parseIfStatement : Leads excused ts start calls.parseIfStatement := by
  refine .intro fun _ => .eat h.parseCondition fun _ => .eat h.statement fun _ => ?_
  refine .pass (.loop fun elifBranches => runs_check rfl ?_ (.pure rfl)) fun _ => ?_
  · refine .eat .advance fun _ => .eat h.parseCondition fun _ => ?_
    exact .eat h.statement fun _ => .pure rfl
  · exact .pass (h.parseClause rfl) fun _ => .pure rfl

theorem parseWhileStatement : Leads excused ts start calls.parseWhileStatement := by
  refine .intro fun _ => .eat h.parseCondition fun _ => ?_
  exact .eat h.statement fun _ => .pure rfl

theorem parseDoWhileStatement : Leads excused ts start calls.parseDoWhileStatement := by
  refine .intro fun _ => .pass runs_skipNewlines fun _ => .eat h.statement fun _ => ?_
  refine .eat (runs_expect rfl) fun _ => .eat (runs_expect rfl) fun _ => ?_
  refine .eat h.expression fun _ => .eat (runs_expect rfl) fun _ => ?_
  exact .pass runs_consumeTerminator fun _ => .pure rfl

theorem parseForTail {variableMessage inMessage braceMessage : String}
    {build : Token → Expr → Stmt → Stmt} :
    Runs excused ts start true atToken eats
      (calls.parseForTail variableMessage inMessage braceMessage build) := by
  refine .eat runs_expectIdent fun _ => .eat (runs_expect rfl) fun _ => ?_
  refine .eat h.expression fun _ => .pass runs_skipNewlines fun _ => ?_
  exact .eat (runs_expect rfl) fun _ => h.parseBody

theorem parseForInStatement :
    Runs excused ts start true atToken eats calls.parseForInStatement := by
  refine .eat (runs_expect rfl) fun _ => .eat (runs_expect rfl) fun _ => ?_
  refine .eat runs_expectIdent fun _ => .eat (runs_expect rfl) fun _ => ?_
  refine .eat h.expression fun _ => .eat (runs_expect rfl) fun _ => ?_
  exact .pass runs_skipNewlines fun _ => .eat h.statement fun _ => .pure rfl

theorem parseForInit :
    Runs excused ts start true atToken (fun _ => false) calls.parseForInit := by
  unfold Calls.parseForInit
  refine runs_check rfl (.eat h.parseVarDeclaration.runs fun _ => .pure rfl) (runs_either ?_ ?_)
  · exact .eat h.expression fun _ => .pass runs_consumeTerminator fun _ => .pure rfl
  · exact .pass runs_consumeTerminator fun _ => .pure rfl

theorem parseForCondition :
    Runs excused ts start true atToken (fun _ => false) calls.parseForCondition := by
  unfold Calls.parseForCondition
  refine runs_either ?_ ?_
  · exact .pass runs_consumeTerminator fun _ => .pure rfl
  · exact .eat h.expression fun _ => .pass runs_consumeTerminator fun _ => .pure rfl

theorem parseForUpdate :
    Runs excused ts start true atToken (fun _ => false) calls.parseForUpdate := by
  unfold Calls.parseForUpdate
  exact runs_check rfl (.pure rfl) (.eat h.expression fun _ => .pure rfl)

theorem parseForClauses : Runs excused ts start true atToken eats calls.parseForClauses := by
  refine .eat (runs_expect rfl) fun _ => .pass h.parseForInit fun _ => ?_
  refine .pass h.parseForCondition fun _ => .pass h.parseForUpdate fun _ => ?_
  refine .eat (runs_expect rfl) fun _ => .pass runs_skipNewlines fun _ => ?_
  exact .eat h.statement fun _ => .pure rfl

theorem parseForStatement : Leads excused ts start calls.parseForStatement := by
  refine .intro fun _ => runs_check rfl (.eat .advance fun _ => h.parseForTail) ?_
  refine .choice h.parseForTail (.pass runs_detectsForIn fun _ => ?_)
  exact .ite (fun _ => h.parseForInStatement) fun _ => h.parseForClauses

theorem parseGoStatement : Leads excused ts start calls.parseGoStatement := by
  refine .intro fun _ => .pass runs_skipNewlines fun _ => runs_check rfl ?_ ?_
  · exact .eat .advance fun _ => h.parseBody
  · exact .eat h.expression fun _ => .pure rfl

theorem parseReturnStatement : Leads excused ts start calls.parseReturnStatement := by
  have hvalue : Runs excused ts start true false (fun _ => false) calls.parseReturnValue := by
    unfold Calls.parseReturnValue
    exact runs_either (.pure rfl) (.eat h.expression fun _ => .pure rfl)
  refine .intro fun _ => .pass hvalue fun _ => ?_
  exact .pass runs_consumeTerminator fun _ => .pure rfl

theorem parseGuard : Runs excused ts start true atToken (fun _ => false) calls.parseGuard := by
  unfold Calls.parseGuard
  refine runs_check rfl ?_ (.pure rfl)
  exact .eat .advance fun _ => .eat h.expression fun _ => .pure rfl

theorem parseMatchCase {cases : List MatchCase} {defaultCase : Option Stmt}
    {eats : List MatchCase × Option Stmt → Bool} :
    Runs excused ts start true true eats (calls.parseMatchCase cases defaultCase) := by
  unfold Calls.parseMatchCase
  refine runs_check rfl ?_ ?_
  · refine .eat .advance fun _ => .eat (runs_expect rfl) fun _ => ?_
    exact .eat h.statement fun _ => .pure rfl
  · refine .eat .advance fun _ => .eat h.expression fun _ => .pass h.parseGuard fun _ => ?_
    exact .eat (runs_expect rfl) fun _ => .eat h.statement fun _ => .pure rfl

theorem parseMatchStatement : Leads excused ts start calls.parseMatchStatement := by
  refine .intro fun _ => .eat h.parseCondition fun _ => .eat (runs_expect rfl) fun _ => ?_
  refine .pass runs_skipNewlines fun _ => .pass (.loop fun content => ?_) fun content => ?_
  · refine runs_kindIs rfl ?_ (.pure rfl)
    exact .eat h.parseMatchCase fun _ => .pass runs_skipNewlines fun _ => .pure rfl
  · exact .eat (runs_expect rfl) fun _ => .pure rfl

theorem parseCatch : Runs excused ts start true atToken (fun _ => false) calls.parseCatch := by
  refine runs_consume_bind rfl (fun _ => .eat (runs_expect rfl) fun _ => ?_) (.pure rfl)
  refine .eat runs_expectIdent fun _ => .eat (runs_expect rfl) fun _ => ?_
  exact .pass runs_skipNewlines fun _ => .eat h.statement fun _ => .pure rfl

theorem parseTryStatement : Leads excused ts start calls.parseTryStatement := by
  refine .intro fun _ => .pass runs_skipNewlines fun _ => .eat h.statement fun _ => ?_
  exact .pass h.parseCatch fun _ => .pass (h.parseClause rfl) fun _ => .pure rfl

theorem parseThrowStatement : Leads excused ts start calls.parseThrowStatement := by
  refine .intro fun _ => .eat h.expression fun _ => ?_
  exact .pass runs_consumeTerminator fun _ => .pure rfl

theorem parseRetryStatement : Leads excused ts start calls.parseRetryStatement := by
  refine .intro fun _ => .eat h.expression fun _ => .pass runs_skipNewlines fun _ => ?_
  exact .eat h.statement fun _ => .pass h.parseCatch fun _ => .pure rfl

theorem parseUnsafeStatement : Leads excused ts start calls.parseUnsafeStatement := by
  refine .intro fun _ => .pass runs_skipNewlines fun _ => ?_
  exact .eat h.statement fun _ => .pure rfl

theorem parseQuietStatement : Leads excused ts start calls.parseQuietStatement := by
  refine .intro fun _ => .pass runs_skipNewlines fun _ => ?_
  exact .pass runs_parseSuppressed fun _ => .eat h.statement fun _ => .pure rfl

theorem parseAsyncStatement : Leads excused ts start calls.parseAsyncStatement := by
  refine .intro fun _ => runs_check rfl h.parseAsyncFunctionDeclaration.runs ?_
  refine runs_either (.pass .look fun _ => ?_) runs_errorHere
  exact .eat h.parseAsyncBlockBody fun _ => .pure rfl

theorem parseStatementOf {kind : TokenKind}
    (hexpression : Runs excused ts start moved true (fun _ => true) calls.expression) :
    Runs excused ts start moved true eats (calls.parseStatementOf kind) := by
  have hstatement : Runs excused ts start moved true eats calls.parseExpressionStatement :=
    runs_parseExpressionStatement hexpression
  unfold Calls.parseStatementOf
  split
  · exact h.parseVarDeclaration.runs
  · exact h.parseStaticVar.runs
  · exact h.parseSharedVarDeclaration
  · exact .choice h.parseViewVarDeclaration.runs hstatement
  · exact .choice h.parseFunctionDeclaration.runs hstatement
  · exact h.parseAsyncStatement.runs
  · exact h.parseGoStatement.runs
  · exact h.parseClassDeclaration.runs
  · exact h.parseEnumDeclaration.runs
  · exact leads_parseTypeAliasDeclaration.runs
  · exact h.parseTraitDeclaration.runs
  · exact h.parseImplDeclaration.runs
  · exact h.parseIfStatement.runs
  · exact h.parseWhileStatement.runs
  · exact h.parseDoWhileStatement.runs
  · exact h.parseForStatement.runs
  · exact h.parseMatchStatement.runs
  · exact h.parseTryStatement.runs
  · exact h.parseThrowStatement.runs
  · exact h.parseRetryStatement.runs
  · exact h.parseUnsafeStatement.runs
  · exact h.parseQuietStatement.runs
  · exact h.parseReturnStatement.runs
  · exact leads_parseJump.runs
  · exact leads_parseJump.runs
  · exact leads_parseUseStatement.runs
  · exact h.parseTestBlock.runs
  · exact h.parseBlock.runs
  · exact h.parseSayStatement.runs
  · exact hstatement

theorem parseStatementOf_leads {kind : TokenKind} (hresumes : resumes kind = true)
    (hfun : kind ≠ .fun) : Leads excused ts start (calls.parseStatementOf kind) := by
  unfold resumes at hresumes
  split at hresumes
  · exact h.parseClassDeclaration
  · exact absurd rfl hfun
  · exact h.parseAsyncStatement
  · exact h.parseVarDeclaration
  · exact h.parseStaticVar
  · exact h.parseForStatement
  · exact h.parseIfStatement
  · exact h.parseWhileStatement
  · exact h.parseReturnStatement
  · exact h.parseMatchStatement
  · exact h.parseTryStatement
  · exact h.parseThrowStatement
  · exact h.parseUnsafeStatement
  · exact h.parseQuietStatement
  · exact h.parseEnumDeclaration
  · exact leads_parseTypeAliasDeclaration
  · exact leads_parseUseStatement
  · exact h.parseTestBlock
  · exact absurd hresumes (by decide)

theorem parseStatement
    (hexpression : ∀ {atToken : Bool},
      Runs excused ts start moved atToken (fun _ => true) calls.expression) :
    Runs excused ts start moved atToken eats calls.parseStatement := by
  refine .pass runs_skipNewlines fun _ => .bind_look (fun t rest => ?_) ?_
  · exact h.parseStatementOf hexpression
  · exact runs_parseExpressionStatement hexpression

end Calls.Sound

/-- At every level the parsers keep their promises; the level is fuel for the tokens ahead. -/
theorem runs_level (n : ℕ) (hn : excused ∨ ts.length < n + start) :
    (∀ {moved atToken : Bool} {eats : Stmt → Bool},
      Runs excused ts start moved atToken eats (level n).statement) ∧
    ∀ {moved atToken : Bool} {eats : Expr → Bool} {precedence : Precedence}, precedence ≠ .none →
      Runs excused ts start moved atToken eats ((level n).precedence precedence) := by
  induction n generalizing start with
  | zero =>
    have hspent : ∀ pos, start ≤ pos → pos ≤ ts.length → excused := by
      intro pos hpos hlen
      rcases hn with h | h
      · exact h
      · omega
    exact ⟨fun pos hpos _ hlen _ => hspent pos hpos hlen,
      fun _ pos hpos _ hlen _ => hspent pos hpos hlen⟩
  | succ n ih =>
    obtain ⟨hstatement, hprecedence⟩ := @ih (start + 1) (hn.imp_right fun h => by omega)
    have hbelow : (level n).Sound excused ts start :=
      ⟨.of_succ hstatement, fun hp => .of_succ (hprecedence hp)⟩
    have hsound : Calls.Sound excused ts start
        ⟨(level n).statement, (level n).parsePrecedence⟩ :=
      ⟨hbelow.statement, hbelow.parsePrecedence⟩
    exact ⟨hsound.parseStatement (hbelow.parsePrecedence (by decide)), hbelow.parsePrecedence⟩

theorem runs_parseStatement {eats : Stmt → Bool} :
    Runs excused ts start moved atToken eats parseStatement := by
  intro pos hpos hmoved hlen htoken
  exact (runs_level (ts.length + 1) (.inr (by omega))).1 pos hpos hmoved hlen htoken

/-- Where parsing does not resume at once, synchronizing takes a token. -/
theorem keeps_synchronize {ε : Type} {pos : ℕ} (hend : kindAt (ts.drop pos) 0 ≠ .eof)
    (hresumes : resumes (kindAt (ts.drop pos) 0) = false) :
    Keeps excused ts.length pos (fun _ => true) (synchronize (ε := ε) ts pos) := by
  have hlt := lt_length_of_kindAt hend
  have hskip : Runs excused ts pos false false (Sum.elim (fun _ => true) fun _ => false)
      (skipToken (ε := ε)) := runs_skipToken
  have hfirst : ∃ r : Unit ⊕ Unit, skipToken (ε := ε) ts pos = .ok r (pos + 1) := by
    have hadvance := advance_eq (ε := ε) (List.drop_eq_getElem_cons hlt)
    cases hline : kindAt (ts.drop pos) 0 == .newline || kindAt (ts.drop pos) 0 == .semicolon with
    | true =>
      refine ⟨.inr (), ?_⟩
      rw [skipToken, isAtEnd, check_of_ne hend, kindIs_of_true hline, bind_eq, hadvance]
      rfl
    | false =>
      refine ⟨.inl (), ?_⟩
      rw [skipToken, isAtEnd, check_of_ne hend, kindIs_of_false hline, kindIs_of_false hresumes,
        bind_eq, hadvance]
      rfl
  obtain ⟨r, hr⟩ := hfirst
  rw [synchronize, loop, turns, bind_eq, hr]
  cases r with
  | inr _ => exact ⟨by omega, hlt, fun _ => by omega⟩
  | inl _ =>
    exact (Runs.turns (fun _ => hskip) ts.length () (pos + 1) (by omega) (by simp) hlt
      (by omega)).mono (by omega) fun _ _ => .inr (by omega)

theorem skipNewlines_of_ne {ε : Type} {pos : ℕ} (h : kindAt (ts.drop pos) 0 ≠ .newline) :
    skipNewlines (ε := ε) ts pos = .ok () pos := by
  have hturn := kindIs_of_false (ε := ε) (c := (· == .newline))
    (p := advance >>= fun _ => pure (.inl ())) (q := pure (.inr () : Unit ⊕ Unit))
    (beq_eq_false_iff_ne.mpr h)
  rw [skipNewlines, skipWhile, loop, turns, bind_eq, hturn]
  rfl

theorem sound_level (n : ℕ) (hn : excused ∨ ts.length ≤ n + start) :
    (level n).Sound excused ts start := by
  obtain ⟨hstatement, hprecedence⟩ :=
    @runs_level excused ts (start + 1) n (hn.imp_right fun h => by omega)
  exact ⟨.of_succ hstatement, fun hp => .of_succ (hprecedence hp)⟩

/-- The keywords at which parsing resumes lead the statements that they begin; a lambda is one of
them. -/
theorem keeps_parseStatement_of_resumes {pos : ℕ} (hlt : pos < ts.length)
    (hresumes : resumes (kindAt (ts.drop pos) 0) = true) :
    Keeps excused ts.length (pos + 1) (fun _ => false) (parseStatement ts pos) := by
  have hbelow : (level ts.length).Sound excused ts pos := sound_level ts.length (.inr (by omega))
  have hsound : Calls.Sound excused ts pos
      ⟨(level ts.length).statement, (level ts.length).parsePrecedence⟩ :=
    ⟨hbelow.statement, hbelow.parsePrecedence⟩
  have hline : kindAt (ts.drop pos) 0 ≠ .newline := by
    intro hkind
    rw [hkind] at hresumes
    exact absurd hresumes (by decide)
  have heq : parseStatement ts pos =
      Calls.parseStatementOf ⟨(level ts.length).statement, (level ts.length).parsePrecedence⟩
        (kindAt (ts.drop pos) 0) ts pos := by
    show (skipNewlines >>= fun _ => look (fun rest => kindAt rest 0) >>= fun kind =>
      Calls.parseStatementOf ⟨(level ts.length).statement, (level ts.length).parsePrecedence⟩
        kind) ts pos = _
    rw [bind_eq, skipNewlines_of_ne hline]
    rfl
  rw [heq]
  by_cases hfun : kindAt (ts.drop pos) 0 = .fun
  · rw [hfun]
    cases hname : (isIdent (kindAt (ts.drop pos) 1) && !(kindAt (ts.drop pos) 1).isTypeKeyword) ||
        isOperatorToken (kindAt (ts.drop pos) 1) with
    | true =>
      have hdeclaration : ∀ {calls : Calls}, calls.parseStatementOf .fun ts pos =
          calls.parseFunctionDeclaration ts pos := by
        intro calls
        simp only [Calls.parseStatementOf, bind_eq, look, hname, if_true]
      rw [hdeclaration]
      exact hsound.parseFunctionDeclaration.keeps_succ le_rfl hlt
    | false =>
      have hlambda : Leads excused ts pos ((level ts.length).parseLambda >>= fun left =>
          loop ((level ts.length).parseContinuation .assignment) left >>= fun e =>
            consumeTerminator >>= fun _ => pure (Stmt.expression e)) := by
        refine hbelow.parseLambda.bind fun left => ?_
        refine .pass (.loop fun _ => hbelow.parseContinuation (by decide)) fun _ => ?_
        exact .pass runs_consumeTerminator fun _ => .pure rfl
      have hlead : (level ts.length).parsePrefix ts pos = (level ts.length).parseLambda ts pos := by
        show (level ts.length).parsePrefixOf (kindAt (ts.drop pos) 0) ts pos = _
        rw [hfun]
        rfl
      have hstatement : ∀ {calls : Calls}, calls.parseStatementOf .fun ts pos =
          calls.parseExpressionStatement ts pos := by
        intro calls
        simp only [Calls.parseStatementOf, bind_eq, look, hname, Bool.false_eq_true, if_false]
      have hkeeps := hlambda.keeps_succ le_rfl hlt
      rw [bind_eq, ← hlead, ← bind_eq, ← bind_assoc] at hkeeps
      rw [hstatement]
      exact hkeeps
  · exact (hsound.parseStatementOf_leads hresumes hfun).keeps_succ le_rfl hlt

/-- After a statement that fails, synchronizing leaves the cursor behind its first token. -/
theorem keeps_synchronize_after {ε : Type} {pos q : ℕ} {e : ParseError}
    (hend : kindAt (ts.drop pos) 0 ≠ .eof) (herror : parseStatement ts pos = .error e q) :
    Keeps excused ts.length pos (fun _ => true) (synchronize (ε := ε) ts q) := by
  have hlt := lt_length_of_kindAt hend
  have hstatement : Runs excused ts pos false false (fun _ => true) parseStatement :=
    runs_parseStatement
  have hrun := hstatement.keeps hlt.le
  rw [herror] at hrun
  obtain ⟨hle, hq⟩ := hrun
  rcases Nat.eq_or_lt_of_le hle with rfl | hmoved
  · cases hresumes : resumes (kindAt (ts.drop pos) 0) with
    | false => exact keeps_synchronize hend hresumes
    | true =>
      have hrun' : Keeps excused ts.length (pos + 1) _ (parseStatement ts pos) :=
        keeps_parseStatement_of_resumes hlt hresumes
      rw [herror] at hrun'
      exact absurd hrun'.1 (by omega)
  · have hrun' : Runs excused ts q false false (fun _ => false) (synchronize (ε := ε)) :=
      runs_synchronize
    exact (hrun'.keeps hq).mono hle fun _ _ => .inr hmoved

/-- A turn of the top-level loop that goes on takes a token. -/
theorem runs_parseTopLevel {parsed : Parsed} :
    Runs excused ts start moved false (Sum.elim (fun _ => true) fun _ => false)
      (parseTopLevel parsed) := by
  intro pos hpos hmoved hlen _
  by_cases hend : kindAt (ts.drop pos) 0 = .eof
  · rw [parseTopLevel, kindIs_of_false (by simp [hend])]
    exact ⟨le_rfl, hlen, by simp⟩
  · have hlt : pos < ts.length := lt_length_of_kindAt hend
    rw [parseTopLevel, kindIs_of_true (by simp [hend])]
    by_cases hline : kindAt (ts.drop pos) 0 = .newline
    · rw [check_of_eq hline, bind_eq, advance_eq (List.drop_eq_getElem_cons hlt)]
      exact ⟨by omega, hlt, fun _ => by omega⟩
    · rw [check_of_ne hline, bind_eq, attempt]
      have hstatement : Runs excused ts pos false false (fun _ => true) parseStatement :=
        runs_parseStatement
      have hrun := hstatement.keeps hlen
      cases hres : parseStatement ts pos with
      | ok statement q =>
        rw [hres] at hrun
        exact ⟨hrun.1, hrun.2.1, fun _ => hrun.2.2 rfl⟩
      | error e q =>
        have hsync : Keeps excused ts.length pos (fun _ => true) (synchronize (ε := Empty) ts q) :=
          keeps_synchronize_after hend hres
        exact hsync.bind fun _ r hle hr heats => ⟨hle, hr, fun _ => heats rfl⟩
      | panic => rwa [hres] at hrun
      | outOfFuel => rwa [hres] at hrun

theorem runs_parse : Runs False ts 0 false false (fun _ => false) parse := by
  refine .pass (.loop fun parsed => runs_parseTopLevel) fun parsed => ?_
  exact .ite (fun _ => .pure rfl) fun _ => .pure rfl

/-- Every list of tokens parses to a program or to its errors, within the tokens and without
reaching an impossible branch. Every turn of the top-level loop, every statement and every
expression that parses takes a token, and the infix parser handles every token it is given. -/
theorem parse_total (ts : List Token) :
    (∃ result pos, parse ts 0 = .ok result pos ∧ pos ≤ ts.length) ∧
    (∀ parsed parsed' pos pos', pos ≤ ts.length →
      parseTopLevel parsed ts pos = .ok (.inl parsed') pos' → pos < pos' ∧ pos' ≤ ts.length) ∧
    (∀ n pos, pos ≤ ts.length → (level n).statement ts pos ≠ .panic ∧
      ∀ s pos', (level n).statement ts pos = .ok s pos' → pos < pos' ∧ pos' ≤ ts.length) ∧
    (∀ n precedence pos, precedence ≠ .none → pos ≤ ts.length →
      (level n).precedence precedence ts pos ≠ .panic ∧
      ∀ e pos', (level n).precedence precedence ts pos = .ok e pos' →
        pos < pos' ∧ pos' ≤ ts.length) ∧
    ∀ n precedence pos left, precedence ≠ .none →
      Calls.continues precedence (kindAt (ts.drop pos) 0) = true →
      (level n).parseInfix left ts pos ≠ .panic := by
  refine ⟨?_, ?_, ?_, ?_, ?_⟩
  · have hrun : Keeps False ts.length 0 (fun _ => false) (parse ts 0) := runs_parse.keeps (by omega)
    cases hparse : parse ts 0 with
    | ok result pos =>
      rw [hparse] at hrun
      exact ⟨result, pos, rfl, hrun.2.1⟩
    | error e pos => exact e.elim
    | panic =>
      rw [hparse] at hrun
      exact hrun.elim
    | outOfFuel =>
      rw [hparse] at hrun
      exact hrun.elim
  · intro parsed parsed' pos pos' hlen hturn
    have hrun : Runs False ts pos false false _ (parseTopLevel parsed) := runs_parseTopLevel
    have hkeeps := hrun.keeps hlen
    rw [hturn] at hkeeps
    exact ⟨hkeeps.2.2 rfl, hkeeps.2.1⟩
  · intro n pos hlen
    exact Keeps.consumes (Runs.keeps (runs_level n (.inl trivial)).1 hlen)
  · intro n precedence pos hprecedence hlen
    exact Keeps.consumes (Runs.keeps ((runs_level n (.inl trivial)).2 hprecedence) hlen)
  · intro n precedence pos left hprecedence hcontinues
    have hlt := lt_length_of_kindAt (ne_eof_of_continues hcontinues)
    have hsound : (level n).Sound True ts pos := sound_level n (.inl trivial)
    have hrun : Runs True ts pos false true (fun _ => true)
        ((level n).parseInfixOf (kindAt (ts.drop pos) 0) left) :=
      hsound.parseInfixOf (infixPrecedence_ne_none hprecedence hcontinues)
    exact (Keeps.consumes (hrun pos le_rfl (by simp) hlt.le fun _ => hlt)).1

end Neutron.Source
