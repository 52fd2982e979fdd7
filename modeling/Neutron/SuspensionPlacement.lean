import Neutron.AsyncSegments

/-!
# Where an async body may suspend

The checker looks for awaits and channel operations below the statements of an async body and
reports those it finds; the state machine takes over the ones that are statements themselves.
Whatever the checker does not find is left to the code of ordinary expressions, which has none for
a suspension.
-/

namespace Neutron.Suspension
open Syntax AsyncSegments

/-! ### The checker -/

/-- What `find_await` and `find_chan_in_expr` look for. -/
inductive Sought where
  | await
  | chan
  deriving DecidableEq

mutual
/-- The value of an assignment to an element or a member, a lambda and an async block are not
looked at; the operands of an await are not when a channel operation is sought. -/
def find (k : Sought) : Expr → Bool
  | .var _ => false
  | .assign _ value => find k value
  | .operator .await _ => k == .await
  | .operator .chanSend operands => k == .chan || findAll k operands
  | .operator .indexSet [object, index, _] => find k object || find k index
  | .operator (.memberSet _) [object, _] => find k object
  | .operator _ operands => findAll k operands
  | .structLiteral _ _ fields update => findAll k fields || findOption k update
  | .lambda _ _ _ => false
  | .asyncBlock _ _ => false
  | .chanRecv _ channel _ => k == .chan || find k channel
def findAll (k : Sought) : List Expr → Bool
  | [] => false
  | e :: rest => find k e || findAll k rest
def findOption (k : Sought) : Option Expr → Bool
  | none => false
  | some e => find k e
end

mutual
def findInStmt (k : Sought) : Stmt → Bool
  | .expression e => find k e
  | .say e => find k e
  | .var _ _ initializer _ _ _ => findOption k initializer
  | .block statements => findInStmts k statements
  | .ifThen condition thenBranch elifs elseBranch =>
    find k condition || findInStmt k thenBranch || findInElifs k elifs || findInOption k elseBranch
  | .while condition body => find k condition || findInStmt k body
  | .doWhile body condition => find k condition || findInStmt k body
  | .for init condition update body =>
    findInOption k init || findOption k condition || findOption k update || findInStmt k body
  | .each _ _ source _ body => find k source || findInStmt k body
  | .go call block _ => find k call || findInBlock k block
  | .ret value => findOption k value
  | .match scrutinee cases defaultCase =>
    find k scrutinee || findInCases k cases || findInOption k defaultCase
  | .tryCatch body handler last =>
    findInStmt k body || findInHandler k handler || findInOption k last
  | .throw value => find k value
  | .retry count body handler => find k count || findInStmt k body || findInHandler k handler
  | .within _ body => findInStmt k body
  | .destructure _ _ initializer => find k initializer
  | _ => false
def findInStmts (k : Sought) : List Stmt → Bool
  | [] => false
  | s :: rest => findInStmt k s || findInStmts k rest
def findInOption (k : Sought) : Option Stmt → Bool
  | none => false
  | some s => findInStmt k s
def findInBlock (k : Sought) : Option (List Stmt) → Bool
  | none => false
  | some statements => findInStmts k statements
def findInElifs (k : Sought) : List ElifBranch → Bool
  | [] => false
  | .mk condition body :: rest => find k condition || findInStmt k body || findInElifs k rest
def findInHandler (k : Sought) : Option CatchClause → Bool
  | none => false
  | some (.mk _ body) => findInStmt k body
def findInCases (k : Sought) : List MatchCase → Bool
  | [] => false
  | .mk value _ _ guard body :: rest =>
    find k value || findOption k guard || findInStmt k body || findInCases k rest
end

def findAwait : Expr → Bool := find .await
def findAwaitInStmt : Stmt → Bool := findInStmt .await
def findChanInExpr : Expr → Bool := find .chan
def chanInStmt : Stmt → Bool := findInStmt .chan

def isAwaitExpr : Expr → Bool
  | .operator .await _ => true
  | _ => false

def isChanExpr : Expr → Bool
  | .operator .chanSend _ => true
  | .chanRecv _ _ _ => true
  | _ => false

def report (found : Bool) (message : String) : List String := if found then [message] else []

mutual
/-- The errors of `validate_await_placement`. -/
def validateAwaitPlacement : Stmt → Bool → List String
  | .block statements, true => validateAwaits statements true
  | .expression e, true =>
    report (findAwait e && !isAwaitExpr e) "await must be a statement-level call"
  | .var _ _ (some e) _ _ _, true =>
    report (findAwait e && !isAwaitExpr e) "await must be a statement-level call"
  | .ret (some e), true =>
    report (findAwait e && !isAwaitExpr e) "await must be a statement-level call"
  | s, _ =>
    report (findAwaitInStmt s) "await is not allowed inside control flow in async functions"
def validateAwaits : List Stmt → Bool → List String
  | [], _ => []
  | s :: rest, top => validateAwaitPlacement s top ++ validateAwaits rest top
end

mutual
/-- The errors of `validate_chan_placement`. -/
def validateChanPlacement : Stmt → Bool → List String
  | .block statements, true => validateChans statements true
  | .expression e, true =>
    report (!isChanExpr e && findChanInExpr e)
      "channel send/receive must be a top-level statement of an async function"
  | s, _ =>
    report (chanInStmt s)
      "channel operations are not yet allowed inside control flow of async functions"
def validateChans : List Stmt → Bool → List String
  | [], _ => []
  | s :: rest, top => validateChanPlacement s top ++ validateChans rest top
end

mutual
/-- The errors of `validate_async_return_placement`; the body of a loop over a channel and the
handler of a `retry` are not looked at. -/
def validateAsyncReturnPlacement : Stmt → Bool → List String
  | .block statements, top => validateReturns statements top
  | .ret _, top => report (!top) "return must be at statement level in async functions"
  | .ifThen _ thenBranch elifs elseBranch, _ =>
    validateAsyncReturnPlacement thenBranch false ++ validateReturnElifs elifs ++
      validateReturnOption elseBranch
  | .while _ body, _ => validateAsyncReturnPlacement body false
  | .doWhile body _, _ => validateAsyncReturnPlacement body false
  | .retry _ body _, _ => validateAsyncReturnPlacement body false
  | .within _ body, _ => validateAsyncReturnPlacement body false
  | .for init _ _ body, _ => validateReturnOption init ++ validateAsyncReturnPlacement body false
  | .each .chanRecvFor _ _ _ _, _ => []
  | .each _ _ _ _ body, _ => validateAsyncReturnPlacement body false
  | .match _ cases defaultCase, _ => validateReturnCases cases ++ validateReturnOption defaultCase
  | .tryCatch body handler last, _ =>
    validateAsyncReturnPlacement body false ++ validateReturnHandler handler ++
      validateReturnOption last
  | _, _ => []
def validateReturns : List Stmt → Bool → List String
  | [], _ => []
  | s :: rest, top => validateAsyncReturnPlacement s top ++ validateReturns rest top
def validateReturnOption : Option Stmt → List String
  | none => []
  | some s => validateAsyncReturnPlacement s false
def validateReturnElifs : List ElifBranch → List String
  | [] => []
  | .mk _ body :: rest => validateAsyncReturnPlacement body false ++ validateReturnElifs rest
def validateReturnHandler : Option CatchClause → List String
  | none => []
  | some (.mk _ body) => validateAsyncReturnPlacement body false
def validateReturnCases : List MatchCase → List String
  | [] => []
  | .mk _ _ _ _ body :: rest => validateAsyncReturnPlacement body false ++ validateReturnCases rest
end

/-- What the checker reports about the statements of an async body. -/
def placementErrors : List Stmt → List String
  | [] => []
  | s :: rest =>
    validateAwaitPlacement s true ++ validateChanPlacement s true ++
      validateAsyncReturnPlacement s true ++ placementErrors rest

/-! ### The lowering -/

/-- `is_wait_any_or_all` -/
def isWaitAnyOrAll : Expr → Bool
  | .var name => name == "wait_any" || name == "wait_all"
  | _ => false

mutual
/-- An await or a channel operation stands in an expression that is emitted as such. An async block that
is `scanned`, so that `collect_standalone_async_blocks` finds it, is a body of its own; any other is not
lowered. -/
def stray (scanned : Bool) : Expr → Bool
  | .var _ => false
  | .assign _ value => stray false value
  | .operator .await _ => true
  | .operator .chanSend _ => true
  | .operator .call (callee :: arguments) =>
    stray false callee || strayAll (scanned && isWaitAnyOrAll callee) arguments
  | .operator _ operands => strayAll false operands
  | .structLiteral _ _ fields update => strayAll false fields || strayOption false update
  | .lambda _ _ body => strayStmts false false body
  | .asyncBlock _ body => if scanned then strayBody false body else true
  | .chanRecv _ _ _ => true
def strayAll (scanned : Bool) : List Expr → Bool
  | [] => false
  | e :: rest => stray scanned e || strayAll scanned rest
def strayOption (scanned : Bool) : Option Expr → Bool
  | none => false
  | some e => stray scanned e
/-- An operation stands in a statement that is emitted as such. A loop over a channel is one. The block of
a `go` statement is lowered when it is `spawned`, so that `collect_go_statements` finds it. -/
def strayStmt (scanned spawned : Bool) : Stmt → Bool
  | .expression e => stray scanned e
  | .say e => stray false e
  | .var _ _ initializer _ _ _ => strayOption scanned initializer
  | .block statements => strayStmts scanned spawned statements
  | .ifThen condition thenBranch elifs elseBranch =>
    stray scanned condition || strayStmt scanned spawned thenBranch || strayElifs spawned elifs ||
      strayStmtOption scanned spawned elseBranch
  | .while condition body => stray scanned condition || strayStmt scanned spawned body
  | .doWhile body condition => stray false condition || strayStmt false spawned body
  | .for init condition update body =>
    strayStmtOption scanned spawned init || strayOption scanned condition || strayOption scanned update ||
      strayStmt scanned spawned body
  | .each .chanRecvFor _ _ _ _ => true
  | .each _ _ source _ body => stray false source || strayStmt scanned spawned body
  | .go call block _ => stray false call || strayBlock spawned block
  | .ret value => strayOption scanned value
  | .match scrutinee cases defaultCase =>
    stray false scrutinee || strayCases spawned cases || strayStmtOption false spawned defaultCase
  | .tryCatch body handler last =>
    strayStmt scanned spawned body || strayHandler scanned spawned handler || strayStmtOption scanned spawned last
  | .throw value => stray false value
  | .retry count body handler =>
    stray false count || strayStmt false spawned body || strayHandler false false handler
  | .within _ body => strayStmt false spawned body
  | .destructure _ _ initializer => stray false initializer
  | _ => false
def strayStmts (scanned spawned : Bool) : List Stmt → Bool
  | [] => false
  | s :: rest => strayStmt scanned spawned s || strayStmts scanned spawned rest
def strayStmtOption (scanned spawned : Bool) : Option Stmt → Bool
  | none => false
  | some s => strayStmt scanned spawned s
def strayElifs (spawned : Bool) : List ElifBranch → Bool
  | [] => false
  | .mk condition body :: rest => stray false condition || strayStmt false spawned body || strayElifs spawned rest
def strayHandler (scanned spawned : Bool) : Option CatchClause → Bool
  | none => false
  | some (.mk _ body) => strayStmt scanned spawned body
def strayCases (spawned : Bool) : List MatchCase → Bool
  | [] => false
  | .mk value _ _ guard body :: rest =>
    stray false value || strayOption false guard || strayStmt false spawned body || strayCases spawned rest
def strayBlock (spawned : Bool) : Option (List Stmt) → Bool
  | none => false
  | some statements => if spawned then strayBody false statements else true
/-- What a statement that suspends emits besides the suspension. -/
def strayOperands (spawned : Bool) : Stmt → Bool
  | .expression (.operator form operands) => strayAll (form == .await) operands
  | .expression (.chanRecv _ channel _) => stray false channel
  | .var _ _ (some (.operator _ operands)) _ _ _ => strayAll true operands
  | .ret (some (.operator _ operands)) => strayAll true operands
  | .each _ _ channel _ body => stray false channel || strayStmt false spawned body
  | _ => false
/-- The statements of an async body, with its blocks flattened: those that suspend are taken over
by the state machine. The `go` blocks of async functions are `spawned`, those inside async blocks and `go`
blocks are not. -/
def strayBody (spawned : Bool) : List Stmt → Bool
  | [] => false
  | .block statements :: rest => strayBody spawned statements || strayBody spawned rest
  | s :: rest => (if suspends s then strayOperands spawned s else strayStmt true spawned s) || strayBody spawned rest
end

/-- Every await and channel operation of the body is at a place that is handled as a suspension, and its
async blocks and `go` blocks are lowered. -/
def Placed (spawned : Bool) (body : List Stmt) : Prop := strayBody spawned body = false

instance (spawned : Bool) (body : List Stmt) : Decidable (Placed spawned body) :=
  inferInstanceAs (Decidable (_ = false))

/-! ### What is not looked at -/

mutual
/-- An operation stands where it is not looked for: in the value of an assignment to an element or
a member, in a lambda, or below the statements of an async block; or the async block is not lowered. -/
def hidden (scanned : Bool) : Expr → Bool
  | .var _ => false
  | .assign _ value => hidden false value
  | .operator .indexSet [object, index, value] => hidden false object || hidden false index || stray false value
  | .operator (.memberSet _) [object, value] => hidden false object || stray false value
  | .operator .call (callee :: arguments) =>
    hidden false callee || hiddenAll (scanned && isWaitAnyOrAll callee) arguments
  | .operator _ operands => hiddenAll false operands
  | .structLiteral _ _ fields update => hiddenAll false fields || hiddenOption false update
  | .lambda _ _ body => strayStmts false false body
  | .asyncBlock _ body => if scanned then strayBody false body else true
  | .chanRecv _ channel _ => hidden false channel
def hiddenAll (scanned : Bool) : List Expr → Bool
  | [] => false
  | e :: rest => hidden scanned e || hiddenAll scanned rest
def hiddenOption (scanned : Bool) : Option Expr → Bool
  | none => false
  | some e => hidden scanned e
end

mutual
/-- A loop over a channel inside another statement is not reported either. -/
def hiddenStmt (scanned spawned : Bool) : Stmt → Bool
  | .expression e => hidden scanned e
  | .say e => hidden false e
  | .var _ _ initializer _ _ _ => hiddenOption scanned initializer
  | .block statements => hiddenStmts scanned spawned statements
  | .ifThen condition thenBranch elifs elseBranch =>
    hidden scanned condition || hiddenStmt scanned spawned thenBranch || hiddenElifs spawned elifs ||
      hiddenStmtOption scanned spawned elseBranch
  | .while condition body => hidden scanned condition || hiddenStmt scanned spawned body
  | .doWhile body condition => hidden false condition || hiddenStmt false spawned body
  | .for init condition update body =>
    hiddenStmtOption scanned spawned init || hiddenOption scanned condition || hiddenOption scanned update ||
      hiddenStmt scanned spawned body
  | .each .chanRecvFor _ _ _ _ => true
  | .each _ _ source _ body => hidden false source || hiddenStmt scanned spawned body
  | .go call block _ => hidden false call || hiddenBlock spawned block
  | .ret value => hiddenOption scanned value
  | .match scrutinee cases defaultCase =>
    hidden false scrutinee || hiddenCases spawned cases || hiddenStmtOption false spawned defaultCase
  | .tryCatch body handler last =>
    hiddenStmt scanned spawned body || hiddenHandler scanned spawned handler ||
      hiddenStmtOption scanned spawned last
  | .throw value => hidden false value
  | .retry count body handler =>
    hidden false count || hiddenStmt false spawned body || hiddenHandler false false handler
  | .within _ body => hiddenStmt false spawned body
  | .destructure _ _ initializer => hidden false initializer
  | _ => false
def hiddenStmts (scanned spawned : Bool) : List Stmt → Bool
  | [] => false
  | s :: rest => hiddenStmt scanned spawned s || hiddenStmts scanned spawned rest
def hiddenStmtOption (scanned spawned : Bool) : Option Stmt → Bool
  | none => false
  | some s => hiddenStmt scanned spawned s
def hiddenElifs (spawned : Bool) : List ElifBranch → Bool
  | [] => false
  | .mk condition body :: rest => hidden false condition || hiddenStmt false spawned body || hiddenElifs spawned rest
def hiddenHandler (scanned spawned : Bool) : Option CatchClause → Bool
  | none => false
  | some (.mk _ body) => hiddenStmt scanned spawned body
def hiddenCases (spawned : Bool) : List MatchCase → Bool
  | [] => false
  | .mk value _ _ guard body :: rest =>
    hidden false value || hiddenOption false guard || hiddenStmt false spawned body || hiddenCases spawned rest
def hiddenBlock (spawned : Bool) : Option (List Stmt) → Bool
  | none => false
  | some statements => if spawned then hiddenBody false statements else true
/-- The operands of an await and of a channel operation at statement level are not looked at; the
channel and the body of a loop are. -/
def hiddenOperands : Bool → Stmt → Bool
  | spawned, .each _ _ channel _ body => hidden false channel || hiddenStmt false spawned body
  | spawned, s => strayOperands spawned s
def hiddenBody (spawned : Bool) : List Stmt → Bool
  | [] => false
  | .block statements :: rest => hiddenBody spawned statements || hiddenBody spawned rest
  | s :: rest =>
    (if suspends s then hiddenOperands spawned s else hiddenStmt true spawned s) || hiddenBody spawned rest
end

/-! ### Where nothing is found -/

/-- Neither an await nor a channel operation is found. -/
def Unfound (e : Expr) : Prop := find .await e = false ∧ find .chan e = false

theorem findAll_false {k : Sought} {operands : List Expr} :
    findAll k operands = false ↔ ∀ e ∈ operands, find k e = false := by
  induction operands with
  | nil => simp [findAll]
  | cons e rest ih => simp [findAll, ih]

theorem hiddenAll_eq_strayAll {scanned : Bool} {operands : List Expr}
    (h : ∀ e ∈ operands, hidden scanned e = stray scanned e) :
    hiddenAll scanned operands = strayAll scanned operands := by
  induction operands with
  | nil => rfl
  | cons e rest ih =>
    rw [hiddenAll, strayAll, h e List.mem_cons_self,
      ih fun other hother => h other (List.mem_cons_of_mem _ hother)]

mutual
theorem hidden_eq_stray (scanned : Bool) (e : Expr) (h : Unfound e) : hidden scanned e = stray scanned e :=
  match e with
  | .var _ => rfl
  | .assign _ value => hidden_eq_stray false value h
  | .operator form operands => by
    have heach := hidden_eq_stray_of_mem operands
    have hall : findAll .await operands = false → findAll .chan operands = false →
        hiddenAll false operands = strayAll false operands := fun ha hc =>
      hiddenAll_eq_strayAll fun e he =>
        heach false e he ⟨findAll_false.mp ha e he, findAll_false.mp hc e he⟩
    obtain ⟨ha, hc⟩ := h
    cases form with
    | await => cases ha
    | chanSend => cases hc
    | indexSet =>
      rcases operands with _ | ⟨object, _ | ⟨index, _ | ⟨value, _ | ⟨_, _⟩⟩⟩⟩
      · exact hall ha hc
      · exact hall ha hc
      · exact hall ha hc
      · simp only [find, Bool.or_eq_false_iff] at ha hc
        have hobject := heach false object (by simp) ⟨ha.1, hc.1⟩
        have hindex := heach false index (by simp) ⟨ha.2, hc.2⟩
        simp [hidden, stray, strayAll, hobject, hindex, Bool.or_assoc]
      · exact hall ha hc
    | memberSet =>
      rcases operands with _ | ⟨object, _ | ⟨value, _ | ⟨_, _⟩⟩⟩
      · exact hall ha hc
      · exact hall ha hc
      · have hobject := heach false object (by simp) ⟨ha, hc⟩
        simp [hidden, stray, strayAll, hobject]
      · exact hall ha hc
    | call =>
      cases operands with
      | nil => rfl
      | cons callee arguments =>
        have ha' := findAll_false.mp ha
        have hc' := findAll_false.mp hc
        have hcallee := heach false callee List.mem_cons_self
          ⟨ha' callee List.mem_cons_self, hc' callee List.mem_cons_self⟩
        have harguments := hiddenAll_eq_strayAll fun e (he : e ∈ arguments) =>
          heach (scanned && isWaitAnyOrAll callee) e (List.mem_cons_of_mem _ he)
            ⟨ha' e (List.mem_cons_of_mem _ he), hc' e (List.mem_cons_of_mem _ he)⟩
        rw [hidden, stray, hcallee, harguments]
    | _ => exact hall ha hc
  | .structLiteral _ _ fields update => by
    obtain ⟨ha, hc⟩ := h
    simp only [find, Bool.or_eq_false_iff] at ha hc
    have hfields := hiddenAll_eq_strayAll fun e he =>
      hidden_eq_stray_of_mem fields false e he
        ⟨findAll_false.mp ha.1 e he, findAll_false.mp hc.1 e he⟩
    rw [hidden, stray, hfields, hiddenOption_eq_stray false update ha.2 hc.2]
  | .lambda _ _ _ => rfl
  | .asyncBlock _ _ => rfl
  | .chanRecv _ _ _ => by cases h.2
theorem hidden_eq_stray_of_mem (operands : List Expr) :
    ∀ scanned, ∀ e ∈ operands, Unfound e → hidden scanned e = stray scanned e := match operands with
  | [] => by simp
  | first :: rest => by
    have hfirst := fun scanned => hidden_eq_stray scanned first
    have hrest := hidden_eq_stray_of_mem rest
    intro scanned e he h
    rcases List.mem_cons.mp he with rfl | he
    · exact hfirst scanned h
    · exact hrest scanned e he h
theorem hiddenOption_eq_stray (scanned : Bool) (value : Option Expr) (ha : findOption .await value = false)
    (hc : findOption .chan value = false) : hiddenOption scanned value = strayOption scanned value :=
  match value with
  | none => rfl
  | some e => hidden_eq_stray scanned e ⟨ha, hc⟩
end

/-- A statement of an async body in `strayBody`. -/
def strayTop (spawned : Bool) : Stmt → Bool
  | .block statements => strayBody spawned statements
  | s => if suspends s then strayOperands spawned s else strayStmt true spawned s

/-- A statement of an async body in `hiddenBody`. -/
def hiddenTop (spawned : Bool) : Stmt → Bool
  | .block statements => hiddenBody spawned statements
  | s => if suspends s then hiddenOperands spawned s else hiddenStmt true spawned s

theorem strayBody_cons (spawned : Bool) (s : Stmt) (rest : List Stmt) :
    strayBody spawned (s :: rest) = (strayTop spawned s || strayBody spawned rest) := by
  cases s <;> rfl

theorem hiddenBody_cons (spawned : Bool) (s : Stmt) (rest : List Stmt) :
    hiddenBody spawned (s :: rest) = (hiddenTop spawned s || hiddenBody spawned rest) := by
  cases s <;> rfl

/-- Neither is found in a statement. -/
def UnfoundIn (s : Stmt) : Prop := findInStmt .await s = false ∧ findInStmt .chan s = false

theorem hidden_eq_stray_of_find {e : Expr} (scanned : Bool) (ha : find .await e = false)
    (hc : find .chan e = false) : hidden scanned e = stray scanned e :=
  hidden_eq_stray scanned e ⟨ha, hc⟩

/-- Where neither is found, all that is emitted is looked at. -/
theorem hiddens_eq_stray :
    (∀ scanned spawned s, findInStmt .await s = false → findInStmt .chan s = false →
        hiddenStmt scanned spawned s = strayStmt scanned spawned s) ∧
      (∀ scanned spawned handler, findInHandler .await handler = false → findInHandler .chan handler = false →
        hiddenHandler scanned spawned handler = strayHandler scanned spawned handler) ∧
      (∀ spawned cases, findInCases .await cases = false → findInCases .chan cases = false →
        hiddenCases spawned cases = strayCases spawned cases) ∧
      (∀ spawned block, findInBlock .await block = false → findInBlock .chan block = false →
        hiddenBlock spawned block = strayBlock spawned block) ∧
      (∀ spawned body, findInStmts .await body = false → findInStmts .chan body = false →
        hiddenBody spawned body = strayBody spawned body) ∧
      (∀ spawned s, findInStmt .await s = false → findInStmt .chan s = false →
        hiddenOperands spawned s = strayOperands spawned s) ∧
      (∀ scanned spawned s, findInOption .await s = false → findInOption .chan s = false →
        hiddenStmtOption scanned spawned s = strayStmtOption scanned spawned s) ∧
      (∀ spawned elifs, findInElifs .await elifs = false → findInElifs .chan elifs = false →
        hiddenElifs spawned elifs = strayElifs spawned elifs) ∧
      (∀ scanned spawned statements, findInStmts .await statements = false → findInStmts .chan statements = false →
        hiddenStmts scanned spawned statements = strayStmts scanned spawned statements) := by
  apply hiddenStmt.mutual_induct
  all_goals
    intros
    simp_all [hiddenStmt, hiddenHandler, hiddenCases, hiddenBlock, hiddenBody, hiddenOperands, hiddenStmtOption,
      hiddenElifs, hiddenStmts, strayStmt, strayHandler, strayCases, strayBlock, strayBody, strayOperands,
      strayStmtOption, strayElifs, strayStmts, findInStmt, findInHandler, findInCases, findInBlock, findInStmts,
      findInOption, findInElifs, hiddenOption_eq_stray, hidden_eq_stray_of_find]

/-! ### Where nothing is reported -/

theorem report_eq_nil {found : Bool} {message : String} :
    report found message = [] ↔ found = false := by
  cases found <;> simp [report]

theorem hiddenTop_eq_stray_of_unfound (spawned : Bool) {s : Stmt} (h : UnfoundIn s) :
    hiddenTop spawned s = strayTop spawned s := by
  obtain ⟨ha, hc⟩ := h
  obtain ⟨hstmt, -, -, -, hbody, hoperands, -⟩ := hiddens_eq_stray
  cases s with
  | block statements => exact hbody spawned statements ha hc
  | _ => simp only [hiddenTop, strayTop, hstmt true spawned _ ha hc, hoperands spawned _ ha hc]

theorem await_or_unfound {e : Expr} (h : (findAwait e && !isAwaitExpr e) = false) :
    (∃ operands, e = .operator .await operands) ∨ find .await e = false := by
  by_cases hawait : isAwaitExpr e = true
  · refine .inl ?_
    cases e with
    | operator form operands => cases form <;> first | exact ⟨operands, rfl⟩ | cases hawait
    | _ => cases hawait
  · rw [Bool.not_eq_true] at hawait
    rw [hawait, Bool.not_false, Bool.and_true] at h
    exact .inr h

theorem chan_or_unfound {e : Expr} (h : (!isChanExpr e && findChanInExpr e) = false) :
    (∃ operands, e = .operator .chanSend operands) ∨
      (∃ receiver channel site, e = .chanRecv receiver channel site) ∨ find .chan e = false := by
  by_cases hchan : isChanExpr e = true
  · cases e with
    | operator form operands =>
      refine .inl ?_
      cases form <;> first | exact ⟨operands, rfl⟩ | cases hchan
    | chanRecv receiver channel site => exact .inr (.inl ⟨receiver, channel, site, rfl⟩)
    | _ => cases hchan
  · rw [Bool.not_eq_true] at hchan
    rw [hchan, Bool.not_false, Bool.true_and] at h
    exact .inr (.inr h)

/-- A statement is found to hold nothing, or suspends itself and its operands are not looked at. -/
theorem hiddenTop_eq_stray_of_silent (spawned : Bool) {s : Stmt}
    (hblock : ∀ statements, s = .block statements → hiddenBody spawned statements = strayBody spawned statements)
    (ha : validateAwaitPlacement s true = []) (hc : validateChanPlacement s true = []) :
    hiddenTop spawned s = strayTop spawned s := by
  cases s with
  | block statements => exact hblock statements rfl
  | expression e =>
    simp only [validateAwaitPlacement, validateChanPlacement, report_eq_nil] at ha hc
    rcases await_or_unfound ha with ⟨operands, rfl⟩ | ha
    · rfl
    rcases chan_or_unfound hc with ⟨operands, rfl⟩ | ⟨receiver, channel, site, rfl⟩ | hc
    · rfl
    · rfl
    · exact hiddenTop_eq_stray_of_unfound spawned ⟨ha, hc⟩
  | var _ _ initializer _ _ _ =>
    cases initializer with
    | none => rfl
    | some e =>
      simp only [validateAwaitPlacement, validateChanPlacement, report_eq_nil] at ha hc
      rcases await_or_unfound ha with ⟨operands, rfl⟩ | ha
      · rfl
      · exact hiddenTop_eq_stray_of_unfound spawned ⟨ha, hc⟩
  | ret value =>
    cases value with
    | none => rfl
    | some e =>
      simp only [validateAwaitPlacement, validateChanPlacement, report_eq_nil] at ha hc
      rcases await_or_unfound ha with ⟨operands, rfl⟩ | ha
      · rfl
      · exact hiddenTop_eq_stray_of_unfound spawned ⟨ha, hc⟩
  | _ =>
    simp only [validateAwaitPlacement, validateChanPlacement, report_eq_nil] at ha hc
    exact hiddenTop_eq_stray_of_unfound spawned ⟨ha, hc⟩

theorem hiddenBody_eq_stray_of_silent (spawned : Bool) (body : List Stmt) (ha : validateAwaits body true = [])
    (hc : validateChans body true = []) : hiddenBody spawned body = strayBody spawned body := by
  induction body using flattenTopLevelBlocks.induct with
  | case1 => rfl
  | case2 statements rest ihs ih =>
    simp only [validateAwaits, validateChans, validateAwaitPlacement, validateChanPlacement,
      List.append_eq_nil_iff] at ha hc
    rw [hiddenBody, strayBody, ihs ha.1 hc.1, ih ha.2 hc.2]
  | case3 s rest hs ih =>
    simp only [validateAwaits, validateChans, List.append_eq_nil_iff] at ha hc
    have htop := hiddenTop_eq_stray_of_silent spawned (fun statements heq => (hs statements heq).elim)
      ha.1 hc.1
    rw [hiddenBody_cons, strayBody_cons, htop, ih ha.2 hc.2]

theorem silent_of_placementErrors {body : List Stmt} (h : placementErrors body = []) :
    validateAwaits body true = [] ∧ validateChans body true = [] := by
  induction body with
  | nil => exact ⟨rfl, rfl⟩
  | cons s rest ih =>
    simp only [placementErrors, List.append_eq_nil_iff] at h
    obtain ⟨⟨⟨ha, hc⟩, _⟩, hrest⟩ := h
    simp only [validateAwaits, validateChans, ha, hc, ih hrest, List.append_nil, and_self]

/-- `var x = await f(); x |> ch` -/
def receiving : List Stmt :=
  [.var "x" none (some (.operator .await [.var "f"])) false false none,
    .expression (.operator .chanSend [.var "ch", .var "x"])]

end Neutron.Suspension
