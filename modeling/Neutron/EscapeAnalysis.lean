import Mathlib.Data.Finset.Card
import Mathlib.Data.String.Basic
import Neutron.Syntax

/-!
# Escape analysis

Which locals of a function body hold an instance that is allocated in the frame: the
constructions `var x = C()` and their copies `var y = x` at the top level of the body, less those
with a use the analysis does not find safe and what copies connect with them.
-/

namespace Neutron.Escape
open Syntax

/-! ### Parts of a check -/

section
variable {a b c d : Bool}

theorem both₃ (h : (a && b && c) = true) : (a = true ∧ b = true) ∧ c = true :=
  (Bool.and_eq_true_iff.mp h).imp_left Bool.and_eq_true_iff.mp

theorem both₄ (h : (a && b && c && d) = true) : ((a = true ∧ b = true) ∧ c = true) ∧ d = true :=
  (Bool.and_eq_true_iff.mp h).imp_left both₃

theorem or_of_not (h : a = false) : (!a || b) = true := by simp [h]

theorem of_mentioned (ha : a = true) (h : (!a || b) = true) : b = true := by simpa [ha] using h

variable {α : Type} {P : α → Prop} {l m n : List α}

theorem edges₂ (h : ∀ e ∈ l ++ m, P e) : (∀ e ∈ l, P e) ∧ ∀ e ∈ m, P e := List.forall_mem_append.mp h

theorem edges₃ (h : ∀ e ∈ l ++ m ++ n, P e) : ((∀ e ∈ l, P e) ∧ ∀ e ∈ m, P e) ∧ ∀ e ∈ n, P e :=
  (edges₂ h).imp_left edges₂

end

/-! ### Mentions -/

mutual
/-- `expr_mentions_var`. -/
def exprMentionsVar (v : Name) : Expr → Bool
  | .var name => name = v
  | .assign name value => name = v || exprMentionsVar v value
  | .operator _ operands => exprsMentionVar v operands
  | .structLiteral _ _ fields update => exprsMentionVar v fields || exprOptionMentionsVar v update
  | .lambda _ _ body => stmtsMentionVar v body
  | .asyncBlock _ body => stmtsMentionVar v body
  | .chanRecv _ channel _ => exprMentionsVar v channel
def exprsMentionVar (v : Name) : List Expr → Bool
  | [] => false
  | e :: rest => exprMentionsVar v e || exprsMentionVar v rest
def exprOptionMentionsVar (v : Name) : Option Expr → Bool
  | none => false
  | some e => exprMentionsVar v e
/-- `stmt_mentions_var`. It does not look at the conditions of `elif` branches, at the heads and
guards of match arms, and into declarations. -/
def stmtMentionsVar (v : Name) : Stmt → Bool
  | .expression e => exprMentionsVar v e
  | .say e => exprMentionsVar v e
  | .var _ _ initializer _ _ _ => exprOptionMentionsVar v initializer
  | .block statements => stmtsMentionVar v statements
  | .ifThen condition thenBranch elifs elseBranch =>
    exprMentionsVar v condition || stmtMentionsVar v thenBranch || elifsMentionVar v elifs ||
      stmtOptionMentionsVar v elseBranch
  | .while condition body => exprMentionsVar v condition || stmtMentionsVar v body
  | .doWhile body condition => exprMentionsVar v condition || stmtMentionsVar v body
  | .for init condition update body =>
    stmtOptionMentionsVar v init || exprOptionMentionsVar v condition ||
      exprOptionMentionsVar v update || stmtMentionsVar v body
  | .each _ _ source _ body => exprMentionsVar v source || stmtMentionsVar v body
  | .ret value => exprOptionMentionsVar v value
  | .throw value => exprMentionsVar v value
  | .match scrutinee cases defaultCase =>
    exprMentionsVar v scrutinee || casesMentionVar v cases || stmtOptionMentionsVar v defaultCase
  | .tryCatch body none last => stmtMentionsVar v body || stmtOptionMentionsVar v last
  | .tryCatch body (some (.mk _ handler)) last =>
    stmtMentionsVar v body || stmtMentionsVar v handler || stmtOptionMentionsVar v last
  | .retry count body none => exprMentionsVar v count || stmtMentionsVar v body
  | .retry count body (some (.mk _ handler)) =>
    exprMentionsVar v count || stmtMentionsVar v body || stmtMentionsVar v handler
  | .within _ body => stmtMentionsVar v body
  | .destructure _ _ initializer => exprMentionsVar v initializer
  | .go call block _ => exprMentionsVar v call || stmtsOptionMentionVar v block
  | .break => false
  | .continue => false
  | .function _ _ _ _ _ _ => false
  | .classDecl _ _ _ _ => false
  | .use _ _ _ _ => false
  | .enumDecl _ _ _ => false
  | .typeAlias _ _ _ => false
  | .traitDecl _ _ _ _ => false
  | .implDecl _ _ _ => false
  | .test _ _ => false
def stmtsMentionVar (v : Name) : List Stmt → Bool
  | [] => false
  | s :: rest => stmtMentionsVar v s || stmtsMentionVar v rest
def stmtOptionMentionsVar (v : Name) : Option Stmt → Bool
  | none => false
  | some s => stmtMentionsVar v s
def stmtsOptionMentionVar (v : Name) : Option (List Stmt) → Bool
  | none => false
  | some body => stmtsMentionVar v body
def elifsMentionVar (v : Name) : List ElifBranch → Bool
  | [] => false
  | .mk _ body :: rest => stmtMentionsVar v body || elifsMentionVar v rest
def casesMentionVar (v : Name) : List MatchCase → Bool
  | [] => false
  | .mk _ _ _ _ body :: rest => stmtMentionsVar v body || casesMentionVar v rest
end

/-! ### Safe uses -/

/-- How the value of an expression is consumed: as data, or dereferenced further. -/
inductive ExprCtx where
  | data
  | base
  deriving DecidableEq

/-- The variable a call names before the dot: `object.method(..)`. -/
def receiver : List Expr → Option Name
  | .operator (.member _) [.var object] :: _ => some object
  | _ => none

def copySource : Expr → Option Name
  | .var source => some source
  | _ => none

/-- What a use must be safe for. -/
inductive EscapeKind where
  | stackSlot
  | fieldDrop
  deriving DecidableEq

section
variable (kind : EscapeKind) (v : Name)

mutual
/-- `expr_uses_var_safely`. An expression that never mentions the variable is safe. -/
def exprUsesVarSafely (ctx : ExprCtx) : Expr → Bool
  | .var name => if name = v then ctx = .base else true
  | .assign name value =>
    !exprMentionsVar v (.assign name value) ||
      (name ≠ v && exprUsesVarSafely .data value)
  | .operator form operands =>
    !exprMentionsVar v (.operator form operands) ||
    match form with
    | .literal _ => true
    | .this => true
    | .member _ => exprsUseVarSafely .base operands && (ctx = .data || kind = .fieldDrop)
    | .optionalMember _ => exprsUseVarSafely .base operands && (ctx = .data || kind = .fieldDrop)
    | .indexGet => headUsesVarSafely operands && (ctx = .data || kind = .fieldDrop)
    | .indexSet => headUsesVarSafely operands
    | .memberSet _ => headUsesVarSafely operands
    -- `v.method(args)`: the receiver counts as staying local
    | .call =>
      if receiver operands = some v then argumentsUseVarSafely operands
      else headUsesVarSafely operands
    | .await => headUsesVarSafely operands
    -- a view hands out the instance's address, and owns nothing
    | .view _ =>
      match kind with
      | .stackSlot => exprsUseVarSafely .data operands
      | .fieldDrop => placeUsesVarSafely operands
    | .copy => exprsUseVarSafely .base operands
    | .borrow _ => exprsUseVarSafely .base operands
    | .rawDeref => exprsUseVarSafely .base operands
    | .rawDerefSet => someUsesVarSafely .base operands
    | .tupleLiteral => someUsesVarSafely .data operands
    | .tupleIndex _ => exprsUseVarSafely .base operands
    | .chanSend => false
    | .close => false
    | .grouping => exprsUseVarSafely .data operands
    | .binary _ => exprsUseVarSafely .data operands
    | .unary _ => exprsUseVarSafely .data operands
    | .postfixUnary _ => exprsUseVarSafely .data operands
    | .spread => exprsUseVarSafely .data operands
    | .ternary => exprsUseVarSafely .data operands
    | .objectLiteral _ => exprsUseVarSafely .data operands
    | .arrayLiteral => exprsUseVarSafely .data operands
    | .propagate => exprsUseVarSafely .data operands
  | .structLiteral className keys fields update =>
    !exprMentionsVar v (.structLiteral className keys fields update) ||
      (someUsesVarSafely .data fields || exprOptionUsesVarSafely .base false update)
  | .lambda params returnType body =>
    !exprMentionsVar v (.lambda params returnType body) || !stmtsMentionVar v body
  | .asyncBlock returnType body =>
    !exprMentionsVar v (.asyncBlock returnType body) || stmtsUseVarSafely body
  | .chanRecv receiver channel site => !exprMentionsVar v (.chanRecv receiver channel site)
/-- All of the expressions, in one context. -/
def exprsUseVarSafely (ctx : ExprCtx) : List Expr → Bool
  | [] => true
  | e :: rest => exprUsesVarSafely ctx e && exprsUseVarSafely ctx rest
/-- One of the expressions. -/
def someUsesVarSafely (ctx : ExprCtx) : List Expr → Bool
  | [] => false
  | e :: rest => exprUsesVarSafely ctx e || someUsesVarSafely ctx rest
/-- The first expression as a base and the others as data. -/
def headUsesVarSafely : List Expr → Bool
  | [] => true
  | e :: rest => exprUsesVarSafely .base e && exprsUseVarSafely .data rest
/-- The expressions after the first, as data. -/
def argumentsUseVarSafely : List Expr → Bool
  | [] => true
  | _ :: rest => exprsUseVarSafely .data rest
def exprOptionUsesVarSafely (ctx : ExprCtx) (absent : Bool) :
    Option Expr → Bool
  | none => absent
  | some e => exprUsesVarSafely ctx e
/-- `view_borrows_place` of the first expression, and the others as data. -/
def placeUsesVarSafely : List Expr → Bool
  | [] => true
  | .var _ :: rest => exprsUseVarSafely .data rest
  | .operator .this _ :: rest => exprsUseVarSafely .data rest
  | .operator (.member _) operands :: rest => placeUsesVarSafely operands && exprsUseVarSafely .data rest
  | .operator (.optionalMember _) operands :: rest =>
    placeUsesVarSafely operands && exprsUseVarSafely .data rest
  | .operator .indexGet operands :: rest => placeUsesVarSafely operands && exprsUseVarSafely .data rest
  | .operator .grouping operands :: rest => placeUsesVarSafely operands && exprsUseVarSafely .data rest
  | e :: rest => exprUsesVarSafely .data e && exprsUseVarSafely .data rest
/-- `stmt_uses_var_safely`. A copy `var y = v` is left to the copy edges. -/
def stmtUsesVarSafely : Stmt → Bool
  | .expression e => exprUsesVarSafely .data e
  | .say e => exprUsesVarSafely .data e
  | .ret value => exprOptionUsesVarSafely .data true value
  | .throw value => exprUsesVarSafely .data value
  | .var _ _ none _ _ _ => true
  | .var _ _ (some initializer) _ _ _ =>
    copySource initializer = some v || exprUsesVarSafely .data initializer
  | .block statements => stmtsUseVarSafely statements
  | .ifThen condition thenBranch elifs elseBranch =>
    exprUsesVarSafely .data condition && stmtUsesVarSafely thenBranch &&
      elifsUseVarSafely elifs && stmtOptionUsesVarSafely elseBranch
  | .while condition body =>
    exprUsesVarSafely .data condition && stmtUsesVarSafely body
  | .doWhile body condition =>
    stmtUsesVarSafely body && exprUsesVarSafely .data condition
  | .for init condition update body =>
    stmtOptionUsesVarSafely init && exprOptionUsesVarSafely .data true condition &&
      exprOptionUsesVarSafely .data true update && stmtUsesVarSafely body
  | .each .forIn _ source _ body =>
    exprUsesVarSafely .data source && stmtUsesVarSafely body
  | .each .forAwait _ source _ body =>
    exprUsesVarSafely .data source && stmtUsesVarSafely body
  | .each .chanRecvFor _ _ _ _ => false
  | .go _ _ _ => false
  | .match scrutinee cases defaultCase =>
    exprUsesVarSafely .data scrutinee && casesUseVarSafely cases &&
      stmtOptionUsesVarSafely defaultCase
  | .tryCatch body none last =>
    stmtUsesVarSafely body && stmtOptionUsesVarSafely last
  | .tryCatch body (some (.mk _ handler)) last =>
    stmtUsesVarSafely body && stmtUsesVarSafely handler &&
      stmtOptionUsesVarSafely last
  | .retry count body none =>
    exprUsesVarSafely .data count && stmtUsesVarSafely body
  | .retry count body (some (.mk _ handler)) =>
    exprUsesVarSafely .data count && stmtUsesVarSafely body &&
      stmtUsesVarSafely handler
  | .within _ body => stmtUsesVarSafely body
  | .destructure _ _ initializer => exprUsesVarSafely .data initializer
  | .break => true
  | .continue => true
  | .function _ _ _ _ _ _ => true
  | .classDecl _ _ _ _ => true
  | .use _ _ _ _ => true
  | .enumDecl _ _ _ => true
  | .typeAlias _ _ _ => true
  | .traitDecl _ _ _ _ => true
  | .implDecl _ _ _ => true
  | .test _ _ => true
def stmtsUseVarSafely : List Stmt → Bool
  | [] => true
  | s :: rest => stmtUsesVarSafely s && stmtsUseVarSafely rest
def stmtOptionUsesVarSafely : Option Stmt → Bool
  | none => true
  | some s => stmtUsesVarSafely s
def elifsUseVarSafely : List ElifBranch → Bool
  | [] => true
  | .mk condition body :: rest =>
    exprUsesVarSafely .data condition && stmtUsesVarSafely body &&
      elifsUseVarSafely rest
def casesUseVarSafely : List MatchCase → Bool
  | [] => true
  | .mk value _ _ guard body :: rest =>
    exprUsesVarSafely .data value && exprOptionUsesVarSafely .data true guard &&
      stmtUsesVarSafely body && casesUseVarSafely rest
end

end

section
variable {kind : EscapeKind} {v : Name} {ctx : ExprCtx}

theorem safe_of_not_mention {e : Expr} (h : exprMentionsVar v e = false) :
    exprUsesVarSafely kind v ctx e = true := by
  cases e with
  | var name =>
    have hname : name ≠ v := of_decide_eq_false h
    exact if_neg hname
  | chanRecv receiver channel site => exact Bool.not_eq_true' _ ▸ h
  | _ => exact or_of_not h

theorem exprs_safe_of_not_mention {es : List Expr} (h : exprsMentionVar v es = false) :
    exprsUseVarSafely kind v ctx es = true := by
  induction es with
  | nil => rfl
  | cons e rest ih =>
    obtain ⟨he, hrest⟩ := Bool.or_eq_false_iff.mp h
    simp [exprsUseVarSafely, safe_of_not_mention he, ih hrest]

theorem base_safe_data {e : Expr} (h : exprUsesVarSafely kind v .base e = true) (he : e ≠ .var v) :
    exprUsesVarSafely kind v .data e = true := by
  by_cases hmention : exprMentionsVar v e = true
  · cases e with
    | var x =>
      have hx : x ≠ v := fun hx => he (by rw [hx])
      exact if_neg hx
    | operator form operands =>
      have hform := of_mentioned hmention h
      refine Bool.or_eq_true_iff.mpr (.inr ?_)
      cases form with
      | member _ | optionalMember _ | indexGet =>
        exact Bool.and_eq_true_iff.mpr ⟨(Bool.and_eq_true_iff.mp hform).1, rfl⟩
      | _ => exact hform
    | _ => exact h
  · exact safe_of_not_mention (by simpa using hmention)

/-- The callee of a call is a safe base, or a method of the variable; the arguments are safe. -/
theorem call_safe {callee : Expr} {arguments : List Expr}
    (h : exprUsesVarSafely kind v ctx (.operator .call (callee :: arguments)) = true) :
    (exprUsesVarSafely kind v .base callee = true ∨ ∃ property, callee = .operator (.member property) [.var v]) ∧
      exprsUseVarSafely kind v .data arguments = true := by
  by_cases hmention : exprsMentionVar v (callee :: arguments) = true
  · have hcall : (if receiver (callee :: arguments) = some v then
        argumentsUseVarSafely kind v (callee :: arguments)
      else headUsesVarSafely kind v (callee :: arguments)) = true := of_mentioned hmention h
    split at hcall
    case isTrue hreceiver =>
      refine ⟨.inr ?_, hcall⟩
      unfold receiver at hreceiver
      split at hreceiver
      case h_1 property _ _ heq =>
        obtain ⟨rfl, -⟩ := List.cons.inj heq
        cases hreceiver
        exact ⟨property, rfl⟩
      case h_2 => cases hreceiver
    case isFalse => exact (Bool.and_eq_true_iff.mp hcall).imp_left .inl
  · obtain ⟨hcallee, harguments⟩ := Bool.or_eq_false_iff.mp (Bool.not_eq_true _ ▸ hmention)
    exact ⟨.inl (safe_of_not_mention hcallee), exprs_safe_of_not_mention harguments⟩

/-- The object of a method is a safe base. -/
theorem method_safe (property : Name) :
    exprUsesVarSafely kind v .data (.operator (.member property) [.var v]) = true := by
  have hobject : (if v = v then decide (ExprCtx.base = .base) else true) = true := by simp
  have hoperands : exprsUseVarSafely kind v .base [.var v] = true := Bool.and_eq_true_iff.mpr ⟨hobject, rfl⟩
  exact Bool.or_eq_true_iff.mpr (.inr (Bool.and_eq_true_iff.mpr ⟨hoperands, rfl⟩))

end

/-! ### Growing a set until it is stable -/

section
variable {α : Type} (f : Finset α → Finset α)

/-- Apply `f` until the set keeps its size. -/
def settle : ℕ → Finset α → Finset α
  | 0, s => s
  | n + 1, s => if (f s).card = s.card then f s else settle n (f s)

variable {f} (hgrow : ∀ s, s ⊆ f s)
include hgrow

theorem subset_settle (n : ℕ) (s : Finset α) : s ⊆ settle f n s := by
  induction n generalizing s with
  | zero => exact subset_rfl
  | succ n ih =>
    rw [settle]
    split
    · exact hgrow s
    · exact (hgrow s).trans (ih (f s))

/-- A set that grows within `bound` is stable after enough steps. -/
theorem settle_stable {bound : Finset α} (hbound : ∀ s ⊆ bound, f s ⊆ bound) (n : ℕ)
    (s : Finset α) (hs : s ⊆ bound) (hn : bound.card < s.card + n) :
    f (settle f n s) = settle f n s := by
  induction n generalizing s with
  | zero =>
    have := Finset.card_le_card hs
    omega
  | succ n ih =>
    rw [settle]
    split
    case isTrue hcard =>
      have hsame : s = f s := Finset.eq_of_subset_of_card_le (hgrow s) hcard.le
      rw [← hsame, ← hsame]
    case isFalse hcard =>
      have := Finset.card_le_card (hgrow s)
      exact ih (f s) (hbound s hs) (by omega)

end

/-! ### Candidates and copies -/

section
variable (isClass hasInit : Name → Bool)

/-- `C()` for a class without a constructor. -/
def constructs : Expr → Bool
  | .operator .call [.var ctor] => isClass ctor && !hasInit ctor
  | _ => false

def collectStep (candidates : Finset Name) : Stmt → Finset Name
  | .var name none (some initializer) false _ none =>
    if constructs isClass hasInit initializer ||
        (copySource initializer).any fun source => source ∈ candidates then
      insert name candidates
    else candidates
  | _ => candidates

/-- `collect_stack_candidates`: one pass over the top level of the body. -/
def collectStackCandidates (body : List Stmt) (candidates : Finset Name) : Finset Name :=
  body.foldl (collectStep isClass hasInit) candidates

mutual
/-- `collect_copy_edges`, from the source of a copy to its target. -/
def copyEdges : Stmt → List (Name × Name)
  | .var name _ (some (.var source)) _ _ _ => [(source, name)]
  | .block statements => copyEdgesAll statements
  | .ifThen _ thenBranch elifs elseBranch =>
    copyEdges thenBranch ++ copyEdgesElifs elifs ++ copyEdgesOption elseBranch
  | .while _ body => copyEdges body
  | .doWhile body _ => copyEdges body
  | .for init _ _ body => copyEdgesOption init ++ copyEdges body
  | .each .forIn _ _ _ body => copyEdges body
  | .each .forAwait _ _ _ body => copyEdges body
  | .match _ cases defaultCase => copyEdgesCases cases ++ copyEdgesOption defaultCase
  | .tryCatch body none last => copyEdges body ++ copyEdgesOption last
  | .tryCatch body (some (.mk _ handler)) last =>
    copyEdges body ++ copyEdges handler ++ copyEdgesOption last
  | .retry _ body none => copyEdges body
  | .retry _ body (some (.mk _ handler)) => copyEdges body ++ copyEdges handler
  | .within _ body => copyEdges body
  | _ => []
def copyEdgesAll : List Stmt → List (Name × Name)
  | [] => []
  | s :: rest => copyEdges s ++ copyEdgesAll rest
def copyEdgesOption : Option Stmt → List (Name × Name)
  | none => []
  | some s => copyEdges s
def copyEdgesElifs : List ElifBranch → List (Name × Name)
  | [] => []
  | .mk _ body :: rest => copyEdges body ++ copyEdgesElifs rest
def copyEdgesCases : List MatchCase → List (Name × Name)
  | [] => []
  | .mk _ _ _ _ body :: rest => copyEdges body ++ copyEdgesCases rest
end

def rejectStep (candidates rejected : Finset Name) (edge : Name × Name) : Finset Name :=
  if (edge.1 ∈ rejected ∧ edge.2 ∈ candidates ∧ edge.2 ∉ rejected) ∨
      (edge.2 ∈ rejected ∧ edge.1 ∈ candidates ∧ edge.1 ∉ rejected) then
    insert edge.1 (insert edge.2 rejected)
  else rejected

/-- One pass of the loop that carries rejections along the copies. -/
def rejectPass (candidates : Finset Name) (edges : List (Name × Name))
    (rejected : Finset Name) : Finset Name :=
  edges.foldl (rejectStep candidates) rejected

def stackCandidates (body : List Stmt) : Finset Name :=
  settle (collectStackCandidates isClass hasInit body) (body.length + 1) ∅

def unsafeCandidates (body : List Stmt) : Finset Name :=
  (stackCandidates isClass hasInit body).filter fun v => !stmtsUseVarSafely .stackSlot v body

def rejectedCandidates (body : List Stmt) : Finset Name :=
  settle (rejectPass (stackCandidates isClass hasInit body) (copyEdgesAll body))
    ((stackCandidates isClass hasInit body).card + 1) (unsafeCandidates isClass hasInit body)

/-- `analyze_stack_allocatable`. -/
def analyzeStackAllocatable (body : List Stmt) : Finset Name :=
  stackCandidates isClass hasInit body \ rejectedCandidates isClass hasInit body

/-! ### What the fixpoints give -/

variable {isClass hasInit}

theorem subset_collectStep (candidates : Finset Name) (s : Stmt) :
    candidates ⊆ collectStep isClass hasInit candidates s := by
  unfold collectStep
  split
  · split
    · exact Finset.subset_insert _ _
    · exact subset_rfl
  · exact subset_rfl

theorem subset_collectStackCandidates (body : List Stmt) (candidates : Finset Name) :
    candidates ⊆ collectStackCandidates isClass hasInit body candidates := by
  induction body generalizing candidates with
  | nil => exact subset_rfl
  | cons s rest ih => exact (subset_collectStep candidates s).trans (ih _)

/-- The names a body declares at its top level. -/
def declaredTop : List Stmt → Finset Name
  | [] => ∅
  | .var name _ _ _ _ _ :: rest => insert name (declaredTop rest)
  | _ :: rest => declaredTop rest

theorem card_declaredTop_le (body : List Stmt) : (declaredTop body).card ≤ body.length := by
  induction body with
  | nil => simp [declaredTop]
  | cons s rest ih =>
    cases s with
    | var name _ _ _ _ _ => exact (Finset.card_insert_le _ _).trans (Nat.succ_le_succ ih)
    | _ => exact ih.trans (Nat.le_succ _)

theorem collectStep_subset (candidates : Finset Name) (s : Stmt) :
    collectStep isClass hasInit candidates s ⊆ candidates ∪ declaredTop [s] := by
  unfold collectStep
  split
  · split
    · exact Finset.insert_subset (by simp [declaredTop]) Finset.subset_union_left
    · exact Finset.subset_union_left
  · exact Finset.subset_union_left

theorem declaredTop_cons (s : Stmt) (rest : List Stmt) :
    declaredTop (s :: rest) = declaredTop [s] ∪ declaredTop rest := by
  cases s <;> simp [declaredTop]

theorem collectStackCandidates_subset (body : List Stmt) (candidates : Finset Name) :
    collectStackCandidates isClass hasInit body candidates ⊆ candidates ∪ declaredTop body := by
  induction body generalizing candidates with
  | nil => simp [collectStackCandidates]
  | cons s rest ih =>
    refine (ih (collectStep isClass hasInit candidates s)).trans ?_
    rw [declaredTop_cons, ← Finset.union_assoc]
    exact Finset.union_subset_union_left (collectStep_subset candidates s)

theorem stackCandidates_stable (body : List Stmt) :
    collectStackCandidates isClass hasInit body (stackCandidates isClass hasInit body) =
      stackCandidates isClass hasInit body := by
  have hbound : ∀ s ⊆ declaredTop body,
      collectStackCandidates isClass hasInit body s ⊆ declaredTop body := fun s hs =>
    (collectStackCandidates_subset body s).trans (Finset.union_subset hs subset_rfl)
  refine settle_stable (subset_collectStackCandidates body) hbound _ ∅ (Finset.empty_subset _) ?_
  have := card_declaredTop_le body
  simp only [Finset.card_empty]
  omega

/-- A plain copy of a candidate at the top level is a candidate. -/
theorem mem_stackCandidates_of_copy {body : List Stmt} {y z : Name} {isConst : Bool}
    (hmem : Stmt.var y none (some (.var z)) false isConst none ∈ body)
    (hz : z ∈ stackCandidates isClass hasInit body) :
    y ∈ stackCandidates isClass hasInit body := by
  have hpass : ∀ (rest : List Stmt) (candidates : Finset Name), z ∈ candidates →
      Stmt.var y none (some (.var z)) false isConst none ∈ rest →
      y ∈ collectStackCandidates isClass hasInit rest candidates := by
    intro rest
    induction rest with
    | nil => simp
    | cons s rest ih =>
      intro candidates hz hmem
      rcases List.mem_cons.mp hmem with rfl | hmem
      · refine subset_collectStackCandidates rest _ ?_
        simp [collectStep, copySource, hz]
      · exact ih _ (subset_collectStep candidates s hz) hmem
  rw [← stackCandidates_stable body]
  exact hpass body _ hz hmem

theorem subset_rejectStep (candidates rejected : Finset Name) (edge : Name × Name) :
    rejected ⊆ rejectStep candidates rejected edge := by
  unfold rejectStep
  split
  · exact (Finset.subset_insert _ _).trans (Finset.subset_insert _ _)
  · exact subset_rfl

theorem subset_rejectPass (candidates : Finset Name) (edges : List (Name × Name))
    (rejected : Finset Name) : rejected ⊆ rejectPass candidates edges rejected := by
  induction edges generalizing rejected with
  | nil => exact subset_rfl
  | cons edge rest ih => exact (subset_rejectStep candidates rejected edge).trans (ih _)

theorem rejectStep_subset {candidates rejected : Finset Name} (h : rejected ⊆ candidates)
    (edge : Name × Name) : rejectStep candidates rejected edge ⊆ candidates := by
  unfold rejectStep
  split
  case isTrue hedge =>
    rcases hedge with ⟨h₁, h₂, -⟩ | ⟨h₂, h₁, -⟩
    · exact Finset.insert_subset (h h₁) (Finset.insert_subset h₂ h)
    · exact Finset.insert_subset h₁ (Finset.insert_subset (h h₂) h)
  case isFalse => exact h

theorem rejectPass_subset (candidates : Finset Name) (edges : List (Name × Name))
    (rejected : Finset Name) (h : rejected ⊆ candidates) :
    rejectPass candidates edges rejected ⊆ candidates := by
  induction edges generalizing rejected with
  | nil => exact h
  | cons edge rest ih => exact ih _ (rejectStep_subset h edge)

theorem rejectedCandidates_stable (body : List Stmt) :
    rejectPass (stackCandidates isClass hasInit body) (copyEdgesAll body)
        (rejectedCandidates isClass hasInit body) = rejectedCandidates isClass hasInit body := by
  refine settle_stable (subset_rejectPass _ _) (rejectPass_subset _ _) _ _
    (Finset.filter_subset _ _) ?_
  omega

/-- A copy with a rejected target has a rejected source. -/
theorem mem_rejectedCandidates_of_copy {body : List Stmt} {y z : Name}
    (hedge : (z, y) ∈ copyEdgesAll body) (hz : z ∈ stackCandidates isClass hasInit body)
    (hy : y ∈ rejectedCandidates isClass hasInit body) :
    z ∈ rejectedCandidates isClass hasInit body := by
  have hpass : ∀ (edges : List (Name × Name)) (rejected : Finset Name), y ∈ rejected →
      (z, y) ∈ edges →
      z ∈ rejectPass (stackCandidates isClass hasInit body) edges rejected := by
    intro edges
    induction edges with
    | nil => simp
    | cons edge rest ih =>
      intro rejected hy hmem
      rcases List.mem_cons.mp hmem with rfl | hmem
      · refine subset_rejectPass _ rest _ ?_
        by_cases hrejected : z ∈ rejected
        · exact subset_rejectStep _ _ _ hrejected
        · simp [rejectStep, hy, hz, hrejected]
      · exact ih _ (subset_rejectStep _ _ _ hy) hmem
  rw [← rejectedCandidates_stable body]
  exact hpass _ _ hy hedge

theorem safe_of_not_rejected {body : List Stmt} {v : Name}
    (hv : v ∈ analyzeStackAllocatable isClass hasInit body) : stmtsUseVarSafely .stackSlot v body = true := by
  obtain ⟨hcandidate, hkept⟩ := Finset.mem_sdiff.mp hv
  by_contra hsafe
  have hunsafe : v ∈ unsafeCandidates isClass hasInit body :=
    Finset.mem_filter.mpr ⟨hcandidate, by simpa using hsafe⟩
  exact hkept (subset_settle (subset_rejectPass _ _) _ _ hunsafe)

/-- A plain copy at the top level of an accepted variable is accepted. -/
theorem mem_analyze_of_copy {body : List Stmt} {y z : Name} {isConst : Bool}
    (hmem : Stmt.var y none (some (.var z)) false isConst none ∈ body)
    (hedge : (z, y) ∈ copyEdgesAll body) (hz : z ∈ analyzeStackAllocatable isClass hasInit body) :
    y ∈ analyzeStackAllocatable isClass hasInit body := by
  obtain ⟨hcandidate, hkept⟩ := Finset.mem_sdiff.mp hz
  refine Finset.mem_sdiff.mpr ⟨mem_stackCandidates_of_copy hmem hcandidate, fun hy => ?_⟩
  exact hkept (mem_rejectedCandidates_of_copy hedge hcandidate hy)

end

end Neutron.Escape
