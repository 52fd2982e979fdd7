import Mathlib.Data.Finset.Sort
import Mathlib.Data.String.Basic
import Neutron.Syntax

/-!
# Captures of a goroutine block

The checker records for a `go` block the variables it takes from the enclosing function: all the
names the block uses, less all the names it finds bound somewhere in the block. Against it stand
the occurrences of names under lexical scoping. The list is that of one visit: the table it is kept
in, by the start of the `go` keyword, is not followed, where the instances of a generic function
overwrite each other.
-/

namespace Neutron.GoCaptures
open Syntax

/-! ### The capture list -/

mutual
/-- `collect_expr_uses`. -/
def exprUses : Expr → Finset Name
  | .var x => {x}
  | .assign x value => insert x (exprUses value)
  | .operator _ operands => exprsUses operands
  | .structLiteral className _ fields none => insert className (exprsUses fields)
  | .structLiteral className _ fields (some update) =>
    insert className (exprsUses fields ∪ exprUses update)
  | .lambda _ _ _ => ∅
  | .asyncBlock _ body => stmtsUses body
  | .chanRecv receiver channel _ => insert receiver (exprUses channel)
def exprsUses : List Expr → Finset Name
  | [] => ∅
  | e :: rest => exprUses e ∪ exprsUses rest
/-- `collect_stmt_uses`. -/
def stmtUses : Stmt → Finset Name
  | .var _ _ none _ _ _ => ∅
  | .var _ _ (some initializer) _ _ _ => exprUses initializer
  | .expression e => exprUses e
  | .say e => exprUses e
  | .block statements => stmtsUses statements
  | .ifThen condition thenBranch elifs none =>
    exprUses condition ∪ stmtUses thenBranch ∪ elifsUses elifs
  | .ifThen condition thenBranch elifs (some elseBranch) =>
    exprUses condition ∪ stmtUses thenBranch ∪ elifsUses elifs ∪ stmtUses elseBranch
  | .while condition body => exprUses condition ∪ stmtUses body
  | .doWhile body condition => exprUses condition ∪ stmtUses body
  | .for init condition update body =>
    (match init with
      | none => ∅
      | some init => stmtUses init) ∪
    (match condition with
      | none => ∅
      | some condition => exprUses condition) ∪
    (match update with
      | none => ∅
      | some update => exprUses update) ∪
    stmtUses body
  | .each _ _ source _ body => exprUses source ∪ stmtUses body
  | .go call none _ => exprUses call
  | .go call (some block) _ => exprUses call ∪ stmtsUses block
  | .ret none => ∅
  | .ret (some value) => exprUses value
  | .throw value => exprUses value
  | .match scrutinee cases none => exprUses scrutinee ∪ casesUses cases
  | .match scrutinee cases (some defaultCase) =>
    exprUses scrutinee ∪ casesUses cases ∪ stmtUses defaultCase
  | .tryCatch body handler last =>
    stmtUses body ∪
    (match handler with
      | none => ∅
      | some (.mk _ handler) => stmtUses handler) ∪
    (match last with
      | none => ∅
      | some last => stmtUses last)
  | .retry count body none => exprUses count ∪ stmtUses body
  | .retry count body (some (.mk _ handler)) =>
    exprUses count ∪ stmtUses body ∪ stmtUses handler
  | .destructure _ _ initializer => exprUses initializer
  | .within _ body => stmtUses body
  | .function _ _ _ _ _ _ => ∅
  | .test _ _ => ∅
  | .classDecl _ _ _ _ => ∅
  | .enumDecl _ _ _ => ∅
  | .typeAlias _ _ _ => ∅
  | .traitDecl _ _ _ _ => ∅
  | .implDecl _ _ _ => ∅
  | .break => ∅
  | .continue => ∅
  | .use _ _ _ _ => ∅
def stmtsUses : List Stmt → Finset Name
  | [] => ∅
  | s :: rest => stmtUses s ∪ stmtsUses rest
def elifsUses : List ElifBranch → Finset Name
  | [] => ∅
  | .mk condition body :: rest => exprUses condition ∪ stmtUses body ∪ elifsUses rest
def casesUses : List MatchCase → Finset Name
  | [] => ∅
  | .mk value _ _ guard body :: rest =>
    exprUses value ∪
    (match guard with
      | none => ∅
      | some guard => exprUses guard) ∪
    stmtUses body ∪ casesUses rest
end

mutual
/-- `collect_go_bindings`. It does not look into the bodies of `for` loops, `try` blocks, match
arms, `retry`, `unsafe` or `quiet`. -/
def goBindings : Stmt → Finset Name
  | .var x _ _ _ _ _ => {x}
  | .each _ x _ _ _ => {x}
  | .for (some (.var x _ _ _ _ _)) _ _ _ => {x}
  | .destructure names _ _ => names.toFinset
  | .block statements => goBindingsAll statements
  | .ifThen _ thenBranch elifs none => goBindings thenBranch ∪ goBindingsElifs elifs
  | .ifThen _ thenBranch elifs (some elseBranch) =>
    goBindings thenBranch ∪ goBindingsElifs elifs ∪ goBindings elseBranch
  | .while _ body => goBindings body
  | .doWhile body _ => goBindings body
  | .tryCatch _ (some (.mk x handler)) _ => insert x (goBindings handler)
  | _ => ∅
def goBindingsAll : List Stmt → Finset Name
  | [] => ∅
  | s :: rest => goBindings s ∪ goBindingsAll rest
def goBindingsElifs : List ElifBranch → Finset Name
  | [] => ∅
  | .mk _ body :: rest => goBindings body ∪ goBindingsElifs rest
end

/-- What the checker distinguishes about the type of a symbol. -/
inductive SymbolKind where
  | function
  | view
  | shared
  | value
  deriving DecidableEq

section
variable {Ty : Type} (kindOf : Ty → SymbolKind) (lookup : Name → Option (ℕ × Ty))

/-- The captures and the rejected names among some names, in order. -/
def selectCaptures : List Name → List (Name × Ty) × List Name
  | [] => ([], [])
  | x :: rest =>
    let found := selectCaptures rest
    match lookup x with
    | none => found
    | some (depth, ty) =>
      if depth = 0 ∨ kindOf ty = .function then found
      else
        match kindOf ty with
        | .view => (found.1, x :: found.2)
        | .shared => (found.1, x :: found.2)
        | _ => ((x, ty) :: found.1, found.2)

/-- The capture list of a `go` block, with the names rejected because they are views or shared;
`lookup` is `lookup_depth` in the enclosing scope. -/
def goCaptures (block : List Stmt) : List (Name × Ty) × List Name :=
  selectCaptures kindOf lookup ((stmtsUses block \ goBindingsAll block).sort (· ≤ ·))

end

/-! ### Occurrences under lexical scoping -/

/-- An occurrence of a name in a block: whether it refers to a variable from outside the block,
and whether it stands in a lambda. -/
structure Occurrence where
  name : Name
  free : Bool
  inLambda : Bool
  deriving DecidableEq

/-- An occurrence that names a variable. -/
def mention (bound : List Name) (lam : Bool) (x : Name) : Occurrence := ⟨x, x ∉ bound, lam⟩

/-- An occurrence that refers to no variable: a binder, or the name of a class. -/
def Occurrence.bind (o : Occurrence) : Occurrence := { o with free := false }

mutual
/-- The names that are in scope after a statement: the checker opens a scope for a block, a `for`
loop, a `catch` clause and the binder of a match arm, not for a bare branch or body. -/
def declares : Stmt → List Name
  | .var x _ _ _ _ _ => [x]
  | .destructure names _ _ => names
  | .expression (.chanRecv receiver _ _) => [receiver]
  | .ifThen _ thenBranch elifs none => declares thenBranch ++ declaresElifs elifs
  | .ifThen _ thenBranch elifs (some elseBranch) =>
    declares thenBranch ++ declaresElifs elifs ++ declares elseBranch
  | .while _ body => declares body
  | .doWhile body _ => declares body
  | .match _ cases none => declaresCases cases
  | .match _ cases (some defaultCase) => declaresCases cases ++ declares defaultCase
  | .tryCatch body _ none => declares body
  | .tryCatch body _ (some last) => declares body ++ declares last
  | .retry _ body _ => declares body
  | .within _ body => declares body
  | _ => []
def declaresElifs : List ElifBranch → List Name
  | [] => []
  | .mk _ body :: rest => declares body ++ declaresElifs rest
def declaresCases : List MatchCase → List Name
  | [] => []
  | .mk _ _ none _ body :: rest => declares body ++ declaresCases rest
  | .mk _ _ (some _) _ _ :: rest => declaresCases rest
end

mutual
def exprOccurrences (bound : List Name) (lam : Bool) : Expr → List Occurrence
  | .var x => [mention bound lam x]
  | .assign x value => mention bound lam x :: exprOccurrences bound lam value
  | .operator _ operands => exprsOccurrences bound lam operands
  | .structLiteral className _ fields none =>
    (mention bound lam className).bind :: exprsOccurrences bound lam fields
  | .structLiteral className _ fields (some update) =>
    (mention bound lam className).bind ::
      (exprsOccurrences bound lam fields ++ exprOccurrences bound lam update)
  | .lambda params _ body => stmtsOccurrences (params.map FunctionParam.name ++ bound) true body
  | .asyncBlock _ body => stmtsOccurrences bound lam body
  | .chanRecv receiver channel _ =>
    (mention bound lam receiver).bind :: exprOccurrences bound lam channel
def exprsOccurrences (bound : List Name) (lam : Bool) : List Expr → List Occurrence
  | [] => []
  | e :: rest => exprOccurrences bound lam e ++ exprsOccurrences bound lam rest
def stmtOccurrences (bound : List Name) (lam : Bool) : Stmt → List Occurrence
  | .var _ _ none _ _ _ => []
  | .var _ _ (some initializer) _ _ _ => exprOccurrences bound lam initializer
  | .expression e => exprOccurrences bound lam e
  | .say e => exprOccurrences bound lam e
  | .block statements => stmtsOccurrences bound lam statements
  | .ifThen condition thenBranch elifs none =>
    exprOccurrences bound lam condition ++ stmtOccurrences bound lam thenBranch ++
      elifsOccurrences (declares thenBranch ++ bound) lam elifs
  | .ifThen condition thenBranch elifs (some elseBranch) =>
    exprOccurrences bound lam condition ++ stmtOccurrences bound lam thenBranch ++
      elifsOccurrences (declares thenBranch ++ bound) lam elifs ++
      stmtOccurrences (declaresElifs elifs ++ declares thenBranch ++ bound) lam elseBranch
  | .while condition body =>
    exprOccurrences bound lam condition ++ stmtOccurrences bound lam body
  | .doWhile body condition =>
    stmtOccurrences bound lam body ++ exprOccurrences (declares body ++ bound) lam condition
  | .for none condition update body =>
    (match condition with
      | none => []
      | some condition => exprOccurrences bound lam condition) ++
    (match update with
      | none => []
      | some update => exprOccurrences bound lam update) ++
    stmtOccurrences bound lam body
  | .for (some init) condition update body =>
    stmtOccurrences bound lam init ++
    (match condition with
      | none => []
      | some condition => exprOccurrences (declares init ++ bound) lam condition) ++
    (match update with
      | none => []
      | some update => exprOccurrences (declares init ++ bound) lam update) ++
    stmtOccurrences (declares init ++ bound) lam body
  | .each _ x source _ body =>
    exprOccurrences bound lam source ++ stmtOccurrences (x :: bound) lam body
  | .go call none _ => exprOccurrences bound lam call
  | .go call (some block) _ =>
    exprOccurrences bound lam call ++ stmtsOccurrences bound lam block
  | .ret none => []
  | .ret (some value) => exprOccurrences bound lam value
  | .throw value => exprOccurrences bound lam value
  | .match scrutinee cases none =>
    exprOccurrences bound lam scrutinee ++ casesOccurrences bound lam cases
  | .match scrutinee cases (some defaultCase) =>
    exprOccurrences bound lam scrutinee ++ casesOccurrences bound lam cases ++
      stmtOccurrences (declaresCases cases ++ bound) lam defaultCase
  | .tryCatch body none none => stmtOccurrences bound lam body
  | .tryCatch body none (some last) =>
    stmtOccurrences bound lam body ++ stmtOccurrences (declares body ++ bound) lam last
  | .tryCatch body (some (.mk x handler)) none =>
    stmtOccurrences bound lam body ++ stmtOccurrences (x :: (declares body ++ bound)) lam handler
  | .tryCatch body (some (.mk x handler)) (some last) =>
    stmtOccurrences bound lam body ++
      stmtOccurrences (x :: (declares body ++ bound)) lam handler ++
      stmtOccurrences (declares body ++ bound) lam last
  | .retry count body none =>
    exprOccurrences bound lam count ++ stmtOccurrences bound lam body
  | .retry count body (some (.mk x handler)) =>
    exprOccurrences bound lam count ++ stmtOccurrences bound lam body ++
      stmtOccurrences (x :: (declares body ++ bound)) lam handler
  | .destructure _ _ initializer => exprOccurrences bound lam initializer
  | .within _ body => stmtOccurrences bound lam body
  -- a declaration inside the block is no part of its code
  | .function _ _ _ _ _ _ => []
  | .test _ _ => []
  | .classDecl _ _ _ _ => []
  | .enumDecl _ _ _ => []
  | .typeAlias _ _ _ => []
  | .traitDecl _ _ _ _ => []
  | .implDecl _ _ _ => []
  | .break => []
  | .continue => []
  | .use _ _ _ _ => []
def stmtsOccurrences (bound : List Name) (lam : Bool) : List Stmt → List Occurrence
  | [] => []
  | s :: rest =>
    stmtOccurrences bound lam s ++ stmtsOccurrences (declares s ++ bound) lam rest
def elifsOccurrences (bound : List Name) (lam : Bool) : List ElifBranch → List Occurrence
  | [] => []
  | .mk condition body :: rest =>
    exprOccurrences bound lam condition ++ stmtOccurrences bound lam body ++
      elifsOccurrences (declares body ++ bound) lam rest
/-- The head of an arm with a pattern is no expression: its names refer to no variable. -/
def casesOccurrences (bound : List Name) (lam : Bool) : List MatchCase → List Occurrence
  | [] => []
  | .mk value none binding guard body :: rest =>
    exprOccurrences bound lam value ++
    (match guard with
      | none => []
      | some guard => exprOccurrences (binding.toList ++ bound) lam guard) ++
    stmtOccurrences (binding.toList ++ bound) lam body ++
    casesOccurrences (declaresCases [.mk value none binding guard body] ++ bound) lam rest
  | .mk value (some variant) binding guard body :: rest =>
    (exprOccurrences bound lam value).map Occurrence.bind ++
    (match guard with
      | none => []
      | some guard => exprOccurrences (binding.toList ++ bound) lam guard) ++
    stmtOccurrences (binding.toList ++ bound) lam body ++
    casesOccurrences (declaresCases [.mk value (some variant) binding guard body] ++ bound) lam rest
end

/-! ### Uses are the occurrences outside lambdas -/

/-- The names that occur outside lambdas. -/
def outside (os : List Occurrence) : Finset Name :=
  ((os.filter fun o => !o.inLambda).map Occurrence.name).toFinset

/-- Nothing is outside a lambda that stands in one. -/
def visible (lam : Bool) (names : Finset Name) : Finset Name := if lam then ∅ else names

@[simp] theorem outside_nil : outside [] = ∅ := rfl

@[simp] theorem outside_append (a b : List Occurrence) :
    outside (a ++ b) = outside a ∪ outside b := by
  simp [outside]

theorem outside_cons (o : Occurrence) (os : List Occurrence) :
    outside (o :: os) = visible o.inLambda {o.name} ∪ outside os := by
  cases ho : o.inLambda with
  | false =>
    ext x
    simp [outside, visible, ho]
  | true => simp [outside, visible, ho]

@[simp] theorem outside_mention (bound : List Name) (lam : Bool) (x : Name)
    (os : List Occurrence) :
    outside (mention bound lam x :: os) = visible lam {x} ∪ outside os := outside_cons _ _

@[simp] theorem outside_mention_bind (bound : List Name) (lam : Bool) (x : Name)
    (os : List Occurrence) :
    outside ((mention bound lam x).bind :: os) = visible lam {x} ∪ outside os := outside_cons _ _

@[simp] theorem outside_map_bind (os : List Occurrence) :
    outside (os.map Occurrence.bind) = outside os := by
  induction os with
  | nil => rfl
  | cons o os ih => rw [List.map_cons, outside_cons, outside_cons, ih, Occurrence.bind]

@[simp] theorem visible_empty (lam : Bool) : visible lam ∅ = ∅ := by
  cases lam <;> rfl

@[simp] theorem visible_union (lam : Bool) (a b : Finset Name) :
    visible lam (a ∪ b) = visible lam a ∪ visible lam b := by
  cases lam <;> simp [visible]

@[simp] theorem visible_insert (lam : Bool) (x : Name) (a : Finset Name) :
    visible lam (insert x a) = visible lam {x} ∪ visible lam a := by
  rw [Finset.insert_eq, visible_union]

@[simp] theorem visible_true (a : Finset Name) : visible true a = ∅ := rfl

section
variable {lam : Bool} {os os' : List Occurrence} {m n : Finset Name}

theorem outside_nothing : outside [] = visible lam ∅ := (visible_empty lam).symm

theorem outside_join (h : outside os = visible lam m) (h' : outside os' = visible lam n) :
    outside (os ++ os') = visible lam (m ∪ n) := by
  rw [outside_append, visible_union, h, h']

theorem outside_join_nothing (h : outside os = visible lam m) :
    outside os = visible lam (m ∪ ∅) := by
  rwa [Finset.union_empty]

theorem outside_nothing_join (h : outside os = visible lam m) :
    outside os = visible lam (∅ ∪ m) := by
  rwa [Finset.empty_union]

theorem outside_insert {bound : List Name} {x : Name} (h : outside os = visible lam m) :
    outside (mention bound lam x :: os) = visible lam (insert x m) := by
  rw [outside_mention, visible_insert, h]

theorem outside_insert_bind {bound : List Name} {x : Name} (h : outside os = visible lam m) :
    outside ((mention bound lam x).bind :: os) = visible lam (insert x m) := by
  rw [outside_mention_bind, visible_insert, h]

end

mutual
theorem outside_expr (bound : List Name) (lam : Bool) (e : Expr) :
    outside (exprOccurrences bound lam e) = visible lam (exprUses e) := match e with
  | .var x => outside_insert outside_nothing
  | .assign x value => outside_insert (outside_expr bound lam value)
  | .operator _ operands => outside_exprs bound lam operands
  | .structLiteral _ _ fields none => outside_insert_bind (outside_exprs bound lam fields)
  | .structLiteral _ _ fields (some update) =>
    outside_insert_bind
      (outside_join (outside_exprs bound lam fields) (outside_expr bound lam update))
  | .lambda params _ body => by
    have hbody := outside_stmts (params.map FunctionParam.name ++ bound) true body
    rw [visible_true] at hbody
    exact hbody.trans (visible_empty lam).symm
  | .asyncBlock _ body => outside_stmts bound lam body
  | .chanRecv _ channel _ => outside_insert_bind (outside_expr bound lam channel)
theorem outside_exprs (bound : List Name) (lam : Bool) (es : List Expr) :
    outside (exprsOccurrences bound lam es) = visible lam (exprsUses es) := match es with
  | [] => outside_nothing
  | e :: rest => outside_join (outside_expr bound lam e) (outside_exprs bound lam rest)
theorem outside_stmt (bound : List Name) (lam : Bool) (s : Stmt) :
    outside (stmtOccurrences bound lam s) = visible lam (stmtUses s) := match s with
  | .var _ _ none _ _ _ => outside_nothing
  | .var _ _ (some initializer) _ _ _ => outside_expr _ _ initializer
  | .expression e => outside_expr _ _ e
  | .say e => outside_expr _ _ e
  | .block statements => outside_stmts _ _ statements
  | .ifThen condition thenBranch elifs none =>
    outside_join (outside_join (outside_expr _ _ condition) (outside_stmt _ _ thenBranch))
      (outside_elifs _ _ elifs)
  | .ifThen condition thenBranch elifs (some elseBranch) =>
    outside_join (outside_join (outside_join (outside_expr _ _ condition)
      (outside_stmt _ _ thenBranch)) (outside_elifs _ _ elifs)) (outside_stmt _ _ elseBranch)
  | .while condition body => outside_join (outside_expr _ _ condition) (outside_stmt _ _ body)
  | .doWhile body condition => by
    have hjoin := outside_join (outside_stmt bound lam body)
      (outside_expr (declares body ++ bound) lam condition)
    rw [Finset.union_comm] at hjoin
    exact hjoin
  | .for none none none body =>
    outside_join (outside_join (outside_nothing_join outside_nothing) outside_nothing)
      (outside_stmt _ _ body)
  | .for none none (some update) body =>
    outside_join (outside_join (outside_nothing_join outside_nothing) (outside_expr _ _ update))
      (outside_stmt _ _ body)
  | .for none (some condition) none body =>
    outside_join (outside_join (outside_nothing_join (outside_expr _ _ condition)) outside_nothing)
      (outside_stmt _ _ body)
  | .for none (some condition) (some update) body =>
    outside_join (outside_join (outside_nothing_join (outside_expr _ _ condition))
      (outside_expr _ _ update)) (outside_stmt _ _ body)
  | .for (some init) none none body =>
    outside_join (outside_join (outside_join (outside_stmt _ _ init) outside_nothing)
      outside_nothing) (outside_stmt _ _ body)
  | .for (some init) none (some update) body =>
    outside_join (outside_join (outside_join (outside_stmt _ _ init) outside_nothing)
      (outside_expr _ _ update)) (outside_stmt _ _ body)
  | .for (some init) (some condition) none body =>
    outside_join (outside_join (outside_join (outside_stmt _ _ init) (outside_expr _ _ condition))
      outside_nothing) (outside_stmt _ _ body)
  | .for (some init) (some condition) (some update) body =>
    outside_join (outside_join (outside_join (outside_stmt _ _ init) (outside_expr _ _ condition))
      (outside_expr _ _ update)) (outside_stmt _ _ body)
  | .each _ _ source _ body => outside_join (outside_expr _ _ source) (outside_stmt _ _ body)
  | .go call none _ => outside_expr _ _ call
  | .go call (some block) _ => outside_join (outside_expr _ _ call) (outside_stmts _ _ block)
  | .ret none => outside_nothing
  | .ret (some value) => outside_expr _ _ value
  | .throw value => outside_expr _ _ value
  | .match scrutinee cases none =>
    outside_join (outside_expr _ _ scrutinee) (outside_cases _ _ cases)
  | .match scrutinee cases (some defaultCase) =>
    outside_join (outside_join (outside_expr _ _ scrutinee) (outside_cases _ _ cases))
      (outside_stmt _ _ defaultCase)
  | .tryCatch body none none =>
    outside_join_nothing (outside_join_nothing (outside_stmt _ _ body))
  | .tryCatch body none (some last) =>
    outside_join (outside_join_nothing (outside_stmt _ _ body)) (outside_stmt _ _ last)
  | .tryCatch body (some (.mk _ handler)) none =>
    outside_join_nothing (outside_join (outside_stmt _ _ body) (outside_stmt _ _ handler))
  | .tryCatch body (some (.mk _ handler)) (some last) =>
    outside_join (outside_join (outside_stmt _ _ body) (outside_stmt _ _ handler))
      (outside_stmt _ _ last)
  | .retry count body none => outside_join (outside_expr _ _ count) (outside_stmt _ _ body)
  | .retry count body (some (.mk _ handler)) =>
    outside_join (outside_join (outside_expr _ _ count) (outside_stmt _ _ body))
      (outside_stmt _ _ handler)
  | .destructure _ _ initializer => outside_expr _ _ initializer
  | .within _ body => outside_stmt _ _ body
  | .function _ _ _ _ _ _ | .test _ _ | .classDecl _ _ _ _ | .enumDecl _ _ _
  | .typeAlias _ _ _ | .traitDecl _ _ _ _ | .implDecl _ _ _ | .break | .continue
  | .use _ _ _ _ => outside_nothing
theorem outside_stmts (bound : List Name) (lam : Bool) (stmts : List Stmt) :
    outside (stmtsOccurrences bound lam stmts) = visible lam (stmtsUses stmts) := match stmts with
  | [] => outside_nothing
  | s :: rest => outside_join (outside_stmt _ _ s) (outside_stmts _ _ rest)
theorem outside_elifs (bound : List Name) (lam : Bool) (elifs : List ElifBranch) :
    outside (elifsOccurrences bound lam elifs) = visible lam (elifsUses elifs) := match elifs with
  | [] => outside_nothing
  | .mk condition body :: rest =>
    outside_join (outside_join (outside_expr _ _ condition) (outside_stmt _ _ body))
      (outside_elifs _ _ rest)
theorem outside_cases (bound : List Name) (lam : Bool) (cases : List MatchCase) :
    outside (casesOccurrences bound lam cases) = visible lam (casesUses cases) := match cases with
  | [] => outside_nothing
  | .mk value none _ none body :: rest =>
    outside_join (outside_join (outside_join (outside_expr _ _ value) outside_nothing)
      (outside_stmt _ _ body)) (outside_cases _ _ rest)
  | .mk value none _ (some guard) body :: rest =>
    outside_join (outside_join (outside_join (outside_expr _ _ value) (outside_expr _ _ guard))
      (outside_stmt _ _ body)) (outside_cases _ _ rest)
  | .mk value (some _) _ none body :: rest =>
    have hvalue := (outside_map_bind _).trans (outside_expr bound lam value)
    outside_join (outside_join (outside_join hvalue outside_nothing) (outside_stmt _ _ body))
      (outside_cases _ _ rest)
  | .mk value (some _) _ (some guard) body :: rest =>
    have hvalue := (outside_map_bind _).trans (outside_expr bound lam value)
    outside_join (outside_join (outside_join hvalue (outside_expr _ _ guard))
      (outside_stmt _ _ body)) (outside_cases _ _ rest)
end

/-! ### What is captured -/

/-- A name with an occurrence that refers to a variable from outside the block. -/
def FreeIn (x : Name) (block : List Stmt) : Prop :=
  ∃ o ∈ stmtsOccurrences [] false block, o.name = x ∧ o.free = true

/-- A name with an occurrence outside the lambdas of the block. -/
def OccursIn (x : Name) (block : List Stmt) : Prop :=
  ∃ o ∈ stmtsOccurrences [] false block, o.name = x ∧ o.inLambda = false

theorem occursIn_iff {x : Name} {block : List Stmt} :
    OccursIn x block ↔ x ∈ stmtsUses block := by
  have huses : outside (stmtsOccurrences [] false block) = stmtsUses block := by
    rw [outside_stmts]
    rfl
  rw [← huses, OccursIn, outside]
  simp only [List.mem_toFinset, List.mem_map, List.mem_filter, Bool.not_eq_true']
  constructor
  · rintro ⟨o, ho, hname, hlam⟩
    exact ⟨o, ⟨ho, hlam⟩, hname⟩
  · rintro ⟨o, ⟨ho, hlam⟩, hname⟩
    exact ⟨o, ho, hname, hlam⟩

section
variable {Ty : Type} (kindOf : Ty → SymbolKind) (lookup : Name → Option (ℕ × Ty))

/-- The capture list holds exactly the variables of the enclosing function that occur free in the
block, each once and with its type there. -/
structure Exact (block : List Stmt) : Prop where
  once : ((goCaptures kindOf lookup block).1.map Prod.fst).Nodup
  captured : ∀ x ty, (x, ty) ∈ (goCaptures kindOf lookup block).1 ↔
    FreeIn x block ∧ ∃ depth, depth ≠ 0 ∧ lookup x = some (depth, ty)

/-- A variable of the enclosing function that is free in the block occurs outside lambdas, is not
the name of a binding that `collect_go_bindings` finds, and is no function; one that is not
free but occurs in the block is the name of such a binding, or a function. -/
def Untangled (block : List Stmt) : Prop :=
  ∀ x depth ty, lookup x = some (depth, ty) → depth ≠ 0 →
    (FreeIn x block →
      OccursIn x block ∧ x ∉ goBindingsAll block ∧ kindOf ty ≠ .function) ∧
    (¬FreeIn x block → OccursIn x block → x ∈ goBindingsAll block ∨ kindOf ty = .function)

variable {kindOf lookup}

theorem selectCaptures_sublist (names : List Name) :
    ((selectCaptures kindOf lookup names).1.map Prod.fst).Sublist names := by
  induction names with
  | nil => exact .slnil
  | cons x rest ih =>
    rw [selectCaptures]
    split
    · exact ih.cons x
    · split
      · exact ih.cons x
      · split
        · exact ih.cons x
        · exact ih.cons x
        · exact ih.cons_cons x

theorem mem_selectCaptures {names : List Name} {x : Name} {ty : Ty} :
    (x, ty) ∈ (selectCaptures kindOf lookup names).1 ↔
      x ∈ names ∧ (∃ depth, depth ≠ 0 ∧ lookup x = some (depth, ty)) ∧ kindOf ty = .value := by
  induction names with
  | nil => simp [selectCaptures]
  | cons y rest ih =>
    -- a name that is passed over is captured by the rest or not at all
    have hskip (h : x = y → (∃ depth, depth ≠ 0 ∧ lookup x = some (depth, ty)) →
        kindOf ty ≠ .value) :
        (x, ty) ∈ (selectCaptures kindOf lookup rest).1 ↔ x ∈ y :: rest ∧
          (∃ depth, depth ≠ 0 ∧ lookup x = some (depth, ty)) ∧ kindOf ty = .value := by
      rw [ih, List.mem_cons]
      constructor
      · rintro ⟨hx, hrest⟩
        exact ⟨.inr hx, hrest⟩
      · rintro ⟨hx | hx, hlookup, hkind⟩
        · exact absurd hkind (h hx hlookup)
        · exact ⟨hx, hlookup, hkind⟩
    rw [selectCaptures]
    split
    · rename_i hnone
      apply hskip
      rintro rfl ⟨depth, -, hlookup⟩
      rw [hnone] at hlookup
      exact absurd hlookup (by simp)
    · rename_i depth ty' hsome
      have hsame : x = y → (∃ depth, depth ≠ 0 ∧ lookup x = some (depth, ty)) →
          depth ≠ 0 ∧ ty' = ty := by
        rintro rfl ⟨depth', hdepth, hlookup⟩
        rw [hsome] at hlookup
        obtain ⟨rfl, rfl⟩ := Prod.mk.inj (Option.some.inj hlookup)
        exact ⟨hdepth, rfl⟩
      split
      · rename_i hout
        apply hskip
        intro hxy hlookup hvalue
        obtain ⟨hdepth, rfl⟩ := hsame hxy hlookup
        rcases hout with h | h
        · exact hdepth h
        · rw [hvalue] at h
          exact absurd h (by simp)
      · rename_i hin
        rw [not_or] at hin
        split
        · rename_i hview
          apply hskip
          intro hxy hlookup hvalue
          obtain ⟨-, rfl⟩ := hsame hxy hlookup
          rw [hvalue] at hview
          exact absurd hview (by simp)
        · rename_i hshared
          apply hskip
          intro hxy hlookup hvalue
          obtain ⟨-, rfl⟩ := hsame hxy hlookup
          rw [hvalue] at hshared
          exact absurd hshared (by simp)
        · rename_i hview hshared
          have hvalue : kindOf ty' = .value := by
            cases hkind : kindOf ty' with
            | value => rfl
            | function => exact absurd hkind hin.2
            | view => exact absurd hkind hview
            | shared => exact absurd hkind hshared
          rw [List.mem_cons, List.mem_cons, ih, Prod.mk.injEq]
          constructor
          · rintro (⟨rfl, rfl⟩ | ⟨hx, hrest⟩)
            · exact ⟨.inl rfl, ⟨depth, hin.1, hsome⟩, hvalue⟩
            · exact ⟨.inr hx, hrest⟩
          · rintro ⟨hx | hx, hlookup, hkind⟩
            · exact .inl ⟨hx, (hsame hx hlookup).2.symm⟩
            · exact .inr ⟨hx, hlookup, hkind⟩

theorem rejected_of_mem {names : List Name} {x : Name} {depth : ℕ} {ty : Ty} (hx : x ∈ names)
    (hdepth : depth ≠ 0) (hlookup : lookup x = some (depth, ty))
    (hkind : kindOf ty = .view ∨ kindOf ty = .shared) :
    x ∈ (selectCaptures kindOf lookup names).2 := by
  induction names with
  | nil => simp at hx
  | cons y rest ih =>
    have hrest : x ∈ rest → x ∈ (selectCaptures kindOf lookup (y :: rest)).2 := by
      intro hmem
      have hfound := ih hmem
      rw [selectCaptures]
      split
      · exact hfound
      · split
        · exact hfound
        · split
          · exact List.mem_cons_of_mem _ hfound
          · exact List.mem_cons_of_mem _ hfound
          · exact hfound
    rcases List.mem_cons.mp hx with rfl | hx
    · have hne : kindOf ty ≠ .function := by
        rcases hkind with h | h
        all_goals
          rw [h]
          simp
      rw [selectCaptures, hlookup]
      dsimp only
      rw [if_neg (by simp [hdepth, hne])]
      rcases hkind with h | h
      all_goals
        rw [h]
        exact List.mem_cons_self
    · exact hrest hx

theorem mem_goCaptures {block : List Stmt} {x : Name} {ty : Ty} :
    (x, ty) ∈ (goCaptures kindOf lookup block).1 ↔
      (OccursIn x block ∧ x ∉ goBindingsAll block) ∧
        (∃ depth, depth ≠ 0 ∧ lookup x = some (depth, ty)) ∧ kindOf ty = .value := by
  rw [goCaptures, mem_selectCaptures, Finset.mem_sort, Finset.mem_sdiff, occursIn_iff]

theorem once_goCaptures (block : List Stmt) :
    ((goCaptures kindOf lookup block).1.map Prod.fst).Nodup :=
  (Finset.sort_nodup _ _).sublist (selectCaptures_sublist _)

/-- In a checked program a captured candidate is a value or a function. -/
theorem kind_of_accepted {block : List Stmt} (h : (goCaptures kindOf lookup block).2 = [])
    {x : Name} {depth : ℕ} {ty : Ty} (hx : OccursIn x block) (hbound : x ∉ goBindingsAll block)
    (hdepth : depth ≠ 0) (hlookup : lookup x = some (depth, ty)) (hne : kindOf ty ≠ .function) :
    kindOf ty = .value := by
  have hmem : x ∈ (stmtsUses block \ goBindingsAll block).sort (· ≤ ·) := by
    rw [Finset.mem_sort, Finset.mem_sdiff, ← occursIn_iff]
    exact ⟨hx, hbound⟩
  have hreject (hkind : kindOf ty = .view ∨ kindOf ty = .shared) : False := by
    have hrejected := rejected_of_mem hmem hdepth hlookup hkind
    rw [← goCaptures, h] at hrejected
    exact absurd hrejected (by simp)
  cases hkind : kindOf ty with
  | value => rfl
  | function => exact absurd hkind hne
  | view => exact absurd (.inl hkind) hreject
  | shared => exact absurd (.inr hkind) hreject

end

/-- A `go` block captures exactly its free variables if and only if no variable of the enclosing
function is tangled with the bindings and the lambdas of the block. -/
theorem exact_iff_untangled {Ty : Type} (kindOf : Ty → SymbolKind)
    (lookup : Name → Option (ℕ × Ty)) (block : List Stmt)
    (h : (goCaptures kindOf lookup block).2 = []) :
    Exact kindOf lookup block ↔ Untangled kindOf lookup block := by
  constructor
  · intro hexact x depth ty hlookup hdepth
    have hcaptured := hexact.captured x ty
    rw [mem_goCaptures] at hcaptured
    constructor
    · intro hfree
      obtain ⟨⟨hoccurs, hbound⟩, -, hvalue⟩ := hcaptured.mpr ⟨hfree, depth, hdepth, hlookup⟩
      exact ⟨hoccurs, hbound, by simp [hvalue]⟩
    · intro hfree hoccurs
      by_contra hnot
      rw [not_or] at hnot
      have hvalue := kind_of_accepted h hoccurs hnot.1 hdepth hlookup hnot.2
      exact hfree (hcaptured.mp ⟨⟨hoccurs, hnot.1⟩, ⟨depth, hdepth, hlookup⟩, hvalue⟩).1
  · intro huntangled
    refine ⟨once_goCaptures block, fun x ty => ?_⟩
    rw [mem_goCaptures]
    constructor
    · rintro ⟨⟨hoccurs, hbound⟩, ⟨depth, hdepth, hlookup⟩, hvalue⟩
      refine ⟨?_, depth, hdepth, hlookup⟩
      by_contra hfree
      rcases (huntangled x depth ty hlookup hdepth).2 hfree hoccurs with h | h
      · exact hbound h
      · rw [hvalue] at h
        exact absurd h (by simp)
    · rintro ⟨hfree, depth, hdepth, hlookup⟩
      obtain ⟨hoccurs, hbound, hne⟩ := (huntangled x depth ty hlookup hdepth).1 hfree
      exact ⟨⟨hoccurs, hbound⟩, ⟨depth, hdepth, hlookup⟩,
        kind_of_accepted h hoccurs hbound hdepth hlookup hne⟩

/-- An enclosing function with one variable. -/
def onlyVariable (x : Name) : Name → Option (ℕ × Unit) := fun y => if y = x then some (1, ()) else none

/-- `go { say x; }` -/
theorem exact_iff_untangled_say :
    Exact (fun _ => .value) (onlyVariable "x") [.say (.var "x")] := by
  have huses : stmtsUses [.say (.var "x")] = {"x"} := Finset.union_empty {"x"}
  have hbound : goBindingsAll [.say (.var "x")] = ∅ := rfl
  have hfree : FreeIn "x" [.say (.var "x")] := ⟨⟨"x", true, false⟩, by decide, rfl, rfl⟩
  refine (exact_iff_untangled _ _ _ ?_).mpr ?_
  · simp [goCaptures, huses, hbound, selectCaptures, onlyVariable]
  · intro x depth ty hlookup _
    have hx : x = "x" := by
      by_contra hne
      simp [onlyVariable, hne] at hlookup
    subst hx
    refine ⟨fun _ => ⟨?_, by simp [hbound], by simp⟩, fun hnot => absurd hfree hnot⟩
    exact ⟨⟨"x", true, false⟩, by decide, rfl, rfl⟩

/-- `go { say x; var x = 2; }`: the first `x` is that of the enclosing function. -/
theorem not_exact_declared_later : ¬∀ {Ty : Type} (kindOf : Ty → SymbolKind)
    (lookup : Name → Option (ℕ × Ty)) (block : List Stmt),
    (goCaptures kindOf lookup block).2 = [] → Exact kindOf lookup block := by
  intro hclaim
  have hnone : goCaptures (fun _ => .value) (onlyVariable "x")
      [.say (.var "x"), .var "x" none (some (.operator (.literal "2") [])) false false none] =
        ([], []) := by
    have huses : stmtsUses [.say (.var "x"), .var "x" none (some (.operator (.literal "2") []))
        false false none] = {"x"} := by decide
    have hbound : goBindingsAll [.say (.var "x"), .var "x" none
        (some (.operator (.literal "2") [])) false false none] = {"x"} := by decide
    simp [goCaptures, huses, hbound, selectCaptures]
  have hexact := hclaim (fun _ => .value) (onlyVariable "x") _ (congrArg Prod.snd hnone)
  have hfree : FreeIn "x"
      [.say (.var "x"), .var "x" none (some (.operator (.literal "2") [])) false false none] :=
    ⟨⟨"x", true, false⟩, by decide, rfl, rfl⟩
  have hmem := (hexact.captured "x" ()).mpr ⟨hfree, 1, by simp, by simp [onlyVariable]⟩
  rw [hnone] at hmem
  exact absurd hmem (by simp)

end Neutron.GoCaptures
