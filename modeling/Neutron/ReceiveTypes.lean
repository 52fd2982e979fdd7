import Mathlib.Data.List.Induction
import Neutron.Syntax

/-!
# Element types of channel receives

The type checker leaves the element type of every channel receive in a table keyed by source
position, for code generation to read. The table belongs to the thread and is cleared whenever
the check of an async function starts. What the checker does to it, in the order it walks the
program, is a list of actions; the type it finds for a channel is a parameter.
-/

namespace Neutron.ReceiveTypes
open Syntax

/-- A use of `CHAN_RECV_TYPES`: the start of an async function, or a receive, with the
declarations around it, its position and whether it stands in an async function. -/
inductive Action where
  | clear
  | record (path : List Name) (site : ℕ) (async : Bool)
  deriving DecidableEq

mutual
/-- What `check_expression` does to the table. -/
def checkExpression (path : List Name) (async : Bool) : Expr → List Action
  | .var _ => []
  | .assign _ value => checkExpression path async value
  | .operator _ operands => checkExpressions path async operands
  | .structLiteral _ _ fields none => checkExpressions path async fields
  | .structLiteral _ _ fields (some update) =>
    checkExpressions path async fields ++ checkExpression path async update
  -- a lambda is a separate function that is not async
  | .lambda _ _ body => checkStatements path false body
  | .asyncBlock _ body => checkStatements path async body
  | .chanRecv _ channel site => checkExpression path async channel ++ [.record path site async]
def checkExpressions (path : List Name) (async : Bool) : List Expr → List Action
  | [] => []
  | e :: rest => checkExpression path async e ++ checkExpressions path async rest
/-- What `check_statement` does to the table. The guards of match arms are not checked. -/
def checkStatement (path : List Name) (async : Bool) : Stmt → List Action
  | .function isAsync name _ _ _ body =>
    (if isAsync then [.clear] else []) ++ checkStatements (name :: path) (async || isAsync) body
  | .test name body => checkStatements (name :: path) async body
  | .var _ _ none _ _ _ => []
  | .var _ _ (some initializer) _ _ _ => checkExpression path async initializer
  | .block statements => checkStatements path async statements
  | .ifThen condition thenBranch elifs none =>
    checkExpression path async condition ++ checkStatement path async thenBranch ++
      checkElifs path async elifs
  | .ifThen condition thenBranch elifs (some elseBranch) =>
    checkExpression path async condition ++ checkStatement path async thenBranch ++
      checkElifs path async elifs ++ checkStatement path async elseBranch
  | .while condition body =>
    checkExpression path async condition ++ checkStatement path async body
  | .doWhile body condition =>
    checkStatement path async body ++ checkExpression path async condition
  | .for init condition update body =>
    (match init with
      | none => []
      | some init => checkStatement path async init) ++
    (match condition with
      | none => []
      | some condition => checkExpression path async condition) ++
    (match update with
      | none => []
      | some update => checkExpression path async update) ++
    checkStatement path async body
  | .each .chanRecvFor _ channel site body =>
    checkExpression path async channel ++ .record path site async ::
      checkStatement path async body
  | .each .forIn _ iterable _ body =>
    checkExpression path async iterable ++ checkStatement path async body
  | .each .forAwait _ producer _ body =>
    checkExpression path async producer ++ checkStatement path async body
  | .go call none _ => checkExpression path async call
  | .go call (some block) _ => checkExpression path async call ++ checkStatements path async block
  | .ret none => []
  | .ret (some value) => checkExpression path async value
  | .expression e => checkExpression path async e
  | .say e => checkExpression path async e
  | .match scrutinee cases none =>
    checkExpression path async scrutinee ++ checkCases path async cases
  | .match scrutinee cases (some defaultCase) =>
    checkExpression path async scrutinee ++ checkCases path async cases ++
      checkStatement path async defaultCase
  | .tryCatch body handler last =>
    checkStatement path async body ++
    (match handler with
      | none => []
      | some (.mk _ handler) => checkStatement path async handler) ++
    (match last with
      | none => []
      | some last => checkStatement path async last)
  | .throw value => checkExpression path async value
  | .retry count body none => checkExpression path async count ++ checkStatement path async body
  | .retry count body (some (.mk _ handler)) =>
    checkExpression path async count ++ checkStatement path async body ++
      checkStatement path async handler
  | .classDecl name _ _ body => checkStatements (name :: path) async body
  | .within _ body => checkStatement path async body
  | .destructure _ _ initializer => checkExpression path async initializer
  | .enumDecl _ _ _ => []
  | .typeAlias _ _ _ => []
  | .traitDecl _ _ _ _ => []
  | .implDecl _ _ _ => []
  | .break => []
  | .continue => []
  | .use _ _ _ _ => []
def checkStatements (path : List Name) (async : Bool) : List Stmt → List Action
  | [] => []
  | s :: rest => checkStatement path async s ++ checkStatements path async rest
def checkElifs (path : List Name) (async : Bool) : List ElifBranch → List Action
  | [] => []
  | .mk condition body :: rest =>
    checkExpression path async condition ++ checkStatement path async body ++
      checkElifs path async rest
def checkCases (path : List Name) (async : Bool) : List MatchCase → List Action
  | [] => []
  | .mk _ (some _) _ _ body :: rest =>
    checkStatement path async body ++ checkCases path async rest
  | .mk value none _ _ body :: rest =>
    checkExpression path async value ++ checkStatement path async body ++
      checkCases path async rest
end

/-- The second pass of `check_program`. -/
def checkProgram (program : Program) : List Action := checkStatements [] false program.statements

section
variable {Ty : Type} (elementOf : List Name → ℕ → Ty)

/-- The table: `CHAN_RECV_TYPES` after an action. -/
def Action.apply (table : ℕ → Option Ty) : Action → ℕ → Option Ty
  | .clear => fun _ => none
  | .record path site _ => Function.update table site (some (elementOf path site))

def tableAfter (actions : List Action) : ℕ → Option Ty :=
  actions.foldl (Action.apply elementOf) fun _ => none

/-- `chan_recv_element_type`, `any` for a position that is not in the table. -/
def chanRecvElementType (any : Ty) (actions : List Action) (site : ℕ) : Ty :=
  (tableAfter elementOf actions site).getD any

/-- Every receive of an async function has its entry, and code generation reads it. -/
def Reaches (any : Ty) (program : Program) : Prop :=
  ∀ path site, .record path site true ∈ checkProgram program →
    tableAfter elementOf (checkProgram program) site = some (elementOf path site) ∧
    chanRecvElementType elementOf any (checkProgram program) site = elementOf path site

/-- After the last receive at the position of a receive of an async function, the checker enters
no async function, and that receive has its type. -/
def Undisturbed (program : Program) : Prop :=
  ∀ path site, .record path site true ∈ checkProgram program →
    ∃ before path' async' after, checkProgram program = before ++ .record path' site async' :: after ∧
      .clear ∉ after ∧ (∀ q b, .record q site b ∉ after) ∧
      elementOf path' site = elementOf path site

variable {elementOf}

/-- An entry stays while no async function starts and its position is not written. -/
theorem foldl_apply_of_quiet {actions : List Action} {site : ℕ} (hclear : .clear ∉ actions)
    (hrecord : ∀ q b, .record q site b ∉ actions) (table : ℕ → Option Ty) :
    actions.foldl (Action.apply elementOf) table site = table site := by
  induction actions generalizing table with
  | nil => rfl
  | cons action rest ih =>
    have hrest := ih (fun h => hclear (List.mem_cons_of_mem _ h))
      (fun q b h => hrecord q b (List.mem_cons_of_mem _ h))
    rw [List.foldl_cons, hrest]
    cases action with
    | clear => exact absurd List.mem_cons_self hclear
    | record path site' async =>
      have hne : site ≠ site' := by
        rintro rfl
        exact hrecord path async List.mem_cons_self
      simp [Action.apply, hne]

/-- An entry comes from the last receive at its position, with no async function after it. -/
theorem exists_of_tableAfter {actions : List Action} {site : ℕ} {ty : Ty}
    (h : tableAfter elementOf actions site = some ty) : ∃ before path async after,
      actions = before ++ .record path site async :: after ∧ .clear ∉ after ∧
      (∀ q b, .record q site b ∉ after) ∧ elementOf path site = ty := by
  induction actions using List.reverseRecOn with
  | nil => simp [tableAfter] at h
  | append_singleton actions action ih =>
    rw [tableAfter, List.foldl_append] at h
    cases action with
    | clear => simp [Action.apply] at h
    | record path site' async =>
      by_cases hsite : site = site'
      · subst hsite
        refine ⟨actions, path, async, [], rfl, by simp, by simp, ?_⟩
        simpa [Action.apply] using h
      · have hold : tableAfter elementOf actions site = some ty := by
          simpa [tableAfter, Action.apply, hsite] using h
        obtain ⟨before, path', async', after, heq, hclear, hrecord, hty⟩ := ih hold
        refine ⟨before, path', async', after ++ [.record path site' async], by simp [heq],
          by simpa using hclear, ?_, hty⟩
        intro q b hmem
        rcases List.mem_append.mp hmem with hmem | hmem
        · exact hrecord q b hmem
        · simp only [List.mem_singleton, Action.record.injEq] at hmem
          exact hsite hmem.2.1

theorem Undisturbed.reaches {program : Program} (h : Undisturbed elementOf program) (any : Ty) :
    Reaches elementOf any program := by
  intro path site hmem
  obtain ⟨before, path', async', after, heq, hclear, hrecord, hty⟩ := h path site hmem
  have htable : tableAfter elementOf (checkProgram program) site = some (elementOf path site) := by
    rw [heq, tableAfter, List.foldl_append, List.foldl_cons, foldl_apply_of_quiet hclear hrecord]
    simp [Action.apply, hty]
  exact ⟨htable, by rw [chanRecvElementType, htable]; rfl⟩

theorem Reaches.undisturbed {program : Program} {any : Ty} (h : Reaches elementOf any program) :
    Undisturbed elementOf program :=
  fun path site hmem => exists_of_tableAfter (h path site hmem).1

end

/-- The receive types reach code generation exactly when no async function is entered after the
last receive at the position of a receive, and that one has its type. -/
theorem reaches_iff_undisturbed {Ty : Type} (elementOf : List Name → ℕ → Ty) (any : Ty)
    (program : Program) : Reaches elementOf any program ↔ Undisturbed elementOf program :=
  ⟨Reaches.undisturbed, fun h => h.reaches any⟩

/-- A receive in an async function followed by an async function without one. -/
theorem receive_type_lost : ¬∀ {Ty : Type} (elementOf : List Name → ℕ → Ty) (any : Ty)
    (program : Program), Reaches elementOf any program := by
  intro hclaim
  have h := hclaim (fun _ _ => "int") "any"
    ⟨[.function true "first" [] [⟨"ch", some (.chan .int)⟩] none
        [.expression (.chanRecv "v" (.var "ch") 40)],
      .function true "second" [] [] none []]⟩
  have hread := (h ["first"] 40 (by decide)).2
  exact absurd hread (by decide)

end Neutron.ReceiveTypes
