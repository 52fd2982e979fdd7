import Neutron.Behaviour
import Neutron.SourceTree

/-!
# Statements that never fall through

The judgement the branch joins rely on, against the executions of the whole statement language:
every choice of a branch, of a match arm and of the number of rounds, exceptions wherever
something is evaluated, and `finally` on every way out.
-/

namespace Neutron.Source

open Behaviour

/-! ### The judgement -/

mutual
/-- Whether a statement can never fall through. -/
def diverges : Stmt → Bool
  | .return _ | .throw _ | .break _ | .continue _ => true
  | .block statements _ _ => anyDiverges statements
  | .if _ thenBranch elifBranches elseBranch =>
    diverges thenBranch && elifsDiverge elifBranches && optionDiverges elseBranch
  | .match _ cases defaultCase => casesDiverge cases && optionDiverges defaultCase
  | .try tryBlock _ catchBlock finallyBlock =>
    optionDiverges finallyBlock || (diverges tryBlock && optionDiverges catchBlock)
  | .expression _ | .say _ _ | .var _ _ _ _ _ _ | .while _ _ | .doWhile _ _ | .for _ _ _ _
  | .forIn _ _ _ | .forAwait _ _ _ | .chanRecvFor _ _ _ | .go _ _ _ | .function _ _ _ _ _
  | .asyncFunction _ _ _ _ | .class _ _ _ _ | .retry _ _ _ _ | .unsafeBlock _ | .quiet _ _
  | .destructure _ _ _ _ _ | .use _ _ _ _ | .enum _ _ _ | .typeAlias _ _ _ | .trait _ _ _ _
  | .impl _ _ _ | .test _ _ => false
def anyDiverges : List Stmt → Bool
  | [] => false
  | s :: rest => diverges s || anyDiverges rest
def elifsDiverge : List ElifBranch → Bool
  | [] => true
  | .mk _ body _ :: rest => diverges body && elifsDiverge rest
def casesDiverge : List MatchCase → Bool
  | [] => true
  | .mk _ _ _ body _ :: rest => diverges body && casesDiverge rest
def optionDiverges : Option Stmt → Bool
  | none => false
  | some s => diverges s
end

/-! ### Executions -/

/-- What the statements are made of: evaluating an expression, which may end in any way, the
effect a statement has once its parts are evaluated, binding a name, and leaving a scope. -/
structure Machine (S : Type*) where
  eval : Expr → Behaviour S
  act : Stmt → Behaviour S
  bind : Token → Behaviour S
  leave : Behaviour S

namespace Machine

variable {S : Type*} (M : Machine S)

def evalOption : Option Expr → Behaviour S
  | none => done .normal
  | some e => M.eval e

def bindOption : Option Token → Behaviour S
  | none => done .normal
  | some name => M.bind name

/-- A condition that fails ends the loop; without one only a jump does. -/
def test (condition : Option Expr) (body : Behaviour S) : Behaviour S :=
  match condition with
  | none => body
  | some e => (M.eval e).seq ((done .broke).either body)

/-- The body of a loop: `continue` ends it as falling through does. -/
def iteration (body : Behaviour S) : Behaviour S :=
  body.rename fun o o' => o' = if o = .continued then .normal else o

/-- One attempt of a `retry`: success leaves it, and after a failure the next one may follow. -/
def attempt (body : Behaviour S) : Behaviour S :=
  (done .threw).either (body.rename fun o o' =>
    match o with
    | .normal => o' = .broke
    | .continued => o' = .normal
    | .threw => o' = .normal ∨ o' = .threw
    | _ => o' = o)

/-- `finally` runs on every way out, except that a jump may also leave without it. -/
def finallyRuns (body final : Behaviour S) : Behaviour S :=
  (body.ensure final).either
    (body.only fun _ o _ => o = .returned ∨ o = .broke ∨ o = .continued)

mutual
def run : Stmt → Behaviour S
  | .expression expression => M.eval expression
  | .say expression keywordSpan => (M.eval expression).seq (M.act (.say expression keywordSpan))
  | .var name ann initializer isStatic isConst view =>
    (M.evalOption initializer).seq (M.act (.var name ann initializer isStatic isConst view))
  | .block statements _ _ => (runAll statements).ensure M.leave
  | .if condition thenBranch elifBranches elseBranch =>
    (M.eval condition).seq
      ((run thenBranch).either (runElifs elifBranches (runOption elseBranch)))
  | .while condition body => Loop (M.test (some condition) (iteration (run body)))
  | .doWhile body condition =>
    Loop ((iteration (run body)).seq (M.test (some condition) (done .normal)))
  | .for init condition update body =>
    ((runOption init).seq
      (Loop (M.test condition ((iteration (run body)).seq (M.evalOption update))))).ensure M.leave
  | .forIn name iterable body =>
    (M.eval iterable).seq (Loop ((done .broke).either
      (iteration (((M.bind name).seq (run body)).ensure M.leave))))
  | .forAwait name producer body =>
    (M.eval producer).seq (Loop ((done .broke).either
      (iteration (((M.bind name).seq (run body)).ensure M.leave))))
  | .chanRecvFor name channel body =>
    (M.eval channel).seq (Loop ((done .broke).either
      (iteration (((M.bind name).seq (run body)).ensure M.leave))))
  | .return value => (M.evalOption value).seq (done .returned)
  | .break _ => done .broke
  | .continue _ => done .continued
  | .match expression cases defaultCase =>
    (M.eval expression).seq (runCases cases (runOption defaultCase))
  | .try tryBlock catchVar catchBlock finallyBlock =>
    finallyRuns ((run tryBlock).handle (runCatch catchVar catchBlock)) (runOption finallyBlock)
  | .throw value => (M.eval value).seq (done .threw)
  | .retry count body catchVar catchBlock =>
    (M.eval count).seq ((Loop (attempt (run body))).handle (runCatch catchVar catchBlock))
  | .unsafeBlock body => run body
  | .quiet _ body => run body
  | .destructure isArray isTuple names keys initializer =>
    (M.eval initializer).seq (M.act (.destructure isArray isTuple names keys initializer))
  -- a task is only started here, and a declaration runs none of the statements in it
  | .go call block keywordSpan => M.act (.go call block keywordSpan)
  | .function name genericParams params returnType body =>
    M.act (.function name genericParams params returnType body)
  | .asyncFunction name params returnType body =>
    M.act (.asyncFunction name params returnType body)
  | .class name genericParams parent body => M.act (.class name genericParams parent body)
  | .use library isFilePath importedSymbols asName =>
    M.act (.use library isFilePath importedSymbols asName)
  | .enum name genericParams members => M.act (.enum name genericParams members)
  | .typeAlias name genericParams target => M.act (.typeAlias name genericParams target)
  | .trait name parents associatedTypes methods =>
    M.act (.trait name parents associatedTypes methods)
  | .impl traitName typeName body => M.act (.impl traitName typeName body)
  | .test name body => M.act (.test name body)
def runAll : List Stmt → Behaviour S
  | [] => done .normal
  | s :: rest => (run s).seq (runAll rest)
/-- The branches after the first test failed, with the `else` branch at the end. -/
def runElifs : List ElifBranch → Behaviour S → Behaviour S
  | [], otherwise => otherwise
  | .mk condition body _ :: rest, otherwise =>
    (M.eval condition).seq ((run body).either (runElifs rest otherwise))
/-- An arm is passed over when its value or its guard does not hold. -/
def runCases : List MatchCase → Behaviour S → Behaviour S
  | [], otherwise => otherwise
  | .mk value pattern guard body _ :: rest, otherwise =>
    (M.eval value).seq ((runCases rest otherwise).either
      ((M.bindOption (pattern.bind MatchPattern.binding)).seq
        ((M.evalOption guard).seq ((run body).either (runCases rest otherwise)))))
/-- Without a `catch` block the exception goes on. -/
def runCatch (catchVar : Option Token) : Option Stmt → Behaviour S
  | none => done .threw
  | some s => ((M.bindOption catchVar).seq (run s)).ensure M.leave
def runOption : Option Stmt → Behaviour S
  | none => done .normal
  | some s => run s
end

end Machine

/-! ### Soundness -/

section Soundness

variable {S : Type*} (M : Machine S)

theorem not_normal_finallyRuns {p q : Behaviour S}
    (h : NeverNormal p ∨ NeverNormal q) : NeverNormal (Machine.finallyRuns p q) := by
  rintro s s' (hrun | ⟨-, hjump⟩)
  · exact NeverNormal.ensure h s s' hrun
  · simp at hjump

mutual
theorem run_neverNormal (s : Stmt) (h : diverges s = true) : NeverNormal (M.run s) := by
  match s with
  | .return value => exact .seq_right (.done (by decide))
  | .throw value => exact .seq_right (.done (by decide))
  | .break _ => exact .done (by decide)
  | .continue _ => exact .done (by decide)
  | .block statements _ _ => exact .ensure (.inl (runAll_neverNormal statements h))
  | .if condition thenBranch elifBranches elseBranch =>
    simp only [diverges, Bool.and_eq_true] at h
    obtain ⟨⟨hthen, helifs⟩, helse⟩ := h
    have hotherwise := runOption_neverNormal elseBranch helse
    exact .seq_right (.either (run_neverNormal thenBranch hthen)
      (runElifs_neverNormal elifBranches helifs hotherwise))
  | .match expression cases defaultCase =>
    simp only [diverges, Bool.and_eq_true] at h
    have hotherwise := runOption_neverNormal defaultCase h.2
    exact .seq_right (runCases_neverNormal cases h.1 hotherwise)
  | .try tryBlock catchVar catchBlock finallyBlock =>
    simp only [diverges, Bool.or_eq_true, Bool.and_eq_true] at h
    apply not_normal_finallyRuns
    rcases h with hfinal | ⟨htry, hcatch⟩
    · exact .inr (runOption_neverNormal finallyBlock hfinal)
    · exact .inl (.handle (run_neverNormal tryBlock htry)
        (runCatch_neverNormal catchVar catchBlock hcatch))
  | .expression _ | .say _ _ | .var _ _ _ _ _ _ | .while _ _ | .doWhile _ _ | .for _ _ _ _
  | .forIn _ _ _ | .forAwait _ _ _ | .chanRecvFor _ _ _ | .go _ _ _ | .function _ _ _ _ _
  | .asyncFunction _ _ _ _ | .class _ _ _ _ | .retry _ _ _ _ | .unsafeBlock _ | .quiet _ _
  | .destructure _ _ _ _ _ | .use _ _ _ _ | .enum _ _ _ | .typeAlias _ _ _ | .trait _ _ _ _
  | .impl _ _ _ | .test _ _ => simp [diverges] at h
theorem runAll_neverNormal (statements : List Stmt) (h : anyDiverges statements = true) :
    NeverNormal (M.runAll statements) := by
  match statements with
  | [] => simp [anyDiverges] at h
  | s :: rest =>
    simp only [anyDiverges, Bool.or_eq_true] at h
    rcases h with hfirst | hrest
    · exact .seq_left (run_neverNormal s hfirst)
    · exact .seq_right (runAll_neverNormal rest hrest)
theorem runElifs_neverNormal (branches : List ElifBranch) (h : elifsDiverge branches = true)
    {otherwise : Behaviour S} (ho : NeverNormal otherwise) :
    NeverNormal (M.runElifs branches otherwise) := by
  match branches with
  | [] => exact ho
  | .mk condition body _ :: rest =>
    simp only [elifsDiverge, Bool.and_eq_true] at h
    exact .seq_right (.either (run_neverNormal body h.1) (runElifs_neverNormal rest h.2 ho))
theorem runCases_neverNormal (cases : List MatchCase) (h : casesDiverge cases = true)
    {otherwise : Behaviour S} (ho : NeverNormal otherwise) :
    NeverNormal (M.runCases cases otherwise) := by
  match cases with
  | [] => exact ho
  | .mk value pattern guard body _ :: rest =>
    simp only [casesDiverge, Bool.and_eq_true] at h
    have hrest := runCases_neverNormal rest h.2 ho
    exact .seq_right (.either hrest
      (.seq_right (.seq_right (.either (run_neverNormal body h.1) hrest))))
theorem runCatch_neverNormal (catchVar : Option Token) (catchBlock : Option Stmt)
    (h : optionDiverges catchBlock = true) : NeverNormal (M.runCatch catchVar catchBlock) := by
  match catchBlock with
  | none => simp [optionDiverges] at h
  | some s => exact .ensure (.inl (.seq_right (run_neverNormal s h)))
theorem runOption_neverNormal (branch : Option Stmt) (h : optionDiverges branch = true) :
    NeverNormal (M.runOption branch) := by
  match branch with
  | none => simp [optionDiverges] at h
  | some s => exact run_neverNormal s h
end

/-- A statement judged to diverge never completes normally, and nothing after it runs: every
execution of it followed by more statements is an execution of it alone. -/
theorem diverges_sound (s : Stmt) (h : diverges s = true) :
    (∀ d d', ¬M.run s d .normal d') ∧
      ∀ rest d o d', M.runAll (s :: rest) d o d' → o ≠ .normal ∧ M.run s d o d' := by
  have hnever := run_neverNormal M s h
  constructor
  · exact hnever
  · rintro rest d o d' (⟨m, hs, -⟩ | ⟨ho, hs⟩)
    · exact absurd hs (hnever d m)
    · exact ⟨ho, hs⟩

end Soundness

/-- Evaluating an expression may throw. -/
def Machine.throwing : Machine ℕ :=
  ⟨fun _ => (done .normal).either (done .threw), fun _ => done .normal, fun _ => done .normal, done .normal⟩

/-- A `try` whose `catch` leaves the loop around it, in a block before a statement that is not reached. -/
def leavesLoop (span : Span) : Stmt :=
  .block [.try (.if (.literal .nil span) (.return none) [.mk (.literal .nil span) (.throw (.literal .nil span)) span]
      (some (.continue span))) none (some (.break span)) (some (.block [] span span)),
    .expression (.literal .nil span)] span span

theorem diverges_sound_try :
    (∀ d d', ¬Machine.throwing.run (leavesLoop ⟨0, 0, 1, 1⟩) d .normal d') ∧
      ∀ rest d o d', Machine.throwing.runAll (leavesLoop ⟨0, 0, 1, 1⟩ :: rest) d o d' →
        o ≠ .normal ∧ Machine.throwing.run (leavesLoop ⟨0, 0, 1, 1⟩) d o d' :=
  diverges_sound Machine.throwing (leavesLoop ⟨0, 0, 1, 1⟩) rfl

end Neutron.Source
