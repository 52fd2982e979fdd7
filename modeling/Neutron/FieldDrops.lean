import Neutron.EscapeAnalysis

/-!
# Reclaiming the fields of an instance

Which variables of a function body have the fields of their instance dropped: those that a
construction or a `copy` declares anywhere in the body, less those with a use the analysis does not
find safe and those that a declaration `var y = x` copies from or to. The analysis goes by names.
-/

namespace Neutron.FieldDrop
open Syntax
open Escape (stmtsUseVarSafely copyEdgesAll)

/-! ### Candidates -/

section
variable (isClass : Name → Bool)

/-- A construction of any class, or a copy. -/
def eligible : Expr → Bool
  | .operator .call (.var ctor :: _) => isClass ctor
  | .operator .copy _ => true
  | .structLiteral className _ _ _ => isClass className
  | _ => false

mutual
/-- `collect_class_drop_candidates`. -/
def classDropCandidates : Stmt → Finset Name
  | .var name _ (some initializer) false _ none =>
    if eligible isClass initializer then {name} else ∅
  | .block statements => classDropCandidatesAll statements
  | .ifThen _ thenBranch elifs elseBranch =>
    classDropCandidates thenBranch ∪ classDropCandidatesElifs elifs ∪
      classDropCandidatesOption elseBranch
  | .while _ body => classDropCandidates body
  | .doWhile body _ => classDropCandidates body
  | .for init _ _ body => classDropCandidatesOption init ∪ classDropCandidates body
  | .each .forIn _ _ _ body => classDropCandidates body
  | .each .forAwait _ _ _ body => classDropCandidates body
  | .match _ cases defaultCase =>
    classDropCandidatesCases cases ∪ classDropCandidatesOption defaultCase
  | .tryCatch body none last => classDropCandidates body ∪ classDropCandidatesOption last
  | .tryCatch body (some (.mk _ handler)) last =>
    classDropCandidates body ∪ classDropCandidates handler ∪ classDropCandidatesOption last
  | .retry _ body none => classDropCandidates body
  | .retry _ body (some (.mk _ handler)) => classDropCandidates body ∪ classDropCandidates handler
  | .within _ body => classDropCandidates body
  | _ => ∅
def classDropCandidatesAll : List Stmt → Finset Name
  | [] => ∅
  | s :: rest => classDropCandidates s ∪ classDropCandidatesAll rest
def classDropCandidatesOption : Option Stmt → Finset Name
  | none => ∅
  | some s => classDropCandidates s
def classDropCandidatesElifs : List ElifBranch → Finset Name
  | [] => ∅
  | .mk _ body :: rest => classDropCandidates body ∪ classDropCandidatesElifs rest
def classDropCandidatesCases : List MatchCase → Finset Name
  | [] => ∅
  | .mk _ _ _ _ body :: rest => classDropCandidates body ∪ classDropCandidatesCases rest
end

def rejected (body : List Stmt) : Finset Name :=
  (classDropCandidatesAll isClass body).filter fun v =>
    !stmtsUseVarSafely .fieldDrop v body || (copyEdgesAll body).any fun edge => edge.1 = v || edge.2 = v

/-- `analyze_class_drops`. -/
def analyzeClassDrops (body : List Stmt) : Finset Name :=
  classDropCandidatesAll isClass body \ rejected isClass body

variable {isClass}

theorem safe_of_mem_analyze {body : List Stmt} {v : Name}
    (h : v ∈ analyzeClassDrops isClass body) : stmtsUseVarSafely .fieldDrop v body = true := by
  simp only [analyzeClassDrops, rejected, Finset.mem_sdiff, Finset.mem_filter, not_and] at h
  have hnot := h.2 h.1
  simp only [Bool.or_eq_true, not_or] at hnot
  simpa using hnot.1

theorem not_copied_of_mem_analyze {body : List Stmt} {v : Name}
    (h : v ∈ analyzeClassDrops isClass body) : ∀ edge ∈ copyEdgesAll body, edge.1 ≠ v := by
  simp only [analyzeClassDrops, rejected, Finset.mem_sdiff, Finset.mem_filter, not_and] at h
  have hnot := h.2 h.1
  simp only [Bool.or_eq_true, not_or, List.any_eq_true, not_exists, not_and] at hnot
  intro edge hedge heq
  exact (hnot.2 edge hedge).1 (by simp [heq])

end

end Neutron.FieldDrop
