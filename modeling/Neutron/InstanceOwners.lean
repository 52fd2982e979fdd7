import Neutron.FieldDrops
import Neutron.ReferenceFlow

/-!
# Who has an instance

The executions of a function body, reduced to one instance: which variables have taken it, by their
names, and whether anything else has, a container, the caller, a closure, a task or other code. The
instance may be there at the start, or any operation may create it. Views do not count: they borrow,
and what outlives its source is rejected by the checker. `keeps` says which methods may keep their
receiver, and which classes have a constructor that may.
-/

namespace Neutron.FieldDrop
open Syntax Behaviour
open Escape (keepsOperand forwards captured)
open Ownership (resumes attempts)

/-- `value` says whether the value at hand is the instance. -/
structure Owners where
  created : Bool
  holders : List Name
  value : Bool
  outside : Bool

/-! ### Steps -/

def effect (f : Owners → Owners) : Behaviour Owners := fun s o s' => o = .normal ∧ s' = f s

/-- The value at hand becomes the instance, if that is possible. -/
def yields (possible : Owners → Prop) : Behaviour Owners := fun s o s' =>
  o = .normal ∧ ∃ b, (b = true → possible s) ∧ s' = { s with value := b }

def plain : Behaviour Owners := effect fun s => { s with value := false }

/-- A variable that has taken the instance may have been assigned since. -/
def load (x : Name) : Behaviour Owners := yields fun s => x ∈ s.holders

/-- A value from the heap, or from other code. -/
def reread : Behaviour Owners := yields fun s => s.outside = true

/-- A new object, which may be the instance. -/
def create : Behaviour Owners := fun s o s' =>
  o = .normal ∧ ∃ b, (b = true → s.created = false) ∧
    s' = { s with created := s.created || b, value := b }

/-- The value is returned, thrown, stored, sent, or passed on. -/
def keep : Behaviour Owners := effect fun s => { s with outside := s.outside || s.value }

/-- A declaration of the variable, or an assignment to it. -/
def take (x : Name) : Behaviour Owners := effect fun s =>
  { s with holders := if s.value then x :: s.holders else s.holders }

def takeAll : List Name → Behaviour Owners
  | [] => done .normal
  | x :: rest => (take x).seq (takeAll rest)

def capture (names : List Name) : Behaviour Owners := effect fun s =>
  { s with outside := s.outside || names.any fun x => x ∈ s.holders }

def mayThrow : Behaviour Owners := (done .normal).either (done .threw)

/-- What other code hands over. -/
def received : Behaviour Owners := reread.either create

/-- `finally` runs on every way out, except that a jump may leave without it. -/
def withFinally (p last : Behaviour Owners) : Behaviour Owners :=
  (p.ensure last).either (p.only fun _ o _ => o = .returned ∨ o = .broke ∨ o = .continued)

def retrying (p : Behaviour Owners) : Behaviour Owners :=
  Loop ((done .threw).either (p.rename attempts))

/-- Operators whose result is their operand. -/
def hands : Operator → Bool
  | .view _ => false
  | form => forwards form

section
variable (keeps isClass : Name → Bool)

/-- A new instance of a class. Its constructor may keep it. -/
def construct (className : Name) : Behaviour Owners :=
  create.seq (if keeps className then keep else done .normal)

def constructedClass : Operator → List Expr → Option Name
  | .call, .var ctor :: _ => if isClass ctor then some ctor else none
  | _, _ => none

/-- The result of an operator. -/
def result (form : Operator) (operands : List Expr) : Behaviour Owners :=
  match constructedClass isClass form operands with
  | some className => construct keeps className
  | none =>
    if form = .copy then create else if hands form then done .normal else received

/-- What follows the operands: `?` may return the error to the caller. -/
def finish (form : Operator) (operands : List Expr) : Behaviour Owners :=
  ((result keeps isClass form operands).seq mayThrow).either
    (if form = .propagate then keep.seq (done .returned) else done .threw)

mutual
def exprFlow : Expr → Behaviour Owners
  | .var x => load x
  | .assign x value => (exprFlow value).seq (take x)
  | .operator form operands =>
    plain.seq ((match form with
      | .literal _ => done .normal
      | .this => done .normal
      | .ternary => ternaryFlow operands
      | form => operandsFlow form 0 operands).seq (finish keeps isClass form operands))
  | .structLiteral className _ fields update =>
    plain.seq ((operandsFlow .arrayLiteral 0 fields).seq
      ((exprOptionFlow update).seq ((construct keeps className).seq mayThrow)))
  | .lambda params _ body => (capture (captured (params.map FunctionParam.name) body)).seq plain
  | .asyncBlock _ body => (capture (captured [] body)).seq plain
  | .chanRecv receiver channel _ =>
    (exprFlow channel).seq (mayThrow.seq (received.seq (take receiver)))
def operandsFlow (form : Operator) (i : ℕ) : List Expr → Behaviour Owners
  | [] => done .normal
  | e :: rest =>
    (exprFlow e).seq ((if keepsOperand keeps form i then keep else done .normal).seq
      (operandsFlow form (i + 1) rest))
def ternaryFlow : List Expr → Behaviour Owners
  | [] => done .normal
  | condition :: branches => (exprFlow condition).seq (plain.seq (branchesFlow branches))
def branchesFlow : List Expr → Behaviour Owners
  | [] => done .normal
  | e :: rest => (exprFlow e).either (branchesFlow rest)
def exprOptionFlow : Option Expr → Behaviour Owners
  | none => plain
  | some e => exprFlow e
end

/-- What a declaration does with its value: a view borrows it, a static variable outlives the
function. -/
def declare (x : Name) (isStatic : Bool) (view : Option Bool) : Behaviour Owners :=
  if view.isSome then plain else (if isStatic then keep else done .normal).seq (take x)

mutual
def stmtFlow : Stmt → Behaviour Owners
  | .expression e => exprFlow keeps isClass e
  | .say e => (exprFlow keeps isClass e).seq mayThrow
  | .var x _ initializer isStatic _ view =>
    (exprOptionFlow keeps isClass initializer).seq (declare x isStatic view)
  | .block statements => stmtsFlow statements
  | .ifThen condition thenBranch elifs elseBranch =>
    (exprFlow keeps isClass condition).seq ((stmtFlow thenBranch).either
      (elifsFlow (stmtOptionFlow elseBranch) elifs))
  | .while condition body =>
    Loop ((exprFlow keeps isClass condition).seq
      ((done .broke).either ((stmtFlow body).rename resumes)))
  | .doWhile body condition =>
    Loop (((stmtFlow body).rename resumes).seq
      ((exprFlow keeps isClass condition).seq ((done .broke).either (done .normal))))
  | .for init condition update body =>
    (stmtOptionFlow init).seq (Loop ((exprOptionFlow keeps isClass condition).seq
      ((done .broke).either
        (((stmtFlow body).rename resumes).seq (exprOptionFlow keeps isClass update)))))
  | .each _ x source _ body =>
    (exprFlow keeps isClass source).seq (Loop ((done .broke).either
      ((received.seq ((take x).seq (stmtFlow body))).rename resumes)))
  | .go call block _ => (exprFlow keeps isClass call).seq (blockFlow block)
  | .ret value => (exprOptionFlow keeps isClass value).seq (keep.seq (done .returned))
  | .throw value => (exprFlow keeps isClass value).seq (keep.seq (done .threw))
  | .break => done .broke
  | .continue => done .continued
  | .match scrutinee cases defaultCase =>
    (exprFlow keeps isClass scrutinee).seq (casesFlow (stmtOptionFlow defaultCase) cases)
  | .tryCatch body handler last =>
    withFinally (handlerFlow (stmtFlow body) handler) (stmtOptionFlow last)
  | .retry count body handler =>
    (exprFlow keeps isClass count).seq (handlerFlow (retrying (stmtFlow body)) handler)
  | .within _ body => stmtFlow body
  | .destructure names _ initializer =>
    (exprFlow keeps isClass initializer).seq (received.seq (takeAll names))
  -- a declaration runs nothing
  | _ => done .normal
def blockFlow : Option (List Stmt) → Behaviour Owners
  | none => done .normal
  | some body => capture (captured [] body)
def stmtsFlow : List Stmt → Behaviour Owners
  | [] => done .normal
  | s :: rest => (stmtFlow s).seq (stmtsFlow rest)
def stmtOptionFlow : Option Stmt → Behaviour Owners
  | none => done .normal
  | some s => stmtFlow s
def handlerFlow (body : Behaviour Owners) : Option CatchClause → Behaviour Owners
  | none => body
  | some (.mk x handler) => body.handle (received.seq ((take x).seq (stmtFlow handler)))
def elifsFlow (last : Behaviour Owners) : List ElifBranch → Behaviour Owners
  | [] => last
  | .mk condition body :: rest =>
    (exprFlow keeps isClass condition).seq ((stmtFlow body).either (elifsFlow last rest))
/-- An arm whose head is a pattern binds a part of the scrutinee. -/
def casesFlow (last : Behaviour Owners) : List MatchCase → Behaviour Owners
  | [] => last
  | .mk value _ binding guard body :: rest =>
    (((exprFlow keeps isClass value).either received).seq ((takeAll binding.toList).seq
      ((exprOptionFlow keeps isClass guard).seq ((stmtFlow body).either
        (casesFlow last rest))))).either (casesFlow last rest)
end

end

end Neutron.FieldDrop
