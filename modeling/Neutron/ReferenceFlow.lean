import Neutron.EscapeAnalysis
import Neutron.GoCaptures
import Neutron.OwnershipRuns

/-!
# Where references to an instance go

The executions of a function body, reduced to the references to the instances that the
declarations `var v = C()` of one variable `v` create: which variables hold one, whether the value
at hand is one, and whether one was returned, thrown, stored, sent, captured or passed to code
that may keep it. Every choice of branch and arm and every number of iterations is there, and
every operation may throw. `keeps` says which methods may keep their receiver.
-/

namespace Neutron.Escape
open Syntax Behaviour
open Ownership (resumes attempts)

/-- `env` holds the locals in scope, the innermost first, with whether they hold an instance. -/
structure Frame where
  env : List (Name × Bool)
  value : Bool
  escaped : Bool

namespace Frame

def holds (s : Frame) (x : Name) : Bool := (s.env.lookup x).getD false

/-- The assignment of the value to the innermost variable of this name. -/
def store (x : Name) (held : Bool) : List (Name × Bool) → List (Name × Bool)
  | [] => []
  | b :: rest => if b.1 = x then (x, held) :: rest else b :: store x held rest

end Frame

/-! ### Steps -/

def effect (f : Frame → Frame) : Behaviour Frame := fun s o s' => o = .normal ∧ s' = f s

/-- A value that is no instance. -/
def plain : Behaviour Frame := effect fun s => { s with value := false }

/-- A new instance of the declaration. -/
def fresh : Behaviour Frame := effect fun s => { s with value := true }

def load (x : Name) : Behaviour Frame := effect fun s => { s with value := s.holds x }

/-- The value is returned, thrown, stored, sent, or passed on. -/
def keep : Behaviour Frame := effect fun s => { s with escaped := s.escaped || s.value }

/-- A value that comes from the heap, or from a call: an instance only if one got there. -/
def reread : Behaviour Frame := fun s o s' =>
  o = .normal ∧ ∃ b, (b = true → s.escaped = true) ∧ s' = { s with value := b }

def declare (x : Name) : Behaviour Frame := effect fun s => { s with env := (x, s.value) :: s.env }

def declareAll : List Name → Behaviour Frame
  | [] => done .normal
  | x :: rest => (declare x).seq (declareAll rest)

/-- An assignment; what is no local outlives the frame. -/
def assign (x : Name) : Behaviour Frame := effect fun s =>
  if (s.env.lookup x).isSome then { s with env := Frame.store x s.value s.env }
  else { s with escaped := s.escaped || s.value }

def capture (names : List Name) : Behaviour Frame := effect fun s =>
  { s with escaped := s.escaped || names.any s.holds }

def mayThrow : Behaviour Frame := (done .normal).either (done .threw)

/-- The locals of `p` are gone after it. -/
def inScope (p : Behaviour Frame) : Behaviour Frame := fun s o s' =>
  ∃ m, p s o m ∧ s' = { m with env := m.env.drop (m.env.length - s.env.length) }

/-- `finally` runs on every way out, except that a jump may leave without it. -/
def withFinally (p last : Behaviour Frame) : Behaviour Frame :=
  (p.ensure last).either (p.only fun _ o _ => o = .returned ∨ o = .broke ∨ o = .continued)

def retrying (p : Behaviour Frame) : Behaviour Frame :=
  Loop ((done .threw).either (p.rename attempts))

/-- The variables a closure or a task takes from around it. -/
def captured (bound : List Name) (body : List Stmt) : List Name :=
  ((GoCaptures.stmtsOccurrences bound false body).filter GoCaptures.Occurrence.free).map
    GoCaptures.Occurrence.name

/-! ### Operators -/

/-- Whether an operator stores its operand at this place, or passes it to other code. Naming a
method hands the object to it. -/
def keepsOperand (keeps : Name → Bool) : Operator → ℕ → Bool
  | .member property, _ => keeps property
  | .optionalMember property, _ => keeps property
  | .call, i => 0 < i
  | .await, i => 0 < i
  | .indexSet, i => i = 2
  | .memberSet _, i => i = 1
  | .rawDerefSet, i => i = 1
  | .chanSend, i => i = 1
  | .objectLiteral _, _ => true
  | .arrayLiteral, _ => true
  | .tupleLiteral, _ => true
  | _, _ => false

/-- Operators whose result is, or refers to, their operand. -/
def forwards : Operator → Bool
  | .grouping => true
  | .spread => true
  | .ternary => true
  | .view _ => true
  | .borrow _ => true
  | .rawDeref => true
  | .propagate => true
  | _ => false

/-- What follows the operands: `?` may return the error to the caller. -/
def finish (form : Operator) : Behaviour Frame :=
  ((if forwards form then done .normal else reread).seq mayThrow).either
    (if form = .propagate then keep.seq (done .returned) else done .threw)

section
variable (keeps isClass hasInit : Name → Bool) (v : Name)

mutual
def exprFlow : Expr → Behaviour Frame
  | .var x => load x
  | .assign x value => (exprFlow value).seq (assign x)
  | .operator form operands =>
    plain.seq ((match form with
      | .literal _ => done .normal
      | .this => done .normal
      | .ternary => ternaryFlow operands
      | form => operandsFlow form 0 operands).seq (finish form))
  | .structLiteral _ _ fields update =>
    plain.seq ((operandsFlow .arrayLiteral 0 fields).seq
      ((exprOptionFlow update).seq (reread.seq mayThrow)))
  | .lambda params _ body => (capture (captured (params.map FunctionParam.name) body)).seq reread
  | .asyncBlock _ body => (capture (captured [] body)).seq reread
  | .chanRecv receiver channel _ =>
    (exprFlow channel).seq (mayThrow.seq (reread.seq (declare receiver)))
def operandsFlow (form : Operator) (i : ℕ) : List Expr → Behaviour Frame
  | [] => done .normal
  | e :: rest =>
    (exprFlow e).seq ((if keepsOperand keeps form i then keep else done .normal).seq
      (operandsFlow form (i + 1) rest))
def ternaryFlow : List Expr → Behaviour Frame
  | [] => done .normal
  | condition :: branches => (exprFlow condition).seq (plain.seq (branchesFlow branches))
def branchesFlow : List Expr → Behaviour Frame
  | [] => done .normal
  | e :: rest => (exprFlow e).either (branchesFlow rest)
def exprOptionFlow : Option Expr → Behaviour Frame
  | none => plain
  | some e => exprFlow e
def stmtFlow : Stmt → Behaviour Frame
  | .expression e => exprFlow e
  | .say e => (exprFlow e).seq mayThrow
  | .var x _ none isStatic _ _ => plain.seq (if isStatic then keep else declare x)
  | .var x _ (some initializer) isStatic _ _ =>
    (exprFlow initializer).seq
      ((if constructs isClass hasInit initializer ∧ x = v then fresh else done .normal).seq
        (if isStatic then keep else declare x))
  | .block statements => inScope (stmtsFlow statements)
  | .ifThen condition thenBranch elifs elseBranch =>
    (exprFlow condition).seq ((stmtFlow thenBranch).either
      (elifsFlow (stmtOptionFlow elseBranch) elifs))
  | .while condition body =>
    Loop ((exprFlow condition).seq ((done .broke).either ((stmtFlow body).rename resumes)))
  | .doWhile body condition =>
    Loop (((stmtFlow body).rename resumes).seq
      ((exprFlow condition).seq ((done .broke).either (done .normal))))
  | .for init condition update body =>
    inScope ((stmtOptionFlow init).seq (Loop ((exprOptionFlow condition).seq
      ((done .broke).either
        (((stmtFlow body).rename resumes).seq (exprOptionFlow update))))))
  | .each _ x source _ body =>
    (exprFlow source).seq (Loop ((done .broke).either
      ((inScope (reread.seq ((declare x).seq (stmtFlow body)))).rename resumes)))
  | .go call block _ => (exprFlow call).seq (blockFlow block)
  | .ret value => (exprOptionFlow value).seq (keep.seq (done .returned))
  | .throw value => (exprFlow value).seq (keep.seq (done .threw))
  | .break => done .broke
  | .continue => done .continued
  | .match scrutinee cases defaultCase =>
    (exprFlow scrutinee).seq (casesFlow (stmtOptionFlow defaultCase) cases)
  | .tryCatch body none none => stmtFlow body
  | .tryCatch body none (some last) => withFinally (stmtFlow body) (stmtFlow last)
  | .tryCatch body (some (.mk x handler)) last =>
    withFinally ((stmtFlow body).handle (inScope (reread.seq ((declare x).seq (stmtFlow handler)))))
      (stmtOptionFlow last)
  | .retry count body none => (exprFlow count).seq (retrying (stmtFlow body))
  | .retry count body (some (.mk x handler)) =>
    (exprFlow count).seq ((retrying (stmtFlow body)).handle
      (inScope (reread.seq ((declare x).seq (stmtFlow handler)))))
  | .within _ body => stmtFlow body
  | .destructure names _ initializer =>
    (exprFlow initializer).seq (reread.seq (declareAll names))
  -- a declaration runs nothing
  | .function _ _ _ _ _ _ => done .normal
  | .classDecl _ _ _ _ => done .normal
  | .use _ _ _ _ => done .normal
  | .enumDecl _ _ _ => done .normal
  | .typeAlias _ _ _ => done .normal
  | .traitDecl _ _ _ _ => done .normal
  | .implDecl _ _ _ => done .normal
  | .test _ _ => done .normal
def blockFlow : Option (List Stmt) → Behaviour Frame
  | none => done .normal
  | some body => capture (captured [] body)
def stmtsFlow : List Stmt → Behaviour Frame
  | [] => done .normal
  | s :: rest => (stmtFlow s).seq (stmtsFlow rest)
def stmtOptionFlow : Option Stmt → Behaviour Frame
  | none => done .normal
  | some s => stmtFlow s
def elifsFlow (last : Behaviour Frame) : List ElifBranch → Behaviour Frame
  | [] => last
  | .mk condition body :: rest =>
    (exprFlow condition).seq ((stmtFlow body).either (elifsFlow last rest))
/-- The head of an arm with a pattern is not evaluated. -/
def casesFlow (last : Behaviour Frame) : List MatchCase → Behaviour Frame
  | [] => last
  | .mk value none _ guard body :: rest =>
    (exprFlow value).seq (((exprOptionFlow guard).seq ((stmtFlow body).either
      (casesFlow last rest))).either (casesFlow last rest))
  | .mk _ (some _) binding guard body :: rest =>
    (inScope (reread.seq ((declareAll binding.toList).seq ((exprOptionFlow guard).seq
      (stmtFlow body))))).either (((inScope (reread.seq ((declareAll binding.toList).seq
        (exprOptionFlow guard)))).either (done .normal)).seq (casesFlow last rest))
end

end

end Neutron.Escape
