import Neutron.BlockGraph
import Neutron.TwosComplement

/-!
# The emitted code of integer expressions

Integer operators compile to blocks: a checked operation computes, tests a guard and branches either to a
block that throws or to one where the computation goes on. Values are numbered in the order they are
built. An instruction on operands for which it is undefined or poison has no result.
-/

namespace Neutron.Integers

/-! ### What the language says -/

inductive BinaryOp where
  | plus | minus | star | slash | percent
  | ampersand | pipe | caret | lessLess | greaterGreater
  deriving DecidableEq

inductive UnaryOp where
  | minus | tilde
  deriving DecidableEq

inductive Expr where
  | literal (value : BitVec 64)
  | variable (name : String)
  | grouping (expression : Expr)
  | unary (op : UnaryOp) (right : Expr)
  | binary (left : Expr) (op : BinaryOp) (right : Expr)

def Fits (n : ℤ) : Prop := -2 ^ 63 ≤ n ∧ n < 2 ^ 63

instance (n : ℤ) : Decidable (Fits n) := inferInstanceAs (Decidable (_ ∧ _))

def fitting (n : ℤ) (message : String) : Except String ℤ := if Fits n then .ok n else .error message

/-- The result of an operator, or the message of its fault. -/
def BinaryOp.apply (a b : ℤ) : BinaryOp → Except String ℤ
  | .plus => fitting (a + b) "integer addition overflow"
  | .minus => fitting (a - b) "integer subtraction overflow"
  | .star => fitting (a * b) "integer multiplication overflow"
  | .slash => if b = 0 then .error "division by zero" else fitting (a.tdiv b) "integer division overflow"
  | .percent =>
    if b = 0 then .error "division by zero"
    else if a = -2 ^ 63 ∧ b = -1 then .error "integer division overflow"
    else .ok (a.tmod b)
  | .ampersand => .ok (a.land b)
  | .pipe => .ok (a.lor b)
  | .caret => .ok (a.xor b)
  | .lessLess =>
    if 0 ≤ b ∧ b < 64 then .ok ((a * 2 ^ b.toNat).bmod (2 ^ 64)) else .error "shift amount out of range"
  | .greaterGreater => if 0 ≤ b ∧ b < 64 then .ok (a / 2 ^ b.toNat) else .error "shift amount out of range"

def UnaryOp.apply (a : ℤ) : UnaryOp → Except String ℤ
  | .minus => fitting (-a) "integer subtraction overflow"
  | .tilde => .ok (-a - 1)

/-- The value of an expression, or the first fault from the left. -/
def Expr.value (slots : String → BitVec 64) : Expr → Except String ℤ
  | .literal v => .ok v.toInt
  | .variable name => .ok (slots name).toInt
  | .grouping e => e.value slots
  | .unary op right => do
    let a ← right.value slots
    op.apply a
  | .binary left op right => do
    let a ← left.value slots
    let b ← right.value slots
    op.apply a b

/-! ### Instructions -/

inductive IntArith where
  | add | sub | mul
  deriving DecidableEq

def IntArith.message : IntArith → String
  | .add => "integer addition overflow"
  | .sub => "integer subtraction overflow"
  | .mul => "integer multiplication overflow"

/-- The `with.overflow` intrinsics: the wrapped result and whether the operation overflowed. -/
def IntArith.intrinsic (x y : BitVec 64) : IntArith → BitVec 64 × Bool
  | .add => (x + y, x.saddOverflow y)
  | .sub => (x - y, x.ssubOverflow y)
  | .mul => (x * y, x.smulOverflow y)

inductive Opcode where
  | sdiv | srem | and | or | xor | shl | ashr
  deriving DecidableEq

def Opcode.apply (x y : BitVec 64) : Opcode → Option (BitVec 64)
  | .sdiv => if y = 0 ∨ (x = BitVec.intMin 64 ∧ y = -1) then none else some (x.sdiv y)
  | .srem => if y = 0 ∨ (x = BitVec.intMin 64 ∧ y = -1) then none else some (x.srem y)
  | .and => some (x &&& y)
  | .or => some (x ||| y)
  | .xor => some (x ^^^ y)
  | .shl => if y.toNat < 64 then some (x <<< y.toNat) else none
  | .ashr => if y.toNat < 64 then some (x.sshiftRight y.toNat) else none

inductive Predicate where
  | eq | uge
  deriving DecidableEq

def Predicate.apply (x y : BitVec 64) : Predicate → Bool
  | .eq => x = y
  | .uge => y.toNat ≤ x.toNat

inductive Operand where
  | const (v : BitVec 64)
  | reg (r : ℕ)

inductive Instr where
  | load (slot : String)
  | withOverflow (op : IntArith) (lhs rhs : Operand)
  | extractResult (pair : ℕ)
  | extractOverflow (pair : ℕ)
  | icmp (predicate : Predicate) (lhs rhs : Operand)
  | andBool (lhs rhs : ℕ)
  | arith (op : Opcode) (lhs rhs : Operand)
  | not (operand : Operand)
  -- the words of the text go through an array into a permanent string
  | stringWords (text : String)
  | ntscThrow (message : ℕ)

inductive Value where
  | int (v : BitVec 64)
  | bool (b : Bool)
  | pair (result : BitVec 64) (overflow : Bool)
  | text (s : String)

/-- The values built so far, the variables and the pending slot of the runtime. -/
structure Machine where
  regs : ℕ → Option Value
  slots : String → BitVec 64
  pending : Option String

def Machine.set (m : Machine) (dst : ℕ) (v : Value) : Machine :=
  { m with regs := fun r => if r = dst then some v else m.regs r }

def Machine.int (m : Machine) : Operand → Option (BitVec 64)
  | .const v => some v
  | .reg r =>
    match m.regs r with
    | some (.int v) => some v
    | _ => none

def Machine.bool (m : Machine) (r : ℕ) : Option Bool :=
  match m.regs r with
  | some (.bool b) => some b
  | _ => none

def Machine.pair (m : Machine) (r : ℕ) : Option (BitVec 64 × Bool) :=
  match m.regs r with
  | some (.pair v b) => some (v, b)
  | _ => none

def Machine.text (m : Machine) (r : ℕ) : Option String :=
  match m.regs r with
  | some (.text s) => some s
  | _ => none

def Instr.value (m : Machine) : Instr → Option Value
  | .load slot => some (.int (m.slots slot))
  | .withOverflow op lhs rhs => do
    let x ← m.int lhs
    let y ← m.int rhs
    some (.pair (op.intrinsic x y).1 (op.intrinsic x y).2)
  | .extractResult p => (m.pair p).map fun q => .int q.1
  | .extractOverflow p => (m.pair p).map fun q => .bool q.2
  | .icmp predicate lhs rhs => do
    let x ← m.int lhs
    let y ← m.int rhs
    some (.bool (predicate.apply x y))
  | .andBool lhs rhs => do
    let x ← m.bool lhs
    let y ← m.bool rhs
    some (.bool (x && y))
  | .arith op lhs rhs => do
    let x ← m.int lhs
    let y ← m.int rhs
    (op.apply x y).map .int
  | .not operand => (m.int operand).map fun x => .int (~~~x)
  | .stringWords text => some (.text text)
  -- the call returns the null handle
  | .ntscThrow message => (m.text message).map fun _ => .int 0

/-- An instruction names the value it builds. -/
def exec (i : ℕ × Instr) (m : Machine) : Option Machine :=
  (i.2.value m).map fun v =>
    match i.2 with
    | .ntscThrow message => { m.set i.1 v with pending := m.text message }
    | _ => m.set i.1 v

def sem : ItemSemantics (ℕ × Instr) ℕ Machine where
  exec := exec
  test r m := (m.bool r).map (·, m)

/-! ### Emission -/

structure FunctionContext where
  builder : Builder (ℕ × Instr) ℕ
  next : ℕ
  exceptionTargets : List ℕ
  exceptionReturnBb : Option ℕ

namespace FunctionContext

def build (c : FunctionContext) (i : Instr) : FunctionContext × ℕ :=
  ({ c with builder := c.builder.push (.instr (c.next, i)), next := c.next + 1 }, c.next)

def br (c : FunctionContext) (target : ℕ) : FunctionContext := { c with builder := c.builder.push (.br target) }

def condBr (c : FunctionContext) (condition thenTarget elseTarget : ℕ) : FunctionContext :=
  { c with builder := c.builder.push (.condBr condition thenTarget elseTarget) }

def appendBasicBlock (c : FunctionContext) : FunctionContext × ℕ :=
  ({ c with builder := c.builder.appendBasicBlock.1 }, c.builder.appendBasicBlock.2)

def positionAtEnd (c : FunctionContext) (n : ℕ) : FunctionContext :=
  { c with builder := c.builder.positionAtEnd n }

/-- The innermost enclosing handler, or the block that leaves the function, made on first use. -/
def currentExceptionHandler (c : FunctionContext) : FunctionContext × ℕ :=
  match c.exceptionTargets.getLast? with
  | some bb => (c, bb)
  | none =>
    match c.exceptionReturnBb with
    | some bb => (c, bb)
    | none => ({ c.appendBasicBlock.1 with exceptionReturnBb := some c.appendBasicBlock.2 }, c.appendBasicBlock.2)

end FunctionContext

/-- Throw a message from the block `bb`. -/
def emitThrow (c : FunctionContext) (bb : ℕ) (message : String) (handler : ℕ) : FunctionContext :=
  let (c, text) := (c.positionAtEnd bb).build (.stringWords message)
  let (c, _) := c.build (.ntscThrow text)
  c.br handler

def emitGuardThrow (c : FunctionContext) (condition : ℕ) (message : String) : FunctionContext :=
  let (c, throwBb) := c.appendBasicBlock
  let (c, continueBb) := c.appendBasicBlock
  let c := c.condBr condition throwBb continueBb
  let (c, handler) := c.currentExceptionHandler
  let c := emitThrow c throwBb message handler
  c.positionAtEnd continueBb

def emitCheckedIntArith (c : FunctionContext) (op : IntArith) (lhs rhs : Operand) : FunctionContext × Operand :=
  let (c, pair) := c.build (.withOverflow op lhs rhs)
  let (c, result) := c.build (.extractResult pair)
  let (c, overflowed) := c.build (.extractOverflow pair)
  (emitGuardThrow c overflowed op.message, .reg result)

def emitShiftAmountGuard (c : FunctionContext) (amount : Operand) : FunctionContext :=
  let (c, outOfRange) := c.build (.icmp .uge amount (.const 64))
  emitGuardThrow c outOfRange "shift amount out of range"

def emitCheckedDivisorGuard (c : FunctionContext) (lhs rhs : Operand) : FunctionContext :=
  let (c, isZero) := c.build (.icmp .eq rhs (.const 0))
  let (c, isMin) := c.build (.icmp .eq lhs (.const (BitVec.intMin 64)))
  let (c, isNegOne) := c.build (.icmp .eq rhs (.const (-1)))
  let (c, overflows) := c.build (.andBool isMin isNegOne)
  let (c, overflowCheckBb) := c.appendBasicBlock
  let (c, zeroThrowBb) := c.appendBasicBlock
  let (c, overflowThrowBb) := c.appendBasicBlock
  let (c, continueBb) := c.appendBasicBlock
  let c := c.condBr isZero zeroThrowBb overflowCheckBb
  let (c, handler) := c.currentExceptionHandler
  let c := emitThrow c zeroThrowBb "division by zero" handler
  let c := (c.positionAtEnd overflowCheckBb).condBr overflows overflowThrowBb continueBb
  let c := emitThrow c overflowThrowBb "integer division overflow" handler
  c.positionAtEnd continueBb

/-- One instruction on two operands. -/
def emitArith (c : FunctionContext) (op : Opcode) (lhs rhs : Operand) : FunctionContext × Operand :=
  ((c.build (.arith op lhs rhs)).1, .reg (c.build (.arith op lhs rhs)).2)

def emitBinaryOp (c : FunctionContext) (lhs rhs : Operand) : BinaryOp → FunctionContext × Operand
  | .plus => emitCheckedIntArith c .add lhs rhs
  | .minus => emitCheckedIntArith c .sub lhs rhs
  | .star => emitCheckedIntArith c .mul lhs rhs
  | .slash => emitArith (emitCheckedDivisorGuard c lhs rhs) .sdiv lhs rhs
  | .percent => emitArith (emitCheckedDivisorGuard c lhs rhs) .srem lhs rhs
  | .ampersand => emitArith c .and lhs rhs
  | .pipe => emitArith c .or lhs rhs
  | .caret => emitArith c .xor lhs rhs
  | .lessLess => emitArith (emitShiftAmountGuard c rhs) .shl lhs rhs
  | .greaterGreater => emitArith (emitShiftAmountGuard c rhs) .ashr lhs rhs

def emitUnaryOp (c : FunctionContext) (operand : Operand) : UnaryOp → FunctionContext × Operand
  -- the minimum has no negative, so negation is a checked subtraction
  | .minus => emitCheckedIntArith c .sub (.const 0) operand
  | .tilde => ((c.build (.not operand)).1, .reg (c.build (.not operand)).2)

def emitExpression (c : FunctionContext) : Expr → FunctionContext × Operand
  | .literal v => (c, .const v)
  | .variable name => ((c.build (.load name)).1, .reg (c.build (.load name)).2)
  | .grouping e => emitExpression c e
  | .unary op right =>
    let (c, operand) := emitExpression c right
    emitUnaryOp c operand op
  | .binary left op right =>
    let (c, lhs) := emitExpression c left
    let (c, rhs) := emitExpression c right
    emitBinaryOp c lhs rhs op

end Neutron.Integers
