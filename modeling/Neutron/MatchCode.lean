import Neutron.BlockGraph
import Mathlib.Data.BitVec

/-!
# The emitted code of `match`

A match statement tries its arms in order. The code tests one arm after the other, each with a block for
its body and a block where the next test goes on. There are two emitters: one for arms that are values and
wildcards, one for results, whose arms may also be variant patterns with a binder. They share the code of an
arm and differ in how a value is compared and in the release of a fresh scrutinee.
-/

namespace Neutron.Match

inductive Ty where
  | int | bool | float | string | result
  deriving DecidableEq

/-- Enum members are integers; a string is a handle. -/
inductive Literal where
  | int (n : BitVec 64)
  | bool (b : Bool)
  | float (bits : BitVec 64)
  | string (handle : BitVec 64)
  deriving DecidableEq

def Literal.ty : Literal → Ty
  | .int _ => .int
  | .bool _ => .bool
  | .float _ => .float
  | .string _ => .string

/-- A result is the address of a cell with its tag and the active payload. -/
inductive Value where
  | literal (v : Literal)
  | result (address : BitVec 64) (isOk : Bool) (payload : BitVec 64)
  deriving DecidableEq

def Value.ty : Value → Ty
  | .literal v => v.ty
  | .result _ _ _ => .result

/-- What an arm asks for. `Ok(v)` and `Err(v)` bind the payload, `Ok(_)` and `Err(_)` do not. -/
inductive Head where
  | wildcard
  | value (v : Literal)
  | variant (isOk binds : Bool)

/-- An arm, whether it has a guard and whether its body ends with a return. -/
structure MatchCase where
  head : Head
  guarded : Bool
  returns : Bool

/-- The texts of strings, equality of floats and the results of the guards. -/
structure Env where
  text : BitVec 64 → String
  floatEq : BitVec 64 → BitVec 64 → Bool
  guard : ℕ → Option (BitVec 64) → Bool

/-- What is seen to happen. Guards and bodies see the binder. -/
inductive Event where
  | scrutinee
  | guard (arm : ℕ) (binder : Option (BitVec 64))
  | body (arm : ℕ) (binder : Option (BitVec 64))
  | default
  deriving DecidableEq

/-! ### What the language says -/

/-- Values of one type are compared, those of two types are different. -/
def Literal.equals (env : Env) : Literal → Literal → Bool
  | .int a, .int b => a = b
  | .bool a, .bool b => a = b
  | .float a, .float b => env.floatEq a b
  | .string a, .string b => env.text a = env.text b
  | _, _ => false

def Value.equals (env : Env) (v : Literal) : Value → Bool
  | .literal x => x.equals env v
  | .result _ _ _ => false

def Head.accepts (env : Env) (x : Value) : Head → Bool
  | .wildcard => true
  | .value v => x.equals env v
  | .variant isOk _ =>
    match x with
    | .result _ ok _ => ok = isOk
    | _ => false

def Head.binder (x : Value) : Head → Option (BitVec 64)
  | .variant _ true =>
    match x with
    | .result _ _ payload => some payload
    | _ => none
  | _ => none

/-- What happens at an arm: its guard is evaluated, its body is run. -/
structure Tried where
  guard : Bool
  taken : Bool
  deriving DecidableEq

/-- The events of an arm. -/
def Tried.events (t : Tried) (i : ℕ) (binder : Option (BitVec 64)) : List Event :=
  (if t.guard then [.guard i binder] else []) ++ if t.taken then [.body i binder] else []

/-- The guard of an arm is evaluated when its pattern matches; the arm is taken when it is true. -/
def attempt (env : Env) (x : Value) (i : ℕ) (c : MatchCase) : Tried :=
  if c.head.accepts env x then
    if c.guarded then ⟨true, env.guard i (c.head.binder x)⟩ else ⟨false, true⟩
  else ⟨false, false⟩

/-- Arms are tried in order up to the first that is taken. The result says whether its body returns. -/
def tryArms (attempt : ℕ → MatchCase → Tried) (x : Value) : ℕ → List MatchCase → List Event × Option Bool
  | _, [] => ([], none)
  | i, c :: rest =>
    let t := attempt i c
    if t.taken then (t.events i (c.head.binder x), some c.returns)
    else (t.events i (c.head.binder x) ++ (tryArms attempt x (i + 1) rest).1, (tryArms attempt x (i + 1) rest).2)

/-- The default body runs when no arm is taken. -/
def orDefault (default : Option Bool) : List Event × Option Bool → List Event × Bool
  | (events, some returns) => (events, returns)
  | (events, none) =>
    match default with
    | none => (events, false)
    | some returns => (events ++ [.default], returns)

def meaning (env : Env) (x : Value) (cases : List MatchCase) (default : Option Bool) : List Event × Bool :=
  let r := orDefault default (tryArms (attempt env x) x 0 cases)
  (.scrutinee :: r.1, r.2)

/-! ### Instructions -/

/-- How a value arm is compared: as machine integers, by the texts of strings, or not at all. -/
inductive Comparison where
  | integers | texts | never
  deriving DecidableEq

/-- The machine integer of a value. -/
def Literal.bits : Literal → BitVec 64
  | .int n => n
  | .bool b => if b then 1 else 0
  | .float bits => bits
  | .string handle => handle

def Value.bits : Value → BitVec 64
  | .literal v => v.bits
  | .result address _ _ => address

def Comparison.apply (env : Env) (x : Value) (v : Literal) : Comparison → Bool
  | .integers => x.bits = v.bits
  | .texts => env.text x.bits = env.text v.bits
  | .never => false

inductive Instr where
  | scrutinee
  | compare (how : Comparison) (v : Literal)
  | tag (isOk : Bool)
  | guard (arm : ℕ) (binds : Bool)
  | and
  | bind (isOk : Bool)
  | body (arm : ℕ) (binds : Bool)
  | default
  -- the drop of a fresh scrutinee cell
  | release

inductive Condition where
  | matched | guard

structure State where
  scrutinee : Option Value
  matched : Bool
  guard : Bool
  binder : Option (BitVec 64)
  trace : List Event

def State.log (s : State) (e : Event) : State := { s with trace := s.trace ++ [e] }

def State.seen (s : State) (binds : Bool) : Option (BitVec 64) := if binds then s.binder else none

def exec (env : Env) (x : Value) (i : Instr) (s : State) : Option State :=
  match i with
  | .scrutinee => some ({ s with scrutinee := some x }.log .scrutinee)
  | .compare how v => s.scrutinee.map fun y => { s with matched := how.apply env y v }
  | .tag isOk =>
    match s.scrutinee with
    | some (.result _ ok _) => some { s with matched := ok = isOk }
    | _ => none
  | .guard arm binds => some ({ s with guard := env.guard arm (s.seen binds) }.log (.guard arm (s.seen binds)))
  | .and => some { s with matched := s.matched && s.guard }
  -- the payload is read through the layout of the tag
  | .bind isOk =>
    match s.scrutinee with
    | some (.result _ ok payload) => if ok = isOk then some { s with binder := some payload } else none
    | _ => none
  | .body arm binds => some (s.log (.body arm (s.seen binds)))
  | .default => some (s.log .default)
  | .release => some s

def sem (env : Env) (x : Value) : ItemSemantics Instr Condition State where
  exec := exec env x
  test
    | .matched, s => some (s.matched, s)
    | .guard, s => some (s.guard, s)

/-! ### Emission -/

/-- The width of a type's machine integer; a result is an address or a pointer, a float neither. -/
def Ty.width (pointer : Bool) : Ty → Option ℕ
  | .int | .string => some 64
  | .bool => some 1
  | .float => none
  | .result => if pointer then none else some 64

/-- Both are machine integers, whatever they stand for. Integers of two widths make no valid code. -/
def Ty.compareIntegers (pointer : Bool) (ty caseTy : Ty) : Option Comparison :=
  match ty.width pointer, caseTy.width pointer with
  | some w, some w' => if w = w' then some .integers else none
  | _, _ => some .never

/-- The comparison of `emit_match`. -/
def compareValues (pointer : Bool) (ty caseTy : Ty) : Option Comparison :=
  match ty, caseTy with
  | .int, .int | .bool, .bool => some .integers
  | .string, .string => some .texts
  | _, _ => ty.compareIntegers pointer caseTy

/-- The comparison of `emit_match_with_patterns`. -/
def compareInPatterns (pointer : Bool) (ty caseTy : Ty) : Option Comparison :=
  match ty, caseTy with
  | .int, .int | .bool, .bool => some .integers
  | _, _ => ty.compareIntegers pointer caseTy

def MatchCase.isVariant (c : MatchCase) : Bool :=
  match c.head with
  | .variant _ _ => true
  | _ => false

def MatchCase.binds (c : MatchCase) : Bool :=
  match c.head with
  | .variant _ binds => binds
  | _ => false

section
variable (compare : Ty → Option Comparison) (release : Bool)

/-- The test of an arm. The guard of a value arm is evaluated with it; a wildcard has no test. -/
def emitTest (i : ℕ) (c : MatchCase) (caseBb nextBb : ℕ) (b : Builder Instr Condition) :
    Option (Builder Instr Condition) :=
  match c.head with
  | .variant isOk _ => some ((b.push (.instr (.tag isOk))).push (.condBr .matched caseBb nextBb))
  | .wildcard => some (b.push (.br caseBb))
  | .value v => (compare v.ty).map fun how =>
    let b := b.push (.instr (.compare how v))
    let b := if c.guarded then (b.push (.instr (.guard i false))).push (.instr .and) else b
    b.push (.condBr .matched caseBb nextBb)

/-- The guard of a variant arm, inside the arm. -/
def emitArmGuard (i : ℕ) (binds : Bool) (nextBb : ℕ) (b : Builder Instr Condition) : Builder Instr Condition :=
  let b := b.push (.instr (.guard i binds))
  let (b, bodyBb) := b.appendBasicBlock
  (b.push (.condBr .guard bodyBb nextBb)).positionAtEnd bodyBb

/-- What a variant arm does before its body: bind the payload and evaluate the guard. -/
def emitPrelude (i : ℕ) (c : MatchCase) (nextBb : ℕ) (b : Builder Instr Condition) : Builder Instr Condition :=
  match c.head with
  | .variant isOk binds =>
    let b := if binds then b.push (.instr (.bind isOk)) else b
    if c.guarded then emitArmGuard i binds nextBb b else b
  | _ => b

def emitBody (i : Instr) (returns : Bool) (b : Builder Instr Condition) : Builder Instr Condition :=
  let b := b.push (.instr i)
  if returns then b.push .ret else b

def branchToMerge (merge : ℕ) (b : Builder Instr Condition) : Builder Instr Condition :=
  if b.terminated then b
  else (if release then b.push (.instr .release) else b).push (.br merge)

def emitArm (merge i : ℕ) (c : MatchCase) (b : Builder Instr Condition) : Option (Builder Instr Condition) :=
  let (b, caseBb) := b.appendBasicBlock
  let (b, nextBb) := b.appendBasicBlock
  (emitTest compare i c caseBb nextBb b).map fun b =>
    let b := emitPrelude i c nextBb (b.positionAtEnd caseBb)
    let b := branchToMerge release merge (emitBody (.body i c.binds) c.returns b)
    b.positionAtEnd nextBb

def emitArms (merge : ℕ) : ℕ → List MatchCase → Builder Instr Condition → Option (Builder Instr Condition)
  | _, [], b => some b
  | i, c :: rest, b => (emitArm compare release merge i c b).bind (emitArms merge (i + 1) rest)

/-- The arms, the default body and the merge block. -/
def emitCases (cases : List MatchCase) (default : Option Bool) (b : Builder Instr Condition) :
    Option (Builder Instr Condition) :=
  let (b, merge) := b.appendBasicBlock
  (emitArms compare release merge 0 cases b).map fun b =>
    let b := match default with
      | none => b
      | some returns => emitBody .default returns b
    (branchToMerge release merge b).positionAtEnd merge

end

/-- No result means that the compiler refuses the statement or that the code is invalid. `pointer` says
whether the scrutinee's cell is a pointer, `fresh` whether it has no other owner. -/
def emitMatch (inAsync pointer fresh : Bool) (ty : Ty) (cases : List MatchCase) (default : Option Bool)
    (b : Builder Instr Condition) : Option (Builder Instr Condition) :=
  let b := b.push (.instr .scrutinee)
  if cases.any MatchCase.isVariant then
    if inAsync then none
    else if ty = .result then emitCases (compareInPatterns pointer ty) fresh cases default b
    else none
  else emitCases (compareValues pointer ty) false cases default b

end Neutron.Match
