import Mathlib.Data.List.Basic
import Mathlib.Data.Option.Basic
import Mathlib.Tactic.Common

/-!
# The emitted code of `try`, `catch` and `finally`

Function bodies around `try` statements, run in two ways. `eval` is what the language promises: a
`finally` block runs on every way out of its statement and then what was under way takes effect.
`exec` runs the blocks that `emit_try_catch` builds: an exception is the pending slot of the runtime
and a branch to the innermost handler, calls are followed by a check of that slot, and `return`,
`break` and `continue` are direct branches. In an async body the checks are off, but for the calls of
`wait_any` and `wait_all`. Both leave a trace of the handlers that ran.
-/

namespace Neutron.TryCatch

/-- Expressions: what is computed without a call, a call, one after the other, and one or the other. A
call of `wait_any` or `wait_all` is `always` followed by a check of the pending slot. -/
inductive Expr where
  | plain (id : ℕ)
  | call (id : ℕ) (always : Bool)
  | seq (first second : Expr)
  | choice (test first second : Expr)

/-- Statements. A loop tests its condition, runs its body and then its update; a loop that does not
test first starts with the body. -/
inductive Stmt where
  | expression (e : Expr)
  | return (e : Option Expr)
  | throw (e : Expr)
  | break
  | continue
  | block (statements : List Stmt)
  | if (condition : Expr) (thenBranch : Stmt) (elseBranch : Option Stmt)
  | loop (testFirst : Bool) (condition : Option Expr) (body : Stmt) (update : Option Expr)
  | try (site : ℕ) (tryBlock : Stmt) (handler : Option (ℕ × Stmt)) (finallyBlock : Option Stmt)

/-- What expressions do to a world `σ`. A call sees the pending slot, since the callee checks it, and
returns with what is in the slot then and a value, which is a default one if it threw. -/
structure Env (σ ν : Type) where
  plain : ℕ → σ → σ × Except String ν
  call : ℕ → Option String → σ → σ × Option String × ν
  isTrue : ν → Bool
  toString : ν → String
  bind : ℕ → String → σ → σ

/-- The handlers that ran. -/
inductive Event where
  | caught (site : ℕ) (message : String)
  | finallyStart (site : ℕ)
  | finallyEnd (site : ℕ)
  deriving DecidableEq

structure World (σ : Type) where
  state : σ
  trace : List Event

def World.log {σ : Type} (w : World σ) (e : Event) : World σ := { w with trace := w.trace ++ [e] }

/-- How a statement ends. -/
inductive Completion (ν : Type) where
  | normal
  | thrown (message : String)
  | returned (v : Option ν)
  | broke
  | continued

section
variable {σ ν : Type} (env : Env σ ν)

/-- The catch variable is bound to the message. -/
def World.caught (w : World σ) (site var : ℕ) (message : String) : World σ :=
  World.log { w with state := env.bind var message w.state } (.caught site message)

/-! ### What the language promises -/

def evalExpr (e : Expr) (w : World σ) : Except String ν × World σ :=
  match e with
  | .plain id =>
    match env.plain id w.state with
    | (s, r) => (r, { w with state := s })
  | .call id _ =>
    match env.call id none w.state with
    | (s, none, v) => (.ok v, { w with state := s })
    | (s, some m, _) => (.error m, { w with state := s })
  | .seq first second =>
    match evalExpr first w with
    | (.ok _, w) => evalExpr second w
    | r => r
  | .choice test first second =>
    match evalExpr test w with
    | (.ok v, w) => if env.isTrue v then evalExpr first w else evalExpr second w
    | r => r

/-- Run statements in order up to the first that does not end normally. -/
def evalAll (f : Stmt → World σ → Option (Completion ν × World σ)) :
    List Stmt → World σ → Option (Completion ν × World σ)
  | [], w => some (.normal, w)
  | s :: rest, w =>
    match f s w with
    | some (.normal, w) => evalAll f rest w
    | r => r

/-- The `finally` block after a statement that ended in some way. -/
def evalFinally (f : Stmt → World σ → Option (Completion ν × World σ)) (site : ℕ)
    (finallyBlock : Option Stmt) (c : Completion ν) (w : World σ) :
    Option (Completion ν × World σ) :=
  match finallyBlock with
  | none => some (c, w)
  | some body =>
    match f body (w.log (.finallyStart site)) with
    | some (.normal, w) => some (c, w.log (.finallyEnd site))
    | r => r

def eval : ℕ → Stmt → World σ → Option (Completion ν × World σ)
  | 0, _, _ => none
  | fuel + 1, stmt, w =>
    match stmt with
    | .expression e =>
      match evalExpr env e w with
      | (.ok _, w) => some (.normal, w)
      | (.error m, w) => some (.thrown m, w)
    | .return none => some (.returned none, w)
    | .return (some e) =>
      match evalExpr env e w with
      | (.ok v, w) => some (.returned (some v), w)
      | (.error m, w) => some (.thrown m, w)
    | .throw e =>
      match evalExpr env e w with
      | (.ok v, w) => some (.thrown (env.toString v), w)
      | (.error m, w) => some (.thrown m, w)
    | .break => some (.broke, w)
    | .continue => some (.continued, w)
    | .block statements => evalAll (eval fuel) statements w
    | .if condition thenBranch elseBranch =>
      match evalExpr env condition w with
      | (.ok v, w) =>
        if env.isTrue v then eval fuel thenBranch w
        else
          match elseBranch with
          | some s => eval fuel s w
          | none => some (.normal, w)
      | (.error m, w) => some (.thrown m, w)
    | .loop true condition body update =>
      match condition with
      | none => eval fuel (.loop false condition body update) w
      | some e =>
        match evalExpr env e w with
        | (.ok v, w) =>
          if env.isTrue v then eval fuel (.loop false condition body update) w
          else some (.normal, w)
        | (.error m, w) => some (.thrown m, w)
    | .loop false condition body update =>
      match eval fuel body w with
      | some (.normal, w) | some (.continued, w) =>
        match update with
        | none => eval fuel (.loop true condition body update) w
        | some e =>
          match evalExpr env e w with
          | (.ok _, w) => eval fuel (.loop true condition body update) w
          | (.error m, w) => some (.thrown m, w)
      | some (.broke, w) => some (.normal, w)
      | r => r
    | .try site tryBlock handler finallyBlock =>
      match eval fuel tryBlock w with
      | none => none
      | some (.thrown m, w) =>
        match handler with
        | none => evalFinally (eval fuel) site finallyBlock (.thrown m) w
        | some (var, catchBlock) =>
          match eval fuel catchBlock (w.caught env site var m) with
          | none => none
          | some (c, w) => evalFinally (eval fuel) site finallyBlock c w
      | some (c, w) => evalFinally (eval fuel) site finallyBlock c w

/-! ### What the emitted code does -/

/-- Where the code of a statement ends: it falls through, branches to the current handler, returns,
or branches to the target of `break` or `continue`. -/
inductive Branch (ν : Type) where
  | fallThrough
  | handler
  | return (v : Option ν)
  | breakTarget
  | continueTarget

/-- The pending slot and the world. -/
structure Machine (σ : Type) where
  pending : Option String
  world : World σ

-- `exception_checks`, which is set in every body that is not async
variable (checks : Bool)

/-- The code of an expression: a value, or a branch to the handler with an exception pending. A plain
expression that raises branches to the handler itself. -/
def execExpr (e : Expr) (m : Machine σ) : Option ν × Machine σ :=
  match e with
  | .plain id =>
    match env.plain id m.world.state with
    | (s, .ok v) => (some v, { m with world := { m.world with state := s } })
    | (s, .error msg) => (none, ⟨some msg, { m.world with state := s }⟩)
  | .call id always =>
    match env.call id m.pending m.world.state with
    | (s, pending, v) =>
      -- the check after the call reads the slot, whoever filled it
      (if (checks || always) && pending.isSome then none else some v, ⟨pending, { m.world with state := s }⟩)
  | .seq first second =>
    match execExpr first m with
    | (some _, m) => execExpr second m
    | r => r
  | .choice test first second =>
    match execExpr test m with
    | (some v, m) => if env.isTrue v then execExpr first m else execExpr second m
    | r => r

/-- Statements after a terminator are not emitted. -/
def execAll (f : Stmt → Machine σ → Option (Branch ν × Machine σ)) :
    List Stmt → Machine σ → Option (Branch ν × Machine σ)
  | [], m => some (.fallThrough, m)
  | s :: rest, m =>
    match f s m with
    | some (.fallThrough, m) => execAll f rest m
    | r => r

/-- Block `try.rethrow`: the message is taken and thrown again. -/
def rethrow (m : Machine σ) : Branch ν × Machine σ :=
  (.handler, { m with pending := some (m.pending.getD "") })

/-- From block `try.finally` on, or the merge block when there is none. -/
def execFinally (f : Stmt → Machine σ → Option (Branch ν × Machine σ)) (site : ℕ)
    (finallyBlock : Option Stmt) (m : Machine σ) : Option (Branch ν × Machine σ) :=
  match finallyBlock with
  | none => some (.fallThrough, m)
  | some body =>
    match f body { m with world := m.world.log (.finallyStart site) } with
    | some (.fallThrough, m) =>
      let m := { m with world := m.world.log (.finallyEnd site) }
      some (if m.pending.isSome then rethrow m else (.fallThrough, m))
    | r => r

def exec : ℕ → Stmt → Machine σ → Option (Branch ν × Machine σ)
  | 0, _, _ => none
  | fuel + 1, stmt, m =>
    match stmt with
    | .expression e =>
      match execExpr env checks e m with
      | (some _, m) => some (.fallThrough, m)
      | (none, m) => some (.handler, m)
    | .return none => some (.return none, m)
    | .return (some e) =>
      match execExpr env checks e m with
      | (some v, m) => some (.return (some v), m)
      | (none, m) => some (.handler, m)
    | .throw e =>
      match execExpr env checks e m with
      | (some v, m) => some (.handler, { m with pending := some (env.toString v) })
      | (none, m) => some (.handler, m)
    | .break => some (.breakTarget, m)
    | .continue => some (.continueTarget, m)
    | .block statements => execAll (exec fuel) statements m
    | .if condition thenBranch elseBranch =>
      match execExpr env checks condition m with
      | (some v, m) =>
        if env.isTrue v then exec fuel thenBranch m
        else
          match elseBranch with
          | some s => exec fuel s m
          | none => some (.fallThrough, m)
      | (none, m) => some (.handler, m)
    | .loop true condition body update =>
      match condition with
      | none => exec fuel (.loop false condition body update) m
      | some e =>
        match execExpr env checks e m with
        | (some v, m) =>
          if env.isTrue v then exec fuel (.loop false condition body update) m
          else some (.fallThrough, m)
        | (none, m) => some (.handler, m)
    | .loop false condition body update =>
      match exec fuel body m with
      | some (.fallThrough, m) | some (.continueTarget, m) =>
        match update with
        | none => exec fuel (.loop true condition body update) m
        | some e =>
          match execExpr env checks e m with
          | (some _, m) => exec fuel (.loop true condition body update) m
          | (none, m) => some (.handler, m)
      | some (.breakTarget, m) => some (.fallThrough, m)
      | r => r
    | .try site tryBlock handler finallyBlock =>
      if handler.isNone && finallyBlock.isNone then exec fuel tryBlock m
      else
        match exec fuel tryBlock m with
        | some (.fallThrough, m) =>
          -- normal completion clears the slot
          execFinally (exec fuel) site finallyBlock { m with pending := none }
        | some (.handler, m) =>
          match handler with
          | some (var, catchBlock) =>
            match exec fuel catchBlock ⟨none, m.world.caught env site var (m.pending.getD "")⟩ with
            | some (.fallThrough, m) => execFinally (exec fuel) site finallyBlock m
            | r => r
          | none => execFinally (exec fuel) site finallyBlock m
        | r => r

/-! ### The ways the emitted code follows -/

/-- While an exception is pending, no call is made; and no call throws that is not followed by a check. -/
def MeetsExpr (pending : Bool) : Expr → World σ → Prop
  | .plain _, _ => True
  | .call id always, w =>
    pending = false ∧ ((checks || always) = false → (env.call id none w.state).2.1 = none)
  | .seq first second, w =>
    MeetsExpr pending first w ∧ ∀ v w', evalExpr env first w = (.ok v, w') → MeetsExpr pending second w'
  | .choice test first second, w =>
    MeetsExpr pending test w ∧ ∀ v w', evalExpr env test w = (.ok v, w') →
      (env.isTrue v = true → MeetsExpr pending first w') ∧ (env.isTrue v = false → MeetsExpr pending second w')

def MeetsAll (f : Stmt → World σ → Option (Completion ν × World σ)) (meets : Stmt → World σ → Prop) :
    List Stmt → World σ → Prop
  | [], _ => True
  | s :: rest, w => meets s w ∧ ∀ w', f s w = some (.normal, w') → MeetsAll f meets rest w'

/-- A `finally` block that is entered with an exception pending ends normally or throws. -/
def MeetsFinally (f : Stmt → World σ → Option (Completion ν × World σ))
    (meets : Bool → Stmt → World σ → Prop) (pending : Bool) (site : ℕ) (finallyBlock : Option Stmt)
    (w : World σ) : Prop :=
  ∀ body, finallyBlock = some body → meets pending body (w.log (.finallyStart site)) ∧
    (pending = true → ∀ c w', f body (w.log (.finallyStart site)) = some (c, w') →
      c = .normal ∨ ∃ m, c = .thrown m)

/-- The run leaves no statement that has a `finally` block by `return`, `break` or `continue` or by an
exception out of its catch block; as long as an exception is pending in a `finally` block, no call is
made, no statement with handlers is entered and the block is not left by a jump; and no call throws that
is not followed by a check. -/
def Meets : ℕ → Bool → Stmt → World σ → Prop
  | 0, _, _, _ => True
  | fuel + 1, pending, stmt, w =>
    match stmt with
    | .expression e | .throw e | .return (some e) => MeetsExpr env checks pending e w
    | .return none | .break | .continue => True
    | .block statements => MeetsAll (eval env fuel) (Meets fuel pending) statements w
    | .if condition thenBranch elseBranch =>
      MeetsExpr env checks pending condition w ∧ ∀ v w', evalExpr env condition w = (.ok v, w') →
        (env.isTrue v = true → Meets fuel pending thenBranch w') ∧
        (env.isTrue v = false → ∀ s, elseBranch = some s → Meets fuel pending s w')
    | .loop true condition body update =>
      match condition with
      | none => Meets fuel pending (.loop false none body update) w
      | some e =>
        MeetsExpr env checks pending e w ∧ ∀ v w', evalExpr env e w = (.ok v, w') → env.isTrue v = true →
          Meets fuel pending (.loop false (some e) body update) w'
    | .loop false condition body update =>
      Meets fuel pending body w ∧ ∀ c w', eval env fuel body w = some (c, w') →
        c = .normal ∨ c = .continued →
        match update with
        | none => Meets fuel pending (.loop true condition body none) w'
        | some e =>
          MeetsExpr env checks pending e w' ∧ ∀ v w'', evalExpr env e w' = (.ok v, w'') →
            Meets fuel pending (.loop true condition body (some e)) w''
    | .try site tryBlock handler finallyBlock =>
      if handler.isNone && finallyBlock.isNone then Meets fuel pending tryBlock w
      else
        pending = false ∧ Meets fuel false tryBlock w ∧
        ∀ c w', eval env fuel tryBlock w = some (c, w') →
          match c with
          | .normal => MeetsFinally (eval env fuel) (Meets fuel) false site finallyBlock w'
          | .thrown m =>
            match handler with
            | none => MeetsFinally (eval env fuel) (Meets fuel) true site finallyBlock w'
            | some (var, catchBlock) =>
              Meets fuel false catchBlock (w'.caught env site var m) ∧
              ∀ c w'', eval env fuel catchBlock (w'.caught env site var m) = some (c, w'') →
                (finallyBlock ≠ none → c = .normal) ∧
                MeetsFinally (eval env fuel) (Meets fuel) false site finallyBlock w''
          | _ => finallyBlock = none

/-- How the emitted code shows the end of a statement that was entered with `pending` in the slot. -/
def encode (pending : Option String) : Completion ν × World σ → Branch ν × Machine σ
  | (.normal, w) => (.fallThrough, ⟨pending, w⟩)
  | (.thrown m, w) => (.handler, ⟨some m, w⟩)
  | (.returned v, w) => (.return v, ⟨pending, w⟩)
  | (.broke, w) => (.breakTarget, ⟨pending, w⟩)
  | (.continued, w) => (.continueTarget, ⟨pending, w⟩)

theorem execExpr_eq {p : Option String} {e : Expr} {w : World σ} (h : MeetsExpr env checks p.isSome e w) :
    execExpr env checks e ⟨p, w⟩ =
      match evalExpr env e w with
      | (.ok v, w) => (some v, ⟨p, w⟩)
      | (.error m, w) => (none, ⟨some m, w⟩) := by
  induction e generalizing w with
  | plain id => rcases hr : env.plain id w.state with ⟨s, m | v⟩ <;> simp [execExpr, evalExpr, hr]
  | call id always =>
    obtain ⟨hpending, hseen⟩ := h
    obtain rfl : p = none := by simpa using hpending
    rcases hr : env.call id none w.state with ⟨s, _ | m, v⟩
    · simp [execExpr, evalExpr, hr]
    · have hcheck : (checks || always) = true := by
        cases hcheck : checks || always with
        | true => rfl
        | false =>
          have hnone := hseen hcheck
          rw [hr] at hnone
          cases hnone
      simp [execExpr, evalExpr, hr, hcheck]
  | seq first second ihFirst ihSecond =>
    obtain ⟨hfirst, hsecond⟩ := h
    simp only [execExpr, evalExpr, ihFirst hfirst]
    rcases hr : evalExpr env first w with ⟨m | v, w'⟩
    · rfl
    · exact ihSecond (hsecond v w' hr)
  | choice test first second ihTest ihFirst ihSecond =>
    obtain ⟨htest, hbranch⟩ := h
    simp only [execExpr, evalExpr, ihTest htest]
    rcases hr : evalExpr env test w with ⟨m | v, w'⟩
    · rfl
    · obtain ⟨hfirst, hsecond⟩ := hbranch v w' hr
      cases htrue : env.isTrue v with
      | true => simpa only [htrue, if_true] using ihFirst (hfirst htrue)
      | false => simpa only [htrue, Bool.false_eq_true, if_false] using ihSecond (hsecond htrue)

variable {f : Stmt → World σ → Option (Completion ν × World σ)}
  {g : Stmt → Machine σ → Option (Branch ν × Machine σ)}

theorem execAll_eq {meets : Stmt → World σ → Prop}
    {p : Option String} (hfg : ∀ s w, meets s w → g s ⟨p, w⟩ = (f s w).map (encode p))
    (statements : List Stmt) (w : World σ) (h : MeetsAll f meets statements w) :
    execAll g statements ⟨p, w⟩ = (evalAll f statements w).map (encode p) := by
  induction statements generalizing w with
  | nil => rfl
  | cons s rest ih =>
    obtain ⟨hs, hrest⟩ := h
    simp only [execAll, evalAll, hfg s w hs]
    cases hf : f s w with
    | none => rfl
    | some r =>
      obtain ⟨c, w'⟩ := r
      cases c with
      | normal => exact ih w' (hrest w' hf)
      | thrown | returned | broke | continued => rfl

variable {meets : Bool → Stmt → World σ → Prop}

/-- After a normal end, or a caught exception, the `finally` block runs with an empty slot. -/
theorem execFinally_eq (hfg : ∀ p s w, meets p.isSome s w → g s ⟨p, w⟩ = (f s w).map (encode p))
    (site : ℕ) (finallyBlock : Option Stmt) (w : World σ)
    (h : MeetsFinally f meets false site finallyBlock w) :
    execFinally g site finallyBlock ⟨none, w⟩ =
      (evalFinally f site finallyBlock .normal w).map (encode none) := by
  cases finallyBlock with
  | none => rfl
  | some body =>
    obtain ⟨hbody, -⟩ := h body rfl
    simp only [execFinally, evalFinally, hfg none body _ hbody]
    cases hf : f body (w.log (.finallyStart site)) with
    | none => rfl
    | some r =>
      obtain ⟨c, w'⟩ := r
      cases c <;> rfl

/-- With an exception pending it ends in the rethrow block, or in an exception of its own. -/
theorem execFinally_pending (hfg : ∀ p s w, meets p.isSome s w → g s ⟨p, w⟩ = (f s w).map (encode p))
    (site : ℕ) (body : Stmt) (m : String) (w : World σ)
    (h : MeetsFinally f meets true site (some body) w) (p : Option String) :
    execFinally g site (some body) ⟨some m, w⟩ =
      (evalFinally f site (some body) (.thrown m) w).map (encode p) := by
  obtain ⟨hbody, hends⟩ := h body rfl
  simp only [execFinally, evalFinally, hfg (some m) body _ hbody]
  cases hf : f body (w.log (.finallyStart site)) with
  | none => rfl
  | some r =>
    obtain ⟨c, w'⟩ := r
    rcases hends rfl c w' hf with rfl | ⟨m', rfl⟩
    · rfl
    · rfl

/-- A catch block, with the `finally` block that follows it. -/
theorem exec_catch_eq (hfg : ∀ p s w, meets p.isSome s w → g s ⟨p, w⟩ = (f s w).map (encode p))
    (site : ℕ) {catchBlock : Stmt} (finallyBlock : Option Stmt) (w : World σ)
    (h : meets false catchBlock w ∧ ∀ c w', f catchBlock w = some (c, w') →
      (finallyBlock ≠ none → c = .normal) ∧ MeetsFinally f meets false site finallyBlock w') :
    (match g catchBlock ⟨none, w⟩ with
      | some (.fallThrough, m) => execFinally g site finallyBlock m
      | r => r) =
      (match f catchBlock w with
        | none => none
        | some (c, w) => evalFinally f site finallyBlock c w).map (encode none) := by
  obtain ⟨hcatch, hafter⟩ := h
  rw [hfg none catchBlock w hcatch]
  rcases hc : f catchBlock w with _ | ⟨c, w'⟩
  · rfl
  obtain ⟨hnormal, hfinally⟩ := hafter c w' hc
  cases finallyBlock with
  | none => cases c <;> rfl
  | some body =>
    obtain rfl := hnormal (Option.some_ne_none body)
    exact execFinally_eq hfg site (some body) w' hfinally

/-- A run that meets the conditions does what the language promises. -/
theorem exec_eq_eval_of_meets (fuel : ℕ) (p : Option String) (stmt : Stmt) (w : World σ)
    (h : Meets env checks fuel p.isSome stmt w) :
    exec env checks fuel stmt ⟨p, w⟩ = (eval env fuel stmt w).map (encode p) := by
  induction fuel generalizing p stmt w with
  | zero => rfl
  | succ fuel ih =>
    cases stmt with
    | expression e =>
      have he := execExpr_eq env checks h
      simp only [exec, eval, he]
      rcases evalExpr env e w with ⟨_ | v, w'⟩ <;> rfl
    | throw e =>
      have he := execExpr_eq env checks h
      simp only [exec, eval, he]
      rcases evalExpr env e w with ⟨_ | v, w'⟩ <;> rfl
    | «return» e =>
      cases e with
      | none => rfl
      | some e =>
        have he := execExpr_eq env checks h
        simp only [exec, eval, he]
        rcases evalExpr env e w with ⟨_ | v, w'⟩ <;> rfl
    | «break» => rfl
    | «continue» => rfl
    | block statements => exact execAll_eq (fun s w hs => ih p s w hs) statements w h
    | «if» condition thenBranch elseBranch =>
      obtain ⟨hcond, hbranch⟩ := h
      have he := execExpr_eq env checks hcond
      simp only [exec, eval, he]
      rcases hv : evalExpr env condition w with ⟨_ | v, w'⟩
      · rfl
      · obtain ⟨hthen, helse⟩ := hbranch v w' hv
        cases htrue : env.isTrue v with
        | true => simpa only [htrue, if_true] using ih p thenBranch w' (hthen htrue)
        | false =>
          cases elseBranch with
          | none => simp [htrue, encode]
          | some s => simpa [htrue] using ih p s w' (helse htrue s rfl)
    | loop testFirst condition body update =>
      cases testFirst with
      | true =>
        cases condition with
        | none => exact ih p _ w h
        | some e =>
          obtain ⟨hcond, hnext⟩ := h
          have he := execExpr_eq env checks hcond
          simp only [exec, eval, he]
          rcases hv : evalExpr env e w with ⟨_ | v, w'⟩
          · rfl
          · cases htrue : env.isTrue v with
            | true => simpa [htrue] using ih p _ w' (hnext v w' hv htrue)
            | false => simp [htrue, encode]
      | false =>
        obtain ⟨hbody, hnext⟩ := h
        have hupdate : ∀ c w', eval env fuel body w = some (c, w') → c = .normal ∨ c = .continued →
            (match update with
              | none => exec env checks fuel (.loop true condition body update) ⟨p, w'⟩
              | some e =>
                match execExpr env checks e ⟨p, w'⟩ with
                | (some _, m) => exec env checks fuel (.loop true condition body update) m
                | (none, m) => some (.handler, m)) =
              (match update with
                | none => eval env fuel (.loop true condition body update) w'
                | some e =>
                  match evalExpr env e w' with
                  | (.ok _, w) => eval env fuel (.loop true condition body update) w
                  | (.error m, w) => some (.thrown m, w)).map (encode p) := by
          intro c w' hc hgo
          have hmeets := hnext c w' hc hgo
          cases update with
          | none => exact ih p _ w' hmeets
          | some e =>
            obtain ⟨hexpr, hloop⟩ := hmeets
            simp only [execExpr_eq env checks hexpr]
            rcases hv : evalExpr env e w' with ⟨_ | v, w''⟩
            · rfl
            · exact ih p _ w'' (hloop v w'' hv)
        simp only [exec, eval, ih p body w hbody]
        rcases hb : eval env fuel body w with _ | ⟨c, w'⟩
        · rfl
        cases c with
        | normal => exact hupdate _ w' hb (Or.inl rfl)
        | continued => exact hupdate _ w' hb (Or.inr rfl)
        | broke | thrown | returned => rfl
    | «try» site tryBlock handler finallyBlock =>
      cases hplain : handler.isNone && finallyBlock.isNone with
      | true =>
        obtain ⟨rfl, rfl⟩ : handler = none ∧ finallyBlock = none := by simpa using hplain
        have hbody := ih p tryBlock w h
        simp only [exec, eval, evalFinally, hplain, if_true, hbody]
        rcases eval env fuel tryBlock w with _ | ⟨c, w'⟩
        · rfl
        · cases c <;> rfl
      | false =>
        simp only [Meets, hplain, Bool.false_eq_true, if_false] at h
        obtain ⟨hpend, hbody, hnext⟩ := h
        obtain rfl : p = none := by simpa using hpend
        simp only [exec, eval, hplain, Bool.false_eq_true, if_false, ih none tryBlock w hbody]
        rcases hb : eval env fuel tryBlock w with _ | ⟨c, w'⟩
        · rfl
        have hmeets := hnext c w' hb
        cases c with
        | normal => exact execFinally_eq ih site finallyBlock w' hmeets
        | returned | broke | continued =>
          have hnone : finallyBlock = none := hmeets
          subst hnone
          rfl
        | thrown m =>
          cases handler with
          | none =>
            cases finallyBlock with
            | none => cases hplain
            | some body => exact execFinally_pending ih site body m w' hmeets none
          | some handler =>
            obtain ⟨var, catchBlock⟩ := handler
            exact exec_catch_eq ih site finallyBlock _ hmeets

end

/-- Expressions have no effect and one value. -/
def quietEnv : Env Unit Unit where
  plain _ s := (s, .ok ())
  call _ _ s := (s, none, ())
  isTrue _ := true
  toString _ := "thrown"
  bind _ _ s := s

/-- `try { throw e } finally { f }` -/
def throwInTry : Stmt := .try 0 (.throw (.plain 0)) none (some (.expression (.plain 1)))

/-- `try { return } finally { f }` -/
def returnInTry : Stmt := .try 0 (.return none) none (some (.expression (.plain 1)))

end Neutron.TryCatch
