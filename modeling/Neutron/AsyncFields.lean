import Mathlib.Data.List.Nodup
import Neutron.AsyncSegments

/-!
# Fields of a future

`build_async_layout` gives the variables of an async body the fields of its future, in one map
from names that also holds the entries `state` and `result`. Code generation stores a variable
in the field of its name; the variable of a `catch` clause alone gets a stack slot.
-/

namespace Neutron.AsyncFields
open Syntax AsyncSegments

/-! ### The layout -/

/-- `fields`, with the length of `field_names`. -/
structure FieldTable where
  fields : Name → Option ℕ
  count : ℕ

namespace FieldTable

def insert (t : FieldTable) (x : Name) : FieldTable :=
  ⟨Function.update t.fields x (some t.count), t.count + 1⟩

/-- `add` of `collect_async_locals`: a name that has a field keeps it. -/
def add (t : FieldTable) (x : Name) : FieldTable :=
  if (t.fields x).isSome then t else t.insert x

end FieldTable

mutual
/-- `collect_async_locals`. -/
def collectAsyncLocals : Stmt → FieldTable → FieldTable
  | .var x _ _ _ _ _, t => t.add x
  | .destructure names _ _, t => names.foldl FieldTable.add t
  | .each _ x _ _ body, t => collectAsyncLocals body (t.add x)
  | .block statements, t => collectAll statements t
  | .ifThen _ thenBranch elifs none, t => collectElifs elifs (collectAsyncLocals thenBranch t)
  | .ifThen _ thenBranch elifs (some elseBranch), t =>
    collectAsyncLocals elseBranch (collectElifs elifs (collectAsyncLocals thenBranch t))
  | .while _ body, t => collectAsyncLocals body t
  | .doWhile body _, t => collectAsyncLocals body t
  | .retry _ body _, t => collectAsyncLocals body t
  | .within _ body, t => collectAsyncLocals body t
  | .for none _ _ body, t => collectAsyncLocals body t
  | .for (some init) _ _ body, t => collectAsyncLocals body (collectAsyncLocals init t)
  | .match _ cases none, t => collectCases cases t
  | .match _ cases (some defaultCase), t => collectAsyncLocals defaultCase (collectCases cases t)
  | .tryCatch body none none, t => collectAsyncLocals body t
  | .tryCatch body (some (.mk _ handler)) none, t =>
    collectAsyncLocals handler (collectAsyncLocals body t)
  | .tryCatch body none (some last), t => collectAsyncLocals last (collectAsyncLocals body t)
  | .tryCatch body (some (.mk _ handler)) (some last), t =>
    collectAsyncLocals last (collectAsyncLocals handler (collectAsyncLocals body t))
  | .expression (.chanRecv receiver _ _), t => t.add receiver
  | _, t => t
def collectAll : List Stmt → FieldTable → FieldTable
  | [], t => t
  | s :: rest, t => collectAll rest (collectAsyncLocals s t)
def collectElifs : List ElifBranch → FieldTable → FieldTable
  | [], t => t
  | .mk _ body :: rest, t => collectElifs rest (collectAsyncLocals body t)
def collectCases : List MatchCase → FieldTable → FieldTable
  | [], t => t
  | .mk _ _ _ _ body :: rest, t => collectCases rest (collectAsyncLocals body t)
end

/-- The state index and the parameters. -/
def paramFields (params : List Name) : FieldTable :=
  params.foldl FieldTable.insert (FieldTable.insert ⟨fun _ => none, 0⟩ "state")

def resultIndex (params : List Name) : ℕ := (paramFields params).count

/-- The fields of `build_async_layout`. -/
def layoutFields (params : List Name) (body : List Stmt) : FieldTable :=
  collectAll (flattenTopLevelBlocks body) ((paramFields params).insert "result")

/-! ### The variables of a body -/

/-- A variable that code generation stores under its name; `collected` is false for those that
`collect_async_locals` passes by: the binder of a match arm, and the variable and the locals of
the `catch` clause of a `retry`. -/
structure Binding where
  name : Name
  collected : Bool
  deriving DecidableEq

def local_ (x : Name) : Binding := ⟨x, true⟩

def passedBy (names : List Name) : List Binding := names.map (⟨·, false⟩)

mutual
def bindings : Stmt → List Binding
  | .var x _ _ _ _ _ => [local_ x]
  | .destructure names _ _ => names.map local_
  | .each _ x _ _ body => local_ x :: bindings body
  | .block statements => bindingsAll statements
  | .ifThen _ thenBranch elifs none => bindings thenBranch ++ bindingsElifs elifs
  | .ifThen _ thenBranch elifs (some elseBranch) =>
    bindings thenBranch ++ bindingsElifs elifs ++ bindings elseBranch
  | .while _ body => bindings body
  | .doWhile body _ => bindings body
  | .retry _ body none => bindings body
  | .retry _ body (some (.mk x handler)) =>
    bindings body ++ passedBy (x :: (bindings handler).map Binding.name)
  | .within _ body => bindings body
  | .for none _ _ body => bindings body
  | .for (some init) _ _ body => bindings init ++ bindings body
  | .match _ cases none => bindingsCases cases
  | .match _ cases (some defaultCase) => bindingsCases cases ++ bindings defaultCase
  | .tryCatch body none none => bindings body
  | .tryCatch body (some (.mk _ handler)) none => bindings body ++ bindings handler
  | .tryCatch body none (some last) => bindings body ++ bindings last
  | .tryCatch body (some (.mk _ handler)) (some last) =>
    bindings body ++ bindings handler ++ bindings last
  | .expression (.chanRecv receiver _ _) => [local_ receiver]
  | _ => []
def bindingsAll : List Stmt → List Binding
  | [] => []
  | s :: rest => bindings s ++ bindingsAll rest
def bindingsElifs : List ElifBranch → List Binding
  | [] => []
  | .mk _ body :: rest => bindings body ++ bindingsElifs rest
def bindingsCases : List MatchCase → List Binding
  | [] => []
  | .mk _ _ binding _ body :: rest => passedBy binding.toList ++ bindings body ++ bindingsCases rest
end

/-! ### Names at code generation -/

inductive Slot where
  | field (index : ℕ)
  | stack
  deriving DecidableEq

/-- What lexical scoping selects for a name: a variable stored in a field, or that of a `catch`
clause. -/
inductive Owner where
  | stored
  | caught
  deriving DecidableEq

abbrev Scope := Name → Option Owner

abbrev Variables := Name → Option Slot

def Scope.declare (sc : Scope) (names : List Name) : Scope :=
  fun x => if x ∈ names then some .stored else sc x

def Scope.catching (sc : Scope) (x : Name) : Scope := Function.update sc x (some .caught)

def Variables.catching (v : Variables) (x : Name) : Variables := Function.update v x (some .stack)

section
variable (t : FieldTable)

/-- `alloca` and `define_var` in a poll function. -/
def place (v : Variables) (x : Name) : Variables :=
  Function.update v x ((t.fields x).map .field)

/-- The variables a segment starts with. -/
def segmentVariables : Variables := fun x =>
  if x = "state" ∨ x = "result" then none else (t.fields x).map .field

mutual
/-- The names a statement leaves in scope. A block, a `for` and a `catch` clause open a scope of their
own; a body without braces does not. -/
def declared : Stmt → List Name
  | .var x _ _ _ _ _ => [x]
  | .destructure names _ _ => names
  | .expression (.chanRecv receiver _ _) => [receiver]
  | .ifThen _ thenBranch elifs none => declared thenBranch ++ declaredElifs elifs
  | .ifThen _ thenBranch elifs (some elseBranch) =>
    declared thenBranch ++ declaredElifs elifs ++ declared elseBranch
  | .while _ body => declared body
  | .doWhile body _ => declared body
  | .within _ body => declared body
  | .match _ cases none => declaredCases cases
  | .match _ cases (some defaultCase) => declaredCases cases ++ declared defaultCase
  | .tryCatch body _ none => declared body
  | .tryCatch body _ (some last) => declared body ++ declared last
  | .retry _ body _ => declared body
  | _ => []
def declaredElifs : List ElifBranch → List Name
  | [] => []
  | .mk _ body :: rest => declared body ++ declaredElifs rest
def declaredCases : List MatchCase → List Name
  | [] => []
  | .mk _ none _ _ body :: rest => declared body ++ declaredCases rest
  | .mk _ (some _) _ _ _ :: rest => declaredCases rest
end

mutual
/-- The variables after a statement is emitted. A block puts back what it found; the clause of a
`try` leaves its variable behind. No code is emitted for an arm with a variant pattern. -/
def variablesAfter : Stmt → Variables → Variables
  | .var x _ _ _ _ _, v => place t v x
  | .destructure names _ _, v => names.foldl (place t) v
  | .expression (.chanRecv receiver _ _), v => place t v receiver
  | .ifThen _ thenBranch elifs none, v => variablesElifs elifs (variablesAfter thenBranch v)
  | .ifThen _ thenBranch elifs (some elseBranch), v =>
    variablesAfter elseBranch (variablesElifs elifs (variablesAfter thenBranch v))
  | .while _ body, v => variablesAfter body v
  | .doWhile body _, v => variablesAfter body v
  | .within _ body, v => variablesAfter body v
  | .each _ x _ _ body, v => variablesAfter body (place t v x)
  | .for none _ _ body, v => variablesAfter body v
  | .for (some init) _ _ body, v => variablesAfter body (variablesAfter init v)
  | .match _ cases none, v => variablesCases cases v
  | .match _ cases (some defaultCase), v => variablesAfter defaultCase (variablesCases cases v)
  | .tryCatch body none none, v => variablesAfter body v
  | .tryCatch body (some (.mk x handler)) none, v =>
    variablesAfter handler ((variablesAfter body v).catching x)
  | .tryCatch body none (some last), v => variablesAfter last (variablesAfter body v)
  | .tryCatch body (some (.mk x handler)) (some last), v =>
    variablesAfter last (variablesAfter handler ((variablesAfter body v).catching x))
  | .retry _ body none, v => variablesAfter body v
  | .retry _ body (some (.mk x handler)), v =>
    variablesAfter handler (place t (variablesAfter body v) x)
  | _, v => v
def variablesElifs : List ElifBranch → Variables → Variables
  | [], v => v
  | .mk _ body :: rest, v => variablesElifs rest (variablesAfter body v)
def variablesCases : List MatchCase → Variables → Variables
  | [], v => v
  | .mk _ none _ _ body :: rest, v => variablesCases rest (variablesAfter body v)
  | .mk _ (some _) _ _ _ :: rest, v => variablesCases rest v
end

/-- A point between two statements, where a name may be read, a `catch` clause, or an arm with a variant
pattern: code generation refuses a function that has one. -/
inductive Event where
  | point (sc : Scope) (v : Variables)
  | caught (x : Name) (sc : Scope)
  | refused

/-- The events of a statement, from those inside it. -/
def framed (s : Stmt) (sc : Scope) (v : Variables) (inside : List Event) : List Event :=
  .point sc v :: inside ++ [.point (sc.declare (declared s)) (variablesAfter t s v)]

mutual
/-- The events inside a statement, in the order of emission. -/
def inner : Stmt → Scope → Variables → List Event
  | .block statements, sc, v => innerAll statements sc v
  | .ifThen _ thenBranch elifs none, sc, v =>
    framed t thenBranch sc v (inner thenBranch sc v) ++
      innerElifs elifs (sc.declare (declared thenBranch)) (variablesAfter t thenBranch v)
  | .ifThen _ thenBranch elifs (some elseBranch), sc, v =>
    framed t thenBranch sc v (inner thenBranch sc v) ++
      innerElifs elifs (sc.declare (declared thenBranch)) (variablesAfter t thenBranch v) ++
      let sc' := sc.declare (declared thenBranch ++ declaredElifs elifs)
      let v' := variablesElifs t elifs (variablesAfter t thenBranch v)
      framed t elseBranch sc' v' (inner elseBranch sc' v')
  | .while _ body, sc, v => framed t body sc v (inner body sc v)
  | .doWhile body _, sc, v => framed t body sc v (inner body sc v)
  | .within _ body, sc, v => framed t body sc v (inner body sc v)
  | .each _ x _ _ body, sc, v =>
    framed t body (sc.declare [x]) (place t v x) (inner body (sc.declare [x]) (place t v x))
  | .for none _ _ body, sc, v => framed t body sc v (inner body sc v)
  | .for (some init) _ _ body, sc, v =>
    framed t init sc v (inner init sc v) ++
      let sc' := sc.declare (declared init)
      let v' := variablesAfter t init v
      framed t body sc' v' (inner body sc' v')
  | .match _ cases none, sc, v => innerCases cases sc v
  | .match _ cases (some defaultCase), sc, v =>
    innerCases cases sc v ++
      let sc' := sc.declare (declaredCases cases)
      let v' := variablesCases t cases v
      framed t defaultCase sc' v' (inner defaultCase sc' v')
  | .tryCatch body none none, sc, v => framed t body sc v (inner body sc v)
  | .tryCatch body (some (.mk x handler)) none, sc, v =>
    let sc' := sc.declare (declared body)
    framed t body sc v (inner body sc v) ++ .caught x sc' ::
      let v' := (variablesAfter t body v).catching x
      framed t handler (sc'.catching x) v' (inner handler (sc'.catching x) v')
  | .tryCatch body none (some last), sc, v =>
    framed t body sc v (inner body sc v) ++
      let sc' := sc.declare (declared body)
      let v' := variablesAfter t body v
      framed t last sc' v' (inner last sc' v')
  | .tryCatch body (some (.mk x handler)) (some last), sc, v =>
    let sc' := sc.declare (declared body)
    framed t body sc v (inner body sc v) ++ .caught x sc' ::
      let v' := (variablesAfter t body v).catching x
      framed t handler (sc'.catching x) v' (inner handler (sc'.catching x) v') ++
        let w := variablesAfter t handler v'
        framed t last sc' w (inner last sc' w)
  | .retry _ body none, sc, v => framed t body sc v (inner body sc v)
  | .retry _ body (some (.mk x handler)), sc, v =>
    framed t body sc v (inner body sc v) ++
      let sc' := (sc.declare (declared body)).declare [x]
      let v' := place t (variablesAfter t body v) x
      framed t handler sc' v' (inner handler sc' v')
  | _, _, _ => []
def innerAll : List Stmt → Scope → Variables → List Event
  | [], _, _ => []
  | s :: rest, sc, v =>
    framed t s sc v (inner s sc v) ++
      innerAll rest (sc.declare (declared s)) (variablesAfter t s v)
def innerElifs : List ElifBranch → Scope → Variables → List Event
  | [], _, _ => []
  | .mk _ body :: rest, sc, v =>
    framed t body sc v (inner body sc v) ++
      innerElifs rest (sc.declare (declared body)) (variablesAfter t body v)
def innerCases : List MatchCase → Scope → Variables → List Event
  | [], _, _ => []
  | .mk _ none _ _ body :: rest, sc, v =>
    framed t body sc v (inner body sc v) ++
      innerCases rest (sc.declare (declared body)) (variablesAfter t body v)
  | .mk _ (some _) _ _ _ :: rest, sc, v => .refused :: innerCases rest sc v
end

/-- The variables a top-level statement is emitted with: a suspension starts a segment. -/
def entering (s : Stmt) (v : Variables) : Variables :=
  if suspends s then segmentVariables t else v

/-- The variables after the statements of a body; a top-level block is flattened. -/
def bodyVariables : List Stmt → Variables → Variables
  | [], v => v
  | .block statements :: rest, v => bodyVariables rest (bodyVariables statements v)
  | s :: rest, v => bodyVariables rest (variablesAfter t s (entering t s v))

def bodyEvents : List Stmt → Scope → Variables → List Event
  | [], sc, v => [.point sc v]
  | .block statements :: rest, sc, v =>
    bodyEvents statements sc v ++ bodyEvents rest sc (bodyVariables t statements v)
  | s :: rest, sc, v =>
    .point sc v :: framed t s sc (entering t s v) (inner t s sc (entering t s v)) ++
      bodyEvents rest (sc.declare (declared s)) (variablesAfter t s (entering t s v))

end

/-- The variables of an async function: its parameters, then those of its body. -/
def allBindings (params : List Name) (body : List Stmt) : List Binding :=
  params.map local_ ++ bindingsAll body

def events (params : List Name) (body : List Stmt) : List Event :=
  bodyEvents (layoutFields params body) body (Scope.declare (fun _ => none) params)
    (segmentVariables (layoutFields params body))

/-- A read resolves to the field of the variable that scoping selects. -/
def Event.Resolves (t : FieldTable) : Event → Prop
  | .point sc v => ∀ x, sc x = some .stored → v x = (t.fields x).map .field
  | .caught _ _ => True
  | .refused => True

/-- A `catch` clause does not hide a stored variable. -/
def Event.Clear : Event → Prop
  | .point _ _ => True
  | .caught x sc => sc x ≠ some .stored
  | .refused => True

/-- Code is emitted for the function. -/
def Emitted (params : List Name) (body : List Stmt) : Prop := .refused ∉ events params body

/-- Every variable of the function keeps its own storage. -/
structure OwnStorage (params : List Name) (body : List Stmt) : Prop where
  stored : ∀ b ∈ allBindings params body, ((layoutFields params body).fields b.name).isSome
  apart : (allBindings params body).Pairwise fun b c =>
    (layoutFields params body).fields b.name ≠ (layoutFields params body).fields c.name
  notState : ∀ b ∈ allBindings params body, (layoutFields params body).fields b.name ≠ some 0
  notResult : ∀ b ∈ allBindings params body,
    (layoutFields params body).fields b.name ≠ some (resultIndex params)
  reads : Emitted params body → ∀ event ∈ events params body, event.Resolves (layoutFields params body)

/-- Names are bound once and none is reserved, no match arm and no `retry` binds a name, and, where
code is emitted, no `catch` clause hides a variable in scope. -/
structure Separate (params : List Name) (body : List Stmt) : Prop where
  once : ((allBindings params body).map Binding.name).Nodup
  free : ∀ b ∈ allBindings params body, b.name ≠ "result" ∧
    (b.name ∈ params ∧ ¬Emitted params body ∨ b.name ≠ "state")
  collected : ∀ b ∈ allBindings params body, b.collected = true
  clear : Emitted params body → ∀ event ∈ events params body, event.Clear

/-! ### The table -/

/-- Different names have different fields. -/
structure FieldTable.Wf (t : FieldTable) : Prop where
  bound : ∀ {x i}, t.fields x = some i → i < t.count
  injective : ∀ {x y i}, t.fields x = some i → t.fields y = some i → x = y

/-- A table that has grown by some names. -/
structure Grown (names : List Name) (t t' : FieldTable) : Prop where
  wf : t.Wf → t'.Wf
  keeps : ∀ {x i}, t.fields x = some i → t'.fields x = some i
  count_le : t.count ≤ t'.count
  old : ∀ {x i}, t'.fields x = some i → i < t.count → t.fields x = some i
  domain : ∀ x, (t'.fields x).isSome ↔ (t.fields x).isSome ∨ x ∈ names

theorem FieldTable.Wf.insert {t : FieldTable} (h : t.Wf) (x : Name) : (t.insert x).Wf where
  bound := by
    intro y i hy
    simp only [FieldTable.insert, Function.update_apply] at hy ⊢
    split at hy
    · have := Option.some.inj hy
      omega
    · have := h.bound hy
      omega
  injective := by
    intro y z i hy hz
    simp only [FieldTable.insert, Function.update_apply] at hy hz
    split at hy
    · split at hz
      · rw [‹y = x›, ‹z = x›]
      · have hi := Option.some.inj hy
        have := h.bound hz
        omega
    · split at hz
      · have hi := Option.some.inj hz
        have := h.bound hy
        omega
      · exact h.injective hy hz

theorem FieldTable.isSome_insert (t : FieldTable) (x y : Name) :
    ((t.insert x).fields y).isSome ↔ (t.fields y).isSome ∨ y = x := by
  simp only [FieldTable.insert, Function.update_apply]
  split
  · simp [*]
  · simp [*]

theorem Grown.refl (t : FieldTable) : Grown [] t t where
  wf := id
  keeps := id
  count_le := Nat.le_refl _
  old h _ := h
  domain := by simp

theorem Grown.trans {a b : List Name} {t₁ t₂ t₃ : FieldTable} (h : Grown a t₁ t₂)
    (h' : Grown b t₂ t₃) : Grown (a ++ b) t₁ t₃ where
  wf := h'.wf ∘ h.wf
  keeps := h'.keeps ∘ h.keeps
  count_le := Nat.le_trans h.count_le h'.count_le
  old hx hi := h.old (h'.old hx (Nat.lt_of_lt_of_le hi h.count_le)) hi
  domain x := by rw [h'.domain, h.domain, List.mem_append, or_assoc]

theorem Grown.add (t : FieldTable) (x : Name) : Grown [x] t (t.add x) := by
  unfold FieldTable.add
  split
  · rename_i hx
    refine ⟨id, id, Nat.le_refl _, fun h _ => h, fun y => ?_⟩
    rw [List.mem_singleton]
    constructor
    · exact .inl
    · rintro (h | rfl)
      · exact h
      · exact hx
  · rename_i hx
    refine ⟨fun h => h.insert x, ?_, Nat.le_succ _, ?_, fun y => ?_⟩
    · intro y i hy
      have hne : y ≠ x := by
        rintro rfl
        simp [hy] at hx
      simpa [FieldTable.insert, Function.update_apply, hne] using hy
    · intro y i hy hi
      by_cases hne : y = x
      · simp only [FieldTable.insert, Function.update_apply, hne, if_true, Option.some.injEq] at hy
        omega
      · simpa [FieldTable.insert, Function.update_apply, hne] using hy
    · rw [t.isSome_insert x y, List.mem_singleton]

theorem Grown.addAll (names : List Name) (t : FieldTable) :
    Grown names t (names.foldl FieldTable.add t) := by
  induction names generalizing t with
  | nil => exact Grown.refl t
  | cons x names ih => exact (Grown.add t x).trans (ih _)

/-- The names `collect_async_locals` gives a field. -/
def collectedNames (bs : List Binding) : List Name :=
  (bs.filter fun b => b.collected).map Binding.name

@[simp] theorem collectedNames_nil : collectedNames [] = [] := rfl

@[simp] theorem collectedNames_append (a b : List Binding) :
    collectedNames (a ++ b) = collectedNames a ++ collectedNames b := by
  simp [collectedNames]

@[simp] theorem collectedNames_local_cons (x : Name) (bs : List Binding) :
    collectedNames (local_ x :: bs) = x :: collectedNames bs := by
  simp [collectedNames, local_]

@[simp] theorem collectedNames_locals (names : List Name) :
    collectedNames (names.map local_) = names := by
  induction names with
  | nil => rfl
  | cons x names ih => rw [List.map_cons, collectedNames_local_cons, ih]

@[simp] theorem collectedNames_passedBy (names : List Name) : collectedNames (passedBy names) = [] := by
  simp [collectedNames, passedBy]

theorem Grown.append {a b : List Binding} {t t' t'' : FieldTable}
    (h : Grown (collectedNames a) t t') (h' : Grown (collectedNames b) t' t'') :
    Grown (collectedNames (a ++ b)) t t'' := by
  rw [collectedNames_append]
  exact h.trans h'

mutual
theorem grown_stmt (s : Stmt) (t : FieldTable) :
    Grown (collectedNames (bindings s)) t (collectAsyncLocals s t) := match s with
  | .var x _ _ _ _ _ => Grown.add t x
  | .destructure names _ _ => by
    change Grown (collectedNames (names.map local_)) t (names.foldl FieldTable.add t)
    rw [collectedNames_locals]
    exact Grown.addAll names t
  | .each _ x _ _ body => by
    change Grown (collectedNames (local_ x :: bindings body)) t (collectAsyncLocals body (t.add x))
    rw [collectedNames_local_cons]
    exact (Grown.add t x).trans (grown_stmt body _)
  | .block statements => grown_all statements t
  | .ifThen _ thenBranch elifs none =>
    (grown_stmt thenBranch t).append (grown_elifs elifs _)
  | .ifThen _ thenBranch elifs (some elseBranch) =>
    ((grown_stmt thenBranch t).append (grown_elifs elifs _)).append (grown_stmt elseBranch _)
  | .while _ body => grown_stmt body t
  | .doWhile body _ => grown_stmt body t
  | .retry _ body none => grown_stmt body t
  | .retry _ body (some (.mk x handler)) => by
    change Grown (collectedNames (bindings body ++
      passedBy (x :: (bindings handler).map Binding.name))) t (collectAsyncLocals body t)
    rw [collectedNames_append, collectedNames_passedBy, List.append_nil]
    exact grown_stmt body t
  | .within _ body => grown_stmt body t
  | .for none _ _ body => grown_stmt body t
  | .for (some init) _ _ body =>
    (grown_stmt init t).append (grown_stmt body _)
  | .match _ cases none => grown_cases cases t
  | .match _ cases (some defaultCase) =>
    (grown_cases cases t).append (grown_stmt defaultCase _)
  | .tryCatch body none none => grown_stmt body t
  | .tryCatch body (some (.mk _ handler)) none =>
    (grown_stmt body t).append (grown_stmt handler _)
  | .tryCatch body none (some last) =>
    (grown_stmt body t).append (grown_stmt last _)
  | .tryCatch body (some (.mk _ handler)) (some last) =>
    ((grown_stmt body t).append (grown_stmt handler _)).append (grown_stmt last _)
  | .expression (.chanRecv x _ _) => Grown.add t x
  | .expression (.var _) | .expression (.assign _ _) | .expression (.operator _ _)
  | .expression (.structLiteral _ _ _ _) | .expression (.lambda _ _ _)
  | .expression (.asyncBlock _ _) | .say _ | .go _ _ _ | .function _ _ _ _ _ _ | .ret _
  | .classDecl _ _ _ _ | .break | .continue | .throw _ | .use _ _ _ _ | .enumDecl _ _ _
  | .typeAlias _ _ _ | .traitDecl _ _ _ _ | .implDecl _ _ _ | .test _ _ => Grown.refl t
theorem grown_all (stmts : List Stmt) (t : FieldTable) :
    Grown (collectedNames (bindingsAll stmts)) t (collectAll stmts t) := match stmts with
  | [] => Grown.refl t
  | s :: rest =>
    (grown_stmt s t).append (grown_all rest _)
theorem grown_elifs (elifs : List ElifBranch) (t : FieldTable) :
    Grown (collectedNames (bindingsElifs elifs)) t (collectElifs elifs t) := match elifs with
  | [] => Grown.refl t
  | .mk _ body :: rest =>
    (grown_stmt body t).append (grown_elifs rest _)
theorem grown_cases (cases : List MatchCase) (t : FieldTable) :
    Grown (collectedNames (bindingsCases cases)) t (collectCases cases t) := match cases with
  | [] => Grown.refl t
  | .mk _ _ binding _ body :: rest => by
    change Grown (collectedNames (passedBy binding.toList ++ bindings body ++ bindingsCases rest)) t
      (collectCases rest (collectAsyncLocals body t))
    rw [collectedNames_append, collectedNames_append, collectedNames_passedBy, List.nil_append]
    exact (grown_stmt body t).trans (grown_cases rest _)
end

theorem collectAll_append (a b : List Stmt) (t : FieldTable) :
    collectAll (a ++ b) t = collectAll b (collectAll a t) := by
  induction a generalizing t with
  | nil => rfl
  | cons s a ih => exact ih (collectAsyncLocals s t)

theorem collectAll_flatten (body : List Stmt) (t : FieldTable) :
    collectAll (flattenTopLevelBlocks body) t = collectAll body t := by
  fun_induction flattenTopLevelBlocks body generalizing t with
  | case1 => rfl
  | case2 statements rest ih₁ ih₂ =>
    rw [collectAll_append, ih₁, ih₂]
    rfl
  | case3 s rest _ ih => exact ih (collectAsyncLocals s t)

theorem paramFields_spec (params : List Name) :
    (paramFields params).Wf ∧
      (∀ x, ((paramFields params).fields x).isSome ↔ x = "state" ∨ x ∈ params) ∧
      ("state" ∉ params → (paramFields params).fields "state" = some 0) := by
  have hstart : (FieldTable.insert ⟨fun _ => none, 0⟩ "state").Wf ∧
      (∀ x, ((FieldTable.insert ⟨fun _ => none, 0⟩ "state").fields x).isSome ↔ x = "state") := by
    have hempty : FieldTable.Wf ⟨fun _ => none, 0⟩ := ⟨by simp, by simp⟩
    refine ⟨hempty.insert _, fun x => ?_⟩
    rw [FieldTable.isSome_insert]
    simp
  have hfold : ∀ t : FieldTable, t.Wf → (params.foldl FieldTable.insert t).Wf ∧
      (∀ x, ((params.foldl FieldTable.insert t).fields x).isSome ↔
        (t.fields x).isSome ∨ x ∈ params) ∧
      ∀ x, x ∉ params → (params.foldl FieldTable.insert t).fields x = t.fields x := by
    induction params with
    | nil =>
      intro t ht
      exact ⟨ht, by simp, fun _ _ => rfl⟩
    | cons p params ih =>
      intro t ht
      obtain ⟨hwf, hdomain, hkeeps⟩ := ih (t.insert p) (ht.insert p)
      refine ⟨hwf, fun x => ?_, fun x hx => ?_⟩
      · rw [List.foldl_cons, hdomain, FieldTable.isSome_insert, List.mem_cons, or_assoc]
      · rw [List.mem_cons, not_or] at hx
        rw [List.foldl_cons, hkeeps x hx.2]
        simp [FieldTable.insert, hx.1]
  obtain ⟨hwf, hdomain, hkeeps⟩ := hfold _ hstart.1
  refine ⟨hwf, fun x => ?_, fun hx => ?_⟩
  · rw [paramFields, hdomain, hstart.2]
  · rw [paramFields, hkeeps _ hx]
    rfl

/-- Past the first entry only a table that holds it gives out the index 0. -/
theorem insertAll_ne_zero (names : List Name) {t : FieldTable} (hcount : 0 < t.count)
    (h : ∀ y, t.fields y ≠ some 0) (y : Name) : (names.foldl FieldTable.insert t).fields y ≠ some 0 := by
  induction names generalizing t with
  | nil => exact h y
  | cons x names ih =>
    apply ih (t := t.insert x) (Nat.succ_pos _)
    intro z hz
    simp only [FieldTable.insert, Function.update_apply] at hz
    split at hz
    · have := Option.some.inj hz
      omega
    · exact h z hz

theorem paramFields_ne_zero {params : List Name} (h : "state" ∈ params) (y : Name) :
    (paramFields params).fields y ≠ some 0 := by
  have hfold : ∀ t : FieldTable, 0 < t.count → (∀ z, t.fields z = some 0 → z = "state") →
      (params.foldl FieldTable.insert t).fields y ≠ some 0 := by
    induction params with
    | nil => exact absurd h List.not_mem_nil
    | cons x params ih =>
      intro t hcount honly
      rw [List.foldl_cons]
      by_cases hx : x = "state"
      · apply insertAll_ne_zero _ (Nat.succ_pos _)
        intro z hz
        simp only [FieldTable.insert, Function.update_apply, hx] at hz
        split at hz
        · have := Option.some.inj hz
          omega
        · rename_i hne
          exact hne (honly z hz)
      · apply ih ((List.mem_cons.mp h).resolve_left (Ne.symm hx)) _ (Nat.succ_pos _)
        intro z hz
        simp only [FieldTable.insert, Function.update_apply] at hz
        split at hz
        · have := Option.some.inj hz
          omega
        · exact honly z hz
  apply hfold _ (Nat.succ_pos _)
  intro z hz
  simp only [FieldTable.insert, Function.update_apply] at hz
  split at hz
  · assumption
  · cases hz

section
variable {params : List Name} {body : List Stmt}

theorem grown_layout (params : List Name) (body : List Stmt) :
    Grown (collectedNames (bindingsAll body)) ((paramFields params).insert "result")
      (layoutFields params body) := by
  rw [layoutFields, collectAll_flatten]
  exact grown_all body _

theorem wf_layoutFields (params : List Name) (body : List Stmt) : (layoutFields params body).Wf :=
  (grown_layout params body).wf ((paramFields_spec params).1.insert _)

theorem fields_result (params : List Name) (body : List Stmt) :
    (layoutFields params body).fields "result" = some (resultIndex params) :=
  (grown_layout params body).keeps (by simp [FieldTable.insert, resultIndex])

theorem fields_state (h : "state" ∉ params) :
    (layoutFields params body).fields "state" = some 0 := by
  apply (grown_layout params body).keeps
  have hstate := (paramFields_spec params).2.2 h
  simpa [FieldTable.insert, Function.update_apply] using hstate

/-- A parameter named like the state index takes its name, and nothing its field. -/
theorem fields_ne_zero (h : "state" ∈ params) (x : Name) : (layoutFields params body).fields x ≠ some 0 := by
  intro hx
  have hold := (grown_layout params body).old hx (Nat.succ_pos _)
  simp only [FieldTable.insert, Function.update_apply] at hold
  split at hold
  · have hindex : resultIndex params = 0 := Option.some.inj hold
    have hstart := (paramFields_spec params).1
    obtain ⟨i, hi⟩ := Option.isSome_iff_exists.mp (((paramFields_spec params).2.1 "state").mpr (.inl rfl))
    have := hstart.bound hi
    rw [resultIndex] at hindex
    omega
  · exact paramFields_ne_zero h x hold

theorem isSome_layoutFields (x : Name) : ((layoutFields params body).fields x).isSome ↔
    x = "state" ∨ x = "result" ∨ x ∈ params ∨ x ∈ collectedNames (bindingsAll body) := by
  rw [(grown_layout params body).domain, FieldTable.isSome_insert, (paramFields_spec params).2.1]
  tauto

theorem mem_collectedNames {bs : List Binding} {x : Name} :
    x ∈ collectedNames bs ↔ ∃ b ∈ bs, b.collected = true ∧ b.name = x := by
  simp [collectedNames, and_assoc]

/-- A collected variable has a field. -/
theorem isSome_of_collected {b : Binding} (hb : b ∈ allBindings params body)
    (hc : b.collected = true) : ((layoutFields params body).fields b.name).isSome := by
  rw [isSome_layoutFields]
  rcases List.mem_append.mp hb with hb | hb
  · obtain ⟨x, hx, rfl⟩ := List.mem_map.mp hb
    exact .inr (.inr (.inl hx))
  · exact .inr (.inr (.inr (mem_collectedNames.mpr ⟨b, hb, hc, rfl⟩)))

theorem collected_of_isSome {b : Binding} (hb : b ∈ allBindings params body)
    (honce : ((allBindings params body).map Binding.name).Nodup)
    (hresult : b.name ≠ "result") (hstate : b.name ∈ params ∨ b.name ≠ "state")
    (hsome : ((layoutFields params body).fields b.name).isSome) : b.collected = true := by
  obtain ⟨c, hc, hcollected, hname⟩ : ∃ c ∈ allBindings params body,
      c.collected = true ∧ c.name = b.name := by
    rcases isSome_layoutFields b.name |>.mp hsome with h | h | h | h
    · rcases hstate with hmem | hne
      · exact ⟨local_ b.name, List.mem_append_left _ (List.mem_map_of_mem hmem), rfl, rfl⟩
      · exact absurd h hne
    · exact absurd h hresult
    · exact ⟨local_ b.name, List.mem_append_left _ (List.mem_map_of_mem h), rfl, rfl⟩
    · obtain ⟨c, hc, hcollected, hname⟩ := mem_collectedNames.mp h
      exact ⟨c, List.mem_append_right _ hc, hcollected, hname⟩
  obtain rfl : c = b := List.inj_on_of_nodup_map honce hc hb hname
  exact hcollected

end

/-! ### Reads -/

abbrev names (bs : List Binding) : List Name := bs.map Binding.name

@[simp] theorem names_passedBy (xs : List Name) : names (passedBy xs) = xs := by
  simp [names, passedBy, Function.comp_def]

section
variable {t : FieldTable}

def Agree (t : FieldTable) (sc : Scope) (v : Variables) : Prop :=
  ∀ x, sc x = some .stored → v x = (t.fields x).map .field

variable {sc : Scope}

theorem Scope.declare_of_stored {x : Name} (h : sc x = some .stored)
    (names : List Name) : sc.declare names x = some .stored := by
  unfold Scope.declare
  split
  · rfl
  · exact h

@[simp] theorem Scope.declare_nil (sc : Scope) : sc.declare [] = sc := by
  funext x
  simp [Scope.declare]

theorem Scope.declare_append (sc : Scope) (a b : List Name) :
    sc.declare (a ++ b) = (sc.declare a).declare b := by
  funext x
  simp only [Scope.declare, List.mem_append]
  by_cases ha : x ∈ a
  · simp [ha]
  · simp [ha]

variable {v : Variables}

theorem Agree.weaken {names : List Name} (h : Agree t (sc.declare names) v) : Agree t sc v :=
  fun x hx => h x (Scope.declare_of_stored hx names)

theorem Agree.placeAll (h : Agree t sc v) (names : List Name) :
    Agree t (sc.declare names) (names.foldl (place t) v) := by
  induction names generalizing sc v with
  | nil => simpa using h
  | cons x names ih =>
    have hfirst : Agree t (sc.declare [x]) (place t v x) := by
      intro y hy
      by_cases hxy : y = x
      · subst hxy
        simp [place]
      · have hold : sc y = some .stored := by simpa [Scope.declare, hxy] using hy
        simpa [place, hxy] using h y hold
    have hrest := ih hfirst
    intro y hy
    apply hrest y
    simp only [Scope.declare, List.mem_cons, List.not_mem_nil, or_false] at hy ⊢
    by_cases hyx : y = x
    · simp [hyx]
    · simpa [hyx] using hy

theorem Agree.place (h : Agree t sc v) (x : Name) : Agree t (sc.declare [x]) (place t v x) := h.placeAll [x]

theorem Agree.catching (h : Agree t sc v) (x : Name) : Agree t (sc.catching x) (v.catching x) := by
  intro y hy
  by_cases hyx : y = x
  · subst hyx
    simp [Scope.catching] at hy
  · simp only [Scope.catching, Variables.catching, Function.update_of_ne hyx] at hy ⊢
    exact h y hy

theorem Agree.uncatch {x : Name} (hx : sc x ≠ some .stored) (h : Agree t (sc.catching x) v) : Agree t sc v := by
  intro y hy
  have hne : y ≠ x := by
    rintro rfl
    exact hx hy
  exact h y (by simpa [Scope.catching, Function.update_of_ne hne] using hy)

/-- Where no clause hides a variable, all reads resolve from a state that agrees. -/
def Sound (t : FieldTable) (es : List Event) (sc : Scope) (v : Variables) (sc' : Scope)
    (v' : Variables) : Prop :=
  (∀ e ∈ es, e.Clear) → Agree t sc v → (∀ e ∈ es, e.Resolves t) ∧ Agree t sc' v'

namespace Sound
variable {es es' : List Event} {sc sc₁ sc₂ : Scope} {v v₁ v₂ : Variables}

theorem nil : Sound t [] sc v sc v := fun _ h => ⟨by simp, h⟩

theorem append (h : Sound t es sc v sc₁ v₁) (h' : Sound t es' sc₁ v₁ sc₂ v₂) :
    Sound t (es ++ es') sc v sc₂ v₂ := by
  intro hclear hagree
  obtain ⟨hres, hagree₁⟩ := h (fun e he => hclear e (List.mem_append_left _ he)) hagree
  obtain ⟨hres', hagree₂⟩ := h' (fun e he => hclear e (List.mem_append_right _ he)) hagree₁
  refine ⟨fun e he => ?_, hagree₂⟩
  rcases List.mem_append.mp he with he | he
  · exact hres e he
  · exact hres' e he

theorem weaken {names : List Name} (h : Sound t es sc v (sc₁.declare names) v₁) :
    Sound t es sc v sc₁ v₁ := fun hclear hagree =>
  ⟨(h hclear hagree).1, (h hclear hagree).2.weaken⟩

/-- A block puts back what it found. -/
theorem restored (h : Sound t es sc v sc₁ v₁) : Sound t es sc v sc v :=
  fun hclear hagree => ⟨(h hclear hagree).1, hagree⟩

theorem starting (h : Sound t es sc₁ v₁ sc₂ v₂) (hagree : Agree t sc v → Agree t sc₁ v₁) :
    Sound t es sc v sc₂ v₂ := fun hclear h' => h hclear (hagree h')

/-- Two parts one after the other, both of which leave names in scope. -/
theorem declaring {a b : List Name} (h : Sound t es sc v (sc.declare a) v₁)
    (h' : Sound t es' (sc.declare a) v₁ ((sc.declare a).declare b) v₂) :
    Sound t (es ++ es') sc v (sc.declare (a ++ b)) v₂ := by
  rw [Scope.declare_append]
  exact h.append h'

theorem refused (h : Sound t es sc v sc₁ v₁) : Sound t (.refused :: es) sc v sc₁ v₁ := by
  intro hclear hagree
  obtain ⟨hres, hagree'⟩ := h (fun e he => hclear e (List.mem_cons_of_mem _ he)) hagree
  refine ⟨fun e he => ?_, hagree'⟩
  rcases List.mem_cons.mp he with rfl | he
  · trivial
  · exact hres e he

/-- Statements that bind no name around them. -/
theorem undeclared (h : Sound t es sc v sc v₁) : Sound t es sc v (sc.declare []) v₁ := by
  rwa [Scope.declare_nil]

theorem handler {x : Name} (h : Sound t es (sc.catching x) (v.catching x) (sc.catching x) v₁) :
    Sound t (.caught x sc :: es) sc v sc v₁ := by
  intro hclear hagree
  have hx : sc x ≠ some .stored := hclear (.caught x sc) List.mem_cons_self
  obtain ⟨hres, hagree'⟩ :=
    h (fun e he => hclear e (List.mem_cons_of_mem _ he)) (hagree.catching x)
  refine ⟨fun e he => ?_, hagree'.uncatch hx⟩
  rcases List.mem_cons.mp he with rfl | he
  · trivial
  · exact hres e he

theorem framed {s : Stmt} (h : Sound t es sc v (sc.declare (declared s)) (variablesAfter t s v)) :
    Sound t (framed t s sc v es) sc v (sc.declare (declared s)) (variablesAfter t s v) := by
  intro hclear hagree
  have hinner : ∀ e ∈ es, e.Clear := fun e he => hclear e (by simp [AsyncFields.framed, he])
  obtain ⟨hres, hagree'⟩ := h hinner hagree
  refine ⟨fun e he => ?_, hagree'⟩
  simp only [AsyncFields.framed, List.cons_append, List.mem_cons, List.mem_append,
    List.not_mem_nil, or_false] at he
  rcases he with rfl | he | rfl
  · exact hagree
  · exact hres e he
  · exact hagree'

end Sound

mutual
theorem sound_stmt (s : Stmt) (sc : Scope) (v : Variables) :
    Sound t (framed t s sc v (inner t s sc v)) sc v (sc.declare (declared s))
      (variablesAfter t s v) := by
  apply Sound.framed
  match s with
  | .var x _ _ _ _ _ => exact Sound.nil.starting fun h => h.place x
  | .destructure names _ _ => exact Sound.nil.starting fun h => h.placeAll names
  | .expression (.chanRecv x _ _) => exact Sound.nil.starting fun h => h.place x
  | .block statements =>
    exact Sound.undeclared (sound_all statements sc v)
  | .ifThen _ thenBranch elifs none =>
    exact (sound_stmt thenBranch sc v).declaring (sound_elifs elifs _ _)
  | .ifThen _ thenBranch elifs (some elseBranch) =>
    exact ((sound_stmt thenBranch sc v).declaring (sound_elifs elifs _ _)).declaring
      (sound_stmt elseBranch _ _)
  | .while _ body => exact sound_stmt body sc v
  | .doWhile body _ => exact sound_stmt body sc v
  | .within _ body => exact sound_stmt body sc v
  | .each _ x _ _ body =>
    exact Sound.undeclared (((sound_stmt body _ _).weaken.starting fun h => h.place x).weaken)
  | .for none _ _ body =>
    exact Sound.undeclared ((sound_stmt body sc v).weaken)
  | .for (some init) _ _ body =>
    exact Sound.undeclared (((sound_stmt init sc v).append (sound_stmt body _ _).weaken).weaken)
  | .match _ cases none => exact sound_cases cases sc v
  | .match _ cases (some defaultCase) =>
    exact (sound_cases cases sc v).declaring (sound_stmt defaultCase _ _)
  | .tryCatch body none none => exact sound_stmt body sc v
  | .tryCatch body (some (.mk x handler)) none =>
    exact (sound_stmt body sc v).append (sound_stmt handler _ _).weaken.handler
  | .tryCatch body none (some last) =>
    exact (sound_stmt body sc v).declaring (sound_stmt last _ _)
  | .tryCatch body (some (.mk x handler)) (some last) =>
    exact (sound_stmt body sc v).declaring
      ((sound_stmt handler _ _).weaken.handler.append (sound_stmt last _ _))
  | .retry _ body none => exact sound_stmt body sc v
  | .retry _ body (some (.mk x handler)) =>
    exact (sound_stmt body sc v).append
      (((sound_stmt handler _ _).weaken.starting fun h => h.place x).weaken)
  | .expression (.var _) | .expression (.assign _ _) | .expression (.operator _ _)
  | .expression (.structLiteral _ _ _ _) | .expression (.lambda _ _ _)
  | .expression (.asyncBlock _ _) | .say _ | .go _ _ _ | .function _ _ _ _ _ _ | .ret _
  | .classDecl _ _ _ _ | .break | .continue | .throw _ | .use _ _ _ _ | .enumDecl _ _ _
  | .typeAlias _ _ _ | .traitDecl _ _ _ _ | .implDecl _ _ _ | .test _ _ =>
    exact Sound.undeclared Sound.nil
theorem sound_all (stmts : List Stmt) (sc : Scope) (v : Variables) :
    Sound t (innerAll t stmts sc v) sc v sc v := match stmts with
  | [] => Sound.nil
  | s :: rest => ((sound_stmt s sc v).append (sound_all rest _ _)).restored
theorem sound_elifs (elifs : List ElifBranch) (sc : Scope) (v : Variables) :
    Sound t (innerElifs t elifs sc v) sc v (sc.declare (declaredElifs elifs)) (variablesElifs t elifs v) :=
  match elifs with
  | [] => Sound.undeclared Sound.nil
  | .mk _ body :: rest => (sound_stmt body sc v).declaring (sound_elifs rest _ _)
theorem sound_cases (cases : List MatchCase) (sc : Scope) (v : Variables) :
    Sound t (innerCases t cases sc v) sc v (sc.declare (declaredCases cases)) (variablesCases t cases v) :=
  match cases with
  | [] => Sound.undeclared Sound.nil
  | .mk _ none _ _ body :: rest => (sound_stmt body sc v).declaring (sound_cases rest _ _)
  | .mk _ (some _) _ _ _ :: rest => (sound_cases rest sc v).refused
end

/-- A name the table of variables starts with. -/
def Readable (x : Name) : Prop := x ≠ "state" ∧ x ≠ "result"

theorem agree_entering (hsc : ∀ x, sc x = some .stored → Readable x)
    (h : Agree t sc v) (s : Stmt) : Agree t sc (entering t s v) := by
  unfold entering
  split
  · intro x hx
    have hfree := hsc x hx
    simp [segmentVariables, hfree.1, hfree.2]
  · exact h

theorem subset_names {as xs : List Name} {a b : List Binding} (ha : as ⊆ names a) (hb : xs ⊆ names b) :
    as ++ xs ⊆ names (a ++ b) := by
  rw [names, List.map_append]
  exact List.append_subset.mpr ⟨List.subset_append_of_subset_left _ ha, List.subset_append_of_subset_right _ hb⟩

variable {xs : List Name}

theorem subset_names_left {a : List Binding} (h : xs ⊆ names a) (b : List Binding) : xs ⊆ names (a ++ b) := by
  rw [names, List.map_append]
  exact List.subset_append_of_subset_left _ h

mutual
theorem declared_subset (s : Stmt) : declared s ⊆ names (bindings s) := by
  match s with
  | .var x _ _ _ _ _ => exact List.Subset.refl [x]
  | .destructure xs _ _ =>
    have hxs : names (xs.map local_) = xs := by simp [names, local_, Function.comp_def]
    exact hxs.symm ▸ List.Subset.refl xs
  | .expression (.chanRecv x _ _) => exact List.Subset.refl [x]
  | .ifThen _ thenBranch elifs none =>
    exact subset_names (declared_subset thenBranch) (declaredElifs_subset elifs)
  | .ifThen _ thenBranch elifs (some elseBranch) =>
    exact subset_names (subset_names (declared_subset thenBranch) (declaredElifs_subset elifs))
      (declared_subset elseBranch)
  | .while _ body => exact declared_subset body
  | .doWhile body _ => exact declared_subset body
  | .within _ body => exact declared_subset body
  | .match _ cases none => exact declaredCases_subset cases
  | .match _ cases (some defaultCase) =>
    exact subset_names (declaredCases_subset cases) (declared_subset defaultCase)
  | .tryCatch body none none => exact declared_subset body
  | .tryCatch body (some (.mk _ _)) none => exact subset_names_left (declared_subset body) _
  | .tryCatch body none (some last) => exact subset_names (declared_subset body) (declared_subset last)
  | .tryCatch body (some (.mk _ _)) (some last) =>
    exact subset_names (subset_names_left (declared_subset body) _) (declared_subset last)
  | .retry _ body none => exact declared_subset body
  | .retry _ body (some (.mk _ _)) => exact subset_names_left (declared_subset body) _
  | .block _ | .for _ _ _ _ | .each _ _ _ _ _
  | .expression (.var _) | .expression (.assign _ _) | .expression (.operator _ _)
  | .expression (.structLiteral _ _ _ _) | .expression (.lambda _ _ _)
  | .expression (.asyncBlock _ _) | .say _ | .go _ _ _ | .function _ _ _ _ _ _ | .ret _
  | .classDecl _ _ _ _ | .break | .continue | .throw _ | .use _ _ _ _ | .enumDecl _ _ _
  | .typeAlias _ _ _ | .traitDecl _ _ _ _ | .implDecl _ _ _ | .test _ _ => exact List.nil_subset _
theorem declaredElifs_subset (elifs : List ElifBranch) :
    declaredElifs elifs ⊆ names (bindingsElifs elifs) := match elifs with
  | [] => List.nil_subset _
  | .mk _ body :: rest => subset_names (declared_subset body) (declaredElifs_subset rest)
theorem declaredCases_subset (cases : List MatchCase) :
    declaredCases cases ⊆ names (bindingsCases cases) := match cases with
  | [] => List.nil_subset _
  | .mk _ none binding _ body :: rest =>
    subset_names (subset_names (List.nil_subset (names (passedBy binding.toList))) (declared_subset body))
      (declaredCases_subset rest)
  | .mk _ (some _) binding _ body :: rest =>
    subset_names (List.nil_subset (names (passedBy binding.toList ++ bindings body)))
      (declaredCases_subset rest)
end

theorem stored_declare {x : Name} (h : sc.declare xs x = some .stored) : sc x = some .stored ∨ x ∈ xs := by
  unfold Scope.declare at h
  split at h
  · exact .inr ‹_›
  · exact .inl h

/-- The names of the statements of a list. -/
theorem names_cons (s : Stmt) (rest : List Stmt) :
    names (bindingsAll (s :: rest)) = names (bindings s) ++ names (bindingsAll rest) := by
  simp [bindingsAll, names]

theorem sound_body (stmts : List Stmt) (hfree : ∀ x ∈ names (bindingsAll stmts), Readable x)
    (sc : Scope) (hsc : ∀ x, sc x = some .stored → Readable x) (v : Variables) :
    Sound t (bodyEvents t stmts sc v) sc v sc (bodyVariables t stmts v) := by
  fun_induction bodyEvents t stmts sc v with
  | case1 sc v =>
    rw [bodyVariables]
    intro _ hagree
    refine ⟨fun e he => ?_, hagree⟩
    rw [List.mem_singleton] at he
    rw [he]
    exact hagree
  | case2 statements rest sc v ih₁ ih₂ =>
    rw [names_cons] at hfree
    rw [bodyVariables]
    exact (ih₁ (fun x hx => hfree x (List.mem_append_left _ hx)) hsc).append
      (ih₂ (fun x hx => hfree x (List.mem_append_right _ hx)) hsc)
  | case3 s rest sc v hblock ih =>
    rw [names_cons] at hfree
    have hnext : ∀ x, sc.declare (declared s) x = some .stored → Readable x := by
      intro x hx
      rcases stored_declare hx with hx | hx
      · exact hsc x hx
      · exact hfree x (List.mem_append_left _ (declared_subset s hx))
    have hrest := ih (fun x hx => hfree x (List.mem_append_right _ hx)) hnext
    have hboth := (((sound_stmt s sc (entering t s v)).append hrest).starting
      fun h => agree_entering hsc h s).weaken
    rw [bodyVariables.eq_def]
    cases s with
    | block statements => exact absurd rfl (hblock statements)
    | _ =>
      intro hclear hagree
      obtain ⟨hres, hagree'⟩ := hboth (fun e he => hclear e (List.mem_cons_of_mem _ he)) hagree
      refine ⟨fun e he => ?_, hagree'⟩
      rcases List.mem_cons.mp he with rfl | he
      · exact hagree
      · exact hres e he

/-! ### Hidden variables -/

/-- A statement only changes where the names it binds live, and those of `catch` clauses. -/
theorem variables_place (v : Variables) {x y : Name} (h : y ≠ x) : place t v x y = v y := by
  simp [place, h]

variable {y : Name}

theorem variables_placeAll (names : List Name) (v : Variables) (h : y ∉ names) :
    names.foldl (place t) v y = v y := by
  induction names generalizing v with
  | nil => rfl
  | cons x names ih =>
    rw [List.mem_cons, not_or] at h
    rw [List.foldl_cons, ih _ h.2, variables_place v h.1]

theorem stack_catching (h : v y = some .stack) (x : Name) : v.catching x y = some .stack := by
  simp only [Variables.catching, Function.update_apply]
  split
  · rfl
  · exact h

theorem unnamed₂ {a b : List Binding} (h : y ∉ names (a ++ b)) : y ∉ names a ∧ y ∉ names b := by
  rwa [names, List.map_append, List.mem_append, not_or] at h

theorem unnamed₃ {a b c : List Binding} (h : y ∉ names (a ++ b ++ c)) :
    (y ∉ names a ∧ y ∉ names b) ∧ y ∉ names c :=
  (unnamed₂ h).imp_left unnamed₂

theorem unnamed_local (h : y ∉ names (xs.map local_)) : y ∉ xs := by
  simpa [names, local_] using h

theorem unnamed_cons {bs : List Binding} {x y : Name} (h : y ∉ names (local_ x :: bs)) :
    y ≠ x ∧ y ∉ names bs := by
  simpa [names, local_] using h

theorem unnamed_passedBy (h : y ∉ names (passedBy xs)) : y ∉ xs := by
  rwa [names_passedBy] at h

mutual
theorem stack_stmt (s : Stmt) {v : Variables} {y : Name} (hy : y ∉ names (bindings s))
    (h : v y = some .stack) : variablesAfter t s v y = some .stack := by
  match s with
  | .var x _ _ _ _ _ =>
    exact (variables_place v (unnamed_cons hy).1).trans h
  | .destructure xs _ _ =>
    exact (variables_placeAll xs v (unnamed_local hy)).trans h
  | .expression (.chanRecv x _ _) =>
    exact (variables_place v (unnamed_cons hy).1).trans h
  | .ifThen _ thenBranch elifs none =>
    replace hy := unnamed₂ hy
    exact stack_elifs elifs hy.2 (stack_stmt thenBranch hy.1 h)
  | .ifThen _ thenBranch elifs (some elseBranch) =>
    replace hy := unnamed₃ hy
    exact stack_stmt elseBranch hy.2 (stack_elifs elifs hy.1.2 (stack_stmt thenBranch hy.1.1 h))
  | .while _ body => exact stack_stmt body hy h
  | .doWhile body _ => exact stack_stmt body hy h
  | .within _ body => exact stack_stmt body hy h
  | .each _ x _ _ body =>
    replace hy := unnamed_cons hy
    exact stack_stmt body hy.2 ((variables_place v hy.1).trans h)
  | .for none _ _ body => exact stack_stmt body hy h
  | .for (some init) _ _ body =>
    replace hy := unnamed₂ hy
    exact stack_stmt body hy.2 (stack_stmt init hy.1 h)
  | .match _ cases none => exact stack_cases cases hy h
  | .match _ cases (some defaultCase) =>
    replace hy := unnamed₂ hy
    exact stack_stmt defaultCase hy.2 (stack_cases cases hy.1 h)
  | .tryCatch body none none => exact stack_stmt body hy h
  | .tryCatch body (some (.mk x handler)) none =>
    replace hy := unnamed₂ hy
    exact stack_stmt handler hy.2 (stack_catching (stack_stmt body hy.1 h) x)
  | .tryCatch body none (some last) =>
    replace hy := unnamed₂ hy
    exact stack_stmt last hy.2 (stack_stmt body hy.1 h)
  | .tryCatch body (some (.mk x handler)) (some last) =>
    replace hy := unnamed₃ hy
    exact stack_stmt last hy.2
      (stack_stmt handler hy.1.2 (stack_catching (stack_stmt body hy.1.1 h) x))
  | .retry _ body none => exact stack_stmt body hy h
  | .retry _ body (some (.mk x handler)) =>
    obtain ⟨hbody, hclause⟩ := unnamed₂ hy
    obtain ⟨hx, hhandler⟩ := not_or.mp (List.mem_cons.not.mp (unnamed_passedBy hclause))
    exact stack_stmt handler hhandler
      ((variables_place _ hx).trans (stack_stmt body hbody h))
  | .block _
  | .expression (.var _) | .expression (.assign _ _) | .expression (.operator _ _)
  | .expression (.structLiteral _ _ _ _) | .expression (.lambda _ _ _)
  | .expression (.asyncBlock _ _) | .say _ | .go _ _ _ | .function _ _ _ _ _ _ | .ret _
  | .classDecl _ _ _ _ | .break | .continue | .throw _ | .use _ _ _ _ | .enumDecl _ _ _
  | .typeAlias _ _ _ | .traitDecl _ _ _ _ | .implDecl _ _ _ | .test _ _ => exact h
theorem stack_elifs (elifs : List ElifBranch) {v : Variables} {y : Name}
    (hy : y ∉ names (bindingsElifs elifs)) (h : v y = some .stack) :
    variablesElifs t elifs v y = some .stack := match elifs with
  | [] => h
  | .mk _ body :: rest => by
    replace hy := unnamed₂ hy
    exact stack_elifs rest hy.2 (stack_stmt body hy.1 h)
theorem stack_cases (cases : List MatchCase) {v : Variables} {y : Name}
    (hy : y ∉ names (bindingsCases cases)) (h : v y = some .stack) :
    variablesCases t cases v y = some .stack := match cases with
  | [] => h
  | .mk _ none _ _ body :: rest => by
    replace hy := unnamed₃ hy
    exact stack_cases rest hy.2 (stack_stmt body hy.1.2 h)
  | .mk _ (some _) _ _ _ :: rest => by
    replace hy := unnamed₂ hy
    exact stack_cases rest hy.2 h
end

/-- Names bound once, none of which is stored already. -/
structure Fits (sc : Scope) (xs : List Name) : Prop where
  nodup : xs.Nodup
  fresh : ∀ x ∈ xs, sc x ≠ some .stored

namespace Fits
variable {sc : Scope} {a b : List Name}

theorem left (h : Fits sc (a ++ b)) : Fits sc a where
  nodup := (List.nodup_append.mp h.nodup).1
  fresh x hx := h.fresh x (List.mem_append_left _ hx)

theorem right (h : Fits sc (a ++ b)) : Fits sc b where
  nodup := (List.nodup_append.mp h.nodup).2.1
  fresh x hx := h.fresh x (List.mem_append_right _ hx)

theorem declare (h : Fits sc (a ++ b)) {xs : List Name} (hxs : xs ⊆ a) :
    Fits (sc.declare xs) b where
  nodup := h.right.nodup
  fresh x hx hstored := by
    rcases stored_declare hstored with hold | hmem
    · exact h.right.fresh x hx hold
    · exact (List.nodup_append.mp h.nodup).2.2 x (hxs hmem) x hx rfl

theorem parts {as bs : List Binding} (h : Fits sc (names (as ++ bs))) :
    Fits sc (names as ++ names bs) := by
  rwa [names, List.map_append] at h

theorem catching (h : Fits sc a) (x : Name) : Fits (sc.catching x) a where
  nodup := h.nodup
  fresh y hy hstored := by
    simp only [Scope.catching, Function.update_apply] at hstored
    split at hstored
    · simp at hstored
    · exact h.fresh y hy hstored

end Fits

/-- Where all reads resolve, no clause hides a variable. -/
def Complete (t : FieldTable) (es : List Event) : Prop :=
  (∀ e ∈ es, e.Resolves t) → ∀ e ∈ es, e.Clear

namespace Complete
variable {es es' : List Event}

theorem nil : Complete t [] := by simp [Complete]

theorem point (sc : Scope) (v : Variables) : Complete t [.point sc v] := by
  intro _ e he
  rw [List.mem_singleton] at he
  rw [he]
  trivial

theorem refused : Complete t [.refused] := by
  intro _ e he
  rw [List.mem_singleton] at he
  rw [he]
  trivial

theorem append (h : Complete t es) (h' : Complete t es') : Complete t (es ++ es') := by
  intro hres e he
  rcases List.mem_append.mp he with he | he
  · exact h (fun e he => hres e (List.mem_append_left _ he)) e he
  · exact h' (fun e he => hres e (List.mem_append_right _ he)) e he

theorem framed (h : Complete t es) (s : Stmt) (sc : Scope) (v : Variables) :
    Complete t (framed t s sc v es) :=
  ((point sc v).append h).append (point _ _)

/-- The clause of a `try`: when it hides a variable, a later point still sees its own. -/
theorem clause {x : Name} {sc : Scope} {w : Variables} (h : Complete t es)
    (hw : sc x = some .stored → w x = some .stack) (hpoint : .point sc w ∈ es) :
    Complete t (.caught x sc :: es) := by
  intro hres e he
  rcases List.mem_cons.mp he with rfl | he
  · intro hstored
    have hread := hres (.point sc w) (List.mem_cons_of_mem _ hpoint) x hstored
    rw [hw hstored] at hread
    cases hfield : t.fields x with
    | none => simp [hfield] at hread
    | some i => simp [hfield] at hread
  · exact h (fun e he => hres e (List.mem_cons_of_mem _ he)) e he

end Complete

theorem point_mem_framed (s : Stmt) (sc : Scope) (v : Variables) (es : List Event) :
    .point sc v ∈ framed t s sc v es := by
  simp [framed]

/-- The variable of a clause is still in its stack slot after the clause. -/
theorem stack_handler {handler : Stmt} (h : Fits sc (names (bindings handler)))
    (x : Name) (v : Variables) (hx : sc x = some .stored) :
    variablesAfter t handler (v.catching x) x = some .stack :=
  stack_stmt handler (fun hmem => h.fresh x hmem hx) (by simp [Variables.catching])

mutual
theorem complete_stmt (s : Stmt) (sc : Scope) (v : Variables)
    (hfit : Fits sc (names (bindings s))) : Complete t (framed t s sc v (inner t s sc v)) := by
  match s with
  | .var _ _ _ _ _ _ => exact Complete.nil.framed _ _ _
  | .destructure _ _ _ => exact Complete.nil.framed _ _ _
  | .expression (.chanRecv _ _ _) => exact Complete.nil.framed _ _ _
  | .block statements =>
    exact (complete_all statements sc v hfit).framed _ _ _
  | .ifThen _ thenBranch elifs none =>
    replace hfit := Fits.parts hfit
    exact ((complete_stmt thenBranch sc v hfit.left).append
      (complete_elifs elifs _ _ (hfit.declare (declared_subset thenBranch)))).framed _ _ _
  | .ifThen _ thenBranch elifs (some elseBranch) =>
    replace hfit := Fits.parts hfit
    have hleft := hfit.left.parts
    exact (((complete_stmt thenBranch sc v hleft.left).append
      (complete_elifs elifs _ _ (hleft.declare (declared_subset thenBranch)))).append
      (complete_stmt elseBranch _ _ (hfit.declare
        (subset_names (declared_subset thenBranch) (declaredElifs_subset elifs))))).framed _ _ _
  | .while _ body =>
    exact (complete_stmt body sc v hfit).framed _ _ _
  | .doWhile body _ =>
    exact (complete_stmt body sc v hfit).framed _ _ _
  | .within _ body =>
    exact (complete_stmt body sc v hfit).framed _ _ _
  | .each _ x _ _ body =>
    have hbody : Fits (sc.declare [x]) (names (bindings body)) :=
      Fits.declare (a := [x]) hfit (fun _ => id)
    exact (complete_stmt body _ _ hbody).framed _ _ _
  | .for none _ _ body =>
    exact (complete_stmt body sc v hfit).framed _ _ _
  | .for (some init) _ _ body =>
    replace hfit := Fits.parts hfit
    exact ((complete_stmt init sc v hfit.left).append
      (complete_stmt body _ _ (hfit.declare (declared_subset init)))).framed _ _ _
  | .match _ cases none =>
    exact (complete_cases cases sc v hfit).framed _ _ _
  | .match _ cases (some defaultCase) =>
    replace hfit := Fits.parts hfit
    exact ((complete_cases cases sc v hfit.left).append
      (complete_stmt defaultCase _ _ (hfit.declare (declaredCases_subset cases)))).framed _ _ _
  | .tryCatch body none none =>
    exact (complete_stmt body sc v hfit).framed _ _ _
  | .tryCatch body (some (.mk x handler)) none =>
    replace hfit := Fits.parts hfit
    have hafter := hfit.declare (declared_subset body)
    have hhandler := complete_stmt handler _ ((variablesAfter t body v).catching x)
      (hafter.catching x)
    have hclause := (hhandler.append (Complete.point (sc.declare (declared body)) (variablesAfter t handler
      ((variablesAfter t body v).catching x)))).clause (stack_handler hafter x _)
        (List.mem_append_right _ List.mem_cons_self)
    have hall := ((Complete.point sc v).append (complete_stmt body sc v hfit.left)).append hclause
    change Complete t (.point sc v :: (framed t body sc v (inner t body sc v) ++
      .caught x (sc.declare (declared body)) ::
      framed t handler _ _ (inner t handler _ ((variablesAfter t body v).catching x))) ++
      [.point (sc.declare (declared body))
        (variablesAfter t handler ((variablesAfter t body v).catching x))])
    simpa [framed] using hall
  | .tryCatch body none (some last) =>
    replace hfit := Fits.parts hfit
    exact ((complete_stmt body sc v hfit.left).append
      (complete_stmt last _ _ (hfit.declare (declared_subset body)))).framed _ _ _
  | .tryCatch body (some (.mk x handler)) (some last) =>
    replace hfit := Fits.parts hfit
    have hleft := hfit.left.parts
    have hafter := hleft.declare (declared_subset body)
    have hhandler := complete_stmt handler _ ((variablesAfter t body v).catching x)
      (hafter.catching x)
    have hlast := complete_stmt last (sc.declare (declared body)) (variablesAfter t handler
      ((variablesAfter t body v).catching x)) (hfit.declare (subset_names_left (declared_subset body) _))
    have hclause := (hhandler.append hlast).clause (stack_handler hafter x _)
      (List.mem_append_right _ (point_mem_framed last _ _ _))
    exact ((complete_stmt body sc v hleft.left).append hclause).framed _ _ _
  | .retry _ body none =>
    exact (complete_stmt body sc v hfit).framed _ _ _
  | .retry _ body (some (.mk x handler)) =>
    have hfit' := Fits.parts hfit
    rw [names_passedBy] at hfit'
    have hafter := hfit'.declare (declared_subset body)
    exact ((complete_stmt body sc v hfit'.left).append
      (complete_stmt handler _ _ (Fits.declare (a := [x]) hafter (fun _ => id)))).framed _ _ _
  | .expression (.var _) | .expression (.assign _ _) | .expression (.operator _ _)
  | .expression (.structLiteral _ _ _ _) | .expression (.lambda _ _ _)
  | .expression (.asyncBlock _ _) | .say _ | .go _ _ _ | .function _ _ _ _ _ _ | .ret _
  | .classDecl _ _ _ _ | .break | .continue | .throw _ | .use _ _ _ _ | .enumDecl _ _ _
  | .typeAlias _ _ _ | .traitDecl _ _ _ _ | .implDecl _ _ _ | .test _ _ =>
    exact Complete.nil.framed _ _ _
theorem complete_all (stmts : List Stmt) (sc : Scope) (v : Variables)
    (hfit : Fits sc (names (bindingsAll stmts))) : Complete t (innerAll t stmts sc v) :=
  match stmts with
  | [] => Complete.nil
  | s :: rest => by
    rw [names_cons] at hfit
    exact (complete_stmt s sc v hfit.left).append
      (complete_all rest _ _ (hfit.declare (declared_subset s)))
theorem complete_elifs (elifs : List ElifBranch) (sc : Scope) (v : Variables)
    (hfit : Fits sc (names (bindingsElifs elifs))) : Complete t (innerElifs t elifs sc v) :=
  match elifs with
  | [] => Complete.nil
  | .mk _ body :: rest => by
    replace hfit := Fits.parts hfit
    exact (complete_stmt body sc v hfit.left).append
      (complete_elifs rest _ _ (hfit.declare (declared_subset body)))
theorem complete_cases (cases : List MatchCase) (sc : Scope) (v : Variables)
    (hfit : Fits sc (names (bindingsCases cases))) : Complete t (innerCases t cases sc v) :=
  match cases with
  | [] => Complete.nil
  | .mk _ none binding _ body :: rest => by
    replace hfit := Fits.parts hfit
    have hbody := subset_names (List.nil_subset (names (passedBy binding.toList))) (declared_subset body)
    exact (complete_stmt body sc v hfit.left.parts.right).append
      (complete_cases rest _ _ (hfit.declare hbody))
  | .mk _ (some _) _ _ _ :: rest => by
    replace hfit := Fits.parts hfit
    exact Complete.refused.append (complete_cases rest sc v hfit.right)
end

theorem complete_body (stmts : List Stmt) (sc : Scope) (v : Variables)
    (hfit : Fits sc (names (bindingsAll stmts))) : Complete t (bodyEvents t stmts sc v) := by
  fun_induction bodyEvents t stmts sc v with
  | case1 sc v => exact Complete.point sc v
  | case2 statements rest sc v ih₁ ih₂ =>
    rw [names_cons] at hfit
    exact (ih₁ hfit.left).append (ih₂ hfit.right)
  | case3 s rest sc v _ ih =>
    rw [names_cons] at hfit
    have hrest := ih (hfit.declare (declared_subset s))
    exact ((Complete.point sc v).append (complete_stmt s sc _ hfit.left)).append hrest

theorem point_mem_bodyEvents (stmts : List Stmt) (sc : Scope) (v : Variables) :
    .point sc v ∈ bodyEvents t stmts sc v := by
  fun_induction bodyEvents t stmts sc v with
  | case1 => exact List.mem_cons_self
  | case2 _ _ _ _ ih => exact List.mem_append_left _ ih
  | case3 => exact List.mem_cons_self

end

section
variable {params : List Name} {body : List Stmt}

theorem stored_params {x : Name}
    (h : Scope.declare (fun _ => none) params x = some .stored) : x ∈ params := by
  rcases stored_declare h with h | h
  · simp at h
  · exact h

theorem mem_names_of_mem_params {x : Name} (h : x ∈ params) :
    local_ x ∈ allBindings params body := List.mem_append_left _ (List.mem_map_of_mem h)

theorem names_allBindings : names (allBindings params body) = params ++ names (bindingsAll body) := by
  simp [allBindings, names, local_, Function.comp_def]

theorem OwnStorage.once (h : OwnStorage params body) : (names (allBindings params body)).Nodup := by
  rw [List.Nodup, List.pairwise_map]
  exact h.apart.imp fun hne heq => hne (by rw [heq])

/-- In emitted code no segment binds the name of the state index. -/
theorem OwnStorage.emitted_state (h : OwnStorage params body) (he : Emitted params body)
    (hparam : "state" ∈ params) : False := by
  have hread := h.reads he _ (point_mem_bodyEvents body _ _) "state" (by simp [Scope.declare, hparam])
  have hsome := h.stored _ (mem_names_of_mem_params hparam)
  rw [segmentVariables, if_pos (.inl rfl)] at hread
  cases hfield : (layoutFields params body).fields "state" with
  | none => simp [local_, hfield] at hsome
  | some i => simp [hfield] at hread

theorem OwnStorage.free (h : OwnStorage params body) {b : Binding}
    (hb : b ∈ allBindings params body) : b.name ≠ "result" ∧
      (b.name ∈ params ∧ ¬Emitted params body ∨ b.name ≠ "state") := by
  constructor
  · intro hname
    exact h.notResult b hb (by rw [hname, fields_result])
  · by_cases hname : b.name = "state"
    · left
      rw [hname]
      by_cases hparam : "state" ∈ params
      · exact ⟨hparam, fun he => h.emitted_state he hparam⟩
      · exact absurd (by rw [hname, fields_state hparam]) (h.notState b hb)
    · exact .inr hname

theorem OwnStorage.separate (h : OwnStorage params body) : Separate params body where
  once := h.once
  free _ hb := h.free hb
  collected b hb := collected_of_isSome hb h.once (h.free hb).1 ((h.free hb).2.imp_left And.left) (h.stored b hb)
  clear he := by
    have honce := h.once
    rw [names_allBindings] at honce
    have hempty : Fits (fun _ => none) (params ++ names (bindingsAll body)) := ⟨honce, by simp⟩
    exact complete_body body _ _ (hempty.declare fun _ => id) (h.reads he)

/-- In emitted code no name is reserved. -/
theorem Separate.readable (h : Separate params body) (he : Emitted params body) {x : Name}
    (hx : x ∈ names (allBindings params body)) : Readable x := by
  obtain ⟨b, hb, rfl⟩ := List.mem_map.mp hx
  obtain ⟨hresult, hstate⟩ := h.free b hb
  exact ⟨hstate.resolve_left fun hnot => hnot.2 he, hresult⟩

theorem Separate.ownStorage (h : Separate params body) : OwnStorage params body := by
  have hstored : ∀ b ∈ allBindings params body,
      ((layoutFields params body).fields b.name).isSome :=
    fun b hb => isSome_of_collected hb (h.collected b hb)
  have hwf := wf_layoutFields params body
  refine ⟨hstored, ?_, ?_, ?_, ?_⟩
  · have honce := List.pairwise_map.mp h.once
    refine List.Pairwise.imp_of_mem ?_ honce
    intro b c hb hc hne heq
    obtain ⟨i, hi⟩ := Option.isSome_iff_exists.mp (hstored b hb)
    exact hne (hwf.injective hi (heq ▸ hi))
  · intro b hb heq
    by_cases hparam : "state" ∈ params
    · exact fields_ne_zero hparam b.name heq
    · have hname := hwf.injective heq (fields_state hparam)
      rcases (h.free b hb).2 with ⟨hmem, -⟩ | hne
      · exact hparam (hname ▸ hmem)
      · exact hne hname
  · intro b hb heq
    exact (h.free b hb).1 (hwf.injective heq (fields_result params body))
  · intro he
    have hfree : ∀ x ∈ params ++ names (bindingsAll body), Readable x := by
      rw [← names_allBindings]
      exact fun x hx => h.readable he hx
    have hscope : ∀ x, Scope.declare (fun _ => none) params x = some .stored → Readable x :=
      fun x hx => hfree x (List.mem_append_left _ (stored_params hx))
    have hsound := sound_body (t := layoutFields params body) body
      (fun x hx => hfree x (List.mem_append_right _ hx)) _ hscope
      (segmentVariables (layoutFields params body))
    refine (hsound (h.clear he) ?_).1
    intro x hx
    have hx' := hscope x hx
    simp [segmentVariables, hx'.1, hx'.2]

end

end Neutron.AsyncFields
