import Neutron.InstanceOwners

/-!
# When fields are dropped once

An accepted variable is the only one that has its instance, and nothing else has it, provided every
declaration of the name is a construction or a copy and the name has no use that the analysis lets
through by mistake.
-/

namespace Neutron.FieldDrop
open Syntax Behaviour
open Escape (ExprCtx exprMentionsVar exprsMentionVar exprOptionMentionsVar copySource
  exprUsesVarSafely exprsUseVarSafely headUsesVarSafely placeUsesVarSafely
  exprOptionUsesVarSafely stmtUsesVarSafely stmtsUseVarSafely stmtOptionUsesVarSafely elifsUseVarSafely
  casesUseVarSafely safe_of_not_mention exprs_safe_of_not_mention base_safe_data call_safe method_safe
  copyEdges copyEdgesAll copyEdgesOption copyEdgesElifs copyEdgesCases keepsOperand forwards captured
  both₃ both₄ of_mentioned edges₂ edges₃)
open Ownership (resumes attempts)

/-! ### Uses the analysis lets through -/

section
variable (keeps isClass : Name → Bool) (v : Name)

mutual
/-- The variable has no use in the expression that the analysis takes for safe and that is not: in a
tuple or struct literal or a write through a pointer beside a safe part, borrowed or dereferenced, in
an `async` block or at a place of a lambda the search for mentions skips, as the receiver of a method
that may keep it, or as the variable that receives from a channel. -/
def exprTame : Expr → Bool
  | .var _ => true
  | .assign _ value => exprTame value
  | .operator form operands =>
    exprsTame operands &&
    match form with
    | .member property => !keeps property || exprsUseVarSafely .fieldDrop v .data operands
    | .optionalMember property => !keeps property || exprsUseVarSafely .fieldDrop v .data operands
    | .borrow _ => exprsUseVarSafely .fieldDrop v .data operands
    | .rawDeref => exprsUseVarSafely .fieldDrop v .data operands
    | .rawDerefSet => headUsesVarSafely .fieldDrop v operands
    | .tupleLiteral => exprsUseVarSafely .fieldDrop v .data operands
    | _ => true
  | .structLiteral _ _ fields update =>
    exprsTame fields && exprOptionTame update && exprsUseVarSafely .fieldDrop v .data fields &&
      exprOptionUsesVarSafely .fieldDrop v .base true update
  | .lambda params _ body => v ∉ captured (params.map FunctionParam.name) body
  | .asyncBlock _ body => v ∉ captured [] body
  | .chanRecv receiver channel _ => receiver ≠ v && exprTame channel
def exprsTame : List Expr → Bool
  | [] => true
  | e :: rest => exprTame e && exprsTame rest
def exprOptionTame : Option Expr → Bool
  | none => true
  | some e => exprTame e
end

/-- A copy, or a construction whose constructor does not keep the instance. -/
def newInstance : Expr → Bool
  | .operator form operands =>
    match constructedClass isClass form operands with
    | some className => !keeps className
    | none => form = .copy
  | .structLiteral className _ _ _ => !keeps className
  | _ => false

mutual
/-- Besides, every declaration that binds the name gives it a new instance. -/
def stmtTame : Stmt → Bool
  | .expression e => exprTame keeps v e
  | .say e => exprTame keeps v e
  | .var x _ initializer isStatic _ view =>
    exprOptionTame keeps v initializer &&
      (x ≠ v || view.isSome || initializer.all fun e => !isStatic && newInstance keeps isClass e)
  | .block statements => stmtsTame statements
  | .ifThen condition thenBranch elifs elseBranch =>
    exprTame keeps v condition && stmtTame thenBranch && elifsTame elifs &&
      stmtOptionTame elseBranch
  | .while condition body => exprTame keeps v condition && stmtTame body
  | .doWhile body condition => stmtTame body && exprTame keeps v condition
  | .for init condition update body =>
    stmtOptionTame init && exprOptionTame keeps v condition && exprOptionTame keeps v update &&
      stmtTame body
  | .each _ x source _ body => x ≠ v && exprTame keeps v source && stmtTame body
  | .ret value => exprOptionTame keeps v value
  | .throw value => exprTame keeps v value
  | .match scrutinee cases defaultCase =>
    exprTame keeps v scrutinee && casesTame cases && stmtOptionTame defaultCase
  | .tryCatch body handler last => stmtTame body && handlerTame handler && stmtOptionTame last
  | .retry count body handler => exprTame keeps v count && stmtTame body && handlerTame handler
  | .within _ body => stmtTame body
  | .destructure names _ initializer => v ∉ names && exprTame keeps v initializer
  | _ => true
def stmtsTame : List Stmt → Bool
  | [] => true
  | s :: rest => stmtTame s && stmtsTame rest
def stmtOptionTame : Option Stmt → Bool
  | none => true
  | some s => stmtTame s
def handlerTame : Option CatchClause → Bool
  | none => true
  | some (.mk x handler) => x ≠ v && stmtTame handler
def elifsTame : List ElifBranch → Bool
  | [] => true
  | .mk condition body :: rest => exprTame keeps v condition && stmtTame body && elifsTame rest
def casesTame : List MatchCase → Bool
  | [] => true
  | .mk value _ binding guard body :: rest =>
    v ∉ binding && exprTame keeps v value && exprOptionTame keeps v guard && stmtTame body &&
      casesTame rest
end

end

/-! ### Only the variable has the instance -/

/-- If a variable of this name has taken the instance then it was taken only that once, and nothing
else has it; an instance that is not there yet is nowhere. -/
structure Alone (v : Name) (s : Owners) : Prop where
  sole : v ∈ s.holders → s.holders = [v] ∧ s.outside = false
  fresh : s.created = false → s.holders = [] ∧ s.value = false ∧ s.outside = false

abbrev Safe (v : Name) (r : Owners → Prop) (p : Behaviour Owners) (r' : Owners → Prop) : Prop :=
  Maintains (Alone v) r p r'

abbrev anyOwners : Owners → Prop := fun _ => True

/-- The value at hand is not what the variable holds. -/
abbrev NotHeld (v : Name) : Owners → Prop := fun s => s.value = true → v ∉ s.holders

/-- The value at hand is nowhere else. -/
abbrev NewValue : Owners → Prop := fun s => s.value = true → s.holders = [] ∧ s.outside = false

theorem NewValue.notHeld {v : Name} {s : Owners} (h : NewValue s) : NotHeld v s := by
  intro hvalue
  rw [(h hvalue).1]
  exact List.not_mem_nil

namespace Safe
variable {v x : Name} {r r' : Owners → Prop}

theorem effect {f : Owners → Owners}
    (h : ∀ s, Alone v s → r s → Alone v (f s) ∧ r' (f s)) : Safe v r (effect f) r' := by
  rintro s o s' ⟨halone, hr⟩ ⟨-, rfl⟩
  exact ⟨(h s halone hr).1, fun _ => (h s halone hr).2⟩

theorem plain : Safe v r plain fun s => s.value = false := by
  refine effect fun s halone _ => ⟨⟨halone.sole, fun hnew => ?_⟩, rfl⟩
  obtain ⟨hholders, -, houtside⟩ := halone.fresh hnew
  exact ⟨hholders, rfl, houtside⟩

theorem load : Safe v r (load x) fun s => s.value = true → v ∈ s.holders → x = v := by
  rintro s o s' ⟨halone, -⟩ ⟨-, b, hb, rfl⟩
  refine ⟨⟨halone.sole, fun hnew => ?_⟩, fun _ hvalue hmem => ?_⟩
  · obtain ⟨hholders, -, houtside⟩ := halone.fresh hnew
    refine ⟨hholders, ?_, houtside⟩
    cases b with
    | false => rfl
    | true => exact absurd (hb rfl) (by simp [hholders])
  · have hx : x ∈ s.holders := hb hvalue
    rwa [(halone.sole hmem).1, List.mem_singleton] at hx

theorem reread : Safe v r reread (NotHeld v) := by
  rintro s o s' ⟨halone, -⟩ ⟨-, b, hb, rfl⟩
  refine ⟨⟨halone.sole, fun hnew => ?_⟩, fun _ hvalue hmem => ?_⟩
  · obtain ⟨hholders, -, houtside⟩ := halone.fresh hnew
    refine ⟨hholders, ?_, houtside⟩
    cases b with
    | false => rfl
    | true => exact absurd (hb rfl) (by simp [houtside])
  · have houtside := hb hvalue
    simp [(halone.sole hmem).2] at houtside

theorem create : Safe v r create NewValue := by
  rintro s o s' ⟨halone, -⟩ ⟨-, b, hb, rfl⟩
  refine ⟨⟨halone.sole, fun hnew => ?_⟩, fun _ hvalue => ?_⟩
  · obtain ⟨hcreated, hvalue⟩ := Bool.or_eq_false_iff.mp hnew
    obtain ⟨hholders, -, houtside⟩ := halone.fresh hcreated
    exact ⟨hholders, hvalue, houtside⟩
  · obtain ⟨hholders, -, houtside⟩ := halone.fresh (hb hvalue)
    exact ⟨hholders, houtside⟩

theorem received : Safe v r received (NotHeld v) :=
  Maintains.either reread (create.weaken (fun _ => id) fun _ => NewValue.notHeld)

theorem keep : Safe v (NotHeld v) keep (NotHeld v) := by
  refine effect fun s halone hnot => ⟨⟨fun hmem => ?_, fun hnew => ?_⟩, hnot⟩
  · have hvalue : s.value = false := by
      by_contra hvalue
      exact hnot (by simpa using hvalue) hmem
    obtain ⟨hall, houtside⟩ := halone.sole hmem
    exact ⟨hall, by simp [houtside, hvalue]⟩
  · obtain ⟨hholders, hvalue, houtside⟩ := halone.fresh hnew
    exact ⟨hholders, hvalue, by simp [houtside, hvalue]⟩

theorem take (hx : x ≠ v) : Safe v (NotHeld v) (take x) (NotHeld v) := by
  refine effect fun s halone hnot => ?_
  by_cases hvalue : s.value = true
  · rw [if_pos hvalue]
    have hv : v ∉ x :: s.holders := by simp [hx.symm, hnot hvalue]
    refine ⟨⟨fun hmem => absurd hmem hv, fun hnew => ?_⟩, fun _ => hv⟩
    simp [(halone.fresh hnew).2.1] at hvalue
  · rw [if_neg hvalue]
    exact ⟨halone, hnot⟩

/-- The variable takes an instance that nothing else has. -/
theorem takeNew : Safe v NewValue (FieldDrop.take v) anyOwners := by
  refine effect fun s halone hnew => ⟨?_, trivial⟩
  by_cases hvalue : s.value = true
  · rw [if_pos hvalue]
    obtain ⟨hholders, houtside⟩ := hnew hvalue
    refine ⟨fun _ => ⟨by simp [hholders], houtside⟩, fun hcreated => ?_⟩
    simp [(halone.fresh hcreated).2.1] at hvalue
  · rw [if_neg hvalue]
    exact halone

theorem takeAll {names : List Name} (hnames : v ∉ names) :
    Safe v (NotHeld v) (takeAll names) (NotHeld v) := by
  induction names with
  | nil => exact Maintains.skip
  | cons x rest ih =>
    obtain ⟨hx, hrest⟩ := not_or.mp (List.mem_cons.not.mp hnames)
    exact Maintains.seq (take (Ne.symm hx)) (ih hrest)

theorem capture {names : List Name} (hnames : v ∉ names) :
    Safe v r (capture names) anyOwners := by
  refine effect fun s halone _ => ⟨⟨fun hmem => ?_, fun hnew => ?_⟩, trivial⟩
  · obtain ⟨hall, houtside⟩ := halone.sole hmem
    have hnone : names.any (fun x => x ∈ s.holders) = false := by
      rw [List.any_eq_false]
      intro x hx hheld
      have hxv : x = v := by simpa [hall] using hheld
      exact hnames (hxv ▸ hx)
    exact ⟨hall, by simp [houtside, hnone]⟩
  · obtain ⟨hholders, hvalue, houtside⟩ := halone.fresh hnew
    exact ⟨hholders, hvalue, by simp [houtside, hholders]⟩

theorem mayThrow : Safe v r mayThrow r := Maintains.either Maintains.skip (Maintains.jump (by decide))

theorem withFinally {p last : Behaviour Owners} (hp : Safe v r p anyOwners)
    (hlast : Safe v anyOwners last anyOwners) : Safe v r (withFinally p last) anyOwners :=
  Maintains.either (Maintains.ensure hp hlast) (Maintains.only hp)

theorem retrying {p : Behaviour Owners} (hp : Safe v anyOwners p anyOwners) :
    Safe v anyOwners (retrying p) anyOwners :=
  Maintains.loop (Maintains.either (Maintains.jump (by decide)) (Maintains.rename hp))

theorem construct {keeps : Name → Bool} {className : Name} :
    Safe v r (construct keeps className) (NotHeld v) := by
  refine Maintains.seq (m := NotHeld v) (create.weaken (fun _ => id) fun _ => NewValue.notHeld) ?_
  split
  · exact keep
  · exact Maintains.skip

theorem constructNew {keeps : Name → Bool} {className : Name} (h : keeps className = false) :
    Safe v r (FieldDrop.construct keeps className) NewValue := by
  rw [FieldDrop.construct, h]
  exact Maintains.seq create Maintains.skip

end Safe

/-! ### Safe operands -/

section
variable {keeps isClass : Name → Bool} {v : Name}

/-- The expression does not give the variable away, if it is `needed` not even as its value. -/
def UseSafe (v : Name) (needed : Bool) (e : Expr) : Prop :=
  exprUsesVarSafely .fieldDrop v .data e = true ∨ needed = false ∧ placeUsesVarSafely .fieldDrop v [e] = true

variable {e : Expr}

theorem useSafe_of_base (h : exprUsesVarSafely .fieldDrop v .base e = true) : UseSafe v false e := by
  by_cases he : e = .var v
  · exact .inr ⟨rfl, by simp [he, placeUsesVarSafely, exprsUseVarSafely]⟩
  · exact .inl (base_safe_data h he)

/-- The operands from the `i`-th on, of an operator whose value is `needed`. -/
def OperandsSafe (keeps : Name → Bool) (v : Name) (form : Operator) (needed : Bool) :
    ℕ → List Expr → Prop
  | _, [] => True
  | i, e :: rest =>
    UseSafe v (needed || keepsOperand keeps form i) e ∧ OperandsSafe keeps v form needed (i + 1) rest

namespace OperandsSafe
variable {form : Operator} {operands : List Expr}

theorem of_data (h : exprsUseVarSafely .fieldDrop v .data operands = true) (needed : Bool) (i : ℕ) :
    OperandsSafe keeps v form needed i operands := by
  induction operands generalizing i with
  | nil => trivial
  | cons e rest ih =>
    rw [exprsUseVarSafely, Bool.and_eq_true] at h
    exact ⟨.inl h.1, ih h.2 (i + 1)⟩

theorem of_base (hform : ∀ i, keepsOperand keeps form i = false)
    (h : exprsUseVarSafely .fieldDrop v .base operands = true) (i : ℕ) :
    OperandsSafe keeps v form false i operands := by
  induction operands generalizing i with
  | nil => trivial
  | cons e rest ih =>
    rw [exprsUseVarSafely, Bool.and_eq_true] at h
    refine ⟨?_, ih h.2 (i + 1)⟩
    rw [hform i]
    exact useSafe_of_base h.1

theorem of_head (hform : keepsOperand keeps form 0 = false)
    (h : headUsesVarSafely .fieldDrop v operands = true) : OperandsSafe keeps v form false 0 operands := by
  cases operands with
  | nil => trivial
  | cons e rest =>
    rw [headUsesVarSafely, Bool.and_eq_true] at h
    refine ⟨?_, of_data h.2 false 1⟩
    rw [hform]
    exact useSafe_of_base h.1

theorem of_place (hform : keepsOperand keeps form 0 = false)
    (h : placeUsesVarSafely .fieldDrop v operands = true) : OperandsSafe keeps v form false 0 operands := by
  cases operands with
  | nil => trivial
  | cons e rest =>
    have hparts : placeUsesVarSafely .fieldDrop v [e] = true ∧ exprsUseVarSafely .fieldDrop v .data rest = true := by
      unfold placeUsesVarSafely at h ⊢
      split at h <;> simp_all [exprsUseVarSafely]
    refine ⟨?_, of_data hparts.2 false 1⟩
    rw [hform]
    exact .inr ⟨rfl, hparts.1⟩

end OperandsSafe

theorem UseSafe.weaken {needed needed' : Bool} (h : UseSafe v needed e)
    (hneeded : needed' = true → needed = true) : UseSafe v needed' e := by
  refine h.imp_right fun ⟨hnot, hplace⟩ => ⟨?_, hplace⟩
  by_contra hn
  simp [hneeded (by simpa using hn)] at hnot

variable {operands : List Expr} {form : Operator}

theorem OperandsSafe.weaken {needed needed' : Bool} {i : ℕ}
    (h : OperandsSafe keeps v form needed i operands) (hneeded : needed' = true → needed = true) :
    OperandsSafe keeps v form needed' i operands := by
  induction operands generalizing i with
  | nil => trivial
  | cons e rest ih =>
    refine ⟨h.1.weaken fun hn => ?_, ih h.2⟩
    rcases Bool.or_eq_true_iff.mp hn with hn | hn
    · simp [hneeded hn]
    · simp [hn]

/-- A call whose receiver is the variable has a base for its callee. -/
theorem call_head_safe (h : exprUsesVarSafely .fieldDrop v .data (.operator .call operands) = true) :
    headUsesVarSafely .fieldDrop v operands = true := by
  cases operands with
  | nil => rfl
  | cons callee arguments =>
    obtain ⟨hcallee, harguments⟩ := call_safe h
    refine Bool.and_eq_true_iff.mpr ⟨?_, harguments⟩
    rcases hcallee with hbase | ⟨property, rfl⟩
    · exact hbase
    · exact method_safe property

/-- Naming a method that may keep its receiver is checked as data. -/
theorem operandsSafe_of_member {property : Name}
    (htame : (!keeps property || exprsUseVarSafely .fieldDrop v .data operands) = true)
    (h : keeps property = false → OperandsSafe keeps v form false 0 operands) :
    OperandsSafe keeps v form false 0 operands := by
  rcases Bool.or_eq_true_iff.mp htame with hkeeps | hdata
  · exact h (by simpa using hkeeps)
  · exact .of_data hdata false 0

theorem operandsSafe_of_data (hliteral : ∀ t, form ≠ .literal t) (hthis : form ≠ .this)
    (hsafe : exprUsesVarSafely .fieldDrop v .data (.operator form operands) = true)
    (htame : exprTame keeps v (.operator form operands) = true) :
    OperandsSafe keeps v form (hands form) 0 operands := by
  by_cases hmention : exprsMentionVar v operands = true
  · have hcall : form = .call → headUsesVarSafely .fieldDrop v operands = true := by
      rintro rfl
      exact call_head_safe hsafe
    replace hsafe := of_mentioned hmention hsafe
    replace htame := Bool.and_eq_true_iff.mp htame
    cases form with
    | literal t => exact absurd rfl (hliteral t)
    | this => exact absurd rfl hthis
    | member | optionalMember =>
      have hbase := (Bool.and_eq_true_iff.mp hsafe).1
      refine operandsSafe_of_member htame.2 fun hkeeps => .of_base (fun i => ?_) hbase 0
      exact hkeeps
    | copy => exact .of_base (fun _ => rfl) hsafe 0
    | tupleIndex => exact .of_base (fun _ => rfl) hsafe 0
    | indexGet => exact .of_head rfl (Bool.and_eq_true_iff.mp hsafe).1
    | indexSet => exact .of_head rfl hsafe
    | memberSet => exact .of_head rfl hsafe
    | await => exact .of_head rfl hsafe
    | call => exact .of_head rfl (hcall rfl)
    | rawDerefSet => exact .of_head rfl htame.2
    | view => exact .of_place rfl hsafe
    | borrow => exact .of_data htame.2 _ _
    | rawDeref => exact .of_data htame.2 _ _
    | tupleLiteral => exact .of_data htame.2 _ _
    | chanSend => exact absurd hsafe Bool.false_ne_true
    | close => exact absurd hsafe Bool.false_ne_true
    | _ => exact .of_data hsafe _ _
  · exact .of_data (exprs_safe_of_not_mention (by simpa using hmention)) _ _

/-- Whether the operands of an operator must not be the variable: its value is needed, or may be
returned. -/
def wanted (needed : Bool) (form : Operator) : Bool := hands form && (needed || form = .propagate)

theorem operandsSafe_of_use {needed : Bool} (hliteral : ∀ t, form ≠ .literal t) (hthis : form ≠ .this)
    (hsafe : UseSafe v needed (.operator form operands))
    (htame : exprTame keeps v (.operator form operands) = true) :
    OperandsSafe keeps v form (wanted needed form) 0 operands := by
  by_cases hdata : exprUsesVarSafely .fieldDrop v .data (.operator form operands) = true
  · refine (operandsSafe_of_data hliteral hthis hdata htame).weaken fun h => ?_
    exact (Bool.and_eq_true_iff.mp h).1
  · obtain ⟨rfl, hplace⟩ := hsafe.resolve_left hdata
    replace htame := Bool.and_eq_true_iff.mp htame
    have place {place : Bool} (h : (place && exprsUseVarSafely .fieldDrop v .data []) = true) : place = true :=
      (Bool.and_eq_true_iff.mp h).1
    cases form with
    | literal t => exact absurd rfl (hliteral t)
    | this => exact absurd rfl hthis
    | member => exact operandsSafe_of_member htame.2 fun hkeeps => .of_place hkeeps (place hplace)
    | optionalMember =>
      exact operandsSafe_of_member htame.2 fun hkeeps => .of_place hkeeps (place hplace)
    | indexGet => exact .of_place rfl (place hplace)
    | grouping => exact .of_place rfl (place hplace)
    | _ => exact absurd (Bool.and_eq_true_iff.mp hplace).1 hdata

theorem exprsTame_of_operator
    (h : exprTame keeps v (.operator form operands) = true) : exprsTame keeps v operands = true := by
  have hparts : exprsTame keeps v operands = true ∧ _ := Bool.and_eq_true_iff.mp h
  exact hparts.1

/-! ### Expressions -/

abbrev NotGiven (v : Name) (needed : Bool) : Owners → Prop := fun s => needed = true → NotHeld v s

theorem Safe.given {r : Owners → Prop} {p : Behaviour Owners} (h : Safe v r p (NotHeld v))
    (needed : Bool) : Safe v r p (NotGiven v needed) :=
  h.weaken (fun _ => id) fun _ hnot _ => hnot

theorem Safe.plainGiven {r : Owners → Prop} (needed : Bool) :
    Safe v r FieldDrop.plain (NotGiven v needed) :=
  Safe.plain.weaken (fun _ => id) fun _ h _ hvalue => by simp [h] at hvalue

theorem Safe.result (needed : Bool) (form : Operator) (operands : List Expr) :
    Safe v (NotGiven v (wanted needed form)) (result keeps isClass form operands)
      (NotGiven v needed) := by
  unfold FieldDrop.result
  split
  · exact construct.given needed
  · split
    · exact create.weaken (fun _ => id) fun _ h _ => h.notHeld
    · split
      case isTrue hhands =>
        refine Maintains.skip.weaken (fun _ => id) fun s h hneeded => h ?_
        simp [wanted, hhands, hneeded]
      case isFalse => exact received.given needed

theorem Safe.finish (needed : Bool) (form : Operator) (operands : List Expr) :
    Safe v (NotGiven v (wanted needed form)) (finish keeps isClass form operands)
      (NotGiven v needed) := by
  refine Maintains.either (Maintains.seq (result needed form operands) mayThrow) ?_
  split
  case isTrue hform =>
    have hkeep : Safe v (NotGiven v (wanted needed form)) FieldDrop.keep (NotHeld v) :=
      keep.weaken (fun _ h => h (by simp [wanted, hform, hands, forwards])) fun _ => id
    exact Maintains.seq hkeep (Maintains.jump (by decide))
  case isFalse => exact Maintains.jump (by decide)

/-- The operands of all operators but three are run in order. -/
theorem exprFlow_operator (operands : List Expr) (hliteral : ∀ t, form ≠ .literal t)
    (hthis : form ≠ .this) (hternary : form ≠ .ternary) :
    exprFlow keeps isClass (.operator form operands) =
      plain.seq ((operandsFlow keeps isClass form 0 operands).seq
        (finish keeps isClass form operands)) := by
  cases form <;> first | rfl | simp at hliteral hthis hternary

theorem tame_cons {rest : List Expr} (h : exprsTame keeps v (e :: rest) = true) :
    exprTame keeps v e = true ∧ exprsTame keeps v rest = true :=
  Bool.and_eq_true_iff.mp h

/-- Only a variable and a chain from one are borrowed. -/
theorem UseSafe.data {needed : Bool} (h : UseSafe v needed e) (hvar : ∀ x, e ≠ .var x)
    (hoperator : ∀ form operands, e ≠ .operator form operands) :
    exprUsesVarSafely .fieldDrop v .data e = true := by
  rcases h with h | ⟨-, hplace⟩
  · exact h
  · cases e with
    | var x => exact absurd rfl (hvar x)
    | operator form operands => exact absurd rfl (hoperator form operands)
    | _ => exact (Bool.and_eq_true_iff.mp hplace).1

mutual
theorem exprFlow_safe (needed : Bool) :
    ∀ e, UseSafe v needed e → exprTame keeps v e = true →
      Safe v anyOwners (exprFlow keeps isClass e) (NotGiven v needed)
  | .var x, hsafe, _ => by
    refine Safe.load.weaken (fun _ => id) fun s h hneeded hvalue hmem => ?_
    have hx := h hvalue hmem
    rcases hsafe with hdata | ⟨hnot, -⟩
    · have hdata : (if x = v then decide (ExprCtx.data = .base) else true) = true := hdata
      simp [hx] at hdata
    · simp [hneeded] at hnot
  | .assign x value, hsafe, htame => by
    have hdata := hsafe.data (by simp) (by simp)
    have hparts : x ≠ v ∧ exprUsesVarSafely .fieldDrop v .data value = true := by
      by_cases hmention : exprMentionsVar v (.assign x value) = true
      · have hassign := Bool.and_eq_true_iff.mp (of_mentioned hmention hdata)
        exact ⟨of_decide_eq_true hassign.1, hassign.2⟩
      · have hnone := Bool.or_eq_false_iff.mp (Bool.not_eq_true _ ▸ hmention)
        exact ⟨of_decide_eq_false hnone.1, safe_of_not_mention hnone.2⟩
    have hvalue := exprFlow_safe true value (.inl hparts.2) htame
    exact Maintains.seq (hvalue.weaken (fun _ => id) fun _ h => h rfl)
      ((Safe.take hparts.1).given needed)
  | .operator form operands, hsafe, htame => by
    have htames := exprsTame_of_operator htame
    by_cases hliteral : ∃ t, form = .literal t
    · obtain ⟨t, rfl⟩ := hliteral
      exact Maintains.seq (Safe.plainGiven _) (Maintains.seq Maintains.skip (Safe.finish _ _ _))
    by_cases hthis : form = .this
    · subst hthis
      exact Maintains.seq (Safe.plainGiven _) (Maintains.seq Maintains.skip (Safe.finish _ _ _))
    have hoperands := operandsSafe_of_use (not_exists.mp hliteral) hthis hsafe htame
    by_cases hternary : form = .ternary
    · subst hternary
      have hflow := ternaryFlow_safe (wanted needed .ternary) operands hoperands htames
      exact Maintains.seq (Safe.plainGiven _) (Maintains.seq hflow (Safe.finish _ _ _))
    · have hflow := operandsFlow_safe form (wanted needed form) 0 operands hoperands htames
      rw [exprFlow_operator operands (not_exists.mp hliteral) hthis hternary]
      exact Maintains.seq (Safe.plainGiven _) (Maintains.seq hflow (Safe.finish _ _ _))
  | .structLiteral className keys fields update, _, htame => by
    replace htame := both₄ htame
    have hfields := operandsFlow_safe .arrayLiteral false 0 fields (.of_data htame.1.2 _ _) htame.1.1.1
    have hupdate := exprOptionFlow_safe false update
      (by rintro e rfl; exact useSafe_of_base htame.2) htame.1.1.2
    exact Maintains.seq (Safe.plainGiven _) (Maintains.seq hfields.forget (Maintains.seq hupdate
      (Maintains.seq (Safe.construct.given needed) Safe.mayThrow)))
  | .lambda params returnType body, _, htame =>
    Maintains.seq (Safe.capture (of_decide_eq_true htame)) (Safe.plainGiven needed)
  | .asyncBlock returnType body, _, htame =>
    Maintains.seq (Safe.capture (of_decide_eq_true htame)) (Safe.plainGiven needed)
  | .chanRecv receiver channel site, hsafe, htame => by
    have hdata := hsafe.data (by simp) (by simp)
    have hchannel : exprMentionsVar v channel = false := Bool.not_eq_true' _ ▸ hdata
    replace htame := (Bool.and_eq_true_iff.mp htame).imp_left of_decide_eq_true
    have hflow := exprFlow_safe false channel (.inl (safe_of_not_mention hchannel)) htame.2
    exact Maintains.seq hflow.forget (Maintains.seq Safe.mayThrow (Maintains.seq Safe.received
      ((Safe.take htame.1).given needed)))
theorem operandsFlow_safe (form : Operator) (needed : Bool) :
    ∀ i es, OperandsSafe keeps v form needed i es → exprsTame keeps v es = true →
      Safe v (NotGiven v needed) (operandsFlow keeps isClass form i es) (NotGiven v needed)
  | _, [], _, _ => Maintains.skip
  | i, e :: rest, hsafe, htame => by
    obtain ⟨htame, htames⟩ := tame_cons htame
    have hhead := exprFlow_safe (needed || keepsOperand keeps form i) e hsafe.1 htame
    have hrest := operandsFlow_safe form needed (i + 1) rest hsafe.2 htames
    refine Maintains.seq (hhead.weaken (fun _ _ => trivial) fun _ => id) (Maintains.seq ?_ hrest)
    split
    case isTrue hkeeps =>
      exact Safe.keep.weaken (fun _ h => h (by simp [hkeeps])) fun _ h _ => h
    case isFalse =>
      exact Maintains.skip.weaken (fun _ => id) fun _ h hneeded => h (by simp [hneeded])
theorem ternaryFlow_safe (needed : Bool) :
    ∀ es, OperandsSafe keeps v .ternary needed 0 es → exprsTame keeps v es = true →
      Safe v (NotGiven v needed) (ternaryFlow keeps isClass es) (NotGiven v needed)
  | [], _, _ => Maintains.skip
  | e :: rest, hsafe, htame => by
    obtain ⟨htame, htames⟩ := tame_cons htame
    have hhead := exprFlow_safe _ e hsafe.1 htame
    exact Maintains.seq (hhead.weaken (fun _ _ => trivial) fun _ => id) (Maintains.seq
      (Safe.plainGiven _) (branchesFlow_safe needed 1 rest hsafe.2 htames))
theorem branchesFlow_safe (needed : Bool) :
    ∀ i es, OperandsSafe keeps v .ternary needed i es → exprsTame keeps v es = true →
      Safe v (NotGiven v needed) (branchesFlow keeps isClass es) (NotGiven v needed)
  | _, [], _, _ => Maintains.skip
  | i, e :: rest, hsafe, htame => by
    obtain ⟨htame, htames⟩ := tame_cons htame
    have hhead := exprFlow_safe _ e hsafe.1 htame
    exact Maintains.either
      (hhead.weaken (fun _ _ => trivial) fun _ h hneeded => h (by simp [hneeded]))
      (branchesFlow_safe needed (i + 1) rest hsafe.2 htames)
theorem exprOptionFlow_safe (needed : Bool) :
    ∀ e, (∀ e', e = some e' → UseSafe v needed e') → exprOptionTame keeps v e = true →
      Safe v anyOwners (exprOptionFlow keeps isClass e) (NotGiven v needed)
  | none, _, _ => Safe.plainGiven needed
  | some e, hsafe, htame => exprFlow_safe needed e (hsafe e rfl) htame
end

theorem constructedClass_eq_some {className : Name}
    (h : constructedClass isClass form operands = some className) : form = .call := by
  unfold constructedClass at h
  split at h
  · rfl
  · simp at h

theorem result_new (hnew : newInstance keeps isClass (.operator form operands) = true) :
    (form = .call ∨ form = .copy) ∧
      ∀ r, Safe v r (result keeps isClass form operands) NewValue := by
  rw [newInstance] at hnew
  cases hclass : constructedClass isClass form operands with
  | some className =>
    refine ⟨.inl (constructedClass_eq_some hclass), fun r => ?_⟩
    rw [result, hclass]
    exact Safe.constructNew (by simpa [hclass] using hnew)
  | none =>
    have hcopy : form = .copy := by simpa [hclass] using hnew
    refine ⟨.inr hcopy, fun r => ?_⟩
    rw [result, hclass]
    simp only [if_pos hcopy]
    exact Safe.create

/-- The value of a construction, or of a copy, is nowhere else. -/
theorem newInstance_safe (hnew : newInstance keeps isClass e = true)
    (hsafe : exprUsesVarSafely .fieldDrop v .data e = true) (htame : exprTame keeps v e = true) :
    Safe v anyOwners (exprFlow keeps isClass e) NewValue := by
  cases e with
  | operator form operands =>
    obtain ⟨hform, hresult⟩ := result_new (v := v) hnew
    have hliteral : ∀ t, form ≠ .literal t := by rintro t rfl; simp at hform
    have hthis : form ≠ .this := by rintro rfl; simp at hform
    have hternary : form ≠ .ternary := by rintro rfl; simp at hform
    have hpropagate : form ≠ .propagate := by rintro rfl; simp at hform
    have hflow : Safe v (NotGiven v (hands form)) (operandsFlow keeps isClass form 0 operands) _ :=
      operandsFlow_safe form (hands form) 0 operands
        (operandsSafe_of_data hliteral hthis hsafe htame) (exprsTame_of_operator htame)
    rw [exprFlow_operator operands hliteral hthis hternary, finish, if_neg hpropagate]
    exact Maintains.seq (Safe.plainGiven _) (Maintains.seq hflow
      (Maintains.either (Maintains.seq (hresult _) Safe.mayThrow) (Maintains.jump (by decide))))
  | structLiteral className keys fields update =>
    have hkeeps : keeps className = false := by simpa [newInstance] using hnew
    replace htame := both₄ htame
    have hfields : Safe v (NotGiven v false) (operandsFlow keeps isClass .arrayLiteral 0 fields) _ :=
      operandsFlow_safe .arrayLiteral false 0 fields (.of_data htame.1.2 _ _) htame.1.1.1
    have hupdate : Safe v anyOwners (exprOptionFlow keeps isClass update) (NotGiven v false) :=
      exprOptionFlow_safe false update (by rintro e rfl; exact useSafe_of_base htame.2) htame.1.1.2
    exact Maintains.seq (Safe.plainGiven _) (Maintains.seq hfields.forget (Maintains.seq hupdate
      (Maintains.seq (Safe.constructNew hkeeps) Safe.mayThrow)))
  | _ => simp [newInstance] at hnew

/-! ### Statements -/

theorem Safe.test (hsafe : exprUsesVarSafely .fieldDrop v .data e = true) (htame : exprTame keeps v e = true) :
    Safe v anyOwners (exprFlow keeps isClass e) (NotHeld v) :=
  (exprFlow_safe true e (.inl hsafe) htame).weaken (fun _ => id) fun _ h => h rfl

theorem Safe.testOption {e : Option Expr} (hsafe : exprOptionUsesVarSafely .fieldDrop v .data true e = true)
    (htame : exprOptionTame keeps v e = true) :
    Safe v anyOwners (exprOptionFlow keeps isClass e) (NotHeld v) :=
  (exprOptionFlow_safe true e (by rintro e' rfl; exact .inl hsafe) htame).weaken (fun _ => id)
    fun _ h => h rfl

/-- A part that binds another variable to something from other code. -/
theorem Safe.binding {x : Name} (hx : x ≠ v) {p : Behaviour Owners} {r : Owners → Prop}
    (hp : Safe v anyOwners p anyOwners) :
    Safe v r (FieldDrop.received.seq ((FieldDrop.take x).seq p)) anyOwners :=
  Maintains.seq received (Maintains.seq (take hx).forget hp)

variable {view : Option Bool}

theorem Safe.declare {x : Name} {isStatic : Bool} (hx : x ≠ v ∨ view.isSome = true) :
    Safe v (NotHeld v) (declare x isStatic view) anyOwners := by
  unfold FieldDrop.declare
  split
  case isTrue => exact plain.forget
  case isFalse hview =>
    refine Maintains.seq (m := NotHeld v) ?_ (take (hx.resolve_right hview)).forget
    split
    · exact keep
    · exact Maintains.skip

/-- The declaration of the variable itself, of an instance that nothing else has. -/
theorem Safe.declareNew : Safe v NewValue (FieldDrop.declare v false view) anyOwners := by
  unfold FieldDrop.declare
  split
  · exact plain.forget
  · exact Maintains.seq Maintains.skip takeNew

/-- A declaration of the variable without an initializer. -/
theorem Safe.declarePlain {isStatic : Bool} :
    Safe v (fun s => s.value = false) (FieldDrop.declare v isStatic view) anyOwners := by
  have hnew : ∀ s : Owners, s.value = false → NewValue s := fun s h hvalue => by simp [h] at hvalue
  unfold FieldDrop.declare
  split
  · exact plain.forget
  · refine Maintains.seq (m := NewValue) ?_ takeNew
    split
    · refine effect fun s halone hvalue => ⟨⟨?_, ?_⟩, hnew _ hvalue⟩
      · simpa [hvalue] using halone.sole
      · simpa [hvalue] using halone.fresh
    · exact Maintains.skip.weaken (fun _ => id) hnew

theorem varFlow_safe {x : Name} {initializer : Option Expr} {isStatic : Bool}
    (hsafe : exprOptionUsesVarSafely .fieldDrop v .data true initializer = true)
    (htame : exprOptionTame keeps v initializer = true)
    (hnew : (x ≠ v ∨ view.isSome = true) ∨
      (initializer.all fun e => !isStatic && newInstance keeps isClass e) = true) :
    Safe v anyOwners ((exprOptionFlow keeps isClass initializer).seq (declare x isStatic view))
      anyOwners := by
  by_cases hx : x ≠ v ∨ view.isSome = true
  · exact Maintains.seq (Safe.testOption hsafe htame) (Safe.declare hx)
  · obtain rfl : x = v := by
      by_contra hne
      exact hx (.inl hne)
    cases initializer with
    | none => exact Maintains.seq Safe.plain Safe.declarePlain
    | some e =>
      have hinit : isStatic = false ∧ newInstance keeps isClass e = true := by
        simpa using hnew.resolve_left hx
      obtain ⟨rfl, hinit⟩ := hinit
      exact Maintains.seq (newInstance_safe hinit hsafe htame) Safe.declareNew

mutual
theorem stmtFlow_safe :
    ∀ s, stmtUsesVarSafely .fieldDrop v s = true → stmtTame keeps isClass v s = true →
      (∀ edge ∈ copyEdges s, edge.1 ≠ v) →
      Safe v anyOwners (stmtFlow keeps isClass s) anyOwners
  | .expression e, hsafe, htame, _ => (Safe.test hsafe htame).forget
  | .say e, hsafe, htame, _ => Maintains.seq (Safe.test hsafe htame).forget Safe.mayThrow
  | .var x ann initializer isStatic isConst view, hsafe, htame, hedges => by
    replace htame := Bool.and_eq_true_iff.mp htame
    refine varFlow_safe ?_ htame.1 (by simpa using htame.2)
    cases initializer with
    | none => rfl
    | some initializer =>
      replace hsafe := Bool.or_eq_true_iff.mp hsafe
      refine hsafe.resolve_left fun hcopy => ?_
      cases initializer <;> simp [copySource] at hcopy
      subst hcopy
      exact hedges _ (List.mem_singleton_self _) rfl
  | .block statements, hsafe, htame, hedges => stmtsFlow_safe statements hsafe htame hedges
  | .ifThen condition thenBranch elifs elseBranch, hsafe, htame, hedges => by
    replace hsafe := both₄ hsafe
    replace htame := both₄ htame
    replace hedges := edges₃ hedges
    have hthen := stmtFlow_safe thenBranch hsafe.1.1.2 htame.1.1.2 hedges.1.1
    have helse := stmtOptionFlow_safe elseBranch hsafe.2 htame.2 hedges.2
    have helifs := elifsFlow_safe helse elifs hsafe.1.2 htame.1.2 hedges.1.2
    exact Maintains.seq (Safe.test hsafe.1.1.1 htame.1.1.1).forget (Maintains.either hthen helifs)
  | .while condition body, hsafe, htame, hedges => by
    replace hsafe := Bool.and_eq_true_iff.mp hsafe
    replace htame := Bool.and_eq_true_iff.mp htame
    have hbody := stmtFlow_safe body hsafe.2 htame.2 hedges
    exact Maintains.loop (Maintains.seq (Safe.test hsafe.1 htame.1).forget
      (Maintains.either (Maintains.jump (by decide)) (Maintains.rename hbody)))
  | .doWhile body condition, hsafe, htame, hedges => by
    replace hsafe := Bool.and_eq_true_iff.mp hsafe
    replace htame := Bool.and_eq_true_iff.mp htame
    have hbody := stmtFlow_safe body hsafe.1 htame.1 hedges
    exact Maintains.loop (Maintains.seq (Maintains.rename hbody)
      (Maintains.seq (Safe.test hsafe.2 htame.2).forget
        (Maintains.either (Maintains.jump (by decide)) Maintains.skip)))
  | .for init condition update body, hsafe, htame, hedges => by
    replace hsafe := both₄ hsafe
    replace htame := both₄ htame
    replace hedges := edges₂ hedges
    have hinit := stmtOptionFlow_safe init hsafe.1.1.1 htame.1.1.1 hedges.1
    have hbody := stmtFlow_safe body hsafe.2 htame.2 hedges.2
    have hupdate : Safe v anyOwners (exprOptionFlow keeps isClass update) anyOwners :=
      (Safe.testOption hsafe.1.2 htame.1.2).forget
    exact Maintains.seq hinit (Maintains.loop (Maintains.seq
      (Safe.testOption hsafe.1.1.2 htame.1.1.2).forget (Maintains.either (Maintains.jump (by decide))
        (Maintains.seq (Maintains.rename hbody) hupdate))))
  | .each form x source site body, hsafe, htame, hedges => by
    have hparts : (exprUsesVarSafely .fieldDrop v .data source = true ∧ stmtUsesVarSafely .fieldDrop v body = true) ∧
        ∀ edge ∈ copyEdges body, edge.1 ≠ v := by
      cases form with
      | chanRecvFor => exact absurd hsafe Bool.false_ne_true
      | _ => exact ⟨Bool.and_eq_true_iff.mp hsafe, hedges⟩
    replace htame := both₃ htame
    have hbody := stmtFlow_safe body hparts.1.2 htame.2 hparts.2
    have hother : x ≠ v := of_decide_eq_true htame.1.1
    exact Maintains.seq (Safe.test hparts.1.1 htame.1.2).forget (Maintains.loop
      (Maintains.either (Maintains.jump (by decide)) (Maintains.rename (hbody.binding hother))))
  | .go call block site, hsafe, _, _ => absurd hsafe Bool.false_ne_true
  | .ret value, hsafe, htame, _ => by
    exact Maintains.seq (Safe.testOption hsafe htame)
      (Maintains.seq Safe.keep (Maintains.jump (by decide)))
  | .throw value, hsafe, htame, _ =>
    Maintains.seq (Safe.test hsafe htame) (Maintains.seq Safe.keep (Maintains.jump (by decide)))
  | .break, _, _, _ => Maintains.jump (by decide)
  | .continue, _, _, _ => Maintains.jump (by decide)
  | .match scrutinee cases defaultCase, hsafe, htame, hedges => by
    replace hsafe := both₃ hsafe
    replace htame := both₃ htame
    replace hedges := edges₂ hedges
    have hdefault := stmtOptionFlow_safe defaultCase hsafe.2 htame.2 hedges.2
    have hcases := casesFlow_safe hdefault cases hsafe.1.2 htame.1.2 hedges.1
    exact Maintains.seq (Safe.test hsafe.1.1 htame.1.1).forget hcases
  | .tryCatch body none last, hsafe, htame, hedges => by
    replace hsafe := Bool.and_eq_true_iff.mp hsafe
    replace htame := both₃ htame
    replace hedges := edges₂ hedges
    have hbody := stmtFlow_safe body hsafe.1 htame.1.1 hedges.1
    have hlast := stmtOptionFlow_safe last hsafe.2 htame.2 hedges.2
    exact hbody.withFinally hlast
  | .tryCatch body (some (.mk x handler)) last, hsafe, htame, hedges => by
    replace hsafe := both₃ hsafe
    replace htame := both₃ htame
    replace hedges := edges₃ hedges
    have hbody := stmtFlow_safe body hsafe.1.1 htame.1.1 hedges.1.1
    have hclause := Bool.and_eq_true_iff.mp htame.1.2
    have hhandler := stmtFlow_safe handler hsafe.1.2 hclause.2 hedges.1.2
    have hlast := stmtOptionFlow_safe last hsafe.2 htame.2 hedges.2
    exact Safe.withFinally
      (Maintains.handle hbody (hhandler.binding (of_decide_eq_true hclause.1))) hlast
  | .retry count body none, hsafe, htame, hedges => by
    replace hsafe := Bool.and_eq_true_iff.mp hsafe
    replace htame := both₃ htame
    have hbody := stmtFlow_safe body hsafe.2 htame.1.2 hedges
    exact Maintains.seq (Safe.test hsafe.1 htame.1.1).forget hbody.retrying
  | .retry count body (some (.mk x handler)), hsafe, htame, hedges => by
    replace hsafe := both₃ hsafe
    replace htame := both₃ htame
    replace hedges := edges₂ hedges
    have hbody := stmtFlow_safe body hsafe.1.2 htame.1.2 hedges.1
    have hclause := Bool.and_eq_true_iff.mp htame.2
    have hhandler := stmtFlow_safe handler hsafe.2 hclause.2 hedges.2
    exact Maintains.seq (Safe.test hsafe.1.1 htame.1.1).forget
      (Maintains.handle hbody.retrying (hhandler.binding (of_decide_eq_true hclause.1)))
  | .within form body, hsafe, htame, hedges => stmtFlow_safe body hsafe htame hedges
  | .destructure names keys initializer, hsafe, htame, _ => by
    replace htame := Bool.and_eq_true_iff.mp htame
    exact Maintains.seq (Safe.test hsafe htame.2).forget
      (Maintains.seq Safe.received (Safe.takeAll (of_decide_eq_true htame.1)).forget)
  | .function _ _ _ _ _ _, _, _, _ => Maintains.skip
  | .classDecl _ _ _ _, _, _, _ => Maintains.skip
  | .use _ _ _ _, _, _, _ => Maintains.skip
  | .enumDecl _ _ _, _, _, _ => Maintains.skip
  | .typeAlias _ _ _, _, _, _ => Maintains.skip
  | .traitDecl _ _ _ _, _, _, _ => Maintains.skip
  | .implDecl _ _ _, _, _, _ => Maintains.skip
  | .test _ _, _, _, _ => Maintains.skip
theorem stmtsFlow_safe :
    ∀ ss, stmtsUseVarSafely .fieldDrop v ss = true → stmtsTame keeps isClass v ss = true →
      (∀ edge ∈ copyEdgesAll ss, edge.1 ≠ v) →
      Safe v anyOwners (stmtsFlow keeps isClass ss) anyOwners
  | [], _, _, _ => Maintains.skip
  | s :: rest, hsafe, htame, hedges => by
    replace hsafe := Bool.and_eq_true_iff.mp hsafe
    replace htame := Bool.and_eq_true_iff.mp htame
    replace hedges := edges₂ hedges
    exact Maintains.seq (stmtFlow_safe s hsafe.1 htame.1 hedges.1)
      (stmtsFlow_safe rest hsafe.2 htame.2 hedges.2)
theorem stmtOptionFlow_safe :
    ∀ s, stmtOptionUsesVarSafely .fieldDrop v s = true → stmtOptionTame keeps isClass v s = true →
      (∀ edge ∈ copyEdgesOption s, edge.1 ≠ v) →
      Safe v anyOwners (stmtOptionFlow keeps isClass s) anyOwners
  | none, _, _, _ => Maintains.skip
  | some s, hsafe, htame, hedges => stmtFlow_safe s hsafe htame hedges
theorem elifsFlow_safe {last : Behaviour Owners} (hlast : Safe v anyOwners last anyOwners) :
    ∀ bs, elifsUseVarSafely .fieldDrop v bs = true → elifsTame keeps isClass v bs = true →
      (∀ edge ∈ copyEdgesElifs bs, edge.1 ≠ v) →
      Safe v anyOwners (elifsFlow keeps isClass last bs) anyOwners
  | [], _, _, _ => hlast
  | .mk condition body :: rest, hsafe, htame, hedges => by
    replace hsafe := both₃ hsafe
    replace htame := both₃ htame
    replace hedges := edges₂ hedges
    have hbody := stmtFlow_safe body hsafe.1.2 htame.1.2 hedges.1
    have hrest := elifsFlow_safe hlast rest hsafe.2 htame.2 hedges.2
    exact Maintains.seq (Safe.test hsafe.1.1 htame.1.1).forget (Maintains.either hbody hrest)
theorem casesFlow_safe {last : Behaviour Owners} (hlast : Safe v anyOwners last anyOwners) :
    ∀ cs, casesUseVarSafely .fieldDrop v cs = true → casesTame keeps isClass v cs = true →
      (∀ edge ∈ copyEdgesCases cs, edge.1 ≠ v) →
      Safe v anyOwners (casesFlow keeps isClass last cs) anyOwners
  | [], _, _, _ => hlast
  | .mk value variant binding guard body :: rest, hsafe, htame, hedges => by
    replace hsafe := both₄ hsafe
    replace htame := both₄ htame
    have hhead := Bool.and_eq_true_iff.mp htame.1.1.1
    replace hedges := edges₂ hedges
    have hvalue : Safe v anyOwners ((exprFlow keeps isClass value).either received) (NotHeld v) :=
      Maintains.either (Safe.test hsafe.1.1.1 hhead.2) Safe.received
    have hbind : Safe v (NotHeld v) (takeAll binding.toList) (NotHeld v) :=
      Safe.takeAll (by simpa using hhead.1)
    have hguard : Safe v anyOwners (exprOptionFlow keeps isClass guard) anyOwners :=
      (Safe.testOption hsafe.1.1.2 htame.1.1.2).forget
    have hbody := stmtFlow_safe body hsafe.1.2 htame.1.2 hedges.1
    have hrest := casesFlow_safe hlast rest hsafe.2 htame.2 hedges.2
    exact Maintains.either (Maintains.seq hvalue (Maintains.seq hbind.forget
      (Maintains.seq hguard (Maintains.either hbody hrest)))) hrest
end

end

/-! ### Fields dropped once -/

/-- The function is called: its parameters may have the instance, which the caller then has. -/
structure Starts (params : List Name) (s : Owners) : Prop where
  plain : s.value = false
  passed : ∀ x ∈ s.holders, x ∈ params ∧ s.outside = true
  fresh : s.created = false → s.holders = [] ∧ s.outside = false

/-- At the end of every execution, an instance that a variable of this name has taken was taken by
no other variable, nor a second time, and nothing else has it. Since what has once taken an instance
stays recorded, this holds at every moment before as well. -/
def DropsOnce (keeps isClass : Name → Bool) (params : List Name) (body : List Stmt) (v : Name) :
    Prop :=
  ∀ start o s, Starts params start → stmtsFlow keeps isClass body start o s →
    v ∈ s.holders → s.holders = [v] ∧ s.outside = false

theorem Starts.alone {params : List Name} {s : Owners} {v : Name} (h : Starts params s)
    (hv : v ∉ params) : Alone v s := by
  refine ⟨fun hmem => absurd (h.passed v hmem).1 hv, fun hnew => ?_⟩
  obtain ⟨hholders, houtside⟩ := h.fresh hnew
  exact ⟨hholders, h.plain, houtside⟩

theorem dropsOnce_of_tame (keeps isClass : Name → Bool) (params : List Name) (body : List Stmt)
    (v : Name) (hv : v ∈ analyzeClassDrops isClass body) (hparams : v ∉ params)
    (htame : stmtsTame keeps isClass v body = true) : DropsOnce keeps isClass params body v := by
  intro start o s hstart hrun hmem
  have hsafe : Safe v anyOwners (stmtsFlow keeps isClass body) anyOwners :=
    stmtsFlow_safe body (safe_of_mem_analyze hv) htame (not_copied_of_mem_analyze hv)
  exact (hsafe ⟨hstart.alone hparams, trivial⟩ hrun).1.sole hmem

/-! ### An instance with one owner, and one with two -/

section
variable {keeps isClass : Name → Bool}

theorem seq_run {p q : Behaviour Owners} {s s' : Owners} {o : Outcome} (t : Owners)
    (hp : p s .normal t) (hq : q t o s') : p.seq q s o s' := .inl ⟨t, hp, hq⟩

/-- An operator whose result is none of its operands may have a result of its own. -/
theorem finish_run {form : Operator} {operands : List Expr}
    (hclass : constructedClass isClass form operands = none) (hcopy : form ≠ .copy)
    (hhands : hands form = false) (s : Owners) :
    finish keeps isClass form operands s .normal { s with value := false } := by
  refine .inl (seq_run _ ?_ (.inl ⟨rfl, rfl⟩))
  rw [result, hclass]
  simp only [if_neg hcopy, hhands]
  exact .inl ⟨rfl, false, by simp, rfl⟩

theorem literal_run (t : Name) (s : Owners) :
    exprFlow keeps isClass (.operator (.literal t) []) s .normal { s with value := false } := by
  exact seq_run _ ⟨rfl, rfl⟩ (seq_run _ ⟨rfl, rfl⟩ (finish_run rfl (by simp) rfl _))

/-- `var p = Point()`. -/
def newPoint : Stmt := .var "p" none (some (.operator .call [.var "Point"])) false false none

theorem newPoint_run (hkeeps : keeps "Point" = false) :
    stmtFlow keeps (· = "Point") newPoint ⟨false, [], false, false⟩ .normal
      ⟨true, ["p"], true, false⟩ := by
  change Behaviour.seq (exprFlow _ _ _) _ _ _ _
  rw [exprFlow_operator _ (by simp) (by simp) (by simp)]
  refine seq_run ⟨true, [], true, false⟩ (seq_run _ ⟨rfl, rfl⟩
    (seq_run ⟨false, [], false, false⟩ ?_ ?_)) (seq_run _ ⟨rfl, rfl⟩ ⟨rfl, rfl⟩)
  · exact seq_run _ ⟨rfl, false, by simp, rfl⟩ (seq_run _ ⟨rfl, rfl⟩ ⟨rfl, rfl⟩)
  · have hresult : result keeps (· = "Point") .call [.var "Point"] = construct keeps "Point" := rfl
    rw [finish, hresult, construct, hkeeps]
    exact .inl (seq_run _ (seq_run _ ⟨rfl, true, by simp, rfl⟩ ⟨rfl, rfl⟩) (.inl ⟨rfl, rfl⟩))

end

/-- `var p = Point(); p.x = 3`. -/
def writtenPoint : List Stmt :=
  [newPoint, .expression (.operator (.memberSet "x") [.var "p", .operator (.literal "3") []])]

theorem writtenPoint_run :
    stmtsFlow (fun _ => false) (· = "Point") writtenPoint ⟨false, [], false, false⟩ .normal
      ⟨true, ["p"], false, false⟩ := by
  refine seq_run _ (newPoint_run rfl) (seq_run _ ?_ ⟨rfl, rfl⟩)
  change exprFlow _ _ _ _ _ _
  rw [exprFlow_operator _ (by simp) (by simp) (by simp)]
  refine seq_run _ ⟨rfl, rfl⟩ (seq_run ⟨true, ["p"], false, false⟩ ?_
    (finish_run rfl (by simp) rfl _))
  exact seq_run _ ⟨rfl, true, by simp, rfl⟩ (seq_run _ ⟨rfl, rfl⟩
    (seq_run _ (literal_run "3" _) (seq_run _ ⟨rfl, rfl⟩ ⟨rfl, rfl⟩)))

theorem dropsOnce_writtenPoint :
    DropsOnce (fun _ => false) (· = "Point") ["n"] writtenPoint "p" ∧
      Starts ["n"] ⟨false, [], false, false⟩ ∧
      ∃ s, stmtsFlow (fun _ => false) (· = "Point") writtenPoint ⟨false, [], false, false⟩ .normal s ∧
        s.holders = ["p"] :=
  ⟨dropsOnce_of_tame (fun _ => false) (· = "Point") ["n"] writtenPoint "p" (by decide) (by decide)
    (by decide), ⟨rfl, by simp, by simp⟩, _, writtenPoint_run, rfl⟩

/-- `var p = Point(); return (p, 1)`. -/
def returnedTuple : List Stmt :=
  [newPoint, .ret (some (.operator .tupleLiteral [.var "p", .operator (.literal "1") []]))]

/-- The literal `1` makes the tuple a safe use of `p`. -/
theorem not_dropsOnce_returnedTuple :
    "p" ∈ analyzeClassDrops (· = "Point") returnedTuple ∧
      ¬ DropsOnce (fun _ => false) (· = "Point") [] returnedTuple "p" := by
  refine ⟨by decide, fun honce => ?_⟩
  have hrun : stmtsFlow (fun _ => false) (· = "Point") returnedTuple ⟨false, [], false, false⟩
      .returned ⟨true, ["p"], false, true⟩ := by
    refine seq_run _ (newPoint_run rfl) (.inr ⟨by decide, ?_⟩)
    change Behaviour.seq (exprFlow _ _ _) _ _ _ _
    rw [exprFlow_operator _ (by simp) (by simp) (by simp)]
    refine seq_run ⟨true, ["p"], false, true⟩ (seq_run _ ⟨rfl, rfl⟩
      (seq_run ⟨true, ["p"], false, true⟩ ?_ (finish_run rfl (by simp) rfl _)))
      (seq_run _ ⟨rfl, rfl⟩ ⟨rfl, rfl⟩)
    exact seq_run _ ⟨rfl, true, by simp, rfl⟩ (seq_run _ ⟨rfl, rfl⟩
      (seq_run _ (literal_run "1" _) (seq_run _ ⟨rfl, rfl⟩ ⟨rfl, rfl⟩)))
  have hstart : Starts [] ⟨false, [], false, false⟩ := ⟨rfl, by simp, by simp⟩
  exact absurd (honce _ _ _ hstart hrun (by decide)).2 (by decide)

end Neutron.FieldDrop
