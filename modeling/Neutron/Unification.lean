import Neutron.SourceTree
import Neutron.TypeNames

/-!
# Unification of annotations

`unify` finds the type arguments of a call. It goes down a pattern along one path, to the first place that is
a type parameter or that it has no rule for; a place without a rule is accepted as it is. A parameter that is
bound already is compared with the spans of the tokens.
-/

namespace Neutron.Source

/-! ## Equality with spans -/

mutual
/-- The derived `PartialEq` of `TypeAnnotation`. -/
def eqType : TypeAnnotation → TypeAnnotation → Bool
  | .int, .int => true
  | .float, .float => true
  | .string, .string => true
  | .bool, .bool => true
  | .object, .object => true
  | .any, .any => true
  | .pointer, .pointer => true
  | .array left, .array right => eqOption left right
  | .slice left, .slice right => eqOption left right
  | .option left, .option right => eqType left right
  | .shared left, .shared right => eqType left right
  | .own left, .own right => eqType left right
  | .chan left, .chan right => eqType left right
  | .result ok err, .result ok' err' => eqType ok ok' && eqType err err'
  | .view left leftMut, .view right rightMut => eqType left right && leftMut = rightMut
  | .ref left leftMut, .ref right rightMut => eqType left right && leftMut = rightMut
  | .rawPointer left leftMut, .rawPointer right rightMut => eqType left right && leftMut = rightMut
  | .named left, .named right => left = right
  | .implTrait left, .implTrait right => left = right
  | .dyn left, .dyn right => left = right
  | .tuple left, .tuple right => eqTypes left right
  | _, _ => false
def eqOption : Option TypeAnnotation → Option TypeAnnotation → Bool
  | none, none => true
  | some left, some right => eqType left right
  | _, _ => false
def eqTypes : List TypeAnnotation → List TypeAnnotation → Bool
  | [], [] => true
  | left :: lefts, right :: rights => eqType left right && eqTypes lefts rights
  | _, _ => false
end

mutual
theorem eqType_self : ∀ ty : TypeAnnotation, eqType ty ty = true
  | .int | .float | .string | .bool | .object | .any | .pointer => rfl
  | .named _ | .implTrait _ | .dyn _ => decide_eq_true rfl
  | .array element | .slice element => eqOption_self element
  | .option inner | .shared inner | .own inner | .chan inner => eqType_self inner
  | .result ok err => (Bool.and_eq_true _ _).mpr ⟨eqType_self ok, eqType_self err⟩
  | .view inner _ | .ref inner _ | .rawPointer inner _ =>
    (Bool.and_eq_true _ _).mpr ⟨eqType_self inner, decide_eq_true rfl⟩
  | .tuple elements => eqTypes_self elements
theorem eqOption_self : ∀ ty : Option TypeAnnotation, eqOption ty ty = true
  | none => rfl
  | some ty => eqType_self ty
theorem eqTypes_self : ∀ types : List TypeAnnotation, eqTypes types types = true
  | [] => rfl
  | ty :: types => (Bool.and_eq_true _ _).mpr ⟨eqType_self ty, eqTypes_self types⟩
end

mutual
theorem eq_of_eqType : ∀ left right : TypeAnnotation, eqType left right = true → left = right
  | .int, right, h => by cases right <;> first | rfl | cases h
  | .float, right, h => by cases right <;> first | rfl | cases h
  | .string, right, h => by cases right <;> first | rfl | cases h
  | .bool, right, h => by cases right <;> first | rfl | cases h
  | .object, right, h => by cases right <;> first | rfl | cases h
  | .any, right, h => by cases right <;> first | rfl | cases h
  | .pointer, right, h => by cases right <;> first | rfl | cases h
  | .named left, right, h => by
    cases right with
    | named right => exact congrArg TypeAnnotation.named (of_decide_eq_true h)
    | _ => cases h
  | .implTrait left, right, h => by
    cases right with
    | implTrait right => exact congrArg TypeAnnotation.implTrait (of_decide_eq_true h)
    | _ => cases h
  | .dyn left, right, h => by
    cases right with
    | dyn right => exact congrArg TypeAnnotation.dyn (of_decide_eq_true h)
    | _ => cases h
  | .array left, right, h => by
    cases right with
    | array right => exact congrArg TypeAnnotation.array (eq_of_eqOption left right h)
    | _ => cases h
  | .slice left, right, h => by
    cases right with
    | slice right => exact congrArg TypeAnnotation.slice (eq_of_eqOption left right h)
    | _ => cases h
  | .option left, right, h => by
    cases right with
    | option right => exact congrArg TypeAnnotation.option (eq_of_eqType left right h)
    | _ => cases h
  | .shared left, right, h => by
    cases right with
    | shared right => exact congrArg TypeAnnotation.shared (eq_of_eqType left right h)
    | _ => cases h
  | .own left, right, h => by
    cases right with
    | own right => exact congrArg TypeAnnotation.own (eq_of_eqType left right h)
    | _ => cases h
  | .chan left, right, h => by
    cases right with
    | chan right => exact congrArg TypeAnnotation.chan (eq_of_eqType left right h)
    | _ => cases h
  | .result ok err, right, h => by
    cases right with
    | result ok' err' =>
      obtain ⟨hok, herr⟩ := (Bool.and_eq_true _ _).mp h
      rw [eq_of_eqType ok ok' hok, eq_of_eqType err err' herr]
    | _ => cases h
  | .view left leftMut, right, h => by
    cases right with
    | view right rightMut =>
      obtain ⟨hinner, hmutable⟩ := (Bool.and_eq_true _ _).mp h
      rw [eq_of_eqType left right hinner, of_decide_eq_true hmutable]
    | _ => cases h
  | .ref left leftMut, right, h => by
    cases right with
    | ref right rightMut =>
      obtain ⟨hinner, hmutable⟩ := (Bool.and_eq_true _ _).mp h
      rw [eq_of_eqType left right hinner, of_decide_eq_true hmutable]
    | _ => cases h
  | .rawPointer left leftMut, right, h => by
    cases right with
    | rawPointer right rightMut =>
      obtain ⟨hinner, hmutable⟩ := (Bool.and_eq_true _ _).mp h
      rw [eq_of_eqType left right hinner, of_decide_eq_true hmutable]
    | _ => cases h
  | .tuple left, right, h => by
    cases right with
    | tuple right => exact congrArg TypeAnnotation.tuple (eq_of_eqTypes left right h)
    | _ => cases h
theorem eq_of_eqOption : ∀ left right : Option TypeAnnotation, eqOption left right = true → left = right
  | none, none, _ => rfl
  | none, some _, h => by cases h
  | some _, none, h => by cases h
  | some left, some right, h => congrArg some (eq_of_eqType left right h)
theorem eq_of_eqTypes : ∀ left right : List TypeAnnotation, eqTypes left right = true → left = right
  | [], [], _ => rfl
  | [], _ :: _, h => by cases h
  | _ :: _, [], h => by cases h
  | left :: lefts, right :: rights, h => by
    obtain ⟨hhead, htail⟩ := (Bool.and_eq_true _ _).mp h
    rw [eq_of_eqType left right hhead, eq_of_eqTypes lefts rights htail]
end

instance : DecidableEq TypeAnnotation := fun left right =>
  decidable_of_iff (eqType left right = true)
    ⟨eq_of_eqType left right, fun h => h ▸ eqType_self left⟩

/-! ## The model -/

/-- What the parameters are bound to so far. -/
abbrev Subst := String → Option TypeAnnotation

def unify (generics : List String) : TypeAnnotation → TypeAnnotation → Subst → Option Subst
  | .named token, actual, σ =>
    if token.lexeme ∈ generics then
      match σ token.lexeme with
      | some previous => if previous = actual then some σ else none
      | none => some (Function.update σ token.lexeme (some actual))
    else some σ
  | .array (some pattern), .array (some actual), σ => unify generics pattern actual σ
  | .option pattern, .option actual, σ => unify generics pattern actual σ
  | .shared pattern, .shared actual, σ => unify generics pattern actual σ
  | .own pattern, .own actual, σ => unify generics pattern actual σ
  | .slice (some pattern), .slice (some actual), σ => unify generics pattern actual σ
  | .view pattern patternMut, .view actual actualMut, σ =>
    if patternMut = actualMut then unify generics pattern actual σ else none
  | .ref pattern patternMut, .ref actual actualMut, σ =>
    if patternMut = actualMut then unify generics pattern actual σ else none
  | .rawPointer pattern patternMut, .rawPointer actual actualMut, σ =>
    if patternMut = actualMut then unify generics pattern actual σ else none
  | .view pattern _, actual, σ => unify generics pattern actual σ
  | _, _, σ => some σ

/-! ## Instances of a pattern -/

def Token.unplaced (token : Token) : Token := ⟨token.kind, Span.dummy⟩

mutual
/-- The type without its source positions. -/
def unplaced : TypeAnnotation → TypeAnnotation
  | .named token => .named token.unplaced
  | .implTrait token => .implTrait token.unplaced
  | .dyn token => .dyn token.unplaced
  | .array element => .array (unplacedOption element)
  | .slice element => .slice (unplacedOption element)
  | .option inner => .option (unplaced inner)
  | .shared inner => .shared (unplaced inner)
  | .own inner => .own (unplaced inner)
  | .chan element => .chan (unplaced element)
  | .result ok err => .result (unplaced ok) (unplaced err)
  | .view inner mutable => .view (unplaced inner) mutable
  | .ref inner mutable => .ref (unplaced inner) mutable
  | .rawPointer inner mutable => .rawPointer (unplaced inner) mutable
  | .tuple elements => .tuple (unplacedAll elements)
  | .int => .int
  | .float => .float
  | .string => .string
  | .bool => .bool
  | .object => .object
  | .any => .any
  | .pointer => .pointer
def unplacedOption : Option TypeAnnotation → Option TypeAnnotation
  | none => none
  | some ty => some (unplaced ty)
def unplacedAll : List TypeAnnotation → List TypeAnnotation
  | [] => []
  | ty :: types => unplaced ty :: unplacedAll types
end

/-- An argument of an applied name, as `parse_type_source` reads it. -/
def parseTypeSource (span : Span) (source : List Char) : TypeAnnotation :=
  let value := TypeNames.trim source
  if value = "int".toList then .int
  else if value = "float".toList then .float
  else if value = "string".toList then .string
  else if value = "bool".toList then .bool
  else .named ⟨.identifier (String.ofList value), span⟩

/-- The base and the arguments of an applied type, which the parser writes into one name. -/
def appliedType (token : Token) : Option (List Char × List TypeAnnotation) :=
  (TypeNames.splitAppliedName token.lexeme.toList).map fun found => (found.1, found.2.map (parseTypeSource token.span))

mutual
/-- With the parameters replaced by what `τ` binds them to, the pattern is the actual type up to source
positions; a view also stands for what it is a view of. -/
inductive Matches (generics : List String) (τ : Subst) : TypeAnnotation → TypeAnnotation → Prop
  | param {token : Token} {ty actual : TypeAnnotation} (hgeneric : token.lexeme ∈ generics)
      (hbound : τ token.lexeme = some ty) (hsame : unplaced ty = unplaced actual) : Matches generics τ (.named token) actual
  | named {token token' : Token} (hplain : token.lexeme ∉ generics) (hkind : token.kind = token'.kind) :
      Matches generics τ (.named token) (.named token')
  | applied {token token' : Token} {base : List Char} {patterns actuals : List TypeAnnotation}
      (hplain : token.lexeme ∉ generics) (hpattern : appliedType token = some (base, patterns))
      (hactual : appliedType token' = some (base, actuals)) (h : MatchesAll generics τ patterns actuals) :
      Matches generics τ (.named token) (.named token')
  | int : Matches generics τ .int .int
  | float : Matches generics τ .float .float
  | string : Matches generics τ .string .string
  | bool : Matches generics τ .bool .bool
  | object : Matches generics τ .object .object
  | any : Matches generics τ .any .any
  | pointer : Matches generics τ .pointer .pointer
  | implTrait {token token' : Token} (hkind : token.kind = token'.kind) :
      Matches generics τ (.implTrait token) (.implTrait token')
  | dyn {token token' : Token} (hkind : token.kind = token'.kind) : Matches generics τ (.dyn token) (.dyn token')
  | anyArray : Matches generics τ (.array none) (.array none)
  | array {pattern actual : TypeAnnotation} (h : Matches generics τ pattern actual) :
      Matches generics τ (.array (some pattern)) (.array (some actual))
  | anySlice : Matches generics τ (.slice none) (.slice none)
  | slice {pattern actual : TypeAnnotation} (h : Matches generics τ pattern actual) :
      Matches generics τ (.slice (some pattern)) (.slice (some actual))
  | option {pattern actual : TypeAnnotation} (h : Matches generics τ pattern actual) :
      Matches generics τ (.option pattern) (.option actual)
  | shared {pattern actual : TypeAnnotation} (h : Matches generics τ pattern actual) :
      Matches generics τ (.shared pattern) (.shared actual)
  | own {pattern actual : TypeAnnotation} (h : Matches generics τ pattern actual) :
      Matches generics τ (.own pattern) (.own actual)
  | chan {pattern actual : TypeAnnotation} (h : Matches generics τ pattern actual) :
      Matches generics τ (.chan pattern) (.chan actual)
  | result {ok err ok' err' : TypeAnnotation} (hok : Matches generics τ ok ok') (herr : Matches generics τ err err') :
      Matches generics τ (.result ok err) (.result ok' err')
  | tuple {patterns actuals : List TypeAnnotation} (h : MatchesAll generics τ patterns actuals) :
      Matches generics τ (.tuple patterns) (.tuple actuals)
  | view {pattern actual : TypeAnnotation} (mutable : Bool) (h : Matches generics τ pattern actual) :
      Matches generics τ (.view pattern mutable) (.view actual mutable)
  | viewed {pattern actual : TypeAnnotation} (mutable : Bool) (hactual : ∀ inner m, actual ≠ .view inner m)
      (h : Matches generics τ pattern actual) : Matches generics τ (.view pattern mutable) actual
  | ref {pattern actual : TypeAnnotation} (mutable : Bool) (h : Matches generics τ pattern actual) :
      Matches generics τ (.ref pattern mutable) (.ref actual mutable)
  | rawPointer {pattern actual : TypeAnnotation} (mutable : Bool) (h : Matches generics τ pattern actual) :
      Matches generics τ (.rawPointer pattern mutable) (.rawPointer actual mutable)
inductive MatchesAll (generics : List String) (τ : Subst) : List TypeAnnotation → List TypeAnnotation → Prop
  | nil : MatchesAll generics τ [] []
  | cons {pattern actual : TypeAnnotation} {patterns actuals : List TypeAnnotation}
      (h : Matches generics τ pattern actual) (hrest : MatchesAll generics τ patterns actuals) :
      MatchesAll generics τ (pattern :: patterns) (actual :: actuals)
end

/-- What `σ` binds, `τ` binds to the same type up to source positions. -/
def Extends (σ τ : Subst) : Prop := ∀ x ty, σ x = some ty → ∃ ty', τ x = some ty' ∧ unplaced ty = unplaced ty'

/-- `σ'` is the least extension of `σ` that makes the pattern the actual type. -/
def LeastMatch (generics : List String) (σ : Subst) (pattern actual : TypeAnnotation) (σ' : Subst) : Prop :=
  Extends σ σ' ∧ Matches generics σ' pattern actual ∧
    ∀ τ, Extends σ τ → Matches generics τ pattern actual → Extends σ' τ

/-- The answer is true exactly when there is an extension that matches, and then it is the least one. -/
def UnifyExact (generics : List String) (σ : Subst) (pattern actual : TypeAnnotation) : Prop :=
  match unify generics pattern actual σ with
  | some σ' => LeastMatch generics σ pattern actual σ'
  | none => ∀ τ, Extends σ τ → ¬ Matches generics τ pattern actual

/-- At the place where the way down the pattern ends, there is a parameter that is not bound yet, or one bound to
the very same type or to another one; or a mutability differs; or the pattern matches there as `σ` stands. -/
def Settled (generics : List String) (σ : Subst) : TypeAnnotation → TypeAnnotation → Prop
  | .named token, actual =>
    if token.lexeme ∈ generics then
      ∀ previous, σ token.lexeme = some previous → unplaced previous = unplaced actual → previous = actual
    else Matches generics σ (.named token) actual
  | .array (some pattern), .array (some actual) => Settled generics σ pattern actual
  | .option pattern, .option actual => Settled generics σ pattern actual
  | .shared pattern, .shared actual => Settled generics σ pattern actual
  | .own pattern, .own actual => Settled generics σ pattern actual
  | .slice (some pattern), .slice (some actual) => Settled generics σ pattern actual
  | .view pattern patternMut, .view actual actualMut => patternMut = actualMut → Settled generics σ pattern actual
  | .ref pattern patternMut, .ref actual actualMut => patternMut = actualMut → Settled generics σ pattern actual
  | .rawPointer pattern patternMut, .rawPointer actual actualMut =>
    patternMut = actualMut → Settled generics σ pattern actual
  | .view pattern _, actual => Settled generics σ pattern actual
  | pattern, actual => Matches generics σ pattern actual

variable {generics : List String} {σ τ : Subst}

theorem Extends.refl (σ : Subst) : Extends σ σ := fun _ ty h => ⟨ty, h, rfl⟩

variable {pattern actual : TypeAnnotation}

/-- A place without a rule is accepted with nothing new bound. -/
theorem unifyExact_of_accepted (h : unify generics pattern actual σ = some σ) :
    UnifyExact generics σ pattern actual ↔ Matches generics σ pattern actual := by
  unfold UnifyExact
  rw [h]
  exact ⟨fun hleast => hleast.2.1, fun hmatch => ⟨Extends.refl σ, hmatch, fun τ hτ _ => hτ⟩⟩

/-- A place where the mutability differs is refused, and nothing matches there. -/
theorem unifyExact_of_refused (h : unify generics pattern actual σ = none)
    (hnone : ∀ τ, ¬ Matches generics τ pattern actual) : UnifyExact generics σ pattern actual := by
  unfold UnifyExact
  rw [h]
  exact fun τ _ => hnone τ

/-- A rule that goes on to the components is exact when they are. -/
theorem unifyExact_congr {pattern actual pattern' actual' : TypeAnnotation}
    (h : unify generics pattern actual σ = unify generics pattern' actual' σ)
    (hmatch : ∀ τ, Matches generics τ pattern actual ↔ Matches generics τ pattern' actual') :
    UnifyExact generics σ pattern actual ↔ UnifyExact generics σ pattern' actual' := by
  unfold UnifyExact LeastMatch
  rw [h]
  simp only [hmatch]

theorem unifyExact_param {token : Token} (hgeneric : token.lexeme ∈ generics) (actual : TypeAnnotation) :
    UnifyExact generics σ (.named token) actual ↔
      ∀ previous, σ token.lexeme = some previous → unplaced previous = unplaced actual → previous = actual := by
  have hmatch : ∀ τ, Matches generics τ (.named token) actual ↔
      ∃ ty, τ token.lexeme = some ty ∧ unplaced ty = unplaced actual := by
    intro τ
    constructor
    · intro h
      cases h with
      | param _ hbound hsame => exact ⟨_, hbound, hsame⟩
      | named hplain _ => exact absurd hgeneric hplain
      | applied hplain _ _ _ => exact absurd hgeneric hplain
    · rintro ⟨ty, hbound, hsame⟩
      exact Matches.param hgeneric hbound hsame
  unfold UnifyExact LeastMatch
  simp only [hmatch, unify, if_pos hgeneric]
  cases hσ : σ token.lexeme with
  | none =>
    refine iff_of_true ⟨?_, ⟨actual, Function.update_self .., rfl⟩, ?_⟩ (fun previous h => by cases h)
    · intro x ty hx
      have hne : x ≠ token.lexeme := by
        rintro rfl
        rw [hσ] at hx
        cases hx
      exact ⟨ty, (Function.update_of_ne hne ..).trans hx, rfl⟩
    · rintro τ hτ ⟨ty, hbound, hsame⟩ x ty' hx
      by_cases hname : x = token.lexeme
      · subst hname
        rw [Function.update_self] at hx
        obtain rfl := Option.some.inj hx
        exact ⟨ty, hbound, hsame.symm⟩
      · rw [Function.update_of_ne hname] at hx
        exact hτ x ty' hx
  | some previous =>
    by_cases hequal : previous = actual
    · simp only [if_pos hequal]
      refine iff_of_true ⟨Extends.refl σ, ⟨previous, hσ, congrArg unplaced hequal⟩, fun τ hτ _ => hτ⟩ ?_
      intro other hother _
      exact (Option.some.inj hother).symm.trans hequal
    · simp only [if_neg hequal]
      constructor
      · intro hnone other hother hsame
        rw [← Option.some.inj hother] at hsame
        exact absurd ⟨previous, hσ, hsame⟩ (hnone σ (Extends.refl σ))
      · rintro hidentical τ hτ ⟨ty, hbound, hsame⟩
        obtain ⟨ty', hty', hprevious⟩ := hτ _ _ hσ
        obtain rfl := Option.some.inj (hbound.symm.trans hty')
        exact hequal (hidentical previous rfl (hprevious.trans hsame))

/-- A view pattern goes on with its inner pattern when the actual type is no view. -/
theorem unifyExact_viewed {mutable : Bool} (hactual : ∀ inner m, actual ≠ .view inner m)
    (h : unify generics (.view pattern mutable) actual σ = unify generics pattern actual σ) :
    UnifyExact generics σ (.view pattern mutable) actual ↔ UnifyExact generics σ pattern actual := by
  refine unifyExact_congr h fun τ => ⟨fun hmatch => ?_, Matches.viewed mutable hactual⟩
  cases hmatch with
  | view _ _ => exact absurd rfl (hactual _ _)
  | viewed _ _ hinner => exact hinner

/-- Unification is exact if and only if the way down the pattern ends where it is settled. -/
theorem unifyExact_iff (generics : List String) (σ : Subst) : ∀ pattern actual : TypeAnnotation,
    UnifyExact generics σ pattern actual ↔ Settled generics σ pattern actual
  | .named token, actual => by
    by_cases hgeneric : token.lexeme ∈ generics
    · rw [unifyExact_param hgeneric, Settled, if_pos hgeneric]
    · rw [Settled, if_neg hgeneric]
      exact unifyExact_of_accepted (by rw [unify, if_neg hgeneric])
  | .option pattern, actual => by
    cases actual with
    | option actual =>
      rw [Settled, ← unifyExact_iff generics σ pattern actual]
      refine unifyExact_congr rfl fun τ => ⟨fun hmatch => ?_, Matches.option⟩
      cases hmatch with
      | option hinner => exact hinner
    | _ => exact unifyExact_of_accepted rfl
  | .shared pattern, actual => by
    cases actual with
    | shared actual =>
      rw [Settled, ← unifyExact_iff generics σ pattern actual]
      refine unifyExact_congr rfl fun τ => ⟨fun hmatch => ?_, Matches.shared⟩
      cases hmatch with
      | shared hinner => exact hinner
    | _ => exact unifyExact_of_accepted rfl
  | .own pattern, actual => by
    cases actual with
    | own actual =>
      rw [Settled, ← unifyExact_iff generics σ pattern actual]
      refine unifyExact_congr rfl fun τ => ⟨fun hmatch => ?_, Matches.own⟩
      cases hmatch with
      | own hinner => exact hinner
    | _ => exact unifyExact_of_accepted rfl
  | .array none, actual => by
    cases actual with
    | _ => exact unifyExact_of_accepted rfl
  | .array (some pattern), actual => by
    cases actual with
    | array element =>
      cases element with
      | none => exact unifyExact_of_accepted rfl
      | some actual =>
        rw [Settled, ← unifyExact_iff generics σ pattern actual]
        refine unifyExact_congr rfl fun τ => ⟨fun hmatch => ?_, Matches.array⟩
        cases hmatch with
        | array hinner => exact hinner
    | _ => exact unifyExact_of_accepted rfl
  | .slice none, actual => by
    cases actual with
    | _ => exact unifyExact_of_accepted rfl
  | .slice (some pattern), actual => by
    cases actual with
    | slice element =>
      cases element with
      | none => exact unifyExact_of_accepted rfl
      | some actual =>
        rw [Settled, ← unifyExact_iff generics σ pattern actual]
        refine unifyExact_congr rfl fun τ => ⟨fun hmatch => ?_, Matches.slice⟩
        cases hmatch with
        | slice hinner => exact hinner
    | _ => exact unifyExact_of_accepted rfl
  | .ref pattern patternMut, actual => by
    cases actual with
    | ref actual actualMut =>
      rw [Settled, ← unifyExact_iff generics σ pattern actual]
      by_cases hmutable : patternMut = actualMut
      · subst hmutable
        rw [forall_prop_of_true rfl]
        refine unifyExact_congr (if_pos rfl) fun τ => ⟨fun hmatch => ?_, Matches.ref patternMut⟩
        cases hmatch with
        | ref _ hinner => exact hinner
      · refine iff_of_true (unifyExact_of_refused (if_neg hmutable) fun τ hmatch => ?_) (fun h => absurd h hmutable)
        cases hmatch with
        | ref _ _ => exact hmutable rfl
    | _ => exact unifyExact_of_accepted rfl
  | .rawPointer pattern patternMut, actual => by
    cases actual with
    | rawPointer actual actualMut =>
      rw [Settled, ← unifyExact_iff generics σ pattern actual]
      by_cases hmutable : patternMut = actualMut
      · subst hmutable
        rw [forall_prop_of_true rfl]
        refine unifyExact_congr (if_pos rfl) fun τ => ⟨fun hmatch => ?_, Matches.rawPointer patternMut⟩
        cases hmatch with
        | rawPointer _ hinner => exact hinner
      · refine iff_of_true (unifyExact_of_refused (if_neg hmutable) fun τ hmatch => ?_) (fun h => absurd h hmutable)
        cases hmatch with
        | rawPointer _ _ => exact hmutable rfl
    | _ => exact unifyExact_of_accepted rfl
  | .view pattern patternMut, actual => by
    cases actual with
    | view actual actualMut =>
      rw [Settled, ← unifyExact_iff generics σ pattern actual]
      by_cases hmutable : patternMut = actualMut
      · subst hmutable
        rw [forall_prop_of_true rfl]
        refine unifyExact_congr (if_pos rfl) fun τ => ⟨fun hmatch => ?_, Matches.view patternMut⟩
        cases hmatch with
        | view _ hinner => exact hinner
        | viewed _ hactual _ => exact absurd rfl (hactual _ _)
      · refine iff_of_true (unifyExact_of_refused (if_neg hmutable) fun τ hmatch => ?_) (fun h => absurd h hmutable)
        cases hmatch with
        | view _ _ => exact hmutable rfl
        | viewed _ hactual _ => exact absurd rfl (hactual _ _)
    | _ =>
      rw [unifyExact_viewed (by simp) rfl]
      exact unifyExact_iff generics σ pattern _
  | .int, actual | .float, actual | .string, actual | .bool, actual | .object, actual
  | .any, actual | .pointer, actual | .implTrait _, actual | .dyn _, actual | .result _ _, actual
  | .tuple _, actual | .chan _, actual => by
    cases actual with
    | _ => exact unifyExact_of_accepted rfl

/-- Bound to a class name, a parameter refuses the same name from another place in the text. -/
theorem unify_refuses_same_name :
    ¬ ∀ (generics : List String) (σ : Subst) (pattern actual : TypeAnnotation),
      UnifyExact generics σ pattern actual := by
  intro h
  let param : Token := ⟨.identifier "T", ⟨0, 1, 1, 1⟩⟩
  let first : TypeAnnotation := .named ⟨.identifier "Box", ⟨20, 23, 2, 5⟩⟩
  let second : TypeAnnotation := .named ⟨.identifier "Box", ⟨30, 33, 2, 15⟩⟩
  have hexact := h ["T"] (Function.update (fun _ => none) "T" (some first)) (.named param) second
  rw [unifyExact_param (by decide)] at hexact
  have hsame := hexact first (Function.update_self ..) rfl
  exact absurd hsame (by decide)

end Neutron.Source
