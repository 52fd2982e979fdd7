import Neutron.PrepareProgram

/-!
# Signatures of trait methods

An implementation is checked against its trait by a comparison of types written out by hand. It does not go
into the components of results, tuples and channels, so two signatures that differ only there pass for the
same.
-/

namespace Neutron.Generics
open Syntax TypeNames

/-- Different types that the comparison takes for the same one: they differ in the components of a result,
a tuple or a channel. -/
inductive Hidden : TypeAnnotation → TypeAnnotation → Prop
  | result {ok err ok' err' : TypeAnnotation} (h : ok ≠ ok' ∨ err ≠ err') : Hidden (.result ok err) (.result ok' err')
  | tuple {elements elements' : List TypeAnnotation} (h : elements ≠ elements') : Hidden (.tuple elements) (.tuple elements')
  | chan {element element' : TypeAnnotation} (h : element ≠ element') : Hidden (.chan element) (.chan element')
  | array {left right : TypeAnnotation} (h : Hidden left right) : Hidden (.array (some left)) (.array (some right))
  | slice {left right : TypeAnnotation} (h : Hidden left right) : Hidden (.slice (some left)) (.slice (some right))
  | option {left right : TypeAnnotation} (h : Hidden left right) : Hidden (.option left) (.option right)
  | shared {left right : TypeAnnotation} (h : Hidden left right) : Hidden (.shared left) (.shared right)
  | own {left right : TypeAnnotation} (h : Hidden left right) : Hidden (.own left) (.own right)
  | view {left right : TypeAnnotation} (mutable : Bool) (h : Hidden left right) :
      Hidden (.view left mutable) (.view right mutable)
  | ref {left right : TypeAnnotation} (mutable : Bool) (h : Hidden left right) :
      Hidden (.ref left mutable) (.ref right mutable)
  | rawPointer {left right : TypeAnnotation} (mutable : Bool) (h : Hidden left right) :
      Hidden (.rawPointer left mutable) (.rawPointer right mutable)

theorem Hidden.sameType {left right : TypeAnnotation} (h : Hidden left right) : sameType left right = true := by
  induction h with
  | result => rfl
  | tuple => rfl
  | chan => rfl
  | array _ ih => exact ih
  | slice _ ih => exact ih
  | option _ ih => exact ih
  | shared _ ih => exact ih
  | own _ ih => exact ih
  | view mutable _ ih => exact (Bool.and_eq_true _ _).mpr ⟨decide_eq_true rfl, ih⟩
  | ref mutable _ ih => exact (Bool.and_eq_true _ _).mpr ⟨decide_eq_true rfl, ih⟩
  | rawPointer mutable _ ih => exact (Bool.and_eq_true _ _).mpr ⟨decide_eq_true rfl, ih⟩

mutual
theorem sameType_self : ∀ ty : TypeAnnotation, sameType ty ty = true
  | .int | .float | .string | .bool | .object | .any | .pointer => rfl
  | .result _ _ | .tuple _ | .chan _ => rfl
  | .named _ | .implTrait _ | .dyn _ => decide_eq_true rfl
  | .array element => sameOption_self element
  | .slice element => sameOption_self element
  | .option inner => sameType_self inner
  | .shared inner => sameType_self inner
  | .own inner => sameType_self inner
  | .view inner _ => (Bool.and_eq_true _ _).mpr ⟨decide_eq_true rfl, sameType_self inner⟩
  | .ref inner _ => (Bool.and_eq_true _ _).mpr ⟨decide_eq_true rfl, sameType_self inner⟩
  | .rawPointer inner _ => (Bool.and_eq_true _ _).mpr ⟨decide_eq_true rfl, sameType_self inner⟩
theorem sameOption_self : ∀ ty : Option TypeAnnotation, sameOption ty ty = true
  | none => rfl
  | some ty => sameType_self ty
end

/-- Two annotations, or none, where there are two that hide a difference. -/
def HiddenOption (left right : Option TypeAnnotation) : Prop :=
  ∃ l r, left = some l ∧ right = some r ∧ Hidden l r

/-- What holds of the components holds under the same constructor. -/
theorem equal_or_hidden_congr {left right : TypeAnnotation} (c : TypeAnnotation → TypeAnnotation)
    (hc : Hidden left right → Hidden (c left) (c right)) (h : left = right ∨ Hidden left right) :
    c left = c right ∨ Hidden (c left) (c right) := by
  rcases h with rfl | h
  · exact Or.inl rfl
  · exact Or.inr (hc h)

mutual
/-- Types that pass for the same are equal, or hide a difference. -/
theorem equal_or_hidden : ∀ left right : TypeAnnotation, sameType left right = true → left = right ∨ Hidden left right
  | .int, right, h => by
    cases right with
    | int => exact Or.inl rfl
    | _ => cases h
  | .float, right, h => by
    cases right with
    | float => exact Or.inl rfl
    | _ => cases h
  | .string, right, h => by
    cases right with
    | string => exact Or.inl rfl
    | _ => cases h
  | .bool, right, h => by
    cases right with
    | bool => exact Or.inl rfl
    | _ => cases h
  | .object, right, h => by
    cases right with
    | object => exact Or.inl rfl
    | _ => cases h
  | .any, right, h => by
    cases right with
    | any => exact Or.inl rfl
    | _ => cases h
  | .pointer, right, h => by
    cases right with
    | pointer => exact Or.inl rfl
    | _ => cases h
  | .result ok err, right, h => by
    cases right with
    | result ok' err' =>
      by_cases hequal : ok = ok' ∧ err = err'
      · obtain ⟨rfl, rfl⟩ := hequal
        exact Or.inl rfl
      · exact Or.inr (Hidden.result (not_and_or.mp hequal))
    | _ => cases h
  | .tuple elements, right, h => by
    cases right with
    | tuple elements' =>
      by_cases hequal : elements = elements'
      · exact Or.inl (congrArg TypeAnnotation.tuple hequal)
      · exact Or.inr (Hidden.tuple hequal)
    | _ => cases h
  | .chan element, right, h => by
    cases right with
    | chan element' =>
      by_cases hequal : element = element'
      · exact Or.inl (congrArg TypeAnnotation.chan hequal)
      · exact Or.inr (Hidden.chan hequal)
    | _ => cases h
  | .named lexeme, right, h => by
    cases right with
    | named lexeme' => exact Or.inl (congrArg TypeAnnotation.named (of_decide_eq_true h))
    | _ => cases h
  | .implTrait lexeme, right, h => by
    cases right with
    | implTrait lexeme' => exact Or.inl (congrArg TypeAnnotation.implTrait (of_decide_eq_true h))
    | _ => cases h
  | .dyn lexeme, right, h => by
    cases right with
    | dyn lexeme' => exact Or.inl (congrArg TypeAnnotation.dyn (of_decide_eq_true h))
    | _ => cases h
  | .array left, right, h => by
    cases right with
    | array right =>
      rcases equal_or_hiddenOption left right h with rfl | ⟨l, r, rfl, rfl, hlr⟩
      · exact Or.inl rfl
      · exact Or.inr (Hidden.array hlr)
    | _ => cases h
  | .slice left, right, h => by
    cases right with
    | slice right =>
      rcases equal_or_hiddenOption left right h with rfl | ⟨l, r, rfl, rfl, hlr⟩
      · exact Or.inl rfl
      · exact Or.inr (Hidden.slice hlr)
    | _ => cases h
  | .option left, right, h => by
    cases right with
    | option right => exact equal_or_hidden_congr _ Hidden.option (equal_or_hidden left right h)
    | _ => cases h
  | .shared left, right, h => by
    cases right with
    | shared right => exact equal_or_hidden_congr _ Hidden.shared (equal_or_hidden left right h)
    | _ => cases h
  | .own left, right, h => by
    cases right with
    | own right => exact equal_or_hidden_congr _ Hidden.own (equal_or_hidden left right h)
    | _ => cases h
  | .view left mutable, right, h => by
    cases right with
    | view right mutable' =>
      obtain ⟨hmutable, hsame⟩ := (Bool.and_eq_true _ _).mp h
      obtain rfl := of_decide_eq_true hmutable
      exact equal_or_hidden_congr (.view · mutable) (Hidden.view mutable) (equal_or_hidden left right hsame)
    | _ => cases h
  | .ref left mutable, right, h => by
    cases right with
    | ref right mutable' =>
      obtain ⟨hmutable, hsame⟩ := (Bool.and_eq_true _ _).mp h
      obtain rfl := of_decide_eq_true hmutable
      exact equal_or_hidden_congr (.ref · mutable) (Hidden.ref mutable) (equal_or_hidden left right hsame)
    | _ => cases h
  | .rawPointer left mutable, right, h => by
    cases right with
    | rawPointer right mutable' =>
      obtain ⟨hmutable, hsame⟩ := (Bool.and_eq_true _ _).mp h
      obtain rfl := of_decide_eq_true hmutable
      exact equal_or_hidden_congr (.rawPointer · mutable) (Hidden.rawPointer mutable) (equal_or_hidden left right hsame)
    | _ => cases h
theorem equal_or_hiddenOption : ∀ left right : Option TypeAnnotation, sameOption left right = true →
    left = right ∨ HiddenOption left right
  | none, none, _ => Or.inl rfl
  | none, some _, h => by cases h
  | some _, none, h => by cases h
  | some left, some right, h => by
    rcases equal_or_hidden left right h with heq | hlr
    · exact Or.inl (congrArg some heq)
    · exact Or.inr ⟨left, right, rfl, rfl, hlr⟩
end

theorem sameOption_iff {left right : Option TypeAnnotation} :
    sameOption left right = true ↔ left = right ∨ HiddenOption left right := by
  constructor
  · exact equal_or_hiddenOption left right
  · rintro (rfl | ⟨l, r, rfl, rfl, h⟩)
    · exact sameOption_self left
    · exact h.sameType

/-! ## Signatures -/

/-- The types of a signature, the result first. -/
def signatureTypes : Stmt → Option (List (Option TypeAnnotation))
  | .function false _ _ params returnType _ => some (returnType :: params.map FunctionParam.ann)
  | _ => none

/-- The same number of parameters, and equal types. -/
def EqualSignature (left right : Stmt) : Prop := ∃ types, signatureTypes left = some types ∧ signatureTypes right = some types

/-- Nothing that is compared differs, and somewhere a difference is hidden. -/
def HidesDifference (left right : Stmt) : Prop :=
  ∃ lefts rights, signatureTypes left = some lefts ∧ signatureTypes right = some rights ∧
    List.Forall₂ (fun l r => l = r ∨ HiddenOption l r) lefts rights ∧ lefts ≠ rights

theorem signatureTypes_eq_some {s : Stmt} {types : List (Option TypeAnnotation)} (h : signatureTypes s = some types) :
    ∃ name generics params returnType body, s = .function false name generics params returnType body ∧
      types = returnType :: params.map FunctionParam.ann := by
  unfold signatureTypes at h
  split at h
  · exact ⟨_, _, _, _, _, rfl, (Option.some.inj h).symm⟩
  · cases h

theorem sameParams_iff {params params' : List FunctionParam} :
    (params.length = params'.length ∧
      (params.zip params').all (fun pair => sameOption pair.1.ann pair.2.ann) = true) ↔
      List.Forall₂ (fun l r => l = r ∨ HiddenOption l r) (params.map FunctionParam.ann) (params'.map FunctionParam.ann) := by
  rw [List.forall₂_map_left_iff, List.forall₂_map_right_iff, List.forall₂_iff_zip, List.all_eq_true]
  refine and_congr_right fun _ => ⟨fun h l r hlr => ?_, fun h pair hpair => ?_⟩
  · exact sameOption_iff.mp (h (l, r) hlr)
  · exact sameOption_iff.mpr (h hpair)

theorem sameSignature_iff {left right : Stmt} :
    sameSignature left right = true ↔ ∃ lefts rights, signatureTypes left = some lefts ∧
      signatureTypes right = some rights ∧ List.Forall₂ (fun l r => l = r ∨ HiddenOption l r) lefts rights := by
  constructor
  · intro h
    unfold sameSignature at h
    split at h
    · rw [Bool.and_eq_true, Bool.and_eq_true, decide_eq_true_iff, sameParams_iff, sameOption_iff] at h
      exact ⟨_, _, rfl, rfl, List.Forall₂.cons h.2 h.1⟩
    · cases h
  · rintro ⟨lefts, rights, hleft, hright, htypes⟩
    obtain ⟨_, _, params, returnType, _, rfl, rfl⟩ := signatureTypes_eq_some hleft
    obtain ⟨_, _, params', returnType', _, rfl, rfl⟩ := signatureTypes_eq_some hright
    obtain ⟨hreturn, hparams⟩ := List.forall₂_cons.mp htypes
    rw [sameSignature, Bool.and_eq_true, Bool.and_eq_true, decide_eq_true_iff, sameParams_iff, sameOption_iff]
    exact ⟨hparams, hreturn⟩

theorem EqualSignature.same {left right : Stmt} (h : EqualSignature left right) : sameSignature left right = true := by
  obtain ⟨types, hleft, hright⟩ := h
  exact sameSignature_iff.mpr ⟨types, types, hleft, hright, List.forall₂_same.mpr fun _ _ => Or.inl rfl⟩

/-- The comparison is exact for two methods if and only if they hide no difference. -/
theorem sameSignature_eq_iff (left right : Stmt) :
    (sameSignature left right = true ↔ EqualSignature left right) ↔ ¬ HidesDifference left right := by
  constructor
  · rintro hexact ⟨lefts, rights, hleft, hright, htypes, hne⟩
    obtain ⟨types, hleft', hright'⟩ := hexact.mp (sameSignature_iff.mpr ⟨lefts, rights, hleft, hright, htypes⟩)
    rw [hleft] at hleft'
    rw [hright] at hright'
    exact hne ((Option.some.inj hleft').trans (Option.some.inj hright').symm)
  · intro hhides
    refine ⟨fun hsame => ?_, EqualSignature.same⟩
    obtain ⟨lefts, rights, hleft, hright, htypes⟩ := sameSignature_iff.mp hsame
    by_cases hequal : lefts = rights
    · exact ⟨lefts, hleft, hequal ▸ hright⟩
    · exact absurd ⟨lefts, rights, hleft, hright, htypes, hequal⟩ hhides

/-! ## Implementations -/

/-- The method of an implementation that stands for a method of the trait. -/
def implementing (body : List Stmt) (method : Stmt) : Option Stmt :=
  (functionName method).bind fun required => body.find? fun candidate => functionName candidate = some required

theorem requireMethod_accepts {body : List Stmt} {σ : Subst} {ancestor : Name} {method candidate : Stmt}
    (hfound : implementing body method = some candidate) (haccepted : (requireMethod body σ ancestor method).2 = []) :
    sameSignature (substituteStmtTypes σ method) candidate = true := by
  obtain ⟨required, hrequired, hfind⟩ := Option.bind_eq_some_iff.mp hfound
  simp only [requireMethod, hrequired, hfind] at haccepted
  by_cases hsame : sameSignature (substituteStmtTypes σ method) candidate = true
  · exact hsame
  · rw [if_neg hsame] at haccepted
    cases haccepted

/-- The comparison is exact, and a method that is accepted for one of the trait has its declared signature,
if and only if no difference is hidden. -/
theorem sameSignature_exact_iff (left right : Stmt) (body : List Stmt) (σ : Subst) (ancestor : Name)
    (method candidate : Stmt) :
    ((sameSignature left right = true ↔ EqualSignature left right) ↔ ¬ HidesDifference left right) ∧
      (implementing body method = some candidate → (requireMethod body σ ancestor method).2 = [] →
        (EqualSignature (substituteStmtTypes σ method) candidate ↔
          ¬ HidesDifference (substituteStmtTypes σ method) candidate)) := by
  refine ⟨sameSignature_eq_iff left right, fun hfound haccepted => ?_⟩
  rw [← sameSignature_eq_iff]
  exact (iff_true_left (requireMethod_accepts hfound haccepted)).symm

def drain (element : TypeAnnotation) : Stmt := .function false "drain" [] [⟨"c", some element⟩] none []

theorem sameSignature_exact_drain : EqualSignature (substituteStmtTypes [] (drain .int)) (drain .int) := by
  have hexact := (sameSignature_exact_iff (drain .int) (drain .int) [drain .int] [] "Sink" (drain .int) (drain .int)).2
  refine (hexact rfl rfl).mpr ?_
  rintro ⟨lefts, rights, hleft, hright, -, hne⟩
  exact hne (Option.some.inj (hleft.symm.trans hright))

/-- A channel of integers passes for a channel of texts. -/
theorem sameSignature_hides_elements :
    ¬ ∀ left right : Stmt, sameSignature left right = true ↔ EqualSignature left right := by
  intro h
  obtain ⟨types, hleft, hright⟩ := (h (drain (.chan .int)) (drain (.chan .string))).mp rfl
  have htypes := Option.some.inj (hleft.trans hright.symm)
  simp at htypes

end Neutron.Generics
