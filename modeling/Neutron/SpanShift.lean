import Neutron.SourceTraversal

/-!
# Shifting the spans of a merged program

`shift_spans` adds a base to the byte offsets of a module, so that the spans of different files
stay apart after merging. Dummy spans stay where they are.
-/

namespace Neutron.Source

def shiftSpan (base : ℕ) (s : Span) : Span :=
  if s.start ≠ 0 ∨ s.stop ≠ 0 then { s with start := s.start + base, stop := s.stop + base } else s

def shiftToken (base : ℕ) (t : Token) : Token := { t with span := shiftSpan base t.span }

def shiftType (base : ℕ) : TypeAnnotation → TypeAnnotation
  | .named token => .named (shiftToken base token)
  | .array (some inner) => .array (some (shiftType base inner))
  | .option inner => .option (shiftType base inner)
  | ty => ty

/-- What `shift_stmt` and `shift_expr` do: annotations go through `shift_type`, the data types of
enum variants are left out. -/
def shiftTreatment (base : ℕ) : Treatment := ⟨shiftSpan base, shiftType base, id⟩

def shiftStmt (base : ℕ) : Stmt → Stmt := (shiftTreatment base).stmt

def shiftSpans (base : ℕ) (statements : List Stmt) : List Stmt := statements.map (shiftStmt base)

/-! ### What `shift_spans` reaches -/

/-- A span moved by an offset; the dummy span stays. -/
def moved (base : ℕ) (s : Span) : Span :=
  if s.isDummy then s else { s with start := s.start + base, stop := s.stop + base }

/-- The spans of a type that `shift_type` does not reach. -/
def unreached : TypeAnnotation → List Span
  | .named _ => []
  | .array (some inner) => unreached inner
  | .option inner => unreached inner
  | ty => typeSpans ty

def leafUnreached : Leaf → List Span
  | .span _ => []
  | .ann ty => unreached ty
  | .data ty => typeSpans ty

/-- The spans of a program that `shift_spans` does not reach: those in annotations of the other
forms and in the data types of enum variants. -/
def unreachedSpans (statements : List Stmt) : List Span :=
  (stmtsLeaves statements).flatMap leafUnreached

theorem shiftSpan_eq_moved (base : ℕ) : shiftSpan base = moved base := by
  funext s
  unfold shiftSpan moved
  by_cases h : s.isDummy
  · rw [if_pos h, if_neg]
    simpa [Span.isDummy] using h
  · rw [if_neg h, if_pos]
    simp only [Span.isDummy, Bool.and_eq_true, beq_iff_eq] at h
    omega

theorem moved_eq_self_iff (base : ℕ) (s : Span) : moved base s = s ↔ base = 0 ∨ s.isDummy := by
  unfold moved
  split
  case isTrue h => simp [h]
  case isFalse h => cases s; simp [h]

theorem moved_moved (a b : ℕ) (s : Span) : moved b (moved a s) = moved (a + b) s := by
  by_cases h : s.isDummy
  · simp [moved, h]
  · have hmoved : ¬ (Span.isDummy { s with start := s.start + a, stop := s.stop + a }) := by
      simp only [Span.isDummy, Bool.and_eq_true, beq_iff_eq] at h ⊢
      omega
    simp [moved, h, hmoved, Nat.add_assoc]

theorem typeMaps_eq_self_iff (f : Span → Span) :
    (∀ ty, typeMap f ty = ty ↔ ∀ s ∈ typeSpans ty, f s = s) ∧
      (∀ tys, typesMap f tys = tys ↔ ∀ s ∈ typesSpans tys, f s = s) ∧
      (∀ o, typeOptionMap f o = o ↔ ∀ s ∈ typeOptionSpans o, f s = s) := by
  have htoken : ∀ token : Token, { token with span := f token.span } = token ↔ f token.span = token.span := by
    rintro ⟨⟩
    simp
  apply typeMap.mutual_induct
  all_goals
    intros
    simp_all [typeMap, typesMap, typeOptionMap, typeSpans, typesSpans, typeOptionSpans, or_imp, forall_and]

theorem typeMap_eq_self_iff (f : Span → Span) :
    ∀ ty, typeMap f ty = ty ↔ ∀ s ∈ typeSpans ty, f s = s :=
  (typeMaps_eq_self_iff f).1

theorem shiftType_of_other {base : ℕ} {ty : TypeAnnotation} (hnamed : ∀ token, ty ≠ .named token)
    (harray : ∀ inner, ty ≠ .array (some inner)) (hoption : ∀ inner, ty ≠ .option inner) :
    shiftType base ty = ty := by
  cases ty with
  | named token => exact absurd rfl (hnamed token)
  | option inner => exact absurd rfl (hoption inner)
  | array element =>
    cases element with
    | none => rfl
    | some inner => exact absurd rfl (harray inner)
  | _ => rfl

/-- `shift_type` moves every span of a type exactly when the spans it leaves need not move. -/
theorem shiftType_eq_typeMap_iff (base : ℕ) (ty : TypeAnnotation) :
    shiftType base ty = typeMap (shiftSpan base) ty ↔
      ∀ s ∈ unreached ty, shiftSpan base s = s := by
  fun_induction unreached ty with
  | case1 token => simp [shiftType, typeMap, shiftToken]
  | case2 inner ih => simp [shiftType, typeMap, typeOptionMap, ih]
  | case3 inner ih => simp [shiftType, typeMap, ih]
  | case4 ty hnamed harray hoption =>
    rw [shiftType_of_other hnamed harray hoption, eq_comm, typeMap_eq_self_iff]

theorem shiftType_shiftType (a b : ℕ) (ty : TypeAnnotation) :
    shiftType b (shiftType a ty) = shiftType (a + b) ty := by
  fun_induction shiftType a ty with
  | case1 token => simp [shiftType, shiftToken, shiftSpan_eq_moved, moved_moved]
  | case2 inner ih => simp [shiftType, ih]
  | case3 inner ih => simp [shiftType, ih]
  | case4 ty hnamed harray hoption => rw [shiftType_of_other, shiftType_of_other] <;> assumption

theorem shiftTreatment_comp (a b : ℕ) :
    (shiftTreatment b).comp (shiftTreatment a) = shiftTreatment (a + b) := by
  simp only [Treatment.comp, shiftTreatment, Treatment.mk.injEq]
  refine ⟨?_, ?_, rfl⟩
  · funext s
    simp [shiftSpan_eq_moved, moved_moved]
  · funext ty
    simp [shiftType_shiftType]

theorem agreeOn_shift_iff (base : ℕ) (leaves : List Leaf) :
    AgreeOn (shiftTreatment base) (everySpan (moved base)) leaves ↔
      ∀ s ∈ leaves.flatMap leafUnreached, base = 0 ∨ s.isDummy := by
  induction leaves with
  | nil => simp
  | cons l leaves ih =>
    rw [Treatment.agreeOn_cons, ih, List.flatMap_cons, List.forall_mem_append]
    refine and_congr_left' ?_
    cases l with
    | span s => simp [shiftTreatment, everySpan, shiftSpan_eq_moved, leafUnreached]
    | ann ty =>
      have h := shiftType_eq_typeMap_iff base ty
      simp only [shiftSpan_eq_moved, moved_eq_self_iff] at h
      simpa [shiftTreatment, everySpan, leafUnreached] using h
    | data ty =>
      have h := typeMap_eq_self_iff (moved base) ty
      simp only [moved_eq_self_iff] at h
      rw [eq_comm, Treatment.leaf_data, Treatment.leaf_data]
      simpa [shiftTreatment, everySpan, leafUnreached] using h

theorem shiftSpans_eq (base : ℕ) (statements : List Stmt) :
    shiftSpans base statements = (shiftTreatment base).stmts statements := by
  induction statements with
  | nil => simp [shiftSpans, Treatment.stmts]
  | cons s rest ih =>
    rw [Treatment.stmts, ← ih]
    rfl

/-- Shifting moves every span of a program exactly when it is by nothing or the spans it does not
reach are dummies. Shifting twice is shifting by the sum. -/
theorem shiftSpans_eq_everySpan_iff (base : ℕ) (statements : List Stmt) :
    (shiftSpans base statements = (everySpan (moved base)).stmts statements ↔
      base = 0 ∨ ∀ s ∈ unreachedSpans statements, s.isDummy) ∧
    ∀ a b, shiftSpans b (shiftSpans a statements) = shiftSpans (a + b) statements := by
  constructor
  · rw [shiftSpans_eq, Treatment.stmts_eq_iff, agreeOn_shift_iff]
    unfold unreachedSpans
    by_cases h : base = 0 <;> simp [h]
  · intro a b
    simp only [shiftSpans_eq, Treatment.stmts_comp, shiftTreatment_comp]

/-- `fun f(view Point p) {}`. -/
def viewParam : List Stmt :=
  [.function ⟨.identifier "f", 4, 5, 1, 5⟩ []
    [⟨⟨.identifier "p", 17, 18, 1, 18⟩,
      some (.view (.named ⟨.identifier "Point", 11, 16, 1, 12⟩) false)⟩] none []]

/-- The type of a view is not shifted. -/
theorem shiftSpans_viewParam :
    shiftSpans 100 viewParam ≠ (everySpan (moved 100)).stmts viewParam := by
  intro h
  rw [shiftSpans_eq, Treatment.stmts_eq_iff, agreeOn_shift_iff] at h
  have hpoint := h ⟨11, 16, 1, 12⟩ (by
    simp [viewParam, stmtsLeaves, stmtLeaves, paramLeaves, leafUnreached, unreached, typeSpans])
  simp [Span.isDummy] at hpoint

end Neutron.Source
