import Neutron.MatchArms

/-!
# Which arm of `match` runs

The code of a match statement runs the first arm that matches exactly when the statement compiles, no wildcard
with a guard is reached, every guarded value arm that is reached holds the scrutinee's value, and the
comparison at every value arm that is reached is the equality of the values.
-/

namespace Neutron.Match

variable {E : Env} {x : Value} {compare : Ty → Option Comparison} {i : ℕ} {c : MatchCase}
  {inAsync pointer fresh : Bool} {default : Option Bool} {cases : List MatchCase}
  {b b' : Builder Instr Condition}

/-! ### The condition -/

/-- The comparison the statement is compiled with. -/
def comparison (pointer : Bool) (ty : Ty) (cases : List MatchCase) : Ty → Option Comparison :=
  if cases.any MatchCase.isVariant then compareInPatterns pointer ty else compareValues pointer ty

/-- The statement compiles: variant patterns ask for a result outside of async functions, and no boolean is
compared with another machine integer. -/
def Compiles (inAsync pointer : Bool) (ty : Ty) (cases : List MatchCase) : Prop :=
  (cases.any MatchCase.isVariant = true → inAsync = false ∧ ty = .result) ∧
    ∀ c ∈ cases, ∀ v, c.head = .value v → (comparison pointer ty cases v.ty).isSome = true

/-- Two equal floats are not found equal; a handle or an address is not the integer it is compared with. -/
def ComparedRight (E : Env) (pointer : Bool) (v : Literal) : Value → Prop
  | .literal (.float a) =>
    match v with
    | .float b => E.floatEq a b = false
    | _ => True
  | .literal (.int n) =>
    match v with
    | .string handle => n ≠ handle
    | _ => True
  | .literal (.string handle) =>
    match v with
    | .int n => handle ≠ n
    | _ => True
  | .literal (.bool _) => True
  | .result address _ _ =>
    match v with
    | .int n => pointer = true ∨ address ≠ n
    | .string handle => pointer = true ∨ address ≠ handle
    | _ => True

/-- The arm is tried as the language says. -/
def ArmFaithful (E : Env) (pointer : Bool) (x : Value) (i : ℕ) (c : MatchCase) : Prop :=
  match c.head with
  | .wildcard => c.guarded = false
  | .variant _ _ => True
  | .value v =>
    if c.guarded then x.equals E v = true ∧ (E.guard i none = true → ComparedRight E pointer v x)
    else ComparedRight E pointer v x

/-- So is every arm up to the one that is taken. -/
def ArmsFaithful (E : Env) (pointer : Bool) (x : Value) : ℕ → List MatchCase → Prop
  | _, [] => True
  | i, c :: rest =>
    ArmFaithful E pointer x i c ∧ ((attempt E x i c).taken = true ∨ ArmsFaithful E pointer x (i + 1) rest)

/-! ### Comparisons -/

theorem compareInPatterns_result (pointer : Bool) (caseTy : Ty) :
    compareInPatterns pointer .result caseTy = Ty.compareIntegers pointer .result caseTy := by
  cases caseTy <;> rfl

theorem compareValues_result (pointer : Bool) (caseTy : Ty) :
    compareValues pointer .result caseTy = Ty.compareIntegers pointer .result caseTy := by
  cases caseTy <;> rfl

/-- A cell is compared by its address. -/
theorem comparison_result (caseTy : Ty) :
    comparison pointer .result cases caseTy = Ty.compareIntegers pointer .result caseTy := by
  rw [comparison]
  split
  · exact compareInPatterns_result pointer caseTy
  · exact compareValues_result pointer caseTy

/-- The comparison of a literal is equality exactly where it is compared right. -/
theorem compared_literal_iff {w v : Literal} (hsome : (compareValues pointer w.ty v.ty).isSome = true) :
    compared E (.literal w) (compareValues pointer w.ty) v = (Value.literal w).equals E v ↔
      ComparedRight E pointer v (.literal w) := by
  cases w with
  | int n =>
    cases v with
    | int k => exact ⟨fun _ => trivial, fun _ => rfl⟩
    | bool k => cases hsome
    | float k => exact ⟨fun _ => trivial, fun _ => rfl⟩
    | string k => exact decide_eq_false_iff_not
  | bool n =>
    cases v with
    | int k => cases hsome
    | bool k => exact ⟨fun _ => trivial, fun _ => by cases n <;> cases k <;> rfl⟩
    | float k => exact ⟨fun _ => trivial, fun _ => rfl⟩
    | string k => cases hsome
  | float n =>
    cases v with
    | int k => exact ⟨fun _ => trivial, fun _ => rfl⟩
    | bool k => exact ⟨fun _ => trivial, fun _ => rfl⟩
    | float k => exact ⟨Eq.symm, Eq.symm⟩
    | string k => exact ⟨fun _ => trivial, fun _ => rfl⟩
  | string n =>
    cases v with
    | int k => exact decide_eq_false_iff_not
    | bool k => cases hsome
    | float k => exact ⟨fun _ => trivial, fun _ => rfl⟩
    | string k => exact ⟨fun _ => trivial, fun _ => rfl⟩

theorem compared_cell_iff {address payload : BitVec 64} {ok : Bool} {v : Literal}
    (hcompare : compare v.ty = Ty.compareIntegers pointer .result v.ty)
    (hsome : (compare v.ty).isSome = true) :
    compared E (.result address ok payload) compare v = (Value.result address ok payload).equals E v ↔
      ComparedRight E pointer v (.result address ok payload) := by
  rw [hcompare] at hsome
  rw [compared, hcompare]
  cases pointer with
  | true =>
    cases v with
    | int k => exact ⟨fun _ => .inl rfl, fun _ => rfl⟩
    | bool k => exact ⟨fun _ => trivial, fun _ => rfl⟩
    | float k => exact ⟨fun _ => trivial, fun _ => rfl⟩
    | string k => exact ⟨fun _ => .inl rfl, fun _ => rfl⟩
  | false =>
    have hbits : ∀ k : BitVec 64, decide (address = k) = false ↔ (false = true ∨ address ≠ k) := fun k =>
      decide_eq_false_iff_not.trans ⟨.inr, fun h => h.resolve_left Bool.false_ne_true⟩
    cases v with
    | int k => exact hbits k
    | bool k => cases hsome
    | float k => exact ⟨fun _ => trivial, fun _ => rfl⟩
    | string k => exact hbits k

/-- The emitter's comparison is equality exactly where values are compared right. -/
theorem compared_eq_equals_iff {v : Literal} (hvariant : cases.any MatchCase.isVariant = true → x.ty = .result)
    (hsome : (comparison pointer x.ty cases v.ty).isSome = true) :
    compared E x (comparison pointer x.ty cases) v = x.equals E v ↔ ComparedRight E pointer v x := by
  cases x with
  | literal w =>
    have hnone : ¬ cases.any MatchCase.isVariant = true := by
      intro hany
      have := hvariant hany
      cases w <;> cases this
    rw [comparison, if_neg hnone] at hsome ⊢
    exact compared_literal_iff hsome
  | result address ok payload => exact compared_cell_iff (comparison_result v.ty) hsome

/-- Equal values that are compared right are found equal. -/
theorem codeAttempt_eq_iff (hvariant : cases.any MatchCase.isVariant = true → x.ty = .result)
    (hsome : ∀ v, c.head = .value v → (comparison pointer x.ty cases v.ty).isSome = true) :
    codeAttempt E x (comparison pointer x.ty cases) i c = attempt E x i c ↔ ArmFaithful E pointer x i c := by
  rw [codeAttempt, attempt, ArmFaithful]
  cases hhead : c.head with
  | wildcard =>
    cases hguarded : c.guarded with
    | false => exact ⟨fun _ => rfl, fun _ => rfl⟩
    | true =>
      refine ⟨fun h => absurd (congrArg Tried.guard h) Bool.false_ne_true, fun h => absurd h.symm ?_⟩
      exact Bool.false_ne_true
  | variant isOk binds => exact ⟨fun _ => trivial, fun _ => rfl⟩
  | value v =>
    have hright := compared_eq_equals_iff (E := E) hvariant (hsome v hhead)
    have haccepts : Head.accepts E x (.value v) = x.equals E v := rfl
    have hbinder : Head.binder x (.value v) = none := rfl
    dsimp only
    rw [haccepts, hbinder]
    cases hguarded : c.guarded with
    | false =>
      rw [if_neg Bool.false_ne_true, if_neg Bool.false_ne_true, if_neg Bool.false_ne_true, ← hright]
      cases hequals : x.equals E v with
      | false => exact ⟨fun h => congrArg Tried.taken h, fun h => congrArg (Tried.mk false) h⟩
      | true => exact ⟨fun h => congrArg Tried.taken h, fun h => congrArg (Tried.mk false) h⟩
    | true =>
      rw [if_pos rfl, if_pos rfl, if_pos rfl, ← hright]
      cases hequals : x.equals E v with
      | false =>
        refine ⟨fun h => absurd (congrArg Tried.guard h).symm Bool.false_ne_true, fun h => ?_⟩
        exact absurd h.1 Bool.false_ne_true
      | true =>
        rw [if_pos rfl]
        cases E.guard i none with
        | false =>
          rw [Bool.and_false]
          exact ⟨fun _ => ⟨rfl, fun hbad => absurd hbad Bool.false_ne_true⟩, fun _ => rfl⟩
        | true =>
          rw [Bool.and_true]
          exact ⟨fun h => ⟨rfl, fun _ => congrArg Tried.taken h⟩, fun h => congrArg (Tried.mk true) (h.2 rfl)⟩

/-! ### Traces -/

def Event.arm : Event → Option ℕ
  | .guard i _ | .body i _ => some i
  | .scrutinee | .default => none

theorem Tried.arm_events (t : Tried) (binder : Option (BitVec 64)) : ∀ e ∈ t.events i binder, e.arm = some i := by
  intro e he
  rcases List.mem_append.mp he with h | h
  · cases hg : t.guard with
    | false =>
      rw [hg] at h
      cases h
    | true =>
      rw [hg] at h
      rw [List.mem_singleton.mp h, Event.arm]
  · cases ht : t.taken with
    | false =>
      rw [ht] at h
      cases h
    | true =>
      rw [ht] at h
      rw [List.mem_singleton.mp h, Event.arm]

theorem Tried.events_injective {t u : Tried} {binder : Option (BitVec 64)}
    (h : t.events i binder = u.events i binder) : t = u := by
  obtain ⟨tg, tt⟩ := t
  obtain ⟨ug, ut⟩ := u
  cases tg <;> cases tt <;> cases ug <;> cases ut <;> first | rfl | cases h

/-- The events of later arms. -/
theorem tryArms_arm (a : ℕ → MatchCase → Tried) :
    ∀ e ∈ (tryArms a x i cases).1, ∃ j, i ≤ j ∧ e.arm = some j := by
  induction cases generalizing i with
  | nil =>
    intro e he
    cases he
  | cons c rest ih =>
    intro e he
    rw [tryArms] at he
    split at he
    · exact ⟨i, Nat.le_refl _, Tried.arm_events _ _ e he⟩
    · rcases List.mem_append.mp he with h | h
      · exact ⟨i, Nat.le_refl _, Tried.arm_events _ _ e h⟩
      · obtain ⟨j, hj, hej⟩ := ih e h
        exact ⟨j, by omega, hej⟩

/-- The events after an arm: none when it is taken. -/
def afterArm (a : ℕ → MatchCase → Tried) (x : Value) (default : Option Bool) (i : ℕ) (c : MatchCase)
    (rest : List MatchCase) : List Event :=
  if (a i c).taken then [] else (orDefault default (tryArms a x (i + 1) rest)).1

theorem orDefault_append (events : List Event) (r : List Event × Option Bool) :
    orDefault default (events ++ r.1, r.2) = (events ++ (orDefault default r).1, (orDefault default r).2) := by
  obtain ⟨later, _ | returns⟩ := r
  · cases default with
    | none => rfl
    | some returns => exact Prod.ext (List.append_assoc ..) rfl
  · rfl

theorem orDefault_tryArms_cons (a : ℕ → MatchCase → Tried) (rest : List MatchCase) :
    (orDefault default (tryArms a x i (c :: rest))).1 =
      (a i c).events i (c.head.binder x) ++ afterArm a x default i c rest := by
  rw [tryArms, afterArm]
  split
  · exact (List.append_nil _).symm
  · rw [orDefault_append]

theorem afterArm_arm (a : ℕ → MatchCase → Tried) (rest : List MatchCase) :
    ∀ e ∈ afterArm a x default i c rest, e.arm ≠ some i := by
  intro e he
  rw [afterArm] at he
  split at he
  · cases he
  · have hcases : e ∈ (tryArms a x (i + 1) rest).1 ∨ e = .default := by
      generalize hr : tryArms a x (i + 1) rest = r at he
      obtain ⟨later, _ | returns⟩ := r
      · cases default with
        | none => exact .inl he
        | some returns =>
          rcases List.mem_append.mp he with h | h
          · exact .inl h
          · exact .inr (List.mem_singleton.mp h)
      · exact .inl he
    rcases hcases with h | rfl
    · obtain ⟨j, hj, hej⟩ := tryArms_arm a e h
      rw [hej]
      intro hbad
      have := Option.some.inj hbad
      omega
    · exact Option.some_ne_none i ∘ Eq.symm

/-- Two traces are the same when the events of the arm are and what comes after it is. -/
theorem split_at_arm {own own' later later' : List Event} (h : own ++ later = own' ++ later')
    (ho : ∀ e ∈ own, e.arm = some i) (ho' : ∀ e ∈ own', e.arm = some i) (hl : ∀ e ∈ later, e.arm ≠ some i)
    (hl' : ∀ e ∈ later', e.arm ≠ some i) : own = own' ∧ later = later' := by
  have hfilter : ∀ {own later : List Event}, (∀ e ∈ own, e.arm = some i) → (∀ e ∈ later, e.arm ≠ some i) →
      (own ++ later).filter (fun e => e.arm = some i) = own := by
    intro own later ho hl
    rw [List.filter_append, List.filter_eq_self.mpr fun e he => decide_eq_true (ho e he),
      List.filter_eq_nil_iff.mpr fun e he => by rw [decide_eq_true_iff]; exact hl e he, List.append_nil]
  have hown : own = own' := by rw [← hfilter ho hl, h, hfilter ho' hl']
  rw [hown] at h
  exact ⟨hown, List.append_cancel_left h⟩

/-- The trace of the code is that of the language exactly when every arm up to the one taken is faithful. -/
theorem trace_eq_iff (default : Option Bool) (hvariant : cases.any MatchCase.isVariant = true → x.ty = .result) (arms : List MatchCase)
    (hsome : ∀ c ∈ arms, ∀ v, c.head = .value v → (comparison pointer x.ty cases v.ty).isSome = true) :
    (orDefault default (tryArms (codeAttempt E x (comparison pointer x.ty cases)) x i arms)).1 =
      (orDefault default (tryArms (attempt E x) x i arms)).1 ↔ ArmsFaithful E pointer x i arms := by
  induction arms generalizing i with
  | nil => exact ⟨fun _ => trivial, fun _ => rfl⟩
  | cons c rest ih =>
    have hfirst := codeAttempt_eq_iff (E := E) (i := i) hvariant (hsome c (List.mem_cons_self ..))
    have hrest := ih (i := i + 1) (fun c' hc' => hsome c' (List.mem_cons_of_mem _ hc'))
    rw [orDefault_tryArms_cons, orDefault_tryArms_cons, ArmsFaithful, ← hfirst]
    constructor
    · intro h
      obtain ⟨hown, hlater⟩ := split_at_arm h (Tried.arm_events _ _) (Tried.arm_events _ _)
        (afterArm_arm _ rest) (afterArm_arm _ rest)
      have hsame := Tried.events_injective hown
      refine ⟨hsame, ?_⟩
      cases htaken : (attempt E x i c).taken with
      | true => exact .inl rfl
      | false =>
        rw [afterArm, afterArm, hsame, htaken] at hlater
        exact .inr (hrest.mp hlater)
    · rintro ⟨hsame, hlater⟩
      rw [hsame, afterArm, afterArm, hsame]
      rcases hlater with htaken | hfaithful
      · rw [if_pos htaken, if_pos htaken]
      · rw [hrest.mpr hfaithful]

/-- Where the arms are faithful, so is the way the statement ends. -/
theorem tryArms_eq_of_faithful (hvariant : cases.any MatchCase.isVariant = true → x.ty = .result)
    (arms : List MatchCase)
    (hsome : ∀ c ∈ arms, ∀ v, c.head = .value v → (comparison pointer x.ty cases v.ty).isSome = true)
    (h : ArmsFaithful E pointer x i arms) :
    tryArms (codeAttempt E x (comparison pointer x.ty cases)) x i arms = tryArms (attempt E x) x i arms := by
  induction arms generalizing i with
  | nil => rfl
  | cons c rest ih =>
    have hfirst := (codeAttempt_eq_iff (E := E) (i := i) hvariant (hsome c (List.mem_cons_self ..))).mpr h.1
    rw [tryArms, tryArms, hfirst]
    rcases h.2 with htaken | hfaithful
    · rw [if_pos htaken, if_pos htaken]
    · rw [ih (fun c' hc' => hsome c' (List.mem_cons_of_mem _ hc')) hfaithful]

/-! ### The first arm that matches runs -/

/-- The statement compiles, and in every graph that holds its code a run does what the language says: the
same events, and it ends at a return or behind the statement as the body that ran does. -/
def RunsFirstMatch (E : Env) (x : Value) (inAsync pointer fresh : Bool) (cases : List MatchCase)
    (default : Option Bool) (b : Builder Instr Condition) : Prop :=
  ∃ b', emitMatch inAsync pointer fresh x.ty cases default b = some b' ∧
    ∀ g : BlockGraph Instr Condition, b'.graph.Within g → ∀ s : State, ∃ s',
      s'.trace = s.trace ++ (meaning E x cases default).1 ∧
        if (meaning E x cases default).2 then ∃ p, g.Runs (sem E x) (b.here, s) (p, s') ∧ g.at? p = some .ret
        else g.Runs (sem E x) (b.here, s) (b'.here, s')

theorem emitArms_isSome {r : Bool} {m : ℕ} (arms : List MatchCase) (hb : b.Placed) :
    (emitArms compare r m i arms b).isSome = true ↔
      ∀ c ∈ arms, ∀ v, c.head = .value v → (compare v.ty).isSome = true := by
  induction arms generalizing i b with
  | nil => exact ⟨fun _ c hc => absurd hc (List.not_mem_nil), fun _ => rfl⟩
  | cons c rest ih =>
    have hone : (emitArm compare r m i c b).isSome = true ↔
        ∀ v, c.head = .value v → (compare v.ty).isSome = true := by
      rw [emitArm_eq, Option.isSome_map, emitTest]
      cases c.head with
      | wildcard => exact ⟨fun _ _ h => Head.noConfusion h, fun _ => rfl⟩
      | variant isOk binds => exact ⟨fun _ _ h => Head.noConfusion h, fun _ => rfl⟩
      | value v =>
        dsimp only
        rw [Option.isSome_map]
        exact ⟨fun h w hw => Head.value.inj hw ▸ h, fun h => h v rfl⟩
    rw [emitArms, List.forall_mem_cons, ← hone]
    cases hfirst : emitArm compare r m i c b with
    | none => exact ⟨fun h => absurd h Bool.false_ne_true, fun h => absurd h.1 Bool.false_ne_true⟩
    | some b1 =>
      obtain ⟨tested, hparts⟩ := emitArm_parts hb hfirst
      rw [Option.bind_some, ih hparts.builds.placed]
      exact ⟨fun h => ⟨rfl, h⟩, fun h => h.2⟩

theorem emitCases_isSome {r : Bool} (hb : b.Placed) : (emitCases compare r cases default b).isSome = true ↔
    ∀ c ∈ cases, ∀ v, c.head = .value v → (compare v.ty).isSome = true := by
  have happended : b.appendBasicBlock.1.Placed := Builder.placed_append hb
  rw [← emitArms_isSome (r := r) (m := b.graph.length) (i := 0) cases happended]
  exact Eq.congr (Option.isSome_map ..) rfl

theorem emitMatch_isSome (inAsync pointer fresh : Bool) (ty : Ty) (cases : List MatchCase) (default : Option Bool)
    (hb : b.Placed) :
    (emitMatch inAsync pointer fresh ty cases default b).isSome = true ↔ Compiles inAsync pointer ty cases := by
  have hpushed := Builder.placed_push hb (.instr .scrutinee)
  rw [emitMatch, Compiles, comparison]
  cases hany : cases.any MatchCase.isVariant with
  | false =>
    rw [if_neg Bool.false_ne_true, if_neg Bool.false_ne_true, emitCases_isSome hpushed]
    exact ⟨fun h => ⟨fun hbad => absurd hbad Bool.false_ne_true, h⟩, fun h => h.2⟩
  | true =>
    rw [if_pos rfl, if_pos rfl]
    cases inAsync with
    | true => exact ⟨fun h => absurd h Bool.false_ne_true, fun h => absurd (h.1 rfl).1.symm Bool.false_ne_true⟩
    | false =>
      rw [if_neg Bool.false_ne_true]
      by_cases hresult : ty = .result
      · rw [if_pos hresult, emitCases_isSome hpushed]
        exact ⟨fun h => ⟨fun _ => ⟨rfl, hresult⟩, h⟩, fun h => h.2⟩
      · rw [if_neg hresult]
        exact ⟨fun h => absurd h Bool.false_ne_true, fun h => absurd (h.1 rfl).2 hresult⟩

/-- The code emitted for a statement that compiles. -/
theorem emitMatch_eq (fresh : Bool) (default : Option Bool) (b : Builder Instr Condition)
    (hcompiles : Compiles inAsync pointer x.ty cases) : ∃ r, emitMatch inAsync pointer fresh x.ty cases default b =
      emitCases (comparison pointer x.ty cases) r cases default (b.push (.instr .scrutinee)) := by
  rw [emitMatch, comparison]
  cases hany : cases.any MatchCase.isVariant with
  | false => exact ⟨false, by rw [if_neg Bool.false_ne_true, if_neg Bool.false_ne_true]⟩
  | true =>
    obtain ⟨hasync, hresult⟩ := hcompiles.1 hany
    exact ⟨fresh, by rw [if_pos rfl, if_pos rfl, hasync, if_neg Bool.false_ne_true, if_pos hresult]⟩

theorem isVariant_any (h : ∃ c ∈ cases, c.isVariant = true) : cases.any MatchCase.isVariant = true :=
  List.any_eq_true.mpr h

/-- What the code of a statement that compiles does. -/
theorem emitMatch_runs (hb : b.Placed) (hcompiles : Compiles inAsync pointer x.ty cases)
    (h : emitMatch inAsync pointer fresh x.ty cases default b = some b') {g : BlockGraph Instr Condition}
    (hg : b'.graph.Within g) (s : State) :
    ∃ s', s'.trace = s.trace ++ .scrutinee :: (orDefault default
        (tryArms (codeAttempt E x (comparison pointer x.ty cases)) x 0 cases)).1 ∧
      if (orDefault default (tryArms (codeAttempt E x (comparison pointer x.ty cases)) x 0 cases)).2 then
        ∃ p, g.Runs (sem E x) (b.here, s) (p, s') ∧ g.at? p = some .ret
      else g.Runs (sem E x) (b.here, s) (b'.here, s') := by
  obtain ⟨r, hshape⟩ := emitMatch_eq fresh default b hcompiles
  rw [hshape] at h
  have hpushed := Builder.placed_push hb (.instr .scrutinee)
  have hopen : (b.push (.instr .scrutinee)).terminated = false := Builder.terminated_push hb _
  obtain ⟨s1, hs1⟩ : ∃ s1, s1 = { s with scrutinee := some x }.log .scrutinee := ⟨_, rfl⟩
  have hvariant : ∀ c ∈ cases, c.isVariant = true → x.ty = .result :=
    fun c hc hv => (hcompiles.1 (isVariant_any ⟨c, hc, hv⟩)).2
  have hscrutinee : s1.scrutinee = some x := by rw [hs1]; rfl
  obtain ⟨s', htrace, hhere, hend⟩ := emitCases_runs (E := E) hpushed hopen h hscrutinee hvariant hg
  have hbuilds := builds_emitCases hpushed h
  have hfirst := Builder.runs_instr (S := sem E x) (g := g) (s := s) (t := s1) hb (i := .scrutinee)
    (by rw [hs1]; rfl) (hbuilds.within.trans hg)
  refine ⟨s', ?_, ?_⟩
  · rw [htrace, hs1]
    exact List.append_assoc ..
  · rw [hhere]
    exact Ends.after hfirst hend

/-- One open block. -/
def openBlock : Builder Instr Condition := ⟨[[]], 0⟩

/-- Every guard is false. -/
def noGuards : Env := ⟨fun _ => "", fun a b => a = b, fun _ _ => false⟩

/-- The guard of the third arm asks for the payload 5; every other guard is false. -/
def payloadGuard : Env := ⟨fun _ => "", fun a b => a = b, fun arm binder => arm = 2 ∧ binder = some 5⟩

end Neutron.Match
