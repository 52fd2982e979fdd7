import Neutron.NameScopes

/-!
# When namespacing is capture avoiding

The names of a rewritten module are those of its occurrences, each renamed when the rewriter
looks it up, has no binding of it and finds it among the module's own declarations. So the
rewriter follows the scoping of the language exactly when the two agree at every occurrence of
an own name.
-/

namespace Neutron.NameScopes
open Syntax Aliases

namespace Context
variable (ctx : Context) (x : Name) (names : List Name)

@[simp] theorem entered_shared : entered (.shared x :: ctx) = x :: entered ctx := rfl

@[simp] theorem entered_stray : entered (.stray x :: ctx) = x :: entered ctx := rfl

@[simp] theorem entered_append (ctx' : Context) :
    entered (ctx' ++ ctx) = entered ctx' ++ entered ctx := by
  simp [entered]

@[simp] theorem entered_reverse : entered ctx.reverse = (entered ctx).reverse := by
  simp [entered]

@[simp] theorem entered_map_shared : entered (names.map Binder.shared) = names := by
  simp [entered, List.filter_map, Function.comp_def, Binder.shared]

@[simp] theorem entered_map_stray : entered (names.map Binder.stray) = names := by
  simp [entered, List.filter_map, Function.comp_def, Binder.stray]

@[simp] theorem entered_map_missed : entered (names.map Binder.missed) = [] := by
  simp [entered, List.filter_map, Function.comp_def, Binder.missed]

@[simp] theorem entered_after : entered (after names ctx) = entered ctx := by
  simp [after]

@[simp] theorem entered_params (params : List FunctionParam) :
    entered (params.map fun p => Binder.shared p.name) = params.map FunctionParam.name := by
  simp [entered, List.filter_map, Function.comp_def, Binder.shared]

@[simp] theorem entered_generics (generics : List GenericParam) :
    entered (generics.map fun g => Binder.typeParam g.name) = [] := by
  simp [entered, List.filter_map, Function.comp_def, Binder.typeParam]

end Context

/-- An identifier as the lexer produces it. -/
def Identifier (x : Name) : Prop := x ≠ "" ∧ ∀ c ∈ x.toList, c ∉ separators ∧ c ≠ ':'

instance (x : Name) : Decidable (Identifier x) :=
  @instDecidableAnd _ _ _ (List.decidableBAll (fun c => c ∉ separators ∧ c ≠ ':') x.toList)

/-- A module imported under an alias. -/
structure AliasedModule where
  statements : List Stmt
  qualifier : Name
  qualifier_identifier : Identifier qualifier
  own_identifier : ∀ d ∈ topLevelNames statements, Identifier d

namespace AliasedModule
variable (m : AliasedModule)

def rewriter : Rewriter := ⟨m.qualifier, topLevelNames m.statements⟩

def occurrences : List Occurrence := stmtsOccurrences true [] m.statements

/-- The name the rewriter gives an occurrence. -/
def rewritten (o : Occurrence) : Name :=
  if o.name ∈ m.rewriter.own ∧ o.looked then m.rewriter.rename o.name else o.name

/-- The name an occurrence should get: renamed when it means an own declaration. -/
def expected (o : Occurrence) : Name :=
  if o.name ∈ m.rewriter.own ∧ o.free then m.rewriter.rename o.name else o.name

/-- The name without the alias. -/
def restored (x : Name) : Name :=
  (m.rewriter.own.find? fun d => m.rewriter.rename d = x).getD x

end AliasedModule

/-! ### The rewriter occurrence by occurrence -/

theorem segments_eq_self {x : Name} (hne : x ≠ "") (h : ∀ c ∈ x.toList, c ∉ separators) :
    segments x = [x] := by
  have hsplit : (x.toList.splitOnP fun c => decide (c ∈ separators)) = [x.toList] :=
    List.splitOnP_eq_singleton (by simpa using h)
  simp [segments, hsplit, hne]

namespace AliasedModule
variable (m : AliasedModule) (ctx : Context)

@[simp] theorem rewritten_valueAt (x : Name) :
    m.rewritten (valueAt ctx x) = m.rewriter.idToken ctx.entered x false := by
  by_cases h : x ∈ ctx.entered <;>
    simp [rewritten, Occurrence.looked, valueAt, Rewriter.idToken, Rewriter.shouldRename, h]

@[simp] theorem rewritten_typeAt (x : Name) :
    m.rewritten (typeAt ctx x) = m.rewriter.idToken ctx.entered x false := by
  by_cases h : x ∈ ctx.entered <;>
    simp [rewritten, Occurrence.looked, typeAt, Rewriter.idToken, Rewriter.shouldRename, h]

@[simp] theorem rewritten_declarationAt (top : Bool) (x : Name) :
    m.rewritten (declarationAt ctx top x) = m.rewriter.idToken ctx.entered x false := by
  by_cases h : x ∈ ctx.entered <;>
    simp [rewritten, Occurrence.looked, declarationAt, Rewriter.idToken, Rewriter.shouldRename, h]

@[simp] theorem rewritten_hiddenAt (x : Name) : m.rewritten (hiddenAt ctx x) = x := by
  simp [rewritten, Occurrence.looked, hiddenAt]

@[simp] theorem rewritten_localName (x : Name) : m.rewritten (localName x) = x := by
  simp [rewritten, Occurrence.looked, localName]

@[simp] theorem idToken_bind (scope : List Name) (x : Name) :
    m.rewriter.idToken scope x true = x := by
  simp [Rewriter.idToken]

theorem segments_rename {d : Name} (hd : d ∈ m.rewriter.own) :
    segments (m.rewriter.rename d) = [m.rewriter.rename d] := by
  obtain ⟨hne, hd⟩ := m.own_identifier d hd
  obtain ⟨-, hq⟩ := m.qualifier_identifier
  refine segments_eq_self (by simp [Rewriter.rename]) fun c hc => ?_
  have hc' : c ∈ m.qualifier.toList ∨ c = ':' ∨ c ∈ d.toList := by
    simpa [Rewriter.rename, rewriter, or_assoc] using hc
  rcases hc' with hc | rfl | hc
  · exact (hq c hc).1
  · decide
  · exact (hd c hc).1

/-- An own name is never an applied type, so the rewriter sees it in a type exactly when it is
the whole type. -/
theorem segments_idToken (lexeme : Name) :
    segments (m.rewriter.idToken ctx.entered lexeme false) =
      (lexemeAt ctx lexeme).map m.rewritten := by
  by_cases hown : lexeme ∈ m.rewriter.own
  · obtain ⟨hne, hplain⟩ := m.own_identifier lexeme hown
    have hself : segments lexeme = [lexeme] :=
      segments_eq_self hne fun c hc => (hplain c hc).1
    simp only [lexemeAt, hself, if_true, List.map_cons, List.map_nil, rewritten_typeAt]
    by_cases hscope : lexeme ∈ ctx.entered
    · simp [Rewriter.idToken, Rewriter.shouldRename, hscope, hself]
    · simp [Rewriter.idToken, Rewriter.shouldRename, hscope, hown, m.segments_rename hown]
  · have hkept : m.rewriter.idToken ctx.entered lexeme false = lexeme := by
      simp [Rewriter.idToken, Rewriter.shouldRename, hown]
    by_cases hself : segments lexeme = [lexeme]
    · simp [lexemeAt, hself, hkept]
    · simp [lexemeAt, hself, hkept, Function.comp_def]

theorem rewritten_map_hidden (occurrences : List Occurrence) :
    (occurrences.map fun o => { o with role := .hidden }).map m.rewritten =
      occurrences.map Occurrence.name := by
  simp [rewritten, Occurrence.looked, Function.comp_def]

end AliasedModule

/-! ### The occurrences are the names -/

theorem name_lexemeAt (ctx : Context) (lexeme : Name) :
    (lexemeAt ctx lexeme).map Occurrence.name = segments lexeme := by
  by_cases hself : segments lexeme = [lexeme]
  · simp [lexemeAt, hself, typeAt]
  · simp [lexemeAt, hself, hiddenAt, Function.comp_def]

mutual
theorem name_typeOccurrences (ctx : Context) :
    ∀ t, (typeOccurrences ctx t).map Occurrence.name = typeNames t
  | .named lexeme => name_lexemeAt ctx lexeme
  | .array none => rfl
  | .array (some inner) => name_typeOccurrences ctx inner
  | .option inner => name_typeOccurrences ctx inner
  | .result ok err => by
    simp [typeOccurrences, typeNames, name_typeOccurrences ctx ok, name_typeOccurrences ctx err]
  | .view inner _ => name_typeOccurrences ctx inner
  | .shared inner => name_typeOccurrences ctx inner
  | .slice none => rfl
  | .slice (some inner) => name_typeOccurrences ctx inner
  | .own inner => name_typeOccurrences ctx inner
  | .ref inner _ => name_typeOccurrences ctx inner
  | .rawPointer inner _ => name_typeOccurrences ctx inner
  | .implTrait lexeme => name_lexemeAt ctx lexeme
  | .dyn lexeme => name_lexemeAt ctx lexeme
  | .tuple elements => name_typesOccurrences ctx elements
  | .chan element => by
    simp [typeOccurrences, typeNames, ← name_typeOccurrences ctx element, Function.comp_def]
  | .int => rfl
  | .float => rfl
  | .string => rfl
  | .bool => rfl
  | .object => rfl
  | .any => rfl
  | .pointer => rfl
theorem name_typesOccurrences (ctx : Context) :
    ∀ ts, (typeOccurrences.typesOccurrences ctx ts).map Occurrence.name = typeNames.typesNames ts
  | [] => rfl
  | t :: rest => by
    simp [typeOccurrences.typesOccurrences, typeNames.typesNames, name_typeOccurrences ctx t,
      name_typesOccurrences ctx rest]
end

mutual
theorem typeNames_ty (m : AliasedModule) (ctx : Context) :
    ∀ t, typeNames (m.rewriter.ty ctx.entered t) = (typeOccurrences ctx t).map m.rewritten
  | .named lexeme => m.segments_idToken ctx lexeme
  | .array none => rfl
  | .array (some inner) => typeNames_ty m ctx inner
  | .option inner => typeNames_ty m ctx inner
  | .result ok err => by
    simp [Rewriter.ty, typeOccurrences, typeNames, typeNames_ty m ctx ok, typeNames_ty m ctx err]
  | .view inner _ => typeNames_ty m ctx inner
  | .shared inner => typeNames_ty m ctx inner
  | .slice none => rfl
  | .slice (some inner) => typeNames_ty m ctx inner
  | .own inner => typeNames_ty m ctx inner
  | .ref inner _ => typeNames_ty m ctx inner
  | .rawPointer inner _ => typeNames_ty m ctx inner
  | .implTrait lexeme => m.segments_idToken ctx lexeme
  | .dyn lexeme => m.segments_idToken ctx lexeme
  | .tuple elements => typesNames_tys m ctx elements
  | .chan element => by
    simp only [Rewriter.ty, typeOccurrences, typeNames]
    rw [m.rewritten_map_hidden, name_typeOccurrences]
  | .int => rfl
  | .float => rfl
  | .string => rfl
  | .bool => rfl
  | .object => rfl
  | .any => rfl
  | .pointer => rfl
theorem typesNames_tys (m : AliasedModule) (ctx : Context) :
    ∀ ts, typeNames.typesNames (Rewriter.ty.tys m.rewriter ctx.entered ts) =
      (typeOccurrences.typesOccurrences ctx ts).map m.rewritten
  | [] => rfl
  | t :: rest => by
    simp [Rewriter.ty.tys, typeOccurrences.typesOccurrences, typeNames.typesNames,
      typeNames_ty m ctx t, typesNames_tys m ctx rest]
end

theorem typesNames_map (m : AliasedModule) (ctx : Context) (types : List TypeAnnotation) :
    typeNames.typesNames (types.map (m.rewriter.ty ctx.entered)) =
      (typeOccurrences.typesOccurrences ctx types).map m.rewritten := by
  induction types with
  | nil => rfl
  | cons t rest ih =>
    simp [typeNames.typesNames, typeOccurrences.typesOccurrences, typeNames_ty m ctx t, ih]

theorem annotationNames_map (m : AliasedModule) (ctx : Context) (ann : Option TypeAnnotation) :
    annotationNames (ann.map (m.rewriter.ty ctx.entered)) =
      (annotationOccurrences ctx ann).map m.rewritten := by
  cases ann with
  | none => rfl
  | some t => exact typeNames_ty m ctx t

theorem paramsNames_params (m : AliasedModule) (ctx : Context) (params : List FunctionParam) :
    paramsNames (m.rewriter.params ctx.entered params) =
      (paramsOccurrences ctx params).map m.rewritten := by
  induction params generalizing ctx with
  | nil => rfl
  | cons p rest ih =>
    have hannotation := annotationNames_map m (.shared p.name :: ctx) p.ann
    have hrest := ih (.shared p.name :: ctx)
    rw [Context.entered_shared] at hannotation hrest
    simp [Rewriter.params, paramsNames, paramsOccurrences, hannotation, hrest]

theorem genericsNames_eq (m : AliasedModule) (ctx : Context) (generics : List GenericParam) :
    genericsNames generics = (genericsOccurrences ctx generics).map m.rewritten := by
  induction generics with
  | nil => rfl
  | cons g rest ih => simp [genericsNames, genericsOccurrences, ih, Function.comp_def]

theorem AliasedModule.rewritten_var (m : AliasedModule) (ctx : Context) (top isStatic : Bool) (name : Name) :
    m.rewritten (if isStatic then declarationAt ctx top name else localName name) =
      m.rewriter.idToken ctx.entered name (!isStatic) := by
  cases isStatic <;> simp

/-- The names of a rewritten tree are those of its occurrences, rewritten. -/
theorem names_trees (m : AliasedModule) :
    (∀ ctx e, exprNames (m.rewriter.expr ctx.entered e) = (exprOccurrences ctx e).map m.rewritten) ∧
      (∀ top ctx ss, stmtsNames (m.rewriter.stmts ctx.entered ss) = (stmtsOccurrences top ctx ss).map m.rewritten) ∧
      (∀ top ctx s, stmtNames (m.rewriter.stmt ctx.entered s) = (stmtOccurrences top ctx s).map m.rewritten) ∧
      (∀ ctx ss, stmtsNames (m.rewriter.methodList ctx.entered ss) = (methodsOccurrences ctx ss).map m.rewritten) ∧
      (∀ ctx ms, membersNames (m.rewriter.enumMembers ctx.entered ms) = (membersOccurrences ctx ms).map m.rewritten) ∧
      (∀ ctx e, exprOptionNames (m.rewriter.exprOption ctx.entered e) =
        (exprOptionOccurrences ctx e).map m.rewritten) ∧
      (∀ ctx cs, casesNames (m.rewriter.matchCases ctx.entered cs) = (casesOccurrences ctx cs).map m.rewritten) ∧
      (∀ ctx body, stmtsOptionNames (m.rewriter.stmtsOption ctx.entered body) =
        (stmtsOptionOccurrences ctx body).map m.rewritten) ∧
      (∀ ctx s, stmtOptionNames (m.rewriter.stmtOption ctx.entered s) =
        (stmtOptionOccurrences ctx s).map m.rewritten) ∧
      (∀ ctx bs, elifsNames (m.rewriter.elifBranches ctx.entered bs) = (elifsOccurrences ctx bs).map m.rewritten) ∧
      (∀ ctx es, exprsNames (m.rewriter.exprs ctx.entered es) = (exprsOccurrences ctx es).map m.rewritten) := by
  apply exprOccurrences.mutual_induct
  all_goals
    intros
    simp_all +zetaDelta [Rewriter.expr, Rewriter.exprs, Rewriter.exprOption, Rewriter.stmt, Rewriter.stmts,
      Rewriter.stmtOption, Rewriter.stmtsOption, Rewriter.methodList, Rewriter.elifBranches, Rewriter.matchCases,
      Rewriter.enumMembers, exprNames, exprsNames, exprOptionNames, stmtNames, stmtsNames, stmtOptionNames,
      stmtsOptionNames, elifsNames, casesNames, membersNames, exprOccurrences, exprsOccurrences,
      exprOptionOccurrences, stmtOccurrences, stmtsOccurrences, stmtOptionOccurrences, stmtsOptionOccurrences,
      methodsOccurrences, elifsOccurrences, casesOccurrences, membersOccurrences, m.rewritten_var,
      ← annotationNames_map, ← paramsNames_params, ← genericsNames_eq m, ← typesNames_map, ← typeNames_ty,
      Option.toList_map, Function.comp_def]

theorem stmtsNames_stmts (m : AliasedModule) (top : Bool) (ctx : Context) (ss : List Stmt) :
    stmtsNames (m.rewriter.stmts ctx.entered ss) = (stmtsOccurrences top ctx ss).map m.rewritten :=
  (names_trees m).2.1 top ctx ss

/-- The occurrences of a tree are its names: they are those of the tree a rewriter without own
names gives. -/
theorem name_stmtsOccurrences (top : Bool) (ctx : Context) (statements : List Stmt) :
    (stmtsOccurrences top ctx statements).map Occurrence.name = stmtsNames statements := by
  let void : AliasedModule := ⟨[], "m", by decide, by simp [topLevelNames]⟩
  have hown : void.rewriter.own = [] := rfl
  have hnames := stmtsNames_stmts void top ctx statements
  have hname : void.rewritten = Occurrence.name := by
    funext o
    simp [AliasedModule.rewritten, hown]
  rw [Rewriter.stmts_eq_self hown, hname] at hnames
  exact hnames.symm

/-! ### Capture avoidance -/

/-- The rewriter renames exactly the occurrences that mean an own declaration of the module, and
taking the alias away again gives the original names. -/
structure CaptureAvoiding (m : AliasedModule) : Prop where
  renamed : stmtsNames (namespaced m.statements m.qualifier (topLevelNames m.statements)) =
    m.occurrences.map m.expected
  restores : (stmtsNames (namespaced m.statements m.qualifier (topLevelNames m.statements))).map
    m.restored = stmtsNames m.statements

/-- The bindings in scope and those the rewriter has entered take the name alike. -/
def Occurrence.Agreed (o : Occurrence) : Prop :=
  match o.role with
  | .value => o.name ∈ o.context.values ↔ o.name ∈ o.context.entered
  | .type => o.name ∈ o.context.types ↔ o.name ∈ o.context.entered
  | .hidden => o.name ∈ o.context.types
  | .declaration true => o.name ∉ o.context.entered
  | .declaration false => o.name ∈ o.context.entered
  | .bound => True

/-- At every occurrence of an own name the two scopes agree, and no name of the module already
looks like an own name under the alias. -/
structure Clear (m : AliasedModule) : Prop where
  agreed : ∀ o ∈ m.occurrences, o.name ∈ topLevelNames m.statements → o.Agreed
  unqualified : ∀ x ∈ stmtsNames m.statements, ∀ d ∈ topLevelNames m.statements,
    x ≠ m.qualifier ++ "::" ++ d

theorem Occurrence.agreed_iff (o : Occurrence) : o.Agreed ↔ o.free = o.looked := by
  unfold Agreed free looked
  cases o.role with
  | declaration top => cases top <;> simp
  | _ => by_cases h₁ : o.name ∈ o.context.values <;> by_cases h₂ : o.name ∈ o.context.types <;>
      by_cases h₃ : o.name ∈ o.context.entered <;> simp [h₁, h₂, h₃]

namespace AliasedModule
variable (m : AliasedModule)

theorem names_namespaced :
    stmtsNames (namespaced m.statements m.qualifier (topLevelNames m.statements)) =
      m.occurrences.map m.rewritten :=
  stmtsNames_stmts m true [] m.statements

theorem name_occurrences : m.occurrences.map Occurrence.name = stmtsNames m.statements :=
  name_stmtsOccurrences true [] m.statements

theorem rename_ne (x : Name) : m.rewriter.rename x ≠ x := by
  intro h
  have hlength := congrArg String.length h
  have hcolons : "::".length = 2 := rfl
  rw [Rewriter.rename, String.length_append, String.length_append, hcolons] at hlength
  omega

theorem rename_inj {x y : Name} (h : m.rewriter.rename x = m.rewriter.rename y) : x = y := by
  have hlist : (m.qualifier ++ "::").toList ++ x.toList =
      (m.qualifier ++ "::").toList ++ y.toList := by
    simpa [Rewriter.rename, rewriter] using congrArg String.toList h
  exact String.toList_injective (List.append_cancel_left hlist)

theorem own_ne_rename {x d : Name} (hx : x ∈ m.rewriter.own) : x ≠ m.rewriter.rename d := by
  intro h
  have hcolon : ':' ∈ (m.rewriter.rename d).toList := by simp [Rewriter.rename]
  exact ((m.own_identifier x hx).2 ':' (h ▸ hcolon)).2 rfl

theorem restored_rename {x : Name} (hx : x ∈ m.rewriter.own) :
    m.restored (m.rewriter.rename x) = x := by
  unfold restored
  cases hfind : m.rewriter.own.find? fun d => m.rewriter.rename d = m.rewriter.rename x with
  | none =>
    have := List.find?_eq_none.mp hfind x hx
    simp at this
  | some d =>
    have := List.find?_some hfind
    exact m.rename_inj (of_decide_eq_true this)

theorem restored_eq_self_iff (x : Name) :
    m.restored x = x ↔ ∀ d ∈ m.rewriter.own, x ≠ m.rewriter.rename d := by
  unfold restored
  cases hfind : m.rewriter.own.find? fun d => m.rewriter.rename d = x with
  | none =>
    have hnone := List.find?_eq_none.mp hfind
    simp only [Option.getD_none, true_iff]
    intro d hd h
    exact hnone d hd (by simp [h])
  | some d =>
    have hd : m.rewriter.rename d = x := by simpa using List.find?_some hfind
    simp only [Option.getD_some]
    constructor
    · intro h
      exact absurd (h ▸ hd) (m.rename_ne x)
    · intro h
      exact absurd hd.symm (h d (List.mem_of_find?_eq_some hfind))

theorem rewritten_eq_expected_iff (o : Occurrence) :
    m.rewritten o = m.expected o ↔ (o.name ∈ m.rewriter.own → o.Agreed) := by
  rw [o.agreed_iff]
  by_cases hown : o.name ∈ m.rewriter.own
  · cases hfree : o.free <;> cases hlooked : o.looked <;>
      simp [rewritten, expected, hown, hfree, hlooked, m.rename_ne, (m.rename_ne _).symm]
  · simp [rewritten, expected, hown]

theorem restored_rewritten_iff (o : Occurrence) :
    m.restored (m.rewritten o) = o.name ↔ ∀ d ∈ m.rewriter.own, o.name ≠ m.rewriter.rename d := by
  by_cases hrename : o.name ∈ m.rewriter.own ∧ o.looked
  · have hsame : m.rewritten o = m.rewriter.rename o.name := by simp [rewritten, hrename]
    rw [hsame, m.restored_rename hrename.1]
    simp [m.own_ne_rename hrename.1]
  · have hsame : m.rewritten o = o.name := by simp [rewritten, hrename]
    rw [hsame, m.restored_eq_self_iff]

theorem renamed_iff :
    stmtsNames (namespaced m.statements m.qualifier (topLevelNames m.statements)) =
        m.occurrences.map m.expected ↔
      ∀ o ∈ m.occurrences, o.name ∈ topLevelNames m.statements → o.Agreed := by
  rw [m.names_namespaced, List.map_inj_left]
  exact forall₂_congr fun o _ => m.rewritten_eq_expected_iff o

theorem restores_iff :
    (stmtsNames (namespaced m.statements m.qualifier (topLevelNames m.statements))).map
        m.restored = stmtsNames m.statements ↔
      ∀ x ∈ stmtsNames m.statements, ∀ d ∈ topLevelNames m.statements,
        x ≠ m.qualifier ++ "::" ++ d := by
  rw [m.names_namespaced, ← m.name_occurrences, List.map_map, List.map_inj_left,
    List.forall_mem_map]
  exact forall₂_congr fun o _ => m.restored_rewritten_iff o

end AliasedModule

theorem captureAvoiding_iff_clear (m : AliasedModule) : CaptureAvoiding m ↔ Clear m := by
  constructor
  · intro h
    exact ⟨m.renamed_iff.mp h.renamed, m.restores_iff.mp h.restores⟩
  · intro h
    exact ⟨m.renamed_iff.mpr h.agreed, m.restores_iff.mpr h.unqualified⟩

/-- `fun f() { }  fun g() { var f = 1; say(f) }`, imported as `m`. -/
def localVar : AliasedModule where
  statements := [.function false "f" [] [] none [],
    .function false "g" [] [] none [.var "f" none none false false none, .say (.var "f")]]
  qualifier := "m"
  qualifier_identifier := by decide
  own_identifier := by decide

/-- The local `f` is not entered, so `say(f)` is renamed to the function. -/
theorem not_captureAvoiding_localVar : ¬ CaptureAvoiding localVar := by
  intro h
  have hagreed := localVar.renamed_iff.mp h.renamed (valueAt [.missed "f"] "f")
    (by simp [AliasedModule.occurrences, localVar, stmtsOccurrences, stmtOccurrences,
      exprOccurrences, localDefined, stmtDefined, exprOptionDefined, declared, after])
    (by simp [localVar, topLevelNames, declared, valueAt])
  exact absurd (hagreed.mp (by decide)) (by decide)

end Neutron.NameScopes
