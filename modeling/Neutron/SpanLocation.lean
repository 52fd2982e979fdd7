import Mathlib.Algebra.Group.Nat.Defs
import Mathlib.Data.List.Nodup
import Neutron.SpanShift

/-!
# Locating the spans of a merged program

`merge` shifts the spans of every file by the total length of the files before it and appends the
top-level statements. `localize` goes back: it looks for the narrowest top-level statement whose
byte range holds a span and takes that statement's file and base. The renaming of modules imported
under an alias changes lexemes only and is left out.
-/

namespace Neutron.Source

/-! ### Byte ranges -/

/-- The token of a type annotation whose span counts for a byte range. -/
def taSpan : TypeAnnotation → Option Span
  | .named token => some token.span
  | .array (some inner) => taSpan inner
  | .option inner => taSpan inner
  | _ => none

def usizeMax : ℕ := 2 ^ 64 - 1

/-- The union of byte ranges, `(0, 0)` when there is none. -/
def cover (pieces : List (ℕ × ℕ)) : ℕ × ℕ :=
  let acc := pieces.foldl (fun acc piece => (min acc.1 piece.1, max acc.2 piece.2)) (usizeMax, 0)
  if acc.1 = usizeMax then (0, 0) else acc

def addSpan (s : Span) : List (ℕ × ℕ) := if s.isDummy then [] else [(s.start, s.stop)]

def addToken (t : Token) : List (ℕ × ℕ) := addSpan t.span

def addExpr (e : Expr) : List (ℕ × ℕ) := addSpan e.span

def addTy (ty : TypeAnnotation) : List (ℕ × ℕ) :=
  (taSpan ty).toList.map fun s => (s.start, s.stop)

def addParam (p : FunctionParam) : List (ℕ × ℕ) := addToken p.name ++ p.ann.toList.flatMap addTy

def addReturn (r : ReturnType) : List (ℕ × ℕ) := addSpan r.arrowSpan ++ addTy r.ty

def addGenericParam (p : GenericParam) : List (ℕ × ℕ) :=
  addToken p.name ++ p.bounds.flatMap addToken

def addMember : EnumMember → List (ℕ × ℕ)
  | .mk name value _ => addToken name ++ value.toList.flatMap addExpr

mutual
/-- The byte range of a statement: the union of the ranges of its parts. -/
def stmtByteRange : Stmt → ℕ × ℕ
  | .expression expression => cover (addExpr expression)
  | .say expression keywordSpan => cover (addSpan keywordSpan ++ addExpr expression)
  | .var name ann initializer _ _ _ =>
    cover (addToken name ++ ann.toList.flatMap addTy ++ initializer.toList.flatMap addExpr)
  | .block statements openSpan closeSpan =>
    cover (addSpan openSpan ++ addSpan closeSpan ++ stmtsRanges statements)
  | .if condition thenBranch elifBranches elseBranch =>
    cover (addExpr condition ++ [stmtByteRange thenBranch] ++ elifsRanges elifBranches ++
      stmtOptionRanges elseBranch)
  | .while condition body => cover (addExpr condition ++ [stmtByteRange body])
  | .doWhile body condition => cover (stmtByteRange body :: addExpr condition)
  | .for init condition update body =>
    cover (stmtOptionRanges init ++ condition.toList.flatMap addExpr ++
      update.toList.flatMap addExpr ++ [stmtByteRange body])
  | .forIn name iterable body => cover (addToken name ++ addExpr iterable ++ [stmtByteRange body])
  | .forAwait name producer body => cover (addToken name ++ addExpr producer ++ [stmtByteRange body])
  | .chanRecvFor name channel body =>
    cover (addToken name ++ addExpr channel ++ [stmtByteRange body])
  | .go call block keywordSpan =>
    cover (addSpan keywordSpan ++ addExpr call ++ stmtsOptionRanges block)
  | .function name _ params returnType body =>
    cover (addToken name ++ params.flatMap addParam ++ returnType.toList.flatMap addReturn ++
      stmtsRanges body)
  | .asyncFunction name params returnType body =>
    cover (addToken name ++ params.flatMap addParam ++ returnType.toList.flatMap addReturn ++
      stmtsRanges body)
  | .return value => cover (value.toList.flatMap addExpr)
  | .class name _ parent body =>
    cover (addToken name ++ parent.toList.flatMap addToken ++ stmtsRanges body)
  | .break span => cover (addSpan span)
  | .continue span => cover (addSpan span)
  | .match expression cases defaultCase =>
    cover (addExpr expression ++ matchCasesRanges cases ++ stmtOptionRanges defaultCase)
  | .try tryBlock catchVar catchBlock finallyBlock =>
    cover ([stmtByteRange tryBlock] ++ catchVar.toList.flatMap addToken ++
      stmtOptionRanges catchBlock ++ stmtOptionRanges finallyBlock)
  | .throw value => cover (addExpr value)
  | .retry count body catchVar catchBlock =>
    cover (addExpr count ++ [stmtByteRange body] ++ catchVar.toList.flatMap addToken ++
      stmtOptionRanges catchBlock)
  | .unsafeBlock body => cover [stmtByteRange body]
  | .quiet _ body => cover [stmtByteRange body]
  | .destructure _ _ names _ initializer => cover (names.flatMap addToken ++ addExpr initializer)
  | .use library _ importedSymbols asName =>
    cover (addToken library ++ importedSymbols.flatMap addToken ++ asName.toList.flatMap addToken)
  | .enum name _ members => cover (addToken name ++ members.flatMap addMember)
  | .typeAlias name genericParams target =>
    cover (addToken name ++ genericParams.flatMap addGenericParam ++ addTy target)
  | .trait name parents associatedTypes methods =>
    cover (addToken name ++ parents.flatMap addToken ++ associatedTypes.flatMap addToken ++
      stmtsRanges methods)
  | .impl traitName typeName body =>
    cover (addToken traitName ++ addToken typeName ++ stmtsRanges body)
  | .test name body => cover (addToken name ++ stmtsRanges body)
def stmtsRanges : List Stmt → List (ℕ × ℕ)
  | [] => []
  | s :: rest => stmtByteRange s :: stmtsRanges rest
def stmtOptionRanges : Option Stmt → List (ℕ × ℕ)
  | none => []
  | some s => [stmtByteRange s]
def stmtsOptionRanges : Option (List Stmt) → List (ℕ × ℕ)
  | none => []
  | some ss => stmtsRanges ss
def elifsRanges : List ElifBranch → List (ℕ × ℕ)
  | [] => []
  | .mk condition body elifSpan :: rest =>
    addSpan elifSpan ++ addExpr condition ++ [stmtByteRange body] ++ elifsRanges rest
def matchCasesRanges : List MatchCase → List (ℕ × ℕ)
  | [] => []
  | .mk value _ guard body caseSpan :: rest =>
    addSpan caseSpan ++ addExpr value ++ guard.toList.flatMap addExpr ++ [stmtByteRange body] ++
      matchCasesRanges rest
end

/-! ### Merging and localizing -/

/-- A parsed file with the length of its source text. -/
structure ParsedModule (P : Type) where
  path : P
  length : ℕ
  statements : List Stmt

/-- A statement of the merged program: its file, its base and the statement as the file has it. -/
structure Placed (P : Type) where
  origin : P
  base : ℕ
  original : Stmt

section
variable {P : Type}

def Placed.merged (p : Placed P) : Stmt := shiftStmt p.base p.original

/-- Imports of files are dropped, except those with an alias. -/
def keeps : Stmt → Bool
  | .use _ true _ none => false
  | _ => true

/-- The files one after another, from a base. -/
def mergeFrom : ℕ → List (ParsedModule P) → List (Placed P)
  | _, [] => []
  | base, m :: rest =>
    (m.statements.filter keeps).map (fun s => ⟨m.path, base, s⟩) ++
      mergeFrom (base + (m.length + 1)) rest

def merge (files : List (ParsedModule P)) : List (Placed P) := mergeFrom 0 files

def Holds (range : ℕ × ℕ) (s : Span) : Prop := range.1 ≤ s.start ∧ s.stop ≤ range.2

instance (range : ℕ × ℕ) (s : Span) : Decidable (Holds range s) :=
  inferInstanceAs (Decidable (_ ∧ _))

def width (range : ℕ × ℕ) : ℕ := range.2 - range.1

/-- One turn of the loop of `span_index`. -/
def narrower (s : Span) (best : Option (Placed P × ℕ)) (p : Placed P) : Option (Placed P × ℕ) :=
  let range := stmtByteRange p.merged
  if Holds range s then
    match best with
    | none => some (p, width range)
    | some (_, bestWidth) => if width range < bestWidth then some (p, width range) else best
  else best

def spanIndex (program : List (Placed P)) (s : Span) : Option (Placed P × ℕ) :=
  program.foldl (narrower s) none

def localize (program : List (Placed P)) (s : Span) : Option (P × ℕ) :=
  (spanIndex program s).map fun best => (best.1.origin, best.1.base)

/-- A merged span in the coordinates of its file. -/
def unshift (base : ℕ) (s : Span) : Span :=
  { s with start := s.start - base, stop := s.stop - base }

/-! ### The spans of a statement -/

def leafSpans : Leaf → List Span
  | .span s => [s]
  | .ann ty => typeSpans ty
  | .data ty => typeSpans ty

def stmtSpans (s : Stmt) : List Span := (stmtLeaves s).flatMap leafSpans

/-- The spans of a placed statement, each with what it has become in the merged program. -/
def Placed.occurrences (p : Placed P) : List (Span × Span) :=
  (stmtSpans p.original).zip (stmtSpans p.merged)

end

/-! ### Where byte ranges sit -/

section
variable {base top : ℕ}

/-- The ends of a range are zero or in the part of the merged text between two bounds. -/
structure RangeSits (base top : ℕ) (range : ℕ × ℕ) : Prop where
  low : range.1 = 0 ∨ base ≤ range.1
  high : range.2 = 0 ∨ base ≤ range.2 ∧ range.2 ≤ top

def SpanSits (base top : ℕ) (s : Span) : Prop := RangeSits base top (s.start, s.stop)

/-- The spans of a leaf that count for a byte range sit between the bounds. -/
def LeafSits (base top : ℕ) : Leaf → Prop
  | .span s => SpanSits base top s
  | .ann ty => ∀ s, taSpan ty = some s → SpanSits base top s
  | .data _ => True

def AllSit (base top : ℕ) (leaves : List Leaf) : Prop := ∀ l ∈ leaves, LeafSits base top l

def PiecesSit (base top : ℕ) (pieces : List (ℕ × ℕ)) : Prop := ∀ r ∈ pieces, RangeSits base top r

@[simp] theorem allSit_nil : AllSit base top [] := by simp [AllSit]

@[simp] theorem allSit_cons (l : Leaf) (leaves : List Leaf) :
    AllSit base top (l :: leaves) ↔ LeafSits base top l ∧ AllSit base top leaves := by
  simp [AllSit]

@[simp] theorem allSit_append (leaves leaves' : List Leaf) :
    AllSit base top (leaves ++ leaves') ↔ AllSit base top leaves ∧ AllSit base top leaves' := by
  simp [AllSit, or_imp, forall_and]

@[simp] theorem allSit_map {α : Type} (f : α → Leaf) (l : List α) :
    AllSit base top (l.map f) ↔ ∀ a ∈ l, LeafSits base top (f a) := by
  simp [AllSit]

@[simp] theorem allSit_flatMap {α : Type} (f : α → List Leaf) (l : List α) :
    AllSit base top (l.flatMap f) ↔ ∀ a ∈ l, AllSit base top (f a) := by
  simp only [AllSit, List.mem_flatMap]
  constructor
  · exact fun h a ha l hl => h l ⟨a, ha, hl⟩
  · rintro h l ⟨a, ha, hl⟩
    exact h a ha l hl

@[simp] theorem leafSits_span (s : Span) : LeafSits base top (.span s) ↔ SpanSits base top s := .rfl

@[simp] theorem leafSits_tokenLeaf (t : Token) :
    LeafSits base top (tokenLeaf t) ↔ SpanSits base top t.span := .rfl

@[simp] theorem piecesSit_nil : PiecesSit base top [] := by simp [PiecesSit]

@[simp] theorem piecesSit_cons (r : ℕ × ℕ) (pieces : List (ℕ × ℕ)) :
    PiecesSit base top (r :: pieces) ↔ RangeSits base top r ∧ PiecesSit base top pieces := by
  simp [PiecesSit]

@[simp] theorem piecesSit_append (pieces pieces' : List (ℕ × ℕ)) :
    PiecesSit base top (pieces ++ pieces') ↔ PiecesSit base top pieces ∧ PiecesSit base top pieces' := by
  simp [PiecesSit, or_imp, forall_and]

@[simp] theorem piecesSit_flatMap {α : Type} (f : α → List (ℕ × ℕ)) (l : List α) :
    PiecesSit base top (l.flatMap f) ↔ ∀ a ∈ l, PiecesSit base top (f a) := by
  simp only [PiecesSit, List.mem_flatMap]
  constructor
  · exact fun h a ha r hr => h r ⟨a, ha, hr⟩
  · rintro h r ⟨a, ha, hr⟩
    exact h a ha r hr

/-- The union of ranges that sit between the bounds does. The low end of the accumulator is the
sentinel until a range has been added. -/
theorem cover_sits {pieces : List (ℕ × ℕ)} (h : PiecesSit base top pieces) :
    RangeSits base top (cover pieces) := by
  have hfold : ∀ acc : ℕ × ℕ, (acc.1 = usizeMax ∨ acc.1 = 0 ∨ base ≤ acc.1) →
      (acc.2 = 0 ∨ base ≤ acc.2 ∧ acc.2 ≤ top) →
      let acc' := pieces.foldl (fun acc piece => (min acc.1 piece.1, max acc.2 piece.2)) acc
      (acc'.1 = usizeMax ∨ acc'.1 = 0 ∨ base ≤ acc'.1) ∧
        (acc'.2 = 0 ∨ base ≤ acc'.2 ∧ acc'.2 ≤ top) := by
    induction pieces with
    | nil => exact fun acc hlow hhigh => ⟨hlow, hhigh⟩
    | cons piece pieces ih =>
      intro acc hlow hhigh
      obtain ⟨hpiece, hrest⟩ := (piecesSit_cons piece pieces).mp h
      have hlow' := hpiece.low
      have hhigh' := hpiece.high
      refine ih hrest (min acc.1 piece.1, max acc.2 piece.2) ?_ ?_
      · dsimp only
        omega
      · dsimp only
        omega
  obtain ⟨hlow, hhigh⟩ := hfold (usizeMax, 0) (.inl rfl) (.inl rfl)
  unfold cover
  dsimp only
  split
  case isTrue => exact ⟨.inl rfl, .inl rfl⟩
  case isFalse hne => exact ⟨hlow.resolve_left hne, hhigh⟩

theorem SpanSits.to {s t : Span} (hs : SpanSits base top s) (ht : SpanSits base top t) :
    SpanSits base top (s.to t) := ⟨hs.low, ht.high⟩

/-- The span of an expression joins spans of its leaves. -/
theorem expr_sits : ∀ e : Expr, AllSit base top (exprLeaves e) → SpanSits base top e.span := by
  apply Expr.span.induct fun fallback es => AllSit base top (exprsLeaves es) →
    SpanSits base top fallback → SpanSits base top (Expr.span.lastSpan fallback es)
  case case36 =>
    intro fallback e rest hne ih h hfallback
    cases rest with
    | nil => exact absurd rfl hne
    | cons e' rest =>
      simp only [exprsLeaves, allSit_append] at h
      simpa [Expr.span.lastSpan] using ih (by simp [exprsLeaves, h]) hfallback
  all_goals
    intros
    simp_all [exprLeaves, exprsLeaves, Expr.span, Expr.span.lastSpan, SpanSits.to]

@[simp] theorem addSpan_sits {s : Span} (h : SpanSits base top s) : PiecesSit base top (addSpan s) := by
  unfold addSpan
  split
  · simp
  · simpa [SpanSits] using h

@[simp] theorem addToken_sits {t : Token} (h : SpanSits base top t.span) :
    PiecesSit base top (addToken t) :=
  addSpan_sits h

@[simp] theorem addExpr_sits {e : Expr} (h : AllSit base top (exprLeaves e)) :
    PiecesSit base top (addExpr e) :=
  addSpan_sits (expr_sits e h)

@[simp] theorem addTy_sits {ty : TypeAnnotation} (h : LeafSits base top (.ann ty)) :
    PiecesSit base top (addTy ty) := by
  unfold addTy
  cases hspan : taSpan ty with
  | none => simp
  | some s => simpa [SpanSits] using h s hspan

@[simp] theorem addParam_sits {p : FunctionParam} (h : AllSit base top (paramLeaves p)) :
    PiecesSit base top (addParam p) := by
  simp [paramLeaves] at h
  simp +contextual [addParam, h]

@[simp] theorem addReturn_sits {r : ReturnType} (h : AllSit base top (returnTypeLeaves r)) :
    PiecesSit base top (addReturn r) := by
  simp [returnTypeLeaves] at h
  simp [addReturn, h]

@[simp] theorem addGenericParam_sits {p : GenericParam} (h : AllSit base top (genericParamLeaves p)) :
    PiecesSit base top (addGenericParam p) := by
  simp [genericParamLeaves] at h
  simp +contextual [addGenericParam, h]

@[simp] theorem allSit_exprOption (o : Option Expr) :
    AllSit base top (exprOptionLeaves o) ↔ ∀ e, o = some e → AllSit base top (exprLeaves e) := by
  cases o <;> simp [exprOptionLeaves]

theorem members_sit {ms : List EnumMember} (h : AllSit base top (membersLeaves ms)) :
    PiecesSit base top (ms.flatMap addMember) := by
  induction ms with
  | nil => simp
  | cons m ms ih =>
    cases m with
    | mk name value dataTypes =>
      simp only [membersLeaves, allSit_append] at h
      rw [List.flatMap_cons, piecesSit_append]
      refine ⟨?_, ih h.2⟩
      simp at h
      simp +contextual [addMember, h]

/-- Every statement covers the pieces of its parts. -/
theorem ranges_sit :
    (∀ s, AllSit base top (stmtLeaves s) → RangeSits base top (stmtByteRange s)) ∧
      (∀ cs, AllSit base top (matchCasesLeaves cs) → PiecesSit base top (matchCasesRanges cs)) ∧
      (∀ o, AllSit base top (stmtsOptionLeaves o) → PiecesSit base top (stmtsOptionRanges o)) ∧
      (∀ ss, AllSit base top (stmtsLeaves ss) → PiecesSit base top (stmtsRanges ss)) ∧
      (∀ o, AllSit base top (stmtOptionLeaves o) → PiecesSit base top (stmtOptionRanges o)) ∧
      (∀ bs, AllSit base top (elifsLeaves bs) → PiecesSit base top (elifsRanges bs)) := by
  apply stmtByteRange.mutual_induct
  case case27 =>
    intro name _ members h
    simp [stmtLeaves] at h
    exact cover_sits ((piecesSit_append _ _).mpr ⟨addToken_sits h.1, members_sit h.2.2⟩)
  all_goals
    intros
    first
      | exact cover_sits (by simp_all +contextual [stmtLeaves])
      | simp_all +contextual [stmtsLeaves, stmtOptionLeaves, stmtsOptionLeaves, elifsLeaves, matchCasesLeaves,
          stmtsRanges, stmtOptionRanges, stmtsOptionRanges, elifsRanges, matchCasesRanges]

theorem stmt_sits : ∀ s : Stmt, AllSit base top (stmtLeaves s) → RangeSits base top (stmtByteRange s) :=
  ranges_sit.1

end

/-! ### The spans of shifted statements -/

theorem stmtLeaves_shiftStmt (base : ℕ) (s : Stmt) :
    stmtLeaves (shiftStmt base s) = (stmtLeaves s).map (shiftTreatment base).leaf :=
  Treatment.stmt_leaves s

theorem taSpan_shiftType (base : ℕ) (ty : TypeAnnotation) :
    taSpan (shiftType base ty) = (taSpan ty).map (moved base) := by
  fun_induction taSpan ty with
  | case1 token => simp [shiftType, taSpan, shiftToken, shiftSpan_eq_moved]
  | case2 inner ih => simpa [shiftType, taSpan] using ih
  | case3 inner ih => simpa [shiftType, taSpan] using ih
  | case4 ty hnamed harray hoption =>
    rw [shiftType_of_other hnamed harray hoption]
    simp [taSpan]

theorem taSpan_mem {ty : TypeAnnotation} {s : Span} (h : taSpan ty = some s) : s ∈ typeSpans ty := by
  fun_induction taSpan ty with
  | case1 token => simpa [typeSpans, eq_comm] using h
  | case2 inner ih => simpa [typeSpans, typeOptionSpans] using ih h
  | case3 inner ih => simpa [typeSpans] using ih h
  | case4 => simp at h

theorem moved_sits (base : ℕ) {len : ℕ} {s : Span} (hs : s.start ≤ s.stop ∧ s.stop ≤ len) :
    SpanSits base (base + len) (moved base s) := by
  unfold moved
  split
  case isTrue h =>
    simp only [Span.isDummy, Bool.and_eq_true, beq_iff_eq] at h
    exact ⟨.inl h.1, .inl h.2⟩
  case isFalse =>
    refine ⟨.inr ?_, .inr ⟨?_, ?_⟩⟩
    · dsimp only
      omega
    · dsimp only
      omega
    · dsimp only
      omega

/-- The range of a shifted statement sits where the text of its file does. -/
theorem shiftStmt_sits (base : ℕ) {len : ℕ} {s : Stmt}
    (h : ∀ sp ∈ stmtSpans s, sp.start ≤ sp.stop ∧ sp.stop ≤ len) :
    RangeSits base (base + len) (stmtByteRange (shiftStmt base s)) := by
  refine stmt_sits _ ?_
  rw [stmtLeaves_shiftStmt, allSit_map]
  intro l hl
  have hspans : ∀ sp ∈ leafSpans l, sp.start ≤ sp.stop ∧ sp.stop ≤ len :=
    fun sp hsp => h sp (List.mem_flatMap.mpr ⟨l, hl, hsp⟩)
  cases l with
  | span sp =>
    rw [Treatment.leaf_span, leafSits_span, shiftTreatment, shiftSpan_eq_moved]
    exact moved_sits base (hspans sp List.mem_cons_self)
  | ann ty =>
    intro sp hsp
    change taSpan (shiftType base ty) = some sp at hsp
    rw [taSpan_shiftType, Option.map_eq_some_iff] at hsp
    obtain ⟨sp₀, hsp₀, rfl⟩ := hsp
    exact moved_sits base (hspans sp₀ (taSpan_mem hsp₀))
  | data ty => trivial

theorem zip_flatMap {α β : Type} {f g : α → List β} (h : ∀ a, (f a).length = (g a).length)
    (l : List α) : (l.flatMap f).zip (l.flatMap g) = l.flatMap fun a => (f a).zip (g a) := by
  induction l with
  | nil => rfl
  | cons a l ih => rw [List.flatMap_cons, List.flatMap_cons, List.zip_append (h a), ih, List.flatMap_cons]

theorem eq_of_mem_zip_self {α : Type} {l : List α} {o : α × α} (h : o ∈ l.zip l) : o.2 = o.1 := by
  induction l with
  | nil => simp at h
  | cons a l ih =>
    rcases List.mem_cons.mp h with rfl | h
    · rfl
    · exact ih h

/-- What the spans of a type become: moved, or left where they are. -/
theorem shiftType_occurrences (base : ℕ) (ty : TypeAnnotation) :
    (typeSpans (shiftType base ty)).length = (typeSpans ty).length ∧
    ∀ o ∈ (typeSpans ty).zip (typeSpans (shiftType base ty)), o.2 = moved base o.1 ∨ o.2 = o.1 := by
  fun_induction shiftType base ty with
  | case1 token => simp [typeSpans, shiftToken, shiftSpan_eq_moved]
  | case2 inner ih => simpa [typeSpans, typeOptionSpans] using ih
  | case3 inner ih => simpa [typeSpans] using ih
  | case4 ty => exact ⟨rfl, fun o ho => .inr (eq_of_mem_zip_self ho)⟩

theorem leaf_occurrences (base : ℕ) (l : Leaf) :
    (leafSpans l).length = (leafSpans ((shiftTreatment base).leaf l)).length ∧
    ∀ o ∈ (leafSpans l).zip (leafSpans ((shiftTreatment base).leaf l)),
      o.2 = moved base o.1 ∨ o.2 = o.1 := by
  cases l with
  | span s => simp [leafSpans, shiftTreatment, shiftSpan_eq_moved]
  | ann ty =>
    obtain ⟨hlength, hzip⟩ := shiftType_occurrences base ty
    exact ⟨hlength.symm, hzip⟩
  | data ty => exact ⟨rfl, fun o ho => .inr (eq_of_mem_zip_self ho)⟩

theorem Placed.mem_occurrences {P : Type} {p : Placed P} {s s' : Span} (h : (s, s') ∈ p.occurrences) :
    s ∈ stmtSpans p.original ∧ (s' = moved p.base s ∨ s' = s) := by
  refine ⟨(List.of_mem_zip h).1, ?_⟩
  rw [occurrences, stmtSpans, stmtSpans, merged, stmtLeaves_shiftStmt, List.flatMap_map,
    zip_flatMap fun l => (leaf_occurrences p.base l).1] at h
  obtain ⟨l, -, ho⟩ := List.mem_flatMap.mp h
  exact (leaf_occurrences p.base l).2 (s, s') ho

/-! ### The narrowest statement -/

section
variable {P : Type}

/-- The statement found so far holds the span and is the narrowest of those seen that do. -/
def Narrowest (s : Span) (seen : List (Placed P)) : Option (Placed P × ℕ) → Prop
  | none => ∀ p ∈ seen, ¬ Holds (stmtByteRange p.merged) s
  | some (p, w) => p ∈ seen ∧ Holds (stmtByteRange p.merged) s ∧ w = width (stmtByteRange p.merged) ∧
      ∀ q ∈ seen, Holds (stmtByteRange q.merged) s → w ≤ width (stmtByteRange q.merged)

theorem Narrowest.step {s : Span} {seen : List (Placed P)} {best : Option (Placed P × ℕ)}
    (h : Narrowest s seen best) (p : Placed P) :
    Narrowest s (seen ++ [p]) (narrower s best p) := by
  unfold narrower
  by_cases hp : Holds (stmtByteRange p.merged) s
  · rw [if_pos hp]
    cases best with
    | none =>
      refine ⟨by simp, hp, rfl, fun q hq hq' => ?_⟩
      rcases List.mem_append.mp hq with hq | hq
      · exact absurd hq' (h q hq)
      · exact List.mem_singleton.mp hq ▸ Nat.le_refl _
    | some best =>
      obtain ⟨b, w⟩ := best
      obtain ⟨hb, hholds, hw, hleast⟩ := h
      dsimp only
      split
      case isTrue hlt =>
        refine ⟨by simp, hp, rfl, fun q hq hq' => ?_⟩
        rcases List.mem_append.mp hq with hq | hq
        · exact Nat.le_of_lt (Nat.lt_of_lt_of_le hlt (hleast q hq hq'))
        · exact List.mem_singleton.mp hq ▸ Nat.le_refl _
      case isFalse hge =>
        refine ⟨List.mem_append_left _ hb, hholds, hw, fun q hq hq' => ?_⟩
        rcases List.mem_append.mp hq with hq | hq
        · exact hleast q hq hq'
        · rw [List.mem_singleton.mp hq]
          exact Nat.le_of_not_lt hge
  · rw [if_neg hp]
    cases best with
    | none =>
      intro q hq
      rcases List.mem_append.mp hq with hq | hq
      · exact h q hq
      · rwa [List.mem_singleton.mp hq]
    | some best =>
      obtain ⟨b, w⟩ := best
      obtain ⟨hb, hholds, hw, hleast⟩ := h
      refine ⟨List.mem_append_left _ hb, hholds, hw, fun q hq hq' => ?_⟩
      rcases List.mem_append.mp hq with hq | hq
      · exact hleast q hq hq'
      · rw [List.mem_singleton.mp hq] at hq'
        exact absurd hq' hp

theorem narrowest_spanIndex (program : List (Placed P)) (s : Span) :
    Narrowest s program (spanIndex program s) := by
  have hloop : ∀ (rest seen : List (Placed P)) (best : Option (Placed P × ℕ)),
      Narrowest s seen best → Narrowest s (seen ++ rest) (rest.foldl (narrower s) best) := by
    intro rest
    induction rest with
    | nil =>
      intro seen best h
      simpa using h
    | cons p rest ih =>
      intro seen best h
      have hrest := ih (seen ++ [p]) (narrower s best p) (h.step p)
      rwa [List.append_assoc] at hrest
  exact hloop program [] none (by simp [Narrowest])

/-! ### The files of a merged program -/

/-- The files with their bases. -/
def based : ℕ → List (ParsedModule P) → List (ParsedModule P × ℕ)
  | _, [] => []
  | base, m :: rest => (m, base) :: based (base + (m.length + 1)) rest

variable {files : List (ParsedModule P)}

theorem base_le_of_mem {base : ℕ} {f : ParsedModule P × ℕ}
    (h : f ∈ based base files) : f.1 ∈ files ∧ base ≤ f.2 := by
  induction files generalizing base with
  | nil => simp [based] at h
  | cons m rest ih =>
    rcases List.mem_cons.mp h with rfl | h
    · simp
    · obtain ⟨hmem, hbase⟩ := ih h
      exact ⟨List.mem_cons_of_mem _ hmem, by omega⟩

/-- The texts of the files follow one another. -/
theorem pairwise_based (base : ℕ) (files : List (ParsedModule P)) :
    (based base files).Pairwise fun f g => f.2 + f.1.length < g.2 := by
  induction files generalizing base with
  | nil => exact .nil
  | cons m rest ih =>
    refine List.pairwise_cons.mpr ⟨fun g hg => ?_, ih _⟩
    have := (base_le_of_mem hg).2
    dsimp only
    omega

variable {f g : ParsedModule P × ℕ}

/-- The texts of different files do not meet. -/
theorem apart_of_ne {base : ℕ} (hf : f ∈ based base files) (hg : g ∈ based base files) (hne : f ≠ g) :
    f.2 + f.1.length < g.2 ∨ g.2 + g.1.length < f.2 := by
  have hordered := pairwise_based base files
  generalize based base files = l at hf hg hordered
  induction l with
  | nil => simp at hf
  | cons h rest ih =>
    obtain ⟨hhead, htail⟩ := List.pairwise_cons.mp hordered
    rcases List.mem_cons.mp hf with rfl | hf'
    · rcases List.mem_cons.mp hg with rfl | hg'
      · exact absurd rfl hne
      · exact .inl (hhead g hg')
    · rcases List.mem_cons.mp hg with rfl | hg'
      · exact .inr (hhead f hf')
      · exact ih hf' hg' htail

theorem mem_mergeFrom {base : ℕ} {p : Placed P} (h : p ∈ mergeFrom base files) :
    ∃ f ∈ based base files, p.origin = f.1.path ∧ p.base = f.2 ∧ p.original ∈ f.1.statements := by
  induction files generalizing base with
  | nil => simp [mergeFrom] at h
  | cons m rest ih =>
    rcases List.mem_append.mp h with h | h
    · obtain ⟨s, hs, rfl⟩ := List.mem_map.mp h
      exact ⟨(m, base), List.mem_cons_self, rfl, rfl, List.mem_of_mem_filter hs⟩
    · obtain ⟨f, hf, hplaced⟩ := ih h
      exact ⟨f, List.mem_cons_of_mem _ hf, hplaced⟩

theorem map_path_based (base : ℕ) (files : List (ParsedModule P)) :
    (based base files).map (fun f => f.1.path) = files.map ParsedModule.path := by
  induction files generalizing base with
  | nil => rfl
  | cons m rest ih => simp [based, ih]

/-- Every span of a file has its ends in order and inside the text. -/
def InText (m : ParsedModule P) : Prop :=
  ∀ s ∈ m.statements, ∀ sp ∈ stmtSpans s, sp.start ≤ sp.stop ∧ sp.stop ≤ m.length

theorem stop_pos {s : Span} (hs : s.start ≤ s.stop) (hreal : ¬ s.isDummy) : 0 < s.stop := by
  simp only [Span.isDummy, Bool.and_eq_true, beq_iff_eq] at hreal
  omega

/-- A merged span of a file that some statement of the file holds is narrowest in that file: the
range of a statement of another file that holds it as well starts at zero and reaches past it. -/
theorem origin_of_narrowest (htext : ∀ m ∈ files, InText m) (hf : f ∈ based 0 files) (hg : g ∈ based 0 files)
    {s : Span} (hs : s.start ≤ s.stop ∧ s.stop ≤ f.1.length) (hreal : ¬ s.isDummy) {own other : Stmt}
    (hown : own ∈ f.1.statements) (hother : other ∈ g.1.statements)
    (hownHolds : Holds (stmtByteRange (shiftStmt f.2 own)) (moved f.2 s))
    (hotherHolds : Holds (stmtByteRange (shiftStmt g.2 other)) (moved f.2 s))
    (hwidth : width (stmtByteRange (shiftStmt g.2 other)) ≤
      width (stmtByteRange (shiftStmt f.2 own))) : f = g := by
  by_contra hne
  have hownSits := shiftStmt_sits f.2 (htext f.1 (base_le_of_mem hf).1 own hown)
  have hotherSits := shiftStmt_sits g.2 (htext g.1 (base_le_of_mem hg).1 other hother)
  have hpos := stop_pos hs.1 hreal
  have hmoved : moved f.2 s = { s with start := s.start + f.2, stop := s.stop + f.2 } := by
    simp [moved, hreal]
  rw [hmoved] at hownHolds hotherHolds
  obtain ⟨hownLow, hownHigh⟩ := hownHolds
  obtain ⟨hotherLow, hotherHigh⟩ := hotherHolds
  obtain ⟨hownBase, hownTop⟩ := hownSits
  obtain ⟨hotherBase, hotherTop⟩ := hotherSits
  unfold width at hwidth
  dsimp only at hownLow hownHigh hotherLow hotherHigh
  rcases apart_of_ne hf hg hne with horder | horder
  · omega
  · omega

/-- A file is known by its path. -/
theorem eq_of_path (hpaths : (files.map ParsedModule.path).Nodup)
    (hf : f ∈ based 0 files) (hg : g ∈ based 0 files)
    (hpath : f.1.path = g.1.path) : f = g := by
  rw [← map_path_based 0 files] at hpaths
  exact List.inj_on_of_nodup_map hpaths hf hg hpath

/-- A span of a file comes back from the merged program exactly when `shift_spans` moved it and the
byte range of some statement of the same file holds it. -/
theorem localize_eq_iff {files : List (ParsedModule P)}
    (hpaths : (files.map ParsedModule.path).Nodup) (htext : ∀ m ∈ files, InText m)
    {p : Placed P} (hp : p ∈ merge files) {s s' : Span} (hs : (s, s') ∈ p.occurrences)
    (hreal : ¬ s.isDummy) :
    (localize (merge files) s' = some (p.origin, p.base) ∧ unshift p.base s' = s) ↔
      s' = moved p.base s ∧
        ∃ q ∈ merge files, q.origin = p.origin ∧ Holds (stmtByteRange q.merged) s' := by
  obtain ⟨f, hf, horigin, hbase, hstmt⟩ := mem_mergeFrom hp
  obtain ⟨hmem, hbecomes⟩ := Placed.mem_occurrences hs
  have hin : s.start ≤ s.stop ∧ s.stop ≤ f.1.length :=
    htext f.1 (base_le_of_mem hf).1 p.original hstmt s hmem
  have hpos := stop_pos hin.1 hreal
  have hnarrowest := narrowest_spanIndex (merge files) s'
  constructor
  · rintro ⟨hlocal, hback⟩
    constructor
    · rcases hbecomes with h | rfl
      · exact h
      · have hzero : p.base = 0 := by
          have hstop := congrArg Span.stop hback
          simp only [unshift] at hstop
          omega
        exact ((moved_eq_self_iff p.base s').mpr (.inl hzero)).symm
    · unfold localize at hlocal
      obtain ⟨⟨q, w⟩, hq, hfound⟩ := Option.map_eq_some_iff.mp hlocal
      rw [hq] at hnarrowest
      exact ⟨q, hnarrowest.1, congrArg Prod.fst hfound, hnarrowest.2.1⟩
  · rintro ⟨rfl, q, hq, hqorigin, hholds⟩
    obtain ⟨g, hg, hgorigin, hgbase, hgstmt⟩ := mem_mergeFrom hq
    obtain rfl : f = g := eq_of_path hpaths hf hg (by rw [← horigin, ← hgorigin, hqorigin])
    constructor
    · cases hindex : spanIndex (merge files) (moved p.base s) with
      | none =>
        rw [hindex] at hnarrowest
        exact absurd hholds (hnarrowest q hq)
      | some best =>
        obtain ⟨b, w⟩ := best
        rw [hindex] at hnarrowest
        obtain ⟨hb, hbholds, hw, hleast⟩ := hnarrowest
        obtain ⟨k, hk, hborigin, hbbase, hbstmt⟩ := mem_mergeFrom hb
        have hwidth := hleast q hq hholds
        rw [hw] at hwidth
        unfold Placed.merged at hbholds hholds hwidth
        rw [hbase] at hbholds hholds
        rw [hbbase] at hbholds hwidth
        rw [hgbase] at hholds hwidth
        obtain rfl := origin_of_narrowest htext hf hk hin hreal hgstmt hbstmt hholds hbholds hwidth
        rw [localize, hindex, Option.map_some, hborigin, hbbase, horigin, hbase]
    · simp [unshift, moved, hreal]

/-- `var x = 1` in an imported file and `say(x)` in the entry. -/
def twoFiles : List (ParsedModule Bool) :=
  [⟨false, 9, [.var ⟨.identifier "x", 4, 5, 1, 5⟩ none (some (.literal (.number "1") ⟨8, 9, 1, 9⟩))
      false false none]⟩,
    ⟨true, 6, [.say (.variable ⟨.identifier "x", 4, 5, 1, 5⟩) ⟨0, 3, 1, 1⟩]⟩]

/-- The variable of the entry comes back to the entry. -/
theorem localize_eq_iff_twoFiles :
    localize (merge twoFiles) ⟨14, 15, 1, 5⟩ = some (true, 10) ∧
      unshift 10 ⟨14, 15, 1, 5⟩ = ⟨4, 5, 1, 5⟩ := by
  have hpaths : (twoFiles.map ParsedModule.path).Nodup := by decide
  have htext : ∀ m ∈ twoFiles, InText m := by
    unfold InText
    decide
  refine (localize_eq_iff hpaths htext (List.mem_cons_of_mem _ List.mem_cons_self)
    (s := ⟨4, 5, 1, 5⟩) (by decide) (by decide)).mpr ⟨rfl, ?_⟩
  exact ⟨_, List.mem_cons_of_mem _ List.mem_cons_self, rfl, by decide⟩

/-- `f()`. -/
def bareCall : List (ParsedModule Unit) :=
  [⟨(), 3, [.expression (.call (.variable ⟨.identifier "f", 0, 1, 1, 1⟩) ⟨1, 2, 1, 2⟩ [])]⟩]

/-- The range of a call without arguments ends before its parenthesis. -/
theorem localize_bareCall :
    ∃ p ∈ merge bareCall, ∃ o ∈ p.occurrences, ¬ o.1.isDummy ∧ localize (merge bareCall) o.2 = none := by
  refine ⟨⟨(), 0, _⟩, List.mem_cons_self, (⟨1, 2, 1, 2⟩, ⟨1, 2, 1, 2⟩), ?_, by decide, by decide⟩
  decide

end

end Neutron.Source
