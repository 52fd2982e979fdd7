import Mathlib.Data.List.GetD
import Neutron.ParserStatements

/-!
# Parsing is total

Every parser keeps its promise about the cursor: it never reads past the tokens, never reaches an
impossible branch, and its recursion and loops end. A statement or an expression that parses takes
at least one token.
-/

namespace Neutron.Source
open CursorParser

variable {excused : Prop} {ts : List Token} {start : ℕ} {moved atToken : Bool}

section Navigation
variable {ε α β : Type}

variable {eats : α → Bool} {p q : Parser ε α} {c : TokenKind → Bool}

theorem runs_kindIs (hc : c .eof = false) (hp : Runs excused ts start moved true eats p)
    (hq : Runs excused ts start moved atToken eats q) :
    Runs excused ts start moved atToken eats (kindIs c >>= fun b => if b then p else q) := by
  unfold kindIs
  exact .test hc hp hq

theorem runs_either (hp : Runs excused ts start moved atToken eats p)
    (hq : Runs excused ts start moved atToken eats q) :
    Runs excused ts start moved atToken eats (kindIs c >>= fun b => if b then p else q) := by
  unfold kindIs
  exact .choice hp hq

variable {kind : TokenKind}

theorem runs_check (hkind : (TokenKind.eof == kind) = false) (hp : Runs excused ts start moved true eats p)
    (hq : Runs excused ts start moved atToken eats q) :
    Runs excused ts start moved atToken eats (check kind >>= fun b => if b then p else q) :=
  runs_kindIs (c := (· == kind)) hkind hp hq

theorem runs_checked : Runs excused ts start moved atToken (fun _ => false) (check (ε := ε) kind) := by
  unfold check kindIs
  exact .look

theorem stays_check (kind : TokenKind) : Stays (check (ε := ε) kind) :=
  stays_look fun rest => kindAt rest 0 == kind

theorem runs_consume (hkind : (TokenKind.eof == kind) = false) :
    Runs excused ts start moved atToken Option.isSome (consume (ε := ε) kind) := by
  unfold consume
  refine runs_check hkind ?_ (.pure rfl)
  exact .eat .advance fun _ => .pure rfl

/-- The two ways to go on after a token that may be there. -/
theorem runs_consume_bind {f : Option Token → Parser ε α} (hkind : (TokenKind.eof == kind) = false)
    (hsome : ∀ t, Runs excused ts start true false (fun _ => false) (f (some t)))
    (hnone : Runs excused ts start moved false eats (f none)) :
    Runs excused ts start moved atToken eats (consume kind >>= f) := by
  refine .bind (runs_consume hkind) fun t => ?_
  cases t with
  | some t => exact hsome t
  | none => exact hnone

theorem runs_errorHere {message : String} : Runs excused ts start moved atToken eats (errorHere message) :=
  .pass .look fun _ => .fail

theorem runs_expect {message : String} {eats : Token → Bool} (hkind : (TokenKind.eof == kind) = false) :
    Runs excused ts start moved atToken eats (expect kind message) := by
  unfold expect
  exact runs_check hkind .advance runs_errorHere

theorem runs_expectIdent {message : String} {eats : Token → Bool} :
    Runs excused ts start moved atToken eats (expectIdent message) := by
  unfold expectIdent
  exact runs_kindIs rfl .advance runs_errorHere

theorem runs_consumeKeyword {text : String} :
    Runs excused ts start moved atToken (fun _ => false) (consumeKeyword (ε := ε) text) := by
  unfold consumeKeyword checkIdent
  refine runs_check rfl ?_ (.pure rfl)
  exact .eat .advance fun _ => .pure rfl

theorem runs_parseMemberName {eats : Token → Bool} :
    Runs excused ts start moved atToken eats parseMemberName := by
  refine .bind_look (fun t rest => ?_) .fail
  refine .ite (fun _ => .eat .advance fun _ => .pure rfl) fun _ => ?_
  split
  · exact .eat .advance fun _ => .pure rfl
  · exact .fail

theorem runs_consumeTerminator :
    Runs excused ts start moved atToken (fun _ => false) (consumeTerminator (ε := ε)) := by
  unfold consumeTerminator isAtEnd check
  refine runs_consume_bind rfl (fun _ => .pure rfl) ?_
  refine runs_kindIs rfl (.eat .advance fun _ => .pure rfl) ?_
  exact runs_either (.pass .look fun _ => .pure rfl) (.pure rfl)

theorem runs_skipWhile (hc : c .eof = false) :
    Runs excused ts start moved atToken (fun _ => false) (skipWhile (ε := ε) c) := by
  refine .loop fun _ => runs_kindIs hc ?_ (.pure rfl)
  exact .eat .advance fun _ => .pure rfl

theorem runs_skipNewlines :
    Runs excused ts start moved atToken (fun _ => false) (skipNewlines (ε := ε)) :=
  runs_skipWhile rfl

theorem runs_isAtEnd (hp : Runs excused ts start moved atToken eats p)
    (hq : Runs excused ts start moved true eats q) :
    Runs excused ts start moved atToken eats (isAtEnd >>= fun b => if b then p else q) := by
  unfold isAtEnd check kindIs
  exact .test_end rfl hp hq

theorem runs_skipToken :
    Runs excused ts start moved atToken (Sum.elim (fun _ => true) fun _ => false)
      (skipToken (ε := ε)) := by
  refine runs_isAtEnd (.pure rfl) (runs_kindIs rfl ?_ (runs_kindIs rfl (.pure rfl) ?_))
  · exact .eat .advance fun _ => .pure rfl
  · exact .eat .advance fun _ => .pure rfl

theorem runs_synchronize :
    Runs excused ts start moved atToken (fun _ => false) (synchronize (ε := ε)) :=
  .loop fun _ => runs_skipToken

theorem runs_separated {separator : TokenKind} {item : Parser ε α} {eats : List α → Bool}
    (hseparator : (TokenKind.eof == separator) = false)
    (hitem : Runs excused ts start moved false (fun _ => true) item) :
    Runs excused ts start moved atToken eats (separated separator item) := by
  refine .loop fun _ => .eat hitem fun _ => ?_
  exact runs_consume_bind hseparator (fun _ => .pure rfl) (.pure rfl)

theorem runs_unlessClosed {closing : TokenKind} {items : Parser ε (List α)}
    (hclosing : (TokenKind.eof == closing) = false)
    (hitems : Runs excused ts start moved false (fun _ => false) items) :
    Runs excused ts start moved false (fun _ => false) (unlessClosed closing items) := by
  unfold unlessClosed
  exact runs_check hclosing (.pure rfl) hitems

end Navigation

section Types
variable {ε α : Type} {eats : α → Bool}

theorem runs_orNone {p : Parser ε α} (hp : Runs excused ts start moved atToken eats p) :
    Runs excused ts start moved atToken eats (orNone p) := by
  refine .bind (.attempt hp) fun r => ?_
  cases r with
  | ok a => exact .pure (by simp [Except.toOption])
  | error e => exact .fail

theorem runs_orError {message : String} {p : Parser Unit α}
    (hp : Runs excused ts start moved atToken eats p) :
    Runs excused ts start moved atToken eats (orError message p) := by
  refine .bind (.attempt hp) fun r => ?_
  cases r with
  | ok a => exact .pure (by simp [Except.toOption])
  | error e => exact runs_errorHere

theorem runs_optional {p : Parser Unit α}
    (hp : Runs excused ts start moved atToken (fun _ => false) p) :
    Runs excused ts start moved atToken (fun _ => false) (optional (ε := ε) p) := by
  refine .bind (.attempt hp) fun r => ?_
  cases r with
  | ok a => exact .pure (by simp)
  | error e => exact .pure (by simp)

variable {self : Bool → Parser Unit TypeAnnotation} {allowNamed : Bool}
  {eats : TypeAnnotation → Bool}
  (hself : ∀ {atToken : Bool} {eats : TypeAnnotation → Bool} {allowNamed : Bool},
    Runs excused ts start true atToken eats (self allowNamed))

include hself

theorem runs_parseTypeArgumentsWith {eats : List TypeAnnotation → Bool} :
    Runs excused ts start moved atToken eats (parseTypeArgumentsWith self) := by
  refine .eat (runs_expect rfl) fun _ => ?_
  refine .eat (runs_separated rfl (runs_orError hself)) fun _ => ?_
  exact .eat (runs_expect rfl) fun _ => .pure rfl

theorem runs_parseElementType {message : String} :
    Runs excused ts start true atToken (fun _ => false) (parseElementType self message) := by
  refine runs_consume_bind rfl (fun _ => ?_) (.pure rfl)
  exact .eat hself fun _ => .eat (runs_orNone (runs_expect rfl)) fun _ => .pure rfl

theorem runs_parseKeywordType :
    Runs excused ts start moved true eats (parseKeywordType self) := by
  refine .eat .advance fun token => ?_
  split
  · exact .pass (runs_parseElementType hself) fun _ => .pure rfl
  · exact .pass (runs_parseElementType hself) fun _ => .pure rfl
  · refine .eat (runs_orNone (runs_expect rfl)) fun _ => .eat hself fun _ => ?_
    exact .eat (runs_orNone (runs_expect rfl)) fun _ => .pure rfl
  · refine .eat (runs_orNone (runs_expect rfl)) fun _ => .eat hself fun _ => ?_
    refine .eat (runs_orNone (runs_expect rfl)) fun _ => .eat hself fun _ => ?_
    exact .eat (runs_orNone (runs_expect rfl)) fun _ => .pure rfl
  · split
    · exact .pure rfl
    · exact .fail

theorem runs_parseChanType : Runs excused ts start moved true eats (parseChanType self) := by
  refine .eat .advance fun _ => .eat (runs_orNone (runs_expect rfl)) fun _ => ?_
  refine .eat hself fun _ => ?_
  exact .eat (runs_orNone (runs_expect rfl)) fun _ => .pure rfl

theorem runs_parseNamedType : Runs excused ts start moved true eats (parseNamedType self) := by
  refine .eat .advance fun token => ?_
  refine runs_check rfl ?_ ?_
  · exact .eat (runs_orNone (runs_parseTypeArgumentsWith hself)) fun _ => .pure rfl
  · refine runs_consume_bind rfl (fun _ => ?_) ?_
    · refine .eat (runs_orNone (runs_expect rfl)) fun _ => ?_
      exact .eat (runs_orNone runs_expectIdent) fun _ => .pure rfl
    · cases TypeAnnotation.fromToken token with
      | some ann => exact .pure rfl
      | none => exact .fail

/-- Two names stand at the cursor where a trait object is read. -/
theorem keeps_parseDynType {pos : ℕ} (hpos : start ≤ pos) (hlen : pos + 1 < ts.length) :
    Keeps excused ts.length pos eats (parseDynType self ts pos) := by
  have hrest : Runs excused ts pos true true eats (do
      let traitName ← advance
      if ← check .less then
        let arguments ← orNone (parseTypeArgumentsWith self)
        return TypeAnnotation.dyn
          ⟨.identifier (mangleAppliedType traitName.lexeme arguments), traitName.span⟩
      else return .dyn traitName) := by
    have hself' : ∀ {atToken : Bool} {eats : TypeAnnotation → Bool} {allowNamed : Bool},
        Runs excused ts pos true atToken eats (self allowNamed) := by
      intro atToken eats allowNamed
      exact hself.mono hpos .inr id fun _ => id
    refine .eat .advance fun _ => runs_check rfl ?_ (.pure rfl)
    exact .eat (runs_orNone (runs_parseTypeArgumentsWith hself')) fun _ => .pure rfl
  have hfirst : advance (ε := Unit) ts pos = .ok (ts.get ⟨pos, by omega⟩) (pos + 1) := by
    simp [advance, List.getElem?_eq_getElem (show pos < ts.length by omega)]
  unfold parseDynType
  rw [bind_eq, hfirst]
  exact (hrest (pos + 1) (by omega) (by omega) (by omega) (by omega)).mono (by omega)
    fun _ _ => .inr (by omega)

theorem runs_parseSimpleType :
    Runs excused ts start moved atToken eats (parseSimpleType self allowNamed) := by
  refine runs_kindIs rfl (runs_parseKeywordType hself) ?_
  refine runs_check rfl (runs_parseChanType hself) ?_
  intro pos hpos hmoved hlen htoken
  by_cases hdyn : allowNamed && kindAt (ts.drop pos) 0 == .identifier "dyn" &&
      isIdent (kindAt (ts.drop pos) 1)
  · have htwo : pos + 1 < ts.length := by
      by_contra hout
      have hnone : kindAt (ts.drop pos) 1 = .eof := by
        unfold kindAt tokenAt
        rw [List.getD_eq_default _ _ (by rw [List.length_drop]; omega)]
        rfl
      simp [hnone, isIdent] at hdyn
    rw [bind_eq]
    simp only [look, hdyn, if_true]
    exact keeps_parseDynType hself hpos htwo
  · rw [bind_eq]
    simp only [look, hdyn]
    refine runs_kindIs (c := fun kind => allowNamed && isIdent kind) (Bool.and_false _) ?_ .fail
      pos hpos hmoved hlen htoken
    exact runs_parseNamedType hself

theorem runs_parseTupleType :
    Runs excused ts start moved true (Option.any eats) (parseTupleType self) := by
  refine .eat .advance fun _ => ?_
  refine .pass (runs_optional hself) fun first => ?_
  cases first with
  | none => exact .pure rfl
  | some first =>
    refine runs_check rfl ?_ (.pure rfl)
    refine .pass (.loop fun types => ?_) fun types => ?_
    · refine runs_consume_bind rfl (fun _ => ?_) (.pure rfl)
      refine runs_check rfl (.pure rfl) ?_
      refine .pass (runs_optional hself) fun ty => ?_
      cases ty with
      | some ty => exact .pure rfl
      | none => exact .pure rfl
    · exact .eat (runs_orNone (runs_expect rfl)) fun _ => .pure rfl

theorem runs_parseRawPointerType :
    Runs excused ts start moved true eats (parseRawPointerType self) := by
  refine .eat .advance fun _ => runs_consume_bind rfl (fun _ => ?_) ?_
  · exact .eat hself fun _ => .pure rfl
  · refine .eat (runs_orNone runs_expectIdent) fun qualifier => ?_
    exact .ite (fun _ => .eat hself fun _ => .pure rfl) fun _ => .fail

theorem runs_parseTypeAnnotationWith :
    Runs excused ts start moved atToken eats (parseTypeAnnotationWith self allowNamed) := by
  have hsimple : ∀ {atToken : Bool}, Runs excused ts start moved atToken eats
      (parseSimpleType self allowNamed) := runs_parseSimpleType hself
  refine .bind_look (fun t rest => ?_) hsimple
  split
  · exact .eat .advance fun _ => .eat hself fun _ => .pure rfl
  · refine .eat .advance fun _ => runs_consume_bind rfl (fun _ => ?_) ?_
    · exact .eat hself fun _ => .pure rfl
    · exact .eat hself fun _ => .pure rfl
  · exact runs_parseRawPointerType hself
  · refine .eat .advance fun _ => runs_consume_bind rfl (fun _ => ?_) ?_
    · exact .eat hself fun _ => .pure rfl
    · exact .eat hself fun _ => .pure rfl
  · exact .eat .advance fun _ => .eat hself fun _ => .pure rfl
  · exact .choice (.orRewind (runs_parseTupleType hself) hsimple) hsimple
  · exact hsimple

omit hself

theorem runs_typeLevel (n : ℕ) (hn : excused ∨ ts.length < n + start) :
    Runs excused ts start moved atToken eats (typeLevel n allowNamed) := by
  induction n generalizing start moved atToken eats allowNamed with
  | zero =>
    intro pos hpos _ hlen _
    rcases hn with h | h
    · exact h
    · omega
  | succ n ih =>
    have hself : ∀ {atToken : Bool} {eats : TypeAnnotation → Bool} {allowNamed : Bool},
        Runs excused ts start true atToken eats (typeLevel n allowNamed) :=
      .of_succ (ih (hn.imp_right fun h => by omega))
    exact runs_parseTypeAnnotationWith hself

theorem runs_parseTypeAnnotation :
    Runs excused ts start moved atToken eats ( parseTypeAnnotation allowNamed) := by
  intro pos hpos hmoved hlen htoken
  exact runs_typeLevel (ts.length + 1) (.inr (by omega)) pos hpos hmoved hlen htoken

theorem runs_parseTypeArguments {eats : List TypeAnnotation → Bool} :
    Runs excused ts start moved atToken eats parseTypeArguments :=
  runs_parseTypeArgumentsWith runs_parseTypeAnnotation

theorem runs_parseDeclarationTypeAnnotation :
    Runs excused ts start moved atToken eats parseDeclarationTypeAnnotation :=
  .pass .look fun _ => runs_parseTypeAnnotation

end Types

section Declarations

theorem runs_parseMethodName {eats : Token → Bool} :
    Runs excused ts start moved atToken eats parseMethodName := by
  refine .bind_look (fun t rest => ?_) runs_errorHere
  refine .ite (fun _ => .advance) fun _ => ?_
  exact .ite (fun _ => .eat .advance fun _ => .pure rfl) fun _ => runs_errorHere

theorem runs_parseBounds {message : String} {eats : List Token → Bool} :
    Runs excused ts start moved atToken eats (parseBounds message) :=
  runs_separated rfl runs_expectIdent

theorem runs_parseGenericParam {eats : GenericParam → Bool} :
    Runs excused ts start moved atToken eats parseGenericParam := by
  refine .eat runs_expectIdent fun _ => runs_consume_bind rfl (fun _ => ?_) (.pure rfl)
  exact .eat runs_parseBounds fun _ => .pure rfl

theorem runs_parseGenericParams :
    Runs excused ts start moved atToken (fun _ => false) parseGenericParams := by
  refine runs_consume_bind rfl (fun _ => ?_) (.pure rfl)
  refine .eat (runs_separated rfl runs_parseGenericParam) fun _ => ?_
  exact .eat (runs_expect rfl) fun _ => .pure rfl

theorem runs_parseWhereBounds {genericParams : List GenericParam} :
    Runs excused ts start moved atToken (fun _ => false) (parseWhereBounds genericParams) := by
  unfold parseWhereBounds checkIdent
  refine runs_check rfl ?_ (.pure rfl)
  refine .eat .advance fun _ => .loop fun params => ?_
  refine .eat runs_expectIdent fun parameter => .eat (runs_expect rfl) fun _ => ?_
  split
  · exact .fail
  · refine .eat runs_parseBounds fun _ => ?_
    exact runs_consume_bind rfl (fun _ => .pure rfl) (.pure rfl)

theorem runs_parseReturnType :
    Runs excused ts start moved atToken (fun _ => false) parseReturnType := by
  refine runs_consume_bind rfl (fun _ => .pass .look fun _ => ?_) (.pure rfl)
  refine runs_check rfl ?_ ?_
  · exact .eat .advance fun _ => .eat runs_expectIdent fun _ => .pure rfl
  · exact .eat (runs_orError runs_parseTypeAnnotation) fun _ => .pure rfl

theorem runs_parseParam {eats : FunctionParam → Bool} :
    Runs excused ts start moved atToken eats parseParam := by
  refine .pass (runs_optional runs_parseDeclarationTypeAnnotation) fun _ => ?_
  exact .eat runs_expectIdent fun _ => .pure rfl

theorem runs_parseFunctionSignature {eats : List FunctionParam × Option ReturnType → Bool} :
    Runs excused ts start moved atToken eats parseFunctionSignature := by
  refine .eat (runs_expect rfl) fun _ => ?_
  refine .pass (runs_unlessClosed rfl (runs_separated rfl runs_parseParam)) fun _ => ?_
  refine .eat (runs_expect rfl) fun _ => ?_
  exact .pass runs_parseReturnType fun _ => .pure rfl

end Declarations

section Segments

theorem segment_of_isStringSegment {ts : List Token} {pos : ℕ}
    (h : isStringSegment (kindAt (ts.drop pos) 0) = true) :
    ∃ t text rest, ts.drop pos = t :: rest ∧ t.kind = .stringSegment text := by
  cases hdrop : ts.drop pos with
  | nil =>
    rw [hdrop] at h
    exact absurd h (by decide)
  | cons t rest =>
    rw [hdrop] at h
    have hkind : isStringSegment t.kind = true := h
    unfold isStringSegment at hkind
    split at hkind
    · exact ⟨t, _, rest, rfl, ‹_›⟩
    · exact absurd hkind (by decide)

theorem parseSegment_segment {ts : List Token} {pos : ℕ} {t : Token} {text : String}
    {rest : List Token} {parts : List Expr} (hdrop : ts.drop pos = t :: rest)
    (hkind : t.kind = .stringSegment text) :
    Calls.parseSegment parts ts pos =
      .ok (.inl (parts ++ [.literal (.string text) t.span])) (pos + 1) := by
  have hat : kindAt (ts.drop pos) 0 = .stringSegment text := by rw [hdrop, ← hkind]; rfl
  simp only [Calls.parseSegment, bind_eq, kindIs, look, hat, isStringSegment, if_true,
    advance_eq hdrop]
  rfl

theorem parseSegment_other {ts : List Token} {pos : ℕ} {parts : List Expr}
    (h : isStringSegment (kindAt (ts.drop pos) 0) = false) :
    Calls.parseSegment parts ts pos = .ok (.inr parts) pos := by
  simp only [Calls.parseSegment, bind_eq, kindIs, look, h]
  rfl

end Segments

section Continuations
variable {precedence : Precedence} {pos : ℕ} {left : Expr}

theorem ne_eof_of_continues {kind : TokenKind} (h : Calls.continues precedence kind = true) :
    kind ≠ .eof := by
  rintro rfl
  exact absurd h (by simp [Calls.continues])

theorem infixPrecedence_ne_none {kind : TokenKind} (hprecedence : precedence ≠ .none)
    (h : Calls.continues precedence kind = true) : infixPrecedence kind ≠ .none := by
  intro hnone
  simp only [Calls.continues, hnone, Bool.and_eq_true, decide_eq_true_eq] at h
  have hrank : precedence.rank = 0 := Nat.le_zero.mp h.2
  cases precedence with
  | none => exact hprecedence rfl
  | _ => exact absurd hrank (by decide)

theorem Calls.parseContinuation_stop (calls : Calls)
    (h : continues precedence (kindAt (ts.drop pos) 0) = false) :
    calls.parseContinuation precedence left ts pos = .ok (.inr left) pos := by
  simp only [parseContinuation, bind_eq, kindIs, look, h]
  rfl

theorem Calls.parseContinuation_go (calls : Calls)
    (h : continues precedence (kindAt (ts.drop pos) 0) = true) :
    calls.parseContinuation precedence left ts pos =
      (calls.parseInfixOf (kindAt (ts.drop pos) 0) left >>= fun left => pure (.inl left)) ts pos := by
  simp only [parseContinuation, bind_eq, kindIs, look, h]
  rfl

end Continuations

/-- What the parsers rely on: behind `start` the recursive calls keep their promises. -/
structure Calls.Sound (excused : Prop) (ts : List Token) (start : ℕ) (calls : Calls) : Prop where
  statement {atToken : Bool} {eats : Stmt → Bool} :
    Runs excused ts start true atToken eats calls.statement
  precedence {atToken : Bool} {eats : Expr → Bool} {precedence : Precedence} :
    precedence ≠ .none → Runs excused ts start true atToken eats (calls.precedence precedence)

namespace Calls.Sound
variable {calls : Calls} (h : calls.Sound excused ts start)

include h

theorem mono {start' : ℕ} (hstart : start ≤ start') : calls.Sound excused ts start' where
  statement := h.statement.mono hstart .inr id fun _ => id
  precedence hp := (h.precedence hp).mono hstart .inr id fun _ => id

variable {eats : Expr → Bool}

theorem expression : Runs excused ts start true atToken eats calls.expression :=
  h.precedence (by decide)

theorem parseStatements :
    Runs excused ts start true atToken (fun _ => false) calls.parseStatements := by
  refine .pass runs_skipNewlines fun _ => .loop fun statements => ?_
  refine runs_kindIs rfl ?_ (.pure rfl)
  exact .eat h.statement fun _ => .pass runs_skipNewlines fun _ => .pure rfl

theorem parseBlock : Leads excused ts start calls.parseBlock := by
  refine .intro fun _ => .pass h.parseStatements fun _ => ?_
  exact .eat (runs_expect rfl) fun _ => .pure rfl

/-- A block is always what the body of a function in braces parses to. -/
theorem parseFunctionBody {eats : List Stmt → Bool} :
    Runs excused ts start true atToken eats calls.parseFunctionBody := by
  unfold Calls.parseFunctionBody
  refine runs_check rfl ?_ (runs_check rfl ?_ ?_)
  · unfold Calls.parseBlock
    simp only [bind_assoc, pure_bind]
    refine .eat .advance fun _ => .pass h.parseStatements fun _ => ?_
    exact .eat (runs_expect rfl) fun _ => .pure rfl
  · refine .eat .advance fun _ => .pass runs_skipNewlines fun _ => .eat h.expression fun _ => ?_
    exact .pass runs_consumeTerminator fun _ => .pure rfl
  · refine .pass runs_skipNewlines fun _ => .eat h.expression fun _ => ?_
    exact .pass runs_consumeTerminator fun _ => .pure rfl

theorem parseAsyncBlockBody {span : Span} :
    Runs excused ts start true atToken eats (calls.parseAsyncBlockBody span) := by
  have htype : Runs excused ts start true atToken (fun _ => false) parseAsyncReturnType := by
    refine runs_consume_bind rfl (fun _ => .pass .look fun _ => ?_) (.pure rfl)
    exact .eat (runs_orError runs_parseTypeAnnotation) fun _ => .pure rfl
  refine .pass htype fun _ => .eat (runs_expect rfl) fun _ => .pass h.parseStatements fun _ => ?_
  exact .eat (runs_expect rfl) fun _ => .pure rfl

theorem parseAsyncBlock : Runs excused ts start moved true eats calls.parseAsyncBlock :=
  .eat .advance fun _ => h.parseAsyncBlockBody

omit h in
theorem parseSegment {parts : List Expr} :
    Runs excused ts start moved false (Sum.elim (fun _ => true) fun _ => false)
      (Calls.parseSegment parts) := by
  intro pos hpos hmoved hlen _
  cases hseg : isStringSegment (kindAt (ts.drop pos) 0) with
  | false =>
    rw [parseSegment_other hseg]
    exact ⟨le_rfl, hlen, by simp⟩
  | true =>
    obtain ⟨t, text, rest, hdrop, hkind⟩ := segment_of_isStringSegment hseg
    rw [parseSegment_segment hdrop hkind]
    exact ⟨by omega, lt_length_of_cons hdrop, fun _ => by omega⟩

/-- Behind the first segment the cursor has moved, so that the expressions can be parsed. -/
theorem keeps_parseStringWithInterpolation {pos : ℕ} (hpos : start ≤ pos)
    (hseg : isStringSegment (kindAt (ts.drop pos) 0) = true) :
    Keeps excused ts.length pos eats (calls.parseStringWithInterpolation ts pos) := by
  obtain ⟨t, text, rest, hdrop, hkind⟩ := segment_of_isStringSegment hseg
  have hlen := lt_length_of_cons hdrop
  have hafter : ∀ parts, Runs excused ts pos true false
      (Sum.elim (fun _ => true) fun _ => false) (do
        if ← kindIs fun kind => !canStartExpression kind then return .inr parts
        else
          let part ← calls.expression
          return .inl (parts ++ [part])) := by
    intro parts
    exact runs_either (.pure rfl) (.eat (h.mono hpos).expression fun _ => .pure rfl)
  have hturn : ∀ parts, Runs excused ts pos true false
      (Sum.elim (fun _ => true) fun _ => false) (calls.parseParts parts) := by
    intro parts
    exact .pass (.loop fun _ => parseSegment) fun parts => hafter parts
  have hsegment : ∀ parts, Runs excused ts pos false false
      (Sum.elim (fun _ => true) fun _ => false) (Calls.parseSegment parts) :=
    fun _ => parseSegment
  have hsegments : Keeps excused ts.length pos (fun _ => true)
      (loop Calls.parseSegment [] ts pos) := by
    rw [loop, turns, bind_eq, parseSegment_segment hdrop hkind]
    exact (Runs.turns hsegment ts.length _ (pos + 1) (by omega) (by simp) hlen (by omega)).mono
      (by omega) fun _ _ => .inr (by omega)
  have hparts : Keeps excused ts.length pos (fun _ => true) (loop calls.parseParts [] ts pos) := by
    rw [loop, turns, Calls.parseParts, bind_assoc]
    refine hsegments.bind fun parts q hle hq heats => ?_
    have hlt : pos < q := heats rfl
    have hrest : ∀ r q', q ≤ q' → q' ≤ ts.length → Keeps excused ts.length q (fun _ => false)
        (Sum.elim (turns calls.parseParts ts.length) pure r ts q') := by
      intro r q' hle' hq'
      cases r with
      | inr parts => exact ⟨hle', hq', by simp⟩
      | inl parts =>
        exact (Runs.turns hturn ts.length parts q' (by omega) (by omega) hq' (by omega)).mono
          hle' (by simp)
    have hq' := (hafter parts q hle (fun _ => hlt) hq (by simp)).bind fun r q' hle' hlen' _ =>
      hrest r q' hle' hlen'
    exact hq'.mono hle fun _ _ => .inr hlt
  refine hparts.bind fun parts q hle hq heats => ?_
  exact ⟨hle, hq, fun _ => heats rfl⟩

theorem parseArrayLiteral : Runs excused ts start moved true eats calls.parseArrayLiteral := by
  refine .eat .advance fun _ => ?_
  refine .pass (runs_unlessClosed rfl (runs_separated rfl h.expression)) fun _ => ?_
  exact .eat (runs_expect rfl) fun _ => .pure rfl

omit h in
theorem parseKey {message : String} {eats : String × Span → Bool} :
    Runs excused ts start moved atToken eats (Calls.parseKey message) := by
  unfold Calls.parseKey
  refine runs_kindIs rfl ?_ ?_
  · exact .eat .advance fun _ => .pure rfl
  · exact .eat runs_expectIdent fun _ => .pure rfl

theorem parseProperties {eats : List ObjectProperty → Bool} :
    Runs excused ts start true atToken eats calls.parseProperties := by
  refine .loop fun properties => .eat parseKey fun _ => .eat (runs_expect rfl) fun _ => ?_
  refine .eat h.expression fun _ => runs_consume_bind rfl (fun _ => ?_) (.pure rfl)
  exact .pass runs_skipNewlines fun _ => .pure rfl

theorem parseObjectLiteral : Runs excused ts start moved true eats calls.parseObjectLiteral := by
  refine .eat .advance fun _ => .pass runs_skipNewlines fun _ => ?_
  refine .pass (runs_unlessClosed rfl h.parseProperties) fun _ => ?_
  exact .eat (runs_expect rfl) fun _ => .pure rfl

theorem parseStructField {fields : List ObjectProperty} {update : Option Expr}
    {eats : List ObjectProperty × Option Expr → Bool} :
    Runs excused ts start true atToken eats (calls.parseStructField fields update) := by
  refine runs_check rfl (.ite (fun _ => runs_errorHere) fun _ => ?_) ?_
  · refine .eat .advance fun _ => .pass runs_skipNewlines fun _ => runs_either .fail ?_
    exact .eat h.expression fun _ => .pure rfl
  · refine .eat parseKey fun _ => runs_consume_bind rfl (fun _ => ?_) (.pure rfl)
    exact .eat h.expression fun _ => .pure rfl

theorem parseStructLiteral {className : Token} :
    Runs excused ts start moved true eats (calls.parseStructLiteral className) := by
  refine .eat .advance fun _ => .pass runs_skipNewlines fun _ => ?_
  refine .pass (.loop fun content => runs_kindIs rfl ?_ (.pure rfl)) fun content => ?_
  · refine .eat h.parseStructField fun _ => runs_consume_bind rfl (fun _ => ?_) (.pure rfl)
    exact .pass runs_skipNewlines fun _ => .pure rfl
  · exact .eat (runs_expect rfl) fun _ => .pure rfl

theorem parseLambda : Leads excused ts start calls.parseLambda := by
  refine .intro fun _ => .eat runs_parseFunctionSignature fun _ => ?_
  refine .pass runs_skipNewlines fun _ => ?_
  exact .eat h.parseFunctionBody fun _ => .pure rfl

theorem parseIdentifier : Runs excused ts start moved true eats calls.parseIdentifier := by
  refine .eat .advance fun tok => .pass ?_ fun tok => ?_
  · exact .test rfl (.eat runs_parseTypeArguments fun _ => .pure rfl) (.pure rfl)
  · exact .test rfl h.parseStructLiteral (.pure rfl)

theorem parseParenthesized : Runs excused ts start moved true eats calls.parseParenthesized := by
  refine .eat .advance fun _ => .eat h.expression fun first => ?_
  unfold Calls.closeParenthesized
  refine runs_check rfl (.pass (.loop fun elements => ?_) fun elements => ?_) ?_
  · refine runs_consume_bind rfl (fun _ => runs_check rfl (.pure rfl) ?_) (.pure rfl)
    exact .eat h.expression fun _ => .pure rfl
  · exact .eat (runs_expect rfl) fun _ => .pure rfl
  · exact .eat (runs_expect rfl) fun _ => .pure rfl

theorem parseAwait : Runs excused ts start moved true eats calls.parseAwait := by
  refine .eat .advance fun _ => .test rfl ?_ ?_
  · exact .eat h.parseAsyncBlock fun _ => .pure rfl
  · refine .eat (h.precedence (by decide)) fun operand => ?_
    split
    · exact .pure rfl
    · exact .fail

theorem parseKeywordCall {before after : String} {build : Expr → Span → Expr}
    :
    Runs excused ts start moved true eats (calls.parseKeywordCall before after build) := by
  refine .eat .advance fun _ => .eat (runs_expect rfl) fun _ => .eat h.expression fun _ => ?_
  exact .eat (runs_expect rfl) fun _ => .pure rfl

theorem parseBorrow {build : Expr → Bool → Span → Expr} :
    Runs excused ts start moved true eats (calls.parseBorrow build) := by
  refine .eat .advance fun _ => runs_consume_bind rfl (fun _ => ?_) ?_
  · exact .eat (h.precedence (by decide)) fun _ => .pure rfl
  · exact .eat (h.precedence (by decide)) fun _ => .pure rfl

theorem parsePrefixOf {kind : TokenKind} (hkind : isStringSegment kind = false) :
    Runs excused ts start moved true eats (calls.parsePrefixOf kind) := by
  have hunary : Runs excused ts start true false (fun _ => true) (calls.precedence .unary) :=
    h.precedence (by decide)
  unfold Calls.parsePrefixOf
  -- The cases follow the order of the arms; literals and operators come first.
  split
  case h_1 | h_2 | h_4 | h_5 | h_6 | h_9 => exact .eat .advance fun _ => .pure rfl
  case h_10 | h_11 | h_12 | h_13 | h_14 | h_15 | h_23 =>
    exact .eat .advance fun _ => .eat hunary fun _ => .pure rfl
  case h_3 => exact absurd hkind (by simp [isStringSegment])
  case h_7 | h_21 => exact h.parseKeywordCall
  case h_8 => exact h.parseIdentifier
  case h_16 => exact h.parseParenthesized
  case h_17 => exact h.parseAwait
  case h_18 =>
    refine .choice h.parseAsyncBlock (.choice ?_ runs_errorHere)
    exact .eat .advance fun _ => .pure rfl
  case h_19 => exact .choice (.eat .advance fun _ => .pure rfl) runs_errorHere
  case h_20 | h_22 => exact h.parseBorrow
  case h_24 => exact h.parseArrayLiteral
  case h_25 => exact h.parseObjectLiteral
  case h_26 => exact h.parseLambda.runs
  case h_27 => exact runs_errorHere

theorem parsePrefix : Runs excused ts start moved atToken eats calls.parsePrefix := by
  intro pos hpos hmoved hlen htoken
  have heq : calls.parsePrefix ts pos =
      calls.parsePrefixOf (kindAt (ts.drop pos) 0) ts pos := rfl
  rw [heq]
  cases hseg : isStringSegment (kindAt (ts.drop pos) 0) with
  | true =>
    obtain ⟨t, text, rest, hdrop, hkind⟩ := segment_of_isStringSegment hseg
    have hat : kindAt (ts.drop pos) 0 = .stringSegment text := by rw [hdrop, ← hkind]; rfl
    rw [hat]
    exact h.keeps_parseStringWithInterpolation hpos hseg
  | false =>
    by_cases hlt : pos < ts.length
    · exact h.parsePrefixOf hseg pos hpos hmoved hlen fun _ => hlt
    · rw [List.drop_eq_nil_of_le (by omega)]
      have herror : Runs excused ts start moved atToken eats (calls.parsePrefixOf .eof) :=
        runs_errorHere
      exact herror pos hpos hmoved hlen htoken

variable {left : Expr}

theorem parseAssignment : Runs excused ts start moved true eats (calls.parseAssignment left) := by
  refine .eat .advance fun _ => .eat (h.precedence (by decide)) fun value => ?_
  split
  · exact .pure rfl
  · exact runs_errorHere

theorem parseQuestion : Runs excused ts start moved true eats (calls.parseQuestion left) := by
  have hternary : ∀ {ternary : Expr → Expr → Expr}, Runs excused ts start true false
      (fun _ => false) (do
        let thenBranch ← calls.expression
        let _ ← expect .colon "expected ':' in ternary"
        let elseBranch ← calls.expression
        return ternary thenBranch elseBranch) :=
    .eat h.expression fun _ => .eat (runs_expect rfl) fun _ => .eat h.expression fun _ => .pure rfl
  refine .orRewind (.eat .advance fun _ => ?_) (.eat .advance fun _ => .pure rfl)
  exact .bind (.attempt hternary) fun ternary => .pure (by cases ternary <;> rfl)

omit h in
theorem parseDot : Runs excused ts start moved true eats (Calls.parseDot left) := by
  refine .eat .advance fun _ => .bind_look (fun t rest => ?_) ?_
  · split
    · exact .eat .advance fun _ => .pure rfl
    · exact .eat runs_parseMemberName fun _ => .pure rfl
  · exact .eat runs_parseMemberName fun _ => .pure rfl

theorem parseArgument : Runs excused ts start true atToken eats calls.parseArgument := by
  unfold Calls.parseArgument
  refine runs_check rfl ?_ (h.precedence (by decide))
  exact .eat .advance fun _ => .eat (h.precedence (by decide)) fun _ => .pure rfl

theorem parseCall : Runs excused ts start moved true eats (calls.parseCall left) := by
  refine .eat .advance fun _ => ?_
  refine .pass (runs_unlessClosed rfl (runs_separated rfl h.parseArgument)) fun _ => ?_
  exact .eat (runs_expect rfl) fun _ => .pure rfl

theorem parseReceive {operand : Precedence} (hoperand : operand ≠ .none) :
    Runs excused ts start moved true eats (calls.parseReceive operand left) := by
  refine .eat .advance fun _ => .eat (h.precedence hoperand) fun _ => ?_
  split
  · exact .pure rfl
  · exact .fail

/-- Every kind of token that has a precedence is handled. -/
theorem parseInfixOf {kind : TokenKind} (hkind : infixPrecedence kind ≠ .none) :
    Runs excused ts start moved true eats (calls.parseInfixOf kind left) := by
  have hoperand : (infixPrecedence kind).nextHigher ≠ .none := by
    cases infixPrecedence kind <;> decide
  unfold Calls.parseInfixOf
  refine .ite (fun _ => ?_) fun hbinary => ?_
  · exact .eat .advance fun _ => .eat (h.precedence hoperand) fun _ => .pure rfl
  · split
    case h_1 => exact .eat .advance fun _ => .eat (h.precedence hoperand) fun _ => .pure rfl
    case h_2 => exact h.parseReceive hoperand
    case h_3 => exact h.parseAssignment
    case h_4 | h_5 => exact .eat .advance fun _ => .pure rfl
    case h_6 => exact h.parseQuestion
    case h_7 => exact parseDot
    case h_8 => exact .eat .advance fun _ => .eat runs_parseMemberName fun _ => .pure rfl
    case h_9 => exact h.parseCall
    case h_10 =>
      refine .eat .advance fun _ => .eat h.expression fun _ => ?_
      exact .eat (runs_expect rfl) fun _ => .pure rfl
    case h_11 =>
      refine absurd ?_ hkind
      unfold isBinaryOperator at hbinary
      unfold infixPrecedence
      split <;> simp_all

theorem parseContinuation {precedence : Precedence} (hprecedence : precedence ≠ .none) :
    Runs excused ts start moved false (Sum.elim (fun _ => true) fun _ => false)
      (calls.parseContinuation precedence left) := by
  intro pos hpos hmoved hlen _
  cases hc : continues precedence (kindAt (ts.drop pos) 0) with
  | false =>
    rw [calls.parseContinuation_stop hc]
    exact ⟨le_rfl, hlen, by simp⟩
  | true =>
    have hlt := lt_length_of_kindAt (ne_eof_of_continues hc)
    have hkind : infixPrecedence (kindAt (ts.drop pos) 0) ≠ .none :=
      infixPrecedence_ne_none hprecedence hc
    rw [calls.parseContinuation_go hc]
    have hrun : Runs excused ts start moved true (Sum.elim (fun _ => true) fun _ => false)
        (calls.parseInfixOf (kindAt (ts.drop pos) 0) left >>= fun left =>
          pure (.inl left : Expr ⊕ Expr)) :=
      .eat (h.parseInfixOf hkind) fun _ => .pure rfl
    exact hrun pos hpos hmoved hlen fun _ => hlt

theorem parsePrecedence {precedence : Precedence} (hprecedence : precedence ≠ .none) :
    Runs excused ts start moved atToken eats (calls.parsePrecedence precedence) :=
  .eat h.parsePrefix fun _ => .loop fun _ => h.parseContinuation hprecedence

end Calls.Sound

end Neutron.Source
