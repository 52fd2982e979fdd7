import Neutron.OperatorParsing

/-!
# When operator expressions parse back

A tree that fits parses back to itself exactly when it is clear. Where a name is read as a generic
call, the type arguments become part of the name, and what the parser builds around it keeps that
name: the names of the result, read from left to right, differ from those of the tree.
-/

namespace Neutron.Source
open CursorParser

mutual
/-- The names that stand as operands, from left to right. -/
def Expr.operandNames : Expr → List Token
  | .variable name => [name]
  | .binary left _ right => left.operandNames ++ right.operandNames
  | .unary _ right => right.operandNames
  | .postfixUnary _ left => left.operandNames
  | .grouping expression _ _ => expression.operandNames
  | .member object _ | .optionalMember object _ => object.operandNames
  | .call callee _ arguments => callee.operandNames ++ operandNamesOf arguments
  | .assign name value => name :: value.operandNames
  | .indexGet object index => object.operandNames ++ index.operandNames
  | .indexSet object index value =>
    object.operandNames ++ index.operandNames ++ value.operandNames
  | .memberSet object _ value => object.operandNames ++ value.operandNames
  | .ternary condition thenBranch elseBranch =>
    condition.operandNames ++ (thenBranch.operandNames ++ elseBranch.operandNames)
  | .rawDeref target _ => target.operandNames
  | .rawDerefSet target value _ => target.operandNames ++ value.operandNames
  | .structLiteral className _ _ _ => [className]
  | .propagate value _ => value.operandNames
  | .tupleLiteral elements _ => operandNamesOf elements
  | .tupleIndex object _ _ => object.operandNames
  | .chanSend channel value _ => value.operandNames ++ channel.operandNames
  | .chanRecv receiver channel _ => receiver :: channel.operandNames
  | _ => []
def Expr.operandNamesOf : List Expr → List Token
  | [] => []
  | e :: rest => e.operandNames ++ operandNamesOf rest
end

open Source.Expr

theorem operandNamesOf_append (l m : List Expr) :
    operandNamesOf (l ++ m) = operandNamesOf l ++ operandNamesOf m := by
  induction l with
  | nil => rfl
  | cons e rest ih => simp only [List.cons_append, operandNamesOf, ih, List.append_assoc]

/-- The lists differ at a place that both have. -/
def Diverges {α : Type} (l m : List α) : Prop :=
  ∃ before x y xs ys, x ≠ y ∧ l = before ++ x :: xs ∧ m = before ++ y :: ys

namespace Diverges
variable {α : Type} {l m : List α}

theorem append (h : Diverges l m) (l' m' : List α) : Diverges (l ++ l') (m ++ m') := by
  obtain ⟨before, x, y, xs, ys, hne, rfl, rfl⟩ := h
  exact ⟨before, x, y, xs ++ l', ys ++ m', hne, by simp, by simp⟩

theorem append_left (h : Diverges l m) (before : List α) :
    Diverges (before ++ l) (before ++ m) := by
  obtain ⟨common, x, y, xs, ys, hne, rfl, rfl⟩ := h
  exact ⟨before ++ common, x, y, xs, ys, hne, by simp, by simp⟩

theorem of_isPrefix {l' : List α} (h : Diverges l m) (hl : l <+: l') : Diverges l' m := by
  obtain ⟨rest, rfl⟩ := hl
  simpa using h.append rest []

theorem ne (h : Diverges l m) : l ≠ m := by
  obtain ⟨before, x, y, xs, ys, hne, rfl, rfl⟩ := h
  intro heq
  exact hne (List.head_eq_of_cons_eq (List.append_cancel_left heq))

end Diverges

section Extensions
variable {calls : Calls} {left : Expr}

theorem isPrefix_assignTo {value e : Expr} (h : Calls.assignTo left value = some e) :
    left.operandNames <+: e.operandNames := by
  unfold Calls.assignTo at h
  split at h
  · cases h
    exact List.prefix_append [_] _
  · cases h
    exact List.prefix_append _ _
  · cases h
    exact List.prefix_append _ _
  · cases h
    exact List.prefix_append _ _
  · cases h

theorem returns_parseQuestion :
    Returns (fun e => left.operandNames <+: e.operandNames) (calls.parseQuestion left) := by
  have hternary : Returns (fun e => left.operandNames <+: e.operandNames) (do
      let thenBranch ← calls.expression
      let _ ← expect .colon "expected ':' in ternary"
      let elseBranch ← calls.expression
      return Expr.ternary left thenBranch elseBranch) :=
    .after fun _ => .after fun _ => .after fun _ => .pure (List.prefix_append _ _)
  refine .orRewind (.after fun _ => .bind (.attempt hternary) fun _ h => .pure h) ?_
  exact .after fun _ => .pure (List.prefix_refl _)

/-- What an infix form builds begins with the names of its left operand. -/
theorem returns_parseInfixOf {kind : TokenKind} :
    Returns (fun e => left.operandNames <+: e.operandNames) (calls.parseInfixOf kind left) := by
  unfold Calls.parseInfixOf
  split
  · exact .after fun _ => .after fun _ => .pure (List.prefix_append _ _)
  · split
    · exact .after fun _ => .after fun _ => .pure (List.prefix_append _ _)
    · refine .after fun _ => .after fun _ => ?_
      split
      · exact .pure (List.prefix_append [_] _)
      · exact .fail
    · refine .after fun _ => .after fun value => ?_
      split
      · exact .pure (isPrefix_assignTo ‹_›)
      · exact .after fun _ => .fail
    · exact .after fun _ => .pure (List.prefix_refl _)
    · exact .after fun _ => .pure (List.prefix_refl _)
    · exact returns_parseQuestion
    · refine .after fun _ => .after fun index => ?_
      split
      · exact .after fun _ => .pure (List.prefix_refl _)
      · exact .after fun _ => .pure (List.prefix_refl _)
    · exact .after fun _ => .after fun _ => .pure (List.prefix_refl _)
    · exact .after fun _ => .after fun _ => .after fun _ => .pure (List.prefix_append _ _)
    · exact .after fun _ => .after fun _ => .after fun _ => .pure (List.prefix_append _ _)
    · exact .crash

theorem returns_parseContinuation {p : Precedence} {names : List Token}
    (h : names <+: left.operandNames) :
    Returns (Sum.elim (fun e => names <+: e.operandNames) fun e => names <+: e.operandNames)
      (calls.parseContinuation p left) := by
  refine .after fun go => ?_
  cases go with
  | true =>
    refine .bind (.after fun _ => returns_parseInfixOf) fun e he => ?_
    exact .pure (h.trans he)
  | false => exact .pure h

/-- A name keeps its place whether it begins a struct literal or not. -/
theorem returns_named {tok : Token} {c : List Token → Bool} :
    Returns (fun e => [tok] <+: e.operandNames) (do
      if ← look c then calls.parseStructLiteral tok else return .variable tok) := by
  refine .after fun literal => ?_
  cases literal with
  | true =>
    refine .after fun _ => .after fun _ => .after fun _ => .after fun _ => ?_
    exact .pure (List.prefix_refl _)
  | false => exact .pure (List.prefix_refl _)

/-- A grouping or a tuple begins with the names of its first expression. -/
theorem returns_closeParenthesized {first : Expr} {opening : Token} :
    Returns (fun e => first.operandNames <+: e.operandNames)
      (calls.closeParenthesized opening first) := by
  have hturn : ∀ elements, first.operandNames <+: operandNamesOf elements →
      Returns (Sum.elim (fun es => first.operandNames <+: operandNamesOf es)
        fun es => first.operandNames <+: operandNamesOf es) (calls.parseElement elements) := by
    intro elements h
    refine .after fun comma => ?_
    cases comma with
    | none => exact .pure h
    | some _ =>
      refine .after fun closed => ?_
      cases closed with
      | true => exact .pure h
      | false =>
        refine .after fun element => .pure ?_
        show _ <+: operandNamesOf (elements ++ [element])
        rw [operandNamesOf_append]
        exact h.trans (List.prefix_append _ _)
  refine .after fun tuple => ?_
  cases tuple with
  | true =>
    refine .bind (.loop hturn ?_) fun elements h => .after fun _ => .pure h
    exact List.prefix_append _ _
  | false => exact .after fun _ => .pure (List.prefix_refl _)

theorem returns_turns {p : Precedence} (n : ℕ) :
    Returns (fun e => left.operandNames <+: e.operandNames)
      (turns (calls.parseContinuation p) n left) :=
  .turns (fun _ h => returns_parseContinuation h) n (List.prefix_refl _)

end Extensions

section Losses
variable {ts : List Token} {n pos q : ℕ} {rest : List Token} {p : Precedence} {e : Expr}

/-- The names of what precedence climbing makes of a tree that is not clear. -/
def OperatorTree.Loses (ts : List Token) (t : OperatorTree) : Prop :=
  ∀ ⦃n pos q : ℕ⦄ ⦃rest : List Token⦄ ⦃p : Precedence⦄ ⦃e : Expr⦄, p ≠ .none →
    p.rank ≤ t.strength.rank → ¬ t.Clear rest → t.Before (kindAt rest 0) →
    ts.drop pos = t.tokens ++ rest → ts.length ≤ n + pos →
    (level n).parsePrecedence p ts pos = .ok e q →
    Diverges e.operandNames t.expr.operandNames

/-- What is lost in the head of an expression is lost in the expression. -/
theorem diverges_of_head {names : List Token}
    (hhead : ∀ left r, (level n).parsePrefixOf (kindAt (ts.drop pos) 0) ts pos = .ok left r →
      Diverges left.operandNames names)
    (h : (level n).parsePrecedence p ts pos = .ok e q) : Diverges e.operandNames names := by
  obtain ⟨left, r, hleft, hloop⟩ := bind_eq_ok h
  exact (hhead left r hleft).of_isPrefix (returns_turns _ hloop)

/-- What is lost in an infix form is lost in the expression. -/
theorem diverges_of_infix {names : List Token} {left : Expr}
    (hcontinues : Calls.continues p (kindAt (ts.drop pos) 0) = true)
    (hstep : ∀ left' r, (level n).parseInfixOf (kindAt (ts.drop pos) 0) left ts pos = .ok left' r →
      Diverges left'.operandNames names)
    (h : loop ((level n).parseContinuation p) left ts pos = .ok e q) :
    Diverges e.operandNames names := by
  rw [loop, turns] at h
  obtain ⟨r, s, hturn, hrest⟩ := bind_eq_ok h
  rw [Calls.parseContinuation_go _ hcontinues] at hturn
  obtain ⟨left', s', hleft, hpure⟩ := bind_eq_ok hturn
  cases hpure
  exact (hstep left' s hleft).of_isPrefix (returns_turns _ hrest)

namespace OperatorTree.Loses

theorem operand {t : OperatorTree} (h : t.Loses ts) (hp : p ≠ .none)
    (hstrength : p.rank ≤ t.strength.rank) (hlost : ¬ t.Clear rest)
    (hbefore : t.Before (kindAt rest 0)) (hdrop : ts.drop pos = t.tokens ++ rest)
    (hn : ts.length < n + pos) (hres : (level n).precedence p ts pos = .ok e q) :
    Diverges e.operandNames t.expr.operandNames := by
  cases n with
  | zero => cases hres
  | succ n => exact h hp hstrength hlost hbefore hdrop (by omega) hres

theorem enclosed {t : OperatorTree} (h : t.Loses ts) (hfits : t.Fits) (hlost : ¬ t.Clear rest)
    (hstop : infixPrecedence (kindAt rest 0) = .none) (hbrace : kindAt rest 0 ≠ .leftBrace)
    (hdrop : ts.drop pos = t.tokens ++ rest) (hn : ts.length < n + pos)
    (hres : (level n).expression ts pos = .ok e q) :
    Diverges e.operandNames t.expr.operandNames := by
  refine h.operand (p := .assignment) (by decide) (one_le_rank_strength hfits) hlost ⟨?_, hbrace⟩
    hdrop hn hres
  rw [hstop]
  exact Nat.zero_le _

theorem mangle_ne (text : String) (arguments : List TypeAnnotation) :
    mangleAppliedType text arguments ≠ text := by
  intro h
  have hlength := congrArg String.length h
  simp only [mangleAppliedType, String.length_append] at hlength
  have hone : "<".length = 1 := rfl
  omega

theorem name {text : String} {span : Span} : Loses ts (.name text span) := by
  intro n pos q rest p e _ _ hlost hbefore hdrop _ hres
  have hdrop' : ts.drop pos = ⟨.identifier text, span⟩ :: rest := hdrop
  have hkind : kindAt (ts.drop pos) 0 = .identifier text := by rw [hdrop']; rfl
  have hgeneric : looksLikeGenericCall (ts.drop (pos + 1)) = true := by
    rw [drop_succ_of_cons hdrop']
    exact Bool.not_eq_false _ ▸ hlost
  refine diverges_of_head (fun left r hleft => ?_) hres
  rw [hkind] at hleft
  replace hleft : (level n).parseIdentifier ts pos = .ok left r := hleft
  rw [Calls.parseIdentifier, bind_of_ok (advance_eq hdrop')] at hleft
  obtain ⟨tok, s, htok, hleft⟩ := bind_eq_ok hleft
  rw [Calls.parseTypeApplication, look_of_true hgeneric] at htok
  obtain ⟨arguments, s', -, htok⟩ := bind_eq_ok htok
  cases htok
  have hne : (⟨.identifier (mangleAppliedType text arguments), span⟩ : Token) ≠
      ⟨.identifier text, span⟩ := by
    intro heq
    injection heq with hkind' _
    injection hkind' with htext
    exact mangle_ne text arguments htext
  have hdiverges : Diverges [(⟨.identifier (mangleAppliedType text arguments), span⟩ : Token)]
      [⟨.identifier text, span⟩] := ⟨[], _, _, [], [], hne, rfl, rfl⟩
  exact hdiverges.of_isPrefix (returns_named hleft)

theorem number {text : String} {span : Span} : Loses ts (.number text span) := by
  intro n pos q rest p e _ _ hlost
  exact absurd trivial hlost

theorem grouping {opening closing : Span} {inner : OperatorTree} (h : inner.Loses ts)
    (hfits : inner.Fits) : Loses ts (.grouping opening inner closing) := by
  intro n pos q rest p e _ _ hlost _ hdrop hn hres
  have hdrop' : ts.drop pos = ⟨.leftParen, opening⟩ ::
      (inner.tokens ++ ⟨.rightParen, closing⟩ :: rest) := by
    rw [hdrop, OperatorTree.tokens]
    simp
  have hkind : kindAt (ts.drop pos) 0 = .leftParen := by rw [hdrop']; rfl
  have hinner := drop_succ_of_cons hdrop'
  refine diverges_of_head (fun left r hleft => ?_) hres
  rw [hkind] at hleft
  replace hleft : (level n).parseParenthesized ts pos = .ok left r := hleft
  rw [Calls.parseParenthesized, bind_of_ok (advance_eq hdrop')] at hleft
  obtain ⟨first, s, hfirst, hleft⟩ := bind_eq_ok hleft
  have hlosses := h.enclosed hfits hlost rfl (by simp) hinner (by omega) hfirst
  exact hlosses.of_isPrefix (returns_closeParenthesized hleft)

theorem unary {op : Token} {operand : OperatorTree} (h : operand.Loses ts)
    (hop : isPrefixOperator op.kind = true)
    (hstrength : Precedence.unary.rank ≤ operand.strength.rank) :
    Loses ts (.unary op operand) := by
  intro n pos q rest p e _ _ hlost hbefore hdrop hn hres
  have hdrop' : ts.drop pos = op :: (operand.tokens ++ rest) := hdrop
  have hkind : kindAt (ts.drop pos) 0 = op.kind := by rw [hdrop']; rfl
  have hoperand := drop_succ_of_cons hdrop'
  refine diverges_of_head (fun left r hleft => ?_) hres
  rw [hkind, parsePrefixOf_operator _ hop, bind_of_ok (advance_eq hdrop')] at hleft
  obtain ⟨right, s, hright, hleft⟩ := bind_eq_ok hleft
  cases hleft
  have hn' : ts.length < n + (pos + 1) := by omega
  have hdiverges := h.operand (by decide) hstrength hlost
    ⟨hbefore.1.trans hstrength, hbefore.2⟩ hoperand hn' hright
  exact hdiverges

theorem binary {left right : OperatorTree} {op : Token} (hl : left.Loses ts) (hr : right.Loses ts)
    (hleft : left.Fits) (hop : isBinaryOperator op.kind = true)
    (hlstrength : (infixPrecedence op.kind).rank ≤ left.strength.rank)
    (hrstrength : (infixPrecedence op.kind).nextHigher.rank ≤ right.strength.rank) :
    Loses ts (.binary left op right) := by
  intro n pos q rest p e hp hstrength hlost hbefore hdrop hn hres
  have hdrop' : ts.drop pos = left.tokens ++ op :: (right.tokens ++ rest) := by
    rw [hdrop, OperatorTree.tokens]
    simp
  have hat := drop_add_of_append hdrop'
  have hkind : kindAt (ts.drop (pos + left.tokens.length)) 0 = op.kind := by rw [hat]; rfl
  have hbeforeLeft : left.Before op.kind := ⟨hlstrength, ne_leftBrace_of_binary hop⟩
  by_cases hclear : left.Clear (op :: (right.tokens ++ rest))
  · have hlost' : ¬ right.Clear rest := fun hright => hlost ⟨hclear, hright⟩
    rw [left.reads ts hleft hp (hstrength.trans hlstrength) hclear hbeforeLeft hdrop' hn] at hres
    refine diverges_of_infix (by rw [hkind]; exact continues_of_binary hop hstrength)
      (fun e r he => ?_) hres
    rw [hkind, parseInfixOf_binary _ _ hop, bind_of_ok (advance_eq hat)] at he
    obtain ⟨operand, s, hoperand, he⟩ := bind_eq_ok he
    cases he
    have hstep := (rank_lt_nextHigher hop).le
    have hbeforeRight : right.Before (kindAt rest 0) :=
      ⟨(hbefore.1.trans hstep).trans hrstrength, hbefore.2⟩
    exact (hr.operand (nextHigher_ne_none _) hrstrength hlost' hbeforeRight
      (drop_succ_of_cons hat) (by omega) hoperand).append_left _
  · have hdiverges := hl hp (hstrength.trans hlstrength) hclear hbeforeLeft hdrop' hn hres
    show Diverges _ (left.expr.operandNames ++ right.expr.operandNames)
    simpa using hdiverges.append [] right.expr.operandNames

/-- What is lost in the operand of a postfix form, or behind it. -/
theorem behind {object : OperatorTree} {follow : List Token} {names : List Token}
    (h : object.Loses ts) (hfits : object.Fits)
    (hstrength : Precedence.call.rank ≤ object.strength.rank) (hp : p ≠ .none)
    (hp' : p.rank ≤ Precedence.call.rank)
    (hkind : infixPrecedence (kindAt follow 0) = .call) (hbrace : kindAt follow 0 ≠ .leftBrace)
    (hdrop : ts.drop pos = object.tokens ++ follow) (hn : ts.length ≤ n + pos)
    (hstep : object.Clear follow → ∀ e r, (level n).parseInfixOf (kindAt follow 0) object.expr ts
      (pos + object.tokens.length) = .ok e r →
      Diverges e.operandNames (object.expr.operandNames ++ names))
    (hres : (level n).parsePrecedence p ts pos = .ok e q) :
    Diverges e.operandNames (object.expr.operandNames ++ names) := by
  have hbefore : object.Before (kindAt follow 0) := ⟨by rw [hkind]; exact hstrength, hbrace⟩
  have hat := drop_add_of_append hdrop
  by_cases hclear : object.Clear follow
  · rw [object.reads ts hfits hp (hp'.trans hstrength) hclear hbefore hdrop hn] at hres
    refine diverges_of_infix ?_ (fun e r he => ?_) hres
    · rw [hat]
      refine continues_of_rank ?_ (by rw [hkind]; exact hp')
      intro hend
      rw [hend] at hkind
      exact absurd hkind (by decide)
    · rw [hat] at he
      exact hstep hclear e r he
  · have hdiverges := h hp (hp'.trans hstrength) hclear hbefore hdrop hn hres
    simpa using hdiverges.append [] names

theorem emptyCall {callee : OperatorTree} {opening closing : Span} (h : callee.Loses ts)
    (hfits : callee.Fits) (hstrength : Precedence.call.rank ≤ callee.strength.rank) :
    Loses ts (.emptyCall callee opening closing) := by
  intro n pos q rest p e hp hp' hlost _ hdrop hn hres
  have hdrop' : ts.drop pos =
      callee.tokens ++ ⟨.leftParen, opening⟩ :: ⟨.rightParen, closing⟩ :: rest := by
    rw [hdrop, OperatorTree.tokens]
    simp
  exact h.behind hfits hstrength hp hp' rfl (by simp) hdrop' hn
    (fun hclear => absurd hclear hlost) hres

theorem member {object : OperatorTree} {dot span : Span} {property : String}
    (h : object.Loses ts) (hfits : object.Fits)
    (hstrength : Precedence.call.rank ≤ object.strength.rank) :
    Loses ts (.member object dot property span) := by
  intro n pos q rest p e hp hp' hlost _ hdrop hn hres
  have hdrop' : ts.drop pos =
      object.tokens ++ ⟨.dot, dot⟩ :: ⟨.identifier property, span⟩ :: rest := by
    rw [hdrop, OperatorTree.tokens]
    simp
  have hdiverges : Diverges e.operandNames (object.expr.operandNames ++ []) :=
    h.behind hfits hstrength hp hp' rfl (by simp) hdrop' hn (fun hclear => absurd hclear hlost) hres
  rw [List.append_nil] at hdiverges
  exact hdiverges

theorem index {object position : OperatorTree} {opening closing : Span} (ho : object.Loses ts)
    (hi : position.Loses ts) (hobject : object.Fits)
    (hstrength : Precedence.call.rank ≤ object.strength.rank) (hposition : position.Fits) :
    Loses ts (.index object opening position closing) := by
  intro n pos q rest p e hp hp' hlost _ hdrop hn hres
  have hdrop' : ts.drop pos = object.tokens ++
      ⟨.leftBracket, opening⟩ :: (position.tokens ++ ⟨.rightBracket, closing⟩ :: rest) := by
    rw [hdrop, OperatorTree.tokens]
    simp
  have hat := drop_add_of_append hdrop'
  refine ho.behind hobject hstrength hp hp' rfl (by simp) hdrop' hn
    (fun hclear e r he => ?_) hres
  have hlost' : ¬ position.Clear (⟨.rightBracket, closing⟩ :: rest) :=
    fun hcl => hlost ⟨hclear, hcl⟩
  replace he : (do
    let _ ← advance
    let index ← (level n).expression
    let _ ← expect .rightBracket "expected ']'"
    return Expr.indexGet object.expr index : Parser ParseError Expr) ts
      (pos + object.tokens.length) = .ok e r := he
  rw [bind_of_ok (advance_eq hat)] at he
  obtain ⟨i, s, hi', he⟩ := bind_eq_ok he
  obtain ⟨_, s', -, he⟩ := bind_eq_ok he
  cases he
  exact (hi.enclosed hposition hlost' rfl (by simp) (drop_succ_of_cons hat) (by omega)
    hi').append_left _

end OperatorTree.Loses

/-- The names of what the argument loop makes of arguments that are not clear. -/
def ArgumentTrees.Loses (ts : List Token) (trees : ArgumentTrees) : Prop :=
  ∀ ⦃n pos q : ℕ⦄ ⦃closing : Span⦄ ⦃rest : List Token⦄ ⦃es : List Expr⦄ (done : List Expr),
    ¬ trees.Clear (⟨.rightParen, closing⟩ :: rest) →
    ts.drop pos = trees.tokens ++ ⟨.rightParen, closing⟩ :: rest → ts.length < n + pos →
    loop (separatedItem .comma (level n).parseArgument) done ts pos = .ok es q →
    Diverges (operandNamesOf es) (operandNamesOf (done ++ trees.exprs))

/-- The list of items only grows. -/
theorem returns_separated {ε α : Type} {separator : TokenKind} {item : Parser ε α}
    {items : List α} (n : ℕ) :
    Returns (fun es => items <+: es) (turns (separatedItem separator item) n items) := by
  refine .turns (I := fun es => items <+: es) (fun es h => ?_) n (List.prefix_refl _)
  refine .after fun a => .after fun next => ?_
  cases next with
  | some _ => exact .pure (h.trans (List.prefix_append _ _))
  | none => exact .pure (h.trans (List.prefix_append _ _))

namespace ArgumentTrees.Loses

/-- An argument that is lost stays in the list. -/
theorem first {t : OperatorTree} (h : t.Loses ts) (hfits : t.Fits) (hlost : ¬ t.Clear rest)
    (hstop : infixPrecedence (kindAt rest 0) = .none) (hbrace : kindAt rest 0 ≠ .leftBrace)
    (hdrop : ts.drop pos = t.tokens ++ rest) (hn : ts.length < n + pos) {done es : List Expr}
    (hres : loop (separatedItem .comma (level n).parseArgument) done ts pos = .ok es q) :
    Diverges (operandNamesOf es) (operandNamesOf done ++ t.expr.operandNames) := by
  have hhead : kindAt (ts.drop pos) 0 ≠ .dotDotDot := by
    rw [hdrop]
    exact ne_of_beginsTree (beginsTree_tokens t rest hfits) rfl
  rw [loop, turns] at hres
  obtain ⟨turn, s, hturn, hrest⟩ := bind_eq_ok hres
  obtain ⟨argument, s', hargument, hnext⟩ := bind_eq_ok hturn
  rw [Calls.parseArgument, check_of_ne hhead] at hargument
  have hdiverges := h.enclosed hfits hlost hstop hbrace hdrop hn hargument
  have hgrows : done ++ [argument] <+: es := by
    obtain ⟨next, r, -, hnext⟩ := bind_eq_ok hnext
    cases next with
    | some _ =>
      cases hnext
      exact returns_separated _ hrest
    | none =>
      cases hnext
      cases hrest
      exact List.prefix_refl _
  obtain ⟨more, rfl⟩ := hgrows
  rw [operandNamesOf_append, operandNamesOf_append, List.append_assoc]
  refine Diverges.append_left ?_ _
  have hlast := hdiverges.append (operandNamesOf more) []
  simpa [operandNamesOf] using hlast

theorem last {t : OperatorTree} (h : t.Loses ts) (hfits : t.Fits) : Loses ts (.last t) := by
  intro n pos q closing rest es done hlost hdrop hn hres
  have hdiverges := first h hfits hlost rfl (by simp) hdrop hn hres
  rw [operandNamesOf_append]
  simpa [ArgumentTrees.exprs, operandNamesOf] using hdiverges

theorem cons {t : OperatorTree} {comma : Span} {trees : ArgumentTrees} (h : t.Loses ts)
    (hfits : t.Fits) (hrest : trees.Loses ts) : Loses ts (.cons t comma trees) := by
  intro n pos q closing rest es done hlost hdrop hn hres
  have hdrop' : ts.drop pos = t.tokens ++ ⟨.comma, comma⟩ ::
      (trees.tokens ++ ⟨.rightParen, closing⟩ :: rest) := by
    rw [hdrop, ArgumentTrees.tokens]
    simp
  by_cases hclear : t.Clear (⟨.comma, comma⟩ :: (trees.tokens ++ ⟨.rightParen, closing⟩ :: rest))
  · have hcomma := drop_add_of_append hdrop'
    have hlen : pos ≤ ts.length := by
      have := lt_length_of_cons hcomma
      omega
    rw [loop_of_inl progresses_arguments hlen
      (ArgumentTrees.Reads.turn (t.reads ts hfits) hfits hclear hdrop' hn)] at hres
    have hdiverges := hrest _ (fun hcl => hlost ⟨hclear, hcl⟩) (drop_succ_of_cons hcomma)
      (by omega) hres
    simpa [ArgumentTrees.exprs] using hdiverges
  · have hdiverges := first h hfits hclear rfl (by simp) hdrop' hn hres
    have hmore := hdiverges.append [] (operandNamesOf trees.exprs)
    rw [operandNamesOf_append]
    simpa [ArgumentTrees.exprs, operandNamesOf] using hmore

end ArgumentTrees.Loses

theorem OperatorTree.Loses.call {callee : OperatorTree} {opening closing : Span}
    {trees : ArgumentTrees} (h : callee.Loses ts) (hfits : callee.Fits)
    (hstrength : Precedence.call.rank ≤ callee.strength.rank) (harguments : trees.Loses ts)
    (hfits' : trees.Fits) : Loses ts (.call callee opening trees closing) := by
  intro n pos q rest p e hp hp' hlost _ hdrop hn hres
  have hdrop' : ts.drop pos = callee.tokens ++
      ⟨.leftParen, opening⟩ :: (trees.tokens ++ ⟨.rightParen, closing⟩ :: rest) := by
    rw [hdrop, OperatorTree.tokens]
    simp
  have hat := drop_add_of_append hdrop'
  have hfirst := drop_succ_of_cons hat
  refine h.behind hfits hstrength hp hp' rfl (by simp) hdrop' hn (fun hclear e r he => ?_) hres
  have hlost' : ¬ trees.Clear (⟨.rightParen, closing⟩ :: rest) := fun hcl => hlost ⟨hclear, hcl⟩
  replace he : (level n).parseCall callee.expr ts (pos + callee.tokens.length) = .ok e r := he
  rw [Calls.parseCall, bind_of_ok (advance_eq hat)] at he
  obtain ⟨arguments, s, hread, he⟩ := bind_eq_ok he
  obtain ⟨_, s', -, he⟩ := bind_eq_ok he
  cases he
  rw [unlessClosed, check_of_ne] at hread
  · exact (harguments [] hlost' hfirst (by omega) hread).append_left _
  · rw [hfirst]
    exact ne_of_beginsTree (beginsTree_arguments trees _ hfits') rfl

mutual
theorem OperatorTree.loses (ts : List Token) : ∀ t : OperatorTree, t.Fits → t.Loses ts
  | .name _ _, _ => .name
  | .number _ _, _ => .number
  | .grouping _ inner _, h => .grouping (inner.loses ts h) h
  | .unary _ operand, h => .unary (operand.loses ts h.2.1) h.1 h.2.2
  | .binary left _ right, h =>
    .binary (left.loses ts h.2.1) (right.loses ts h.2.2.1) h.2.1 h.1 h.2.2.2.1 h.2.2.2.2
  | .emptyCall callee _ _, h => .emptyCall (callee.loses ts h.1) h.1 h.2
  | .call callee _ arguments _, h =>
    .call (callee.loses ts h.1) h.1 h.2.1 (arguments.loses ts h.2.2) h.2.2
  | .index object _ position _, h =>
    .index (object.loses ts h.1) (position.loses ts h.2.2) h.1 h.2.1 h.2.2
  | .member object _ _ _, h => .member (object.loses ts h.1) h.1 h.2
theorem ArgumentTrees.loses (ts : List Token) : ∀ trees : ArgumentTrees, trees.Fits → trees.Loses ts
  | .last argument, h => .last (argument.loses ts h) h
  | .cons argument _ rest, h => .cons (argument.loses ts h.1) h.1 (rest.loses ts h.2)
end

end Losses

/-- An operator expression on a line parses back to its tree exactly when none of its names is
followed by a `<` whose matching `>` stands before a `(` on the same line. -/
theorem parseExpression_eq_tree_iff (t : OperatorTree) (hfits : t.Fits) (before rest : List Token)
    (newline : Span) :
    parseExpression (before ++ (t.tokens ++ ⟨.newline, newline⟩ :: rest)) before.length =
        .ok t.expr (before.length + t.tokens.length) ↔
      t.Clear (⟨.newline, newline⟩ :: rest) := by
  generalize hts : before ++ (t.tokens ++ ⟨.newline, newline⟩ :: rest) = ts
  have hdrop : ts.drop before.length = t.tokens ++ ⟨.newline, newline⟩ :: rest := by
    rw [← hts, List.drop_left]
  have hstrength : Precedence.assignment.rank ≤ t.strength.rank := one_le_rank_strength hfits
  constructor
  · intro hparse
    by_contra hlost
    refine ((t.loses ts hfits).operand (by decide) hstrength hlost ?_ hdrop ?_ hparse).ne rfl
    · exact ⟨Nat.zero_le _, by simp⟩
    · omega
  · intro hclear
    exact (t.reads ts hfits).enclosed hfits hclear rfl (by simp) hdrop (by omega)

/-- A span on the first line. -/
def onFirstLine (start stop : ℕ) : Span := ⟨start, stop, 1, start + 1⟩

/-- `a < b`. -/
def lessTree : OperatorTree :=
  .binary (.name "a" (onFirstLine 0 1)) ⟨.less, onFirstLine 2 3⟩ (.name "b" (onFirstLine 4 5))

theorem parseExpression_eq_tree_iff_less :
    lessTree.Fits ∧ parseExpression (lessTree.tokens ++ [⟨.newline, onFirstLine 5 6⟩]) 0 =
      .ok lessTree.expr 3 := by
  have hfits : lessTree.Fits := ⟨rfl, trivial, trivial, by decide, by decide⟩
  exact ⟨hfits, (parseExpression_eq_tree_iff lessTree hfits [] [] (onFirstLine 5 6)).mpr
    ⟨rfl, rfl⟩⟩

/-- `a < b && c > (d)`. -/
def comparisonTree : OperatorTree :=
  .binary
    (.binary (.name "a" (onFirstLine 0 1)) ⟨.less, onFirstLine 2 3⟩ (.name "b" (onFirstLine 4 5)))
    ⟨.andSym, onFirstLine 6 8⟩
    (.binary (.name "c" (onFirstLine 9 10)) ⟨.greater, onFirstLine 11 12⟩
      (.grouping (onFirstLine 13 14) (.name "d" (onFirstLine 14 15)) (onFirstLine 15 16)))

/-- The comparison is rejected as a generic call whose type arguments do not end. -/
theorem parseExpression_comparison :
    comparisonTree.Fits ∧
      parseExpression (comparisonTree.tokens ++ [⟨.newline, onFirstLine 16 17⟩]) 0 =
        .error ⟨"expected `>` after type arguments", onFirstLine 6 8⟩ 3 :=
  ⟨⟨rfl, ⟨rfl, trivial, trivial, by decide, by decide⟩,
    ⟨rfl, trivial, trivial, by decide, by decide⟩, by decide, by decide⟩, rfl⟩

end Neutron.Source
