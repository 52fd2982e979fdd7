import Neutron.OperatorTrees
import Neutron.ProgramTotality

/-!
# Parsing operator trees

Precedence climbing reads a clear tree that fits, and then goes on with the tokens behind it. A
tree that is not clear never parses back to itself: the first name that is read as a generic call
is lost, or the parse fails there.
-/

namespace Neutron.Source
open CursorParser

variable {ts : List Token} {n pos : ℕ} {rest : List Token} {p : Precedence}

section Steps

theorem progresses_parseContinuation (hp : p ≠ .none) :
    Progresses ts ((level n).parseContinuation p) := by
  intro left left' pos q hlen hturn
  have hsound : (level n).Sound True ts pos := sound_level n (.inl trivial)
  have hrun : Runs True ts pos false false _ ((level n).parseContinuation p left) :=
    hsound.parseContinuation hp
  have hkeeps := hrun.keeps hlen
  rw [hturn] at hkeeps
  exact ⟨hkeeps.2.2 rfl, hkeeps.2.1⟩

theorem parsePrecedence_of_head {e : Expr} {q : ℕ}
    (h : (level n).parsePrefixOf (kindAt (ts.drop pos) 0) ts pos = .ok e q) :
    (level n).parsePrecedence p ts pos = loop ((level n).parseContinuation p) e ts q := by
  have hlead : (level n).parsePrefix ts pos = .ok e q := h
  rw [Calls.parsePrecedence, bind_of_ok hlead]

/-- An infix form whose token continues the expression is one turn of the loop. -/
theorem loop_of_infix {left e : Expr} {q : ℕ} (hp : p ≠ .none)
    (hcontinues : Calls.continues p (kindAt (ts.drop pos) 0) = true)
    (h : (level n).parseInfixOf (kindAt (ts.drop pos) 0) left ts pos = .ok e q) :
    loop ((level n).parseContinuation p) left ts pos =
      loop ((level n).parseContinuation p) e ts q := by
  have hlt := lt_length_of_kindAt (ne_eof_of_continues hcontinues)
  refine loop_of_inl (progresses_parseContinuation hp) hlt.le ?_
  rw [Calls.parseContinuation_go _ hcontinues, bind_of_ok h]
  rfl

theorem loop_of_stop {left : Expr}
    (hstop : Calls.continues p (kindAt (ts.drop pos) 0) = false) :
    loop ((level n).parseContinuation p) left ts pos = .ok left pos :=
  loop_of_inr (Calls.parseContinuation_stop _ hstop)

end Steps

/-- A token that may stand behind a tree: it does not bind more strongly than the tree, and no
struct literal begins with it. -/
def OperatorTree.Before (t : OperatorTree) (kind : TokenKind) : Prop :=
  (infixPrecedence kind).rank ≤ t.strength.rank ∧ kind ≠ .leftBrace

/-- Climbing from a tree on is going on behind it with its expression. -/
def OperatorTree.Reads (ts : List Token) (t : OperatorTree) : Prop :=
  ∀ ⦃n pos : ℕ⦄ ⦃rest : List Token⦄ ⦃p : Precedence⦄, p ≠ .none → p.rank ≤ t.strength.rank →
    t.Clear rest → t.Before (kindAt rest 0) → ts.drop pos = t.tokens ++ rest →
    ts.length ≤ n + pos →
    (level n).parsePrecedence p ts pos =
      loop ((level n).parseContinuation p) t.expr ts (pos + t.tokens.length)

theorem OperatorTree.tokens_ne_nil (t : OperatorTree) : t.tokens ≠ [] := by
  cases t <;> simp [OperatorTree.tokens]

/-- No token has the precedence of the prefix operators. -/
theorem rank_infixPrecedence_ne (kind : TokenKind) :
    (infixPrecedence kind).rank ≠ Precedence.unary.rank := by
  unfold infixPrecedence
  split <;> decide

section Operators
variable {kind : TokenKind}

/-- Binary operators have a precedence below that of the prefix operators. -/
theorem rank_of_binary (h : isBinaryOperator kind = true) :
    1 ≤ (infixPrecedence kind).rank ∧ (infixPrecedence kind).rank < Precedence.unary.rank := by
  unfold isBinaryOperator at h
  split at h <;> simp_all [infixPrecedence, Precedence.rank]

theorem rank_lt_nextHigher (h : isBinaryOperator kind = true) :
    (infixPrecedence kind).rank < (infixPrecedence kind).nextHigher.rank := by
  have hrank := (rank_of_binary h).2
  generalize infixPrecedence kind = q at hrank
  cases q <;> simp_all [Precedence.rank, Precedence.nextHigher]

theorem nextHigher_ne_none (q : Precedence) : q.nextHigher ≠ .none := by
  cases q <;> decide

theorem ne_leftBrace_of_binary (h : isBinaryOperator kind = true) : kind ≠ .leftBrace := by
  rintro rfl
  exact absurd h (by decide)

theorem continues_of_rank (hend : kind ≠ .eof) (h : p.rank ≤ (infixPrecedence kind).rank) :
    Calls.continues p kind = true := by
  simp [Calls.continues, hend, h]

theorem continues_of_binary (h : isBinaryOperator kind = true)
    (hrank : p.rank ≤ (infixPrecedence kind).rank) : Calls.continues p kind = true := by
  refine continues_of_rank ?_ hrank
  rintro rfl
  exact absurd h (by decide)

theorem parsePrefixOf_operator (calls : Calls) (h : isPrefixOperator kind = true) :
    calls.parsePrefixOf kind = (do
      let op ← advance
      let right ← calls.precedence .unary
      return Expr.unary op right) := by
  unfold isPrefixOperator at h
  split at h <;> simp_all [Calls.parsePrefixOf]

theorem parseInfixOf_binary (calls : Calls) (left : Expr) (h : isBinaryOperator kind = true) :
    calls.parseInfixOf kind left = (do
      let op ← advance
      let right ← calls.precedence (infixPrecedence kind).nextHigher
      return Expr.binary left op right) := by
  unfold Calls.parseInfixOf
  exact if_pos h

end Operators

theorem one_le_rank_strength {t : OperatorTree} (h : t.Fits) : 1 ≤ t.strength.rank := by
  cases t with
  | binary left op right =>
    have hop : isBinaryOperator op.kind = true := h.1
    exact (rank_of_binary hop).1
  | name | number | grouping | unary | emptyCall | call | index | member => exact Nat.le_add_left 1 _

namespace OperatorTree.Reads

/-- An operand, where what follows it does not continue it. -/
theorem operand {t : OperatorTree} (h : t.Reads ts) (hp : p ≠ .none)
    (hstrength : p.rank ≤ t.strength.rank) (hclear : t.Clear rest)
    (hstop : (infixPrecedence (kindAt rest 0)).rank < p.rank)
    (hbrace : kindAt rest 0 ≠ .leftBrace) (hdrop : ts.drop pos = t.tokens ++ rest)
    (hn : ts.length < n + pos) :
    (level n).precedence p ts pos = .ok t.expr (pos + t.tokens.length) := by
  cases n with
  | zero =>
    have hempty : ts.drop pos = [] := List.drop_eq_nil_of_le (by omega)
    rw [hempty] at hdrop
    exact absurd (List.append_eq_nil_iff.mp hdrop.symm).1 t.tokens_ne_nil
  | succ n =>
    show (level n).parsePrecedence p ts pos = _
    rw [h hp hstrength hclear ⟨by omega, hbrace⟩ hdrop (by omega)]
    refine loop_of_stop ?_
    rw [drop_add_of_append hdrop]
    simp only [Calls.continues, Bool.and_eq_false_iff, decide_eq_false_iff_not]
    exact .inr (by omega)

/-- An operand between brackets or commas. -/
theorem enclosed {t : OperatorTree} (h : t.Reads ts) (hfits : t.Fits) (hclear : t.Clear rest)
    (hstop : infixPrecedence (kindAt rest 0) = .none) (hbrace : kindAt rest 0 ≠ .leftBrace)
    (hdrop : ts.drop pos = t.tokens ++ rest) (hn : ts.length < n + pos) :
    (level n).expression ts pos = .ok t.expr (pos + t.tokens.length) :=
  h.operand (by decide) (one_le_rank_strength hfits) hclear (by rw [hstop]; decide) hbrace hdrop hn

theorem name {text : String} {span : Span} : Reads ts (.name text span) := by
  intro n pos rest p _ _ hclear hbefore hdrop _
  refine parsePrecedence_of_head ?_
  have hdrop' : ts.drop pos = ⟨.identifier text, span⟩ :: rest := hdrop
  have hkind : kindAt (ts.drop pos) 0 = .identifier text := by rw [hdrop']; rfl
  have hrest := drop_succ_of_cons hdrop'
  have hgeneric : looksLikeGenericCall (ts.drop (pos + 1)) = false := by rw [hrest]; exact hclear
  have hstruct : (kindAt (ts.drop (pos + 1)) 0 == .leftBrace &&
      lookaheadStructLiteralFields (ts.drop (pos + 1))) = false := by
    rw [hrest, beq_eq_false_iff_ne.mpr hbefore.2, Bool.false_and]
  rw [hkind]
  show (level n).parseIdentifier ts pos = _
  have hname : Calls.parseTypeApplication ⟨.identifier text, span⟩ ts (pos + 1) =
      .ok ⟨.identifier text, span⟩ (pos + 1) := look_of_false hgeneric
  rw [Calls.parseIdentifier, bind_of_ok (advance_eq hdrop'), bind_of_ok hname,
    look_of_false hstruct]
  rfl

theorem number {text : String} {span : Span} : Reads ts (.number text span) := by
  intro n pos rest p _ _ _ _ hdrop _
  refine parsePrecedence_of_head ?_
  have hdrop' : ts.drop pos = ⟨.numberLiteral text, span⟩ :: rest := hdrop
  have hkind : kindAt (ts.drop pos) 0 = .numberLiteral text := by rw [hdrop']; rfl
  rw [hkind]
  show (advance >>= fun tok => pure (Expr.literal (.number tok.lexeme) tok.span)) ts pos = _
  rw [bind_of_ok (advance_eq hdrop')]
  rfl

variable {opening closing : Span}

theorem grouping {inner : OperatorTree} (h : inner.Reads ts)
    (hfits : inner.Fits) : Reads ts (.grouping opening inner closing) := by
  intro n pos rest p _ _ hclear _ hdrop hn
  refine parsePrecedence_of_head ?_
  have hdrop' : ts.drop pos = ⟨.leftParen, opening⟩ ::
      (inner.tokens ++ ⟨.rightParen, closing⟩ :: rest) := by
    rw [hdrop, OperatorTree.tokens]
    simp
  have hkind : kindAt (ts.drop pos) 0 = .leftParen := by rw [hdrop']; rfl
  have hinner := drop_succ_of_cons hdrop'
  have hclose := drop_add_of_append hinner
  rw [hkind]
  show (level n).parseParenthesized ts pos = _
  rw [Calls.parseParenthesized, bind_of_ok (advance_eq hdrop'),
    bind_of_ok (h.enclosed hfits hclear rfl (by simp) hinner (by omega)),
    Calls.closeParenthesized, check_of_ne (by simp [hclose]), bind_of_ok (expect_of_eq hclose)]
  refine congrArg (Outcome.ok _) ?_
  simp only [OperatorTree.tokens, List.length_cons, List.length_append, List.length_nil]
  omega

theorem unary {op : Token} {operand : OperatorTree} (h : operand.Reads ts)
    (hop : isPrefixOperator op.kind = true)
    (hstrength : Precedence.unary.rank ≤ operand.strength.rank) :
    Reads ts (.unary op operand) := by
  intro n pos rest p _ _ hclear hbefore hdrop hn
  refine parsePrecedence_of_head ?_
  have hdrop' : ts.drop pos = op :: (operand.tokens ++ rest) := hdrop
  have hkind : kindAt (ts.drop pos) 0 = op.kind := by rw [hdrop']; rfl
  have hoperand := drop_succ_of_cons hdrop'
  have hstop : (infixPrecedence (kindAt rest 0)).rank < Precedence.unary.rank :=
    lt_of_le_of_ne hbefore.1 (rank_infixPrecedence_ne _)
  rw [hkind, parsePrefixOf_operator _ hop, bind_of_ok (advance_eq hdrop'),
    bind_of_ok (h.operand (by decide) hstrength hclear hstop hbefore.2 hoperand (by omega))]
  refine congrArg (Outcome.ok _) ?_
  simp only [OperatorTree.tokens, List.length_cons]
  omega

theorem binary {left right : OperatorTree} {op : Token} (hl : left.Reads ts) (hr : right.Reads ts)
    (hop : isBinaryOperator op.kind = true)
    (hleft : (infixPrecedence op.kind).rank ≤ left.strength.rank)
    (hright : (infixPrecedence op.kind).nextHigher.rank ≤ right.strength.rank) :
    Reads ts (.binary left op right) := by
  intro n pos rest p hp hstrength hclear hbefore hdrop hn
  have hdrop' : ts.drop pos = left.tokens ++ op :: (right.tokens ++ rest) := by
    rw [hdrop, OperatorTree.tokens]
    simp
  have hat := drop_add_of_append hdrop'
  have hkind : kindAt (ts.drop (pos + left.tokens.length)) 0 = op.kind := by rw [hat]; rfl
  have hoperand := drop_succ_of_cons hat
  have hstep : (infixPrecedence op.kind).rank < (infixPrecedence op.kind).nextHigher.rank :=
    rank_lt_nextHigher hop
  have hread : (level n).parseInfixOf op.kind left.expr ts (pos + left.tokens.length) =
      .ok (.binary left.expr op right.expr) (pos + (OperatorTree.binary left op right).tokens.length) := by
    rw [parseInfixOf_binary _ _ hop, bind_of_ok (advance_eq hat),
      bind_of_ok (hr.operand (nextHigher_ne_none _) hright hclear.2
        (lt_of_le_of_lt hbefore.1 hstep) hbefore.2 hoperand (by omega))]
    refine congrArg (Outcome.ok _) ?_
    simp only [OperatorTree.tokens, List.length_append, List.length_cons]
    omega
  rw [hl hp (le_trans hstrength hleft) hclear.1 ⟨hleft, ne_leftBrace_of_binary hop⟩ hdrop' hn]
  refine loop_of_infix hp ?_ (by rw [hkind]; exact hread)
  rw [hkind]
  exact continues_of_binary hop hstrength

theorem emptyCall {callee : OperatorTree} (h : callee.Reads ts)
    (hstrength : Precedence.call.rank ≤ callee.strength.rank) :
    Reads ts (.emptyCall callee opening closing) := by
  intro n pos rest p hp hp' hclear _ hdrop hn
  have hdrop' : ts.drop pos =
      callee.tokens ++ ⟨.leftParen, opening⟩ :: ⟨.rightParen, closing⟩ :: rest := by
    rw [hdrop, OperatorTree.tokens]
    simp
  have hat := drop_add_of_append hdrop'
  have hkind : kindAt (ts.drop (pos + callee.tokens.length)) 0 = .leftParen := by rw [hat]; rfl
  have hclose := drop_succ_of_cons hat
  rw [h hp (le_trans hp' hstrength) hclear ⟨hstrength, by simp⟩ hdrop' hn]
  refine loop_of_infix hp (by rw [hkind]; exact continues_of_rank (by decide) hp') ?_
  rw [hkind]
  show (level n).parseCall callee.expr ts _ = _
  have harguments : unlessClosed .rightParen (separated .comma (level n).parseArgument) ts
      (pos + callee.tokens.length + 1) = .ok [] (pos + callee.tokens.length + 1) := by
    rw [unlessClosed, check_of_eq (by simp [hclose])]
    rfl
  rw [Calls.parseCall, bind_of_ok (advance_eq hat), bind_of_ok harguments,
    bind_of_ok (expect_of_eq hclose)]
  refine congrArg (Outcome.ok _) ?_
  simp only [OperatorTree.tokens, List.length_append, List.length_cons, List.length_nil]
  omega

theorem index {object position : OperatorTree} (ho : object.Reads ts)
    (hi : position.Reads ts) (hstrength : Precedence.call.rank ≤ object.strength.rank)
    (hfits : position.Fits) : Reads ts (.index object opening position closing) := by
  intro n pos rest p hp hp' hclear _ hdrop hn
  have hdrop' : ts.drop pos = object.tokens ++
      ⟨.leftBracket, opening⟩ :: (position.tokens ++ ⟨.rightBracket, closing⟩ :: rest) := by
    rw [hdrop, OperatorTree.tokens]
    simp
  have hat := drop_add_of_append hdrop'
  have hkind : kindAt (ts.drop (pos + object.tokens.length)) 0 = .leftBracket := by rw [hat]; rfl
  have hposition := drop_succ_of_cons hat
  have hclose := drop_add_of_append hposition
  rw [ho hp (le_trans hp' hstrength) hclear.1 ⟨hstrength, by simp⟩ hdrop' hn]
  refine loop_of_infix hp (by rw [hkind]; exact continues_of_rank (by decide) hp') ?_
  rw [hkind]
  show (do
    let _ ← advance
    let index ← (level n).expression
    let _ ← expect .rightBracket "expected ']'"
    return Expr.indexGet object.expr index : Parser ParseError Expr) ts _ = _
  rw [bind_of_ok (advance_eq hat),
    bind_of_ok (hi.enclosed hfits hclear.2 rfl (by simp) hposition (by omega)),
    bind_of_ok (expect_of_eq hclose)]
  refine congrArg (Outcome.ok _) ?_
  simp only [OperatorTree.tokens, List.length_append, List.length_cons, List.length_nil]
  omega

theorem member {object : OperatorTree} {dot span : Span} {property : String}
    (h : object.Reads ts) (hstrength : Precedence.call.rank ≤ object.strength.rank) :
    Reads ts (.member object dot property span) := by
  intro n pos rest p hp hp' hclear _ hdrop hn
  have hdrop' : ts.drop pos =
      object.tokens ++ ⟨.dot, dot⟩ :: ⟨.identifier property, span⟩ :: rest := by
    rw [hdrop, OperatorTree.tokens]
    simp
  have hat := drop_add_of_append hdrop'
  have hkind : kindAt (ts.drop (pos + object.tokens.length)) 0 = .dot := by rw [hat]; rfl
  have hname := drop_succ_of_cons hat
  rw [h hp (le_trans hp' hstrength) hclear ⟨hstrength, by simp⟩ hdrop' hn]
  refine loop_of_infix hp (by rw [hkind]; exact continues_of_rank (by decide) hp') ?_
  rw [hkind]
  show Calls.parseDot object.expr ts _ = _
  have hindex : look (ε := ParseError) (fun rest => Calls.tupleIndexOf (kindAt rest 0)) ts
      (pos + object.tokens.length + 1) = .ok none (pos + object.tokens.length + 1) := by
    simp only [look, hname, kindAt_cons_zero, Calls.tupleIndexOf]
  have hdot : Calls.parseDot object.expr ts (pos + object.tokens.length) =
      .ok (.member object.expr ⟨.identifier property, span⟩)
        (pos + object.tokens.length + 1 + 1) := by
    rw [Calls.parseDot, bind_of_ok (advance_eq hat), bind_of_ok hindex]
    show (parseMemberName >>= fun property => pure (Expr.member object.expr property)) ts _ = _
    rw [bind_of_ok (parseMemberName_of_eq hname)]
    rfl
  rw [hdot]
  refine congrArg (Outcome.ok _) ?_
  simp only [OperatorTree.tokens, List.length_append, List.length_cons, List.length_nil]
  omega

end OperatorTree.Reads

/-- The arguments of a call, behind the ones that are already read. -/
def ArgumentTrees.Reads (ts : List Token) (trees : ArgumentTrees) : Prop :=
  ∀ ⦃n pos : ℕ⦄ ⦃closing : Span⦄ ⦃rest : List Token⦄ (done : List Expr),
    trees.Clear (⟨.rightParen, closing⟩ :: rest) →
    ts.drop pos = trees.tokens ++ ⟨.rightParen, closing⟩ :: rest → ts.length < n + pos →
    loop (separatedItem .comma (level n).parseArgument) done ts pos =
      .ok (done ++ trees.exprs) (pos + trees.tokens.length)

/-- The tokens that begin a tree. -/
def beginsTree : TokenKind → Bool
  | .identifier _ | .numberLiteral _ | .leftParen | .minus | .bang | .tilde => true
  | _ => false

theorem beginsTree_tokens : ∀ (t : OperatorTree) (rest : List Token), t.Fits →
    beginsTree (kindAt (t.tokens ++ rest) 0) = true
  | .name _ _, _, _ => rfl
  | .number _ _, _, _ => rfl
  | .grouping _ _ _, _, _ => rfl
  | .unary op _, _, h => by
    have hop : isPrefixOperator op.kind = true := h.1
    show beginsTree op.kind = true
    unfold isPrefixOperator at hop
    split at hop <;> simp_all [beginsTree]
  | .binary left op right, rest, h => by
    rw [OperatorTree.tokens, List.append_assoc]
    exact beginsTree_tokens left _ h.2.1
  | .emptyCall callee _ _, rest, h => by
    rw [OperatorTree.tokens, List.append_assoc]
    exact beginsTree_tokens callee _ h.1
  | .call callee _ _ _, rest, h => by
    rw [OperatorTree.tokens, List.append_assoc]
    exact beginsTree_tokens callee _ h.1
  | .index object _ _ _, rest, h => by
    rw [OperatorTree.tokens, List.append_assoc]
    exact beginsTree_tokens object _ h.1
  | .member object _ _ _, rest, h => by
    rw [OperatorTree.tokens, List.append_assoc]
    exact beginsTree_tokens object _ h.1

theorem beginsTree_arguments (trees : ArgumentTrees) (rest : List Token) (h : trees.Fits) :
    beginsTree (kindAt (trees.tokens ++ rest) 0) = true := by
  cases trees with
  | last argument => exact beginsTree_tokens argument rest h
  | cons argument comma trees =>
    rw [ArgumentTrees.tokens, List.append_assoc]
    exact beginsTree_tokens argument _ h.1

theorem ne_of_beginsTree {kind other : TokenKind} (h : beginsTree kind = true)
    (hother : beginsTree other = false) : kind ≠ other := by
  rintro rfl
  rw [h] at hother
  exact absurd hother (by decide)

theorem progresses_arguments : Progresses ts (separatedItem .comma (level n).parseArgument) := by
  intro items items' pos q hlen hturn
  have hprecedence : ∀ {moved atToken : Bool} {eats : Expr → Bool} {p : Precedence}, p ≠ .none →
      Runs True ts pos moved atToken eats ((level n).precedence p) :=
    (runs_level n (.inl trivial)).2
  have hargument : Runs True ts pos false false (fun _ => true) (level n).parseArgument := by
    unfold Calls.parseArgument
    refine runs_check rfl ?_ (hprecedence (by decide))
    exact .eat .advance fun _ => .eat (hprecedence (by decide)) fun _ => .pure rfl
  have hrun : Runs True ts pos false false (fun _ => true)
      (separatedItem .comma (level n).parseArgument items) := by
    refine .eat hargument fun _ => ?_
    exact runs_consume_bind rfl (fun _ => .pure rfl) (.pure rfl)
  exact (hrun.keeps hlen).consumes.2 _ _ hturn

namespace ArgumentTrees.Reads

variable {t : OperatorTree}

theorem argument (h : t.Reads ts) (hfits : t.Fits) (hclear : t.Clear rest)
    (hstop : infixPrecedence (kindAt rest 0) = .none) (hbrace : kindAt rest 0 ≠ .leftBrace)
    (hdrop : ts.drop pos = t.tokens ++ rest) (hn : ts.length < n + pos) :
    (level n).parseArgument ts pos = .ok t.expr (pos + t.tokens.length) := by
  have hhead : kindAt (ts.drop pos) 0 ≠ .dotDotDot := by
    rw [hdrop]
    exact ne_of_beginsTree (beginsTree_tokens t rest hfits) rfl
  rw [Calls.parseArgument, check_of_ne hhead]
  exact h.enclosed hfits hclear hstop hbrace hdrop hn

theorem last (h : t.Reads ts) (hfits : t.Fits) : Reads ts (.last t) := by
  intro n pos closing rest done hclear hdrop hn
  have hclose : ts.drop (pos + t.tokens.length) = ⟨.rightParen, closing⟩ :: rest :=
    drop_add_of_append hdrop
  refine loop_of_inr ?_
  rw [separatedItem, bind_of_ok (argument h hfits hclear rfl (by simp) hdrop hn),
    bind_of_ok (consume_of_ne (by simp [hclose]))]
  rfl

/-- An argument before a comma is one turn of the loop. -/
theorem turn {comma : Span} {follow : List Token} {done : List Expr}
    (h : t.Reads ts) (hfits : t.Fits) (hclear : t.Clear (⟨.comma, comma⟩ :: follow))
    (hdrop : ts.drop pos = t.tokens ++ ⟨.comma, comma⟩ :: follow) (hn : ts.length < n + pos) :
    separatedItem .comma (level n).parseArgument done ts pos =
      .ok (.inl (done ++ [t.expr])) (pos + t.tokens.length + 1) := by
  rw [separatedItem, bind_of_ok (argument h hfits hclear rfl (by simp) hdrop hn),
    bind_of_ok (consume_of_eq (drop_add_of_append hdrop))]
  rfl

theorem cons {comma : Span} {trees : ArgumentTrees} (h : t.Reads ts)
    (hfits : t.Fits) (hrest : trees.Reads ts) : Reads ts (.cons t comma trees) := by
  intro n pos closing rest done hclear hdrop hn
  have hdrop' : ts.drop pos = t.tokens ++ ⟨.comma, comma⟩ ::
      (trees.tokens ++ ⟨.rightParen, closing⟩ :: rest) := by
    rw [hdrop, ArgumentTrees.tokens]
    simp
  have hcomma := drop_add_of_append hdrop'
  have hlen : pos ≤ ts.length := by
    have := lt_length_of_cons hcomma
    omega
  rw [loop_of_inl progresses_arguments hlen (turn h hfits hclear.1 hdrop' hn),
    hrest _ hclear.2 (drop_succ_of_cons hcomma) (by omega)]
  simp only [ArgumentTrees.exprs, ArgumentTrees.tokens, List.append_assoc, List.singleton_append,
    List.length_append, List.length_cons]
  refine congrArg (Outcome.ok _) ?_
  omega

end ArgumentTrees.Reads

theorem OperatorTree.Reads.call {callee : OperatorTree} {opening closing : Span}
    {trees : ArgumentTrees} (h : callee.Reads ts)
    (hstrength : Precedence.call.rank ≤ callee.strength.rank) (harguments : trees.Reads ts)
    (hfits : trees.Fits) : Reads ts (.call callee opening trees closing) := by
  intro n pos rest p hp hp' hclear _ hdrop hn
  have hdrop' : ts.drop pos = callee.tokens ++
      ⟨.leftParen, opening⟩ :: (trees.tokens ++ ⟨.rightParen, closing⟩ :: rest) := by
    rw [hdrop, OperatorTree.tokens]
    simp
  have hat := drop_add_of_append hdrop'
  have hkind : kindAt (ts.drop (pos + callee.tokens.length)) 0 = .leftParen := by rw [hat]; rfl
  have hfirst := drop_succ_of_cons hat
  have hclose := drop_add_of_append hfirst
  rw [h hp (le_trans hp' hstrength) hclear.1 ⟨hstrength, by simp⟩ hdrop' hn]
  refine loop_of_infix hp (by rw [hkind]; exact continues_of_rank (by decide) hp') ?_
  rw [hkind]
  show (level n).parseCall callee.expr ts _ = _
  have hread : unlessClosed .rightParen (separated .comma (level n).parseArgument) ts
      (pos + callee.tokens.length + 1) =
      .ok trees.exprs (pos + callee.tokens.length + 1 + trees.tokens.length) := by
    rw [unlessClosed, check_of_ne, separated, harguments [] hclear.2 hfirst (by omega)]
    · rfl
    · rw [hfirst]
      exact ne_of_beginsTree (beginsTree_arguments trees _ hfits) rfl
  rw [Calls.parseCall, bind_of_ok (advance_eq hat), bind_of_ok hread,
    bind_of_ok (expect_of_eq hclose)]
  refine congrArg (Outcome.ok _) ?_
  simp only [OperatorTree.tokens, List.length_append, List.length_cons, List.length_nil]
  omega

mutual
theorem OperatorTree.reads (ts : List Token) : ∀ t : OperatorTree, t.Fits → t.Reads ts
  | .name _ _, _ => .name
  | .number _ _, _ => .number
  | .grouping _ inner _, h => .grouping (inner.reads ts h) h
  | .unary _ operand, h => .unary (operand.reads ts h.2.1) h.1 h.2.2
  | .binary left _ right, h =>
    .binary (left.reads ts h.2.1) (right.reads ts h.2.2.1) h.1 h.2.2.2.1 h.2.2.2.2
  | .emptyCall callee _ _, h => .emptyCall (callee.reads ts h.1) h.2
  | .call callee _ arguments _, h =>
    .call (callee.reads ts h.1) h.2.1 (arguments.reads ts h.2.2) h.2.2
  | .index object _ position _, h =>
    .index (object.reads ts h.1) (position.reads ts h.2.2) h.2.1 h.2.2
  | .member object _ _ _, h => .member (object.reads ts h.1) h.2
theorem ArgumentTrees.reads (ts : List Token) : ∀ trees : ArgumentTrees, trees.Fits → trees.Reads ts
  | .last argument, h => .last (argument.reads ts h) h
  | .cons argument _ rest, h => .cons (argument.reads ts h.1) h.1 (rest.reads ts h.2)
end

end Neutron.Source
