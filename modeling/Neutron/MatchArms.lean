import Neutron.MatchCode

/-!
# How the code of `match` runs

An arm of the code ends the statement or goes on at the next test, and the statement runs its arms one after
the other. Three things are not as the language says: a wildcard's guard is not looked at, a value arm's
guard is evaluated whether or not the value matches, and values are compared by the emitter's comparison.
-/

namespace Neutron.Match

open BlockGraph

variable {E : Env} {x : Value} {compare : Ty → Option Comparison} {r : Bool} {m i : ℕ}
  {c : MatchCase} {b b' d : Builder Instr Condition} {s : State} {g : BlockGraph Instr Condition}

/-! ### What the code does at an arm -/

/-- The outcome of the comparison of a value arm. -/
def compared (E : Env) (x : Value) (compare : Ty → Option Comparison) (v : Literal) : Bool :=
  match compare v.ty with
  | some how => how.apply E x v
  | none => false

def codeAttempt (E : Env) (x : Value) (compare : Ty → Option Comparison) (i : ℕ) (c : MatchCase) : Tried :=
  match c.head with
  | .wildcard => ⟨false, true⟩
  | .value v =>
    if c.guarded then ⟨true, compared E x compare v && E.guard i none⟩
    else ⟨false, compared E x compare v⟩
  | .variant _ _ => attempt E x i c

/-! ### The blocks an arm leaves alone -/

theorem builds_emitTest {caseBb nextBb : ℕ} (h : emitTest compare i c caseBb nextBb b = some b')
    (hd : Builds d b) : Builds d b' ∧ b'.current = b.current ∧ b'.graph.length = b.graph.length := by
  rw [emitTest] at h
  cases hhead : c.head with
  | wildcard =>
    rw [hhead] at h
    obtain rfl := Option.some.inj h
    exact ⟨hd.push _, rfl, Builder.length_push _⟩
  | variant isOk binds =>
    rw [hhead] at h
    obtain rfl := Option.some.inj h
    exact ⟨(hd.push _).push _, rfl, (Builder.length_push _).trans (Builder.length_push _)⟩
  | value v =>
    rw [hhead] at h
    obtain ⟨how, -, rfl⟩ := Option.map_eq_some_iff.mp h
    cases c.guarded with
    | false => exact ⟨(hd.push _).push _, rfl, (Builder.length_push _).trans (Builder.length_push _)⟩
    | true =>
      refine ⟨(((hd.push _).push _).push _).push _, rfl, ?_⟩
      exact (Builder.length_push _).trans ((Builder.length_push _).trans ((Builder.length_push _).trans
        (Builder.length_push _)))

theorem builds_emitArmGuard (binds : Bool) (nextBb : ℕ) (hd : Builds d b) :
    Builds d (emitArmGuard i binds nextBb b) := by
  have hle := hd.within.length_le
  refine (((hd.push (.instr (.guard i binds))).append).push _).position ?_ ?_
  · rw [Builder.length_push]
    exact hle
  · exact Nat.lt_of_lt_of_eq (Nat.lt_succ_self _)
      ((Builder.length_push _).trans (Builder.length_append ..)).symm

theorem builds_emitPrelude (nextBb : ℕ) (hd : Builds d b) : Builds d (emitPrelude i c nextBb b) := by
  rw [emitPrelude]
  cases c.head with
  | wildcard => exact hd
  | value v => exact hd
  | variant isOk binds =>
    have hbound : Builds d (if binds then b.push (.instr (.bind isOk)) else b) := by
      cases binds with
      | false => exact hd
      | true => exact hd.push _
    cases c.guarded with
    | false => exact hbound
    | true => exact builds_emitArmGuard binds nextBb hbound

theorem builds_emitBody (i : Instr) (returns : Bool) (hd : Builds d b) : Builds d (emitBody i returns b) := by
  cases returns with
  | false => exact hd.push _
  | true => exact (hd.push _).push _

theorem builds_branchToMerge (hd : Builds d b) : Builds d (branchToMerge r m b) := by
  rw [branchToMerge]
  split
  · exact hd
  · cases r with
    | false => exact hd.push _
    | true => exact (hd.push _).push _

/-! ### Runs -/

/-- A run that ends with the statement: in the merge block, or at a return. -/
def Ends (E : Env) (x : Value) (g : BlockGraph Instr Condition) (start : Pos × State) (m : ℕ)
    (returns : Bool) (s : State) : Prop :=
  if returns then ∃ p, g.Runs (sem E x) start (p, s) ∧ g.at? p = some .ret
  else g.Runs (sem E x) start (⟨m, 0⟩, s)

theorem Ends.after {start middle : Pos × State} {returns : Bool} (h : g.Runs (sem E x) start middle)
    (h' : Ends E x g middle m returns s) : Ends E x g start m returns s := by
  cases returns with
  | false => exact h.trans h'
  | true =>
    obtain ⟨p, hrun, hret⟩ := h'
    exact ⟨p, h.trans hrun, hret⟩

/-- A body and the way from it to the merge block. -/
theorem emitBody_ends {body : Instr} {returns : Bool} {s' : State} (hb : b.Placed)
    (hbody : exec E x body s = some s')
    (hg : (branchToMerge r m (emitBody body returns b)).graph.Within g) :
    Ends E x g (b.here, s) m returns s' := by
  have hpushed := Builder.placed_push hb (.instr body)
  have hfirst := fun hg => Builder.runs_instr (S := sem E x) (g := g) hb hbody hg
  cases returns with
  | true =>
    have hterminated : (emitBody body true b).terminated = true := Builder.terminated_push hpushed .ret
    rw [branchToMerge, if_pos hterminated] at hg
    have hwithin := Builder.within_push hpushed .ret
    exact ⟨_, hfirst (hwithin.trans hg), Builder.at?_push hpushed hg⟩
  | false =>
    have hopen : ¬ (emitBody body false b).terminated = true := by
      have : (emitBody body false b).terminated = false := Builder.terminated_push hb (.instr body)
      rw [this]
      exact Bool.false_ne_true
    rw [branchToMerge, if_neg hopen] at hg
    cases r with
    | false =>
      have hwithin := Builder.within_push hpushed (.br m)
      exact (hfirst (hwithin.trans hg)).trans (Builder.runs_br hpushed hg)
    | true =>
      have hreleased := Builder.placed_push hpushed (.instr .release)
      have hbranch := Builder.within_push hreleased (.br m)
      have hwithin := Builder.within_push hpushed (.instr .release)
      have hsecond := Builder.runs_instr (S := sem E x) (g := g) (s := s') (t := s') hpushed
        (i := .release) rfl (hbranch.trans hg)
      exact (hfirst (hwithin.trans (hbranch.trans hg))).trans (hsecond.trans (Builder.runs_br hreleased hg))

/-- The test of a value arm: its guard is evaluated, the branch goes to the body when both hold. -/
theorem emitTest_value_runs {caseBb nextBb : ℕ} {v : Literal} (hb : b.Placed) (hhead : c.head = .value v)
    (h : emitTest compare i c caseBb nextBb b = some b') (hs : s.scrutinee = some x) (hg : b'.graph.Within g) :
    ∃ s', s'.scrutinee = some x ∧
      s'.trace = s.trace ++ (if c.guarded then [.guard i none] else []) ∧
      g.Runs (sem E x) (b.here, s)
        (⟨if (codeAttempt E x compare i c).taken then caseBb else nextBb, 0⟩, s') := by
  rw [emitTest, hhead] at h
  obtain ⟨how, hhow, rfl⟩ := Option.map_eq_some_iff.mp h
  have hcompared : compared E x compare v = how.apply E x v := by rw [compared, hhow]
  have hpushed := Builder.placed_push hb (.instr (.compare how v))
  have hfirst : (sem E x).exec (.compare how v) s = some { s with matched := how.apply E x v } := by
    change exec E x (.compare how v) s = _
    rw [exec, hs]
    rfl
  cases hguarded : c.guarded with
  | false =>
    have htaken : (codeAttempt E x compare i c).taken = how.apply E x v := by
      rw [codeAttempt, hhead, hguarded, ← hcompared]
      rfl
    rw [hguarded] at hg
    change ((b.push (.instr (.compare how v))).push (.condBr .matched caseBb nextBb)).graph.Within g at hg
    have hwithin := Builder.within_push hpushed (.condBr .matched caseBb nextBb)
    refine ⟨{ s with matched := how.apply E x v }, hs, (List.append_nil _).symm, ?_⟩
    rw [htaken]
    exact (Builder.runs_instr hb hfirst (hwithin.trans hg)).trans (Builder.runs_condBr hpushed rfl hg)
  | true =>
    have htaken : (codeAttempt E x compare i c).taken = (how.apply E x v && E.guard i none) := by
      rw [codeAttempt, hhead, hguarded, ← hcompared]
      rfl
    rw [hguarded] at hg
    change ((((b.push (.instr (.compare how v))).push (.instr (.guard i false))).push (.instr .and)).push
      (.condBr .matched caseBb nextBb)).graph.Within g at hg
    have hguard := Builder.placed_push hpushed (.instr (.guard i false))
    have hand := Builder.placed_push hguard (.instr .and)
    have hlast := Builder.within_push hand (.condBr .matched caseBb nextBb)
    have hthird := Builder.within_push hguard (.instr .and)
    have hsecond := Builder.within_push hpushed (.instr (.guard i false))
    refine ⟨{ s with
      matched := how.apply E x v && E.guard i none
      guard := E.guard i none
      trace := s.trace ++ [.guard i none] }, hs, rfl, ?_⟩
    rw [htaken]
    have hrun1 := Builder.runs_instr hb hfirst (hsecond.trans (hthird.trans (hlast.trans hg)))
    have hrun2 := Builder.runs_instr (S := sem E x) (s := { s with matched := how.apply E x v }) hpushed
      (i := .guard i false) rfl (hthird.trans (hlast.trans hg))
    have hrun3 := Builder.runs_instr (S := sem E x) hguard (i := .and) (s := { s with
      matched := how.apply E x v
      guard := E.guard i none
      trace := s.trace ++ [.guard i none] }) rfl (hlast.trans hg)
    exact hrun1.trans (hrun2.trans (hrun3.trans (Builder.runs_condBr hand rfl hg)))

/-- The test of a variant arm. -/
theorem emitTest_variant_runs {caseBb nextBb : ℕ} {isOk binds ok : Bool} {address payload : BitVec 64}
    (hb : b.Placed) (hhead : c.head = .variant isOk binds)
    (h : emitTest compare i c caseBb nextBb b = some b')
    (hs : s.scrutinee = some (.result address ok payload)) (hg : b'.graph.Within g) :
    ∃ s', s'.scrutinee = some (.result address ok payload) ∧ s'.trace = s.trace ∧
      g.Runs (sem E x) (b.here, s) (⟨if ok = isOk then caseBb else nextBb, 0⟩, s') := by
  rw [emitTest, hhead] at h
  obtain rfl := Option.some.inj h
  have hpushed := Builder.placed_push hb (.instr (.tag isOk))
  have hwithin := Builder.within_push hpushed (.condBr .matched caseBb nextBb)
  have htag : (sem E x).exec (.tag isOk) s = some { s with matched := ok = isOk } := by
    change exec E x (.tag isOk) s = _
    rw [exec, hs]
  refine ⟨{ s with matched := ok = isOk }, hs, rfl, ?_⟩
  have hbranch := Builder.runs_condBr (S := sem E x) (v := decide (ok = isOk)) hpushed
    (k := .matched) (s := { s with matched := ok = isOk }) rfl hg
  have hrun := (Builder.runs_instr hb htag (hwithin.trans hg)).trans hbranch
  have hsame : (if decide (ok = isOk) = true then caseBb else nextBb) = if ok = isOk then caseBb else nextBb := by
    simp only [decide_eq_true_iff]
  rwa [hsame] at hrun

/-- The guard inside a variant arm goes on in a block of its own or at the next test. -/
theorem emitArmGuard_runs {binds : Bool} {nextBb : ℕ} (hb : b.Placed)
    (hg : (emitArmGuard i binds nextBb b).graph.Within g) :
    ∃ s', s'.scrutinee = s.scrutinee ∧ s'.binder = s.binder ∧
      s'.trace = s.trace ++ [.guard i (s.seen binds)] ∧ g.Runs (sem E x) (b.here, s)
        (if E.guard i (s.seen binds) then (emitArmGuard i binds nextBb b).here else ⟨nextBb, 0⟩, s') := by
  have hguard := Builder.placed_push hb (.instr (.guard i binds))
  have happended := Builder.placed_append hguard
  have hlast := Builder.within_push happended
    (.condBr .guard (b.push (.instr (.guard i binds))).graph.length nextBb)
  have hwithin := (Builder.within_append (b := b.push (.instr (.guard i binds)))).trans hlast
  have hempty : ((b.push (.instr (.guard i binds))).appendBasicBlock.1.push
      (.condBr .guard (b.push (.instr (.guard i binds))).graph.length nextBb)).block
        (b.push (.instr (.guard i binds))).graph.length = [] := by
    have hne : ¬ (b.push (.instr (.guard i binds))).graph.length = b.current := by
      have : (b.push (.instr (.guard i binds))).graph.length = b.graph.length := Builder.length_push _
      have hlt : b.current < b.graph.length := hb
      omega
    exact (Builder.block_push happended _ _).trans ((if_neg hne).trans Builder.block_new)
  have hend : (emitArmGuard i binds nextBb b).here = ⟨(b.push (.instr (.guard i binds))).graph.length, 0⟩ :=
    Builder.here_position hempty
  refine ⟨{ s with
    guard := E.guard i (s.seen binds)
    trace := s.trace ++ [.guard i (s.seen binds)] }, rfl, rfl, rfl, ?_⟩
  have hfirst := Builder.runs_instr (S := sem E x) (g := g) (s := s) hb (i := .guard i binds) rfl
    (hwithin.trans hg)
  have hbranch := Builder.runs_condBr (S := sem E x) (g := g) happended (k := .guard) (s := { s with
    guard := E.guard i (s.seen binds)
    trace := s.trace ++ [.guard i (s.seen binds)] }) rfl hg
  rw [Builder.here_append] at hbranch
  have hrun := hfirst.trans hbranch
  rw [hend]
  cases hv : E.guard i (s.seen binds) with
  | false =>
    rw [hv] at hrun
    exact hrun
  | true =>
    rw [hv] at hrun
    exact hrun

/-- What an arm of the code does: its events, and then it ends the statement or goes on at the next test. -/
def ArmRuns (E : Env) (x : Value) (g : BlockGraph Instr Condition) (start : Pos × State) (m i : ℕ)
    (c : MatchCase) (t : Tried) (next : Pos) : Prop :=
  ∃ s', s'.scrutinee = some x ∧ s'.trace = start.2.trace ++ t.events i (c.head.binder x) ∧
    if t.taken then Ends E x g start m c.returns s' else g.Runs (sem E x) start (next, s')

theorem ArmRuns.after {start middle : Pos × State} {t : Tried} {next : Pos}
    (h : g.Runs (sem E x) start middle) (htrace : middle.2.trace = start.2.trace)
    (h' : ArmRuns E x g middle m i c t next) : ArmRuns E x g start m i c t next := by
  obtain ⟨s', hs, hevents, hend⟩ := h'
  refine ⟨s', hs, by rw [hevents, htrace], ?_⟩
  cases ht : t.taken with
  | false =>
    rw [ht] at hend
    exact h.trans hend
  | true =>
    rw [ht] at hend
    exact Ends.after h hend

theorem emitArm_eq : emitArm compare r m i c b =
    (emitTest compare i c b.graph.length (b.graph.length + 1) b.appendBasicBlock.1.appendBasicBlock.1).map
      fun tested => (branchToMerge r m (emitBody (.body i c.binds) c.returns
        (emitPrelude i c (b.graph.length + 1) (tested.positionAtEnd b.graph.length)))).positionAtEnd
          (b.graph.length + 1) := by
  have hsecond : b.appendBasicBlock.1.appendBasicBlock.2 = b.graph.length + 1 := Builder.length_append ..
  rw [← hsecond]
  rfl

/-- The parts of an arm: its test, its body in the first new block, the next test in the second. -/
structure ArmParts (compare : Ty → Option Comparison) (r : Bool) (m i : ℕ) (c : MatchCase)
    (b b' tested : Builder Instr Condition) : Prop where
  test : emitTest compare i c b.graph.length (b.graph.length + 1)
    b.appendBasicBlock.1.appendBasicBlock.1 = some tested
  testPlaced : b.appendBasicBlock.1.appendBasicBlock.1.Placed
  testHere : b.appendBasicBlock.1.appendBasicBlock.1.here = b.here
  testWithin : tested.graph.Within b'.graph
  bodyPlaced : (tested.positionAtEnd b.graph.length).Placed
  bodyHere : (tested.positionAtEnd b.graph.length).here = ⟨b.graph.length, 0⟩
  bodyWithin : (branchToMerge r m (emitBody (.body i c.binds) c.returns
    (emitPrelude i c (b.graph.length + 1) (tested.positionAtEnd b.graph.length)))).graph.Within b'.graph
  next : b'.here = ⟨b.graph.length + 1, 0⟩
  builds : Builds b b'

theorem emitArm_parts (hb : b.Placed) (h : emitArm compare r m i c b = some b') :
    ∃ tested, ArmParts compare r m i c b b' tested := by
  have happended := (Builds.refl hb).append.append
  have hcount : b.appendBasicBlock.1.appendBasicBlock.1.graph.length = b.graph.length + 1 + 1 :=
    (Builder.length_append ..).trans (congrArg (· + 1) (Builder.length_append ..))
  rw [emitArm_eq] at h
  obtain ⟨tested, htest, rfl⟩ := Option.map_eq_some_iff.mp h
  obtain ⟨hbuilds, -, hlength⟩ := builds_emitTest htest happended
  obtain ⟨hsteps, -, -⟩ := builds_emitTest htest (Builds.refl happended.placed)
  have hlt : b.current < b.graph.length := hb
  -- both new blocks are still empty behind the test
  have hnew : ∀ n, b.graph.length ≤ n → n < b.graph.length + 1 + 1 → tested.block n = [] := by
    intro n hn hn'
    have hne : n ≠ b.appendBasicBlock.1.appendBasicBlock.1.current := by
      change n ≠ b.current
      omega
    rw [hsteps.frame n (by omega) hne, Builder.block_append, Builder.block_append, Builder.block_of_ge hn]
  have hplaced : (tested.positionAtEnd b.graph.length).Placed := by
    change b.graph.length < tested.graph.length
    omega
  have harm : ∀ {d : Builder Instr Condition}, Builds d (tested.positionAtEnd b.graph.length) →
      Builds d (branchToMerge r m (emitBody (.body i c.binds) c.returns
        (emitPrelude i c (b.graph.length + 1) (tested.positionAtEnd b.graph.length)))) :=
    fun hd => builds_branchToMerge (builds_emitBody _ _ (builds_emitPrelude _ hd))
  have hown := harm (Builds.refl hplaced)
  have hgrown := hown.within.length_le
  change tested.graph.length ≤ _ at hgrown
  have hnext := hown.frame (b.graph.length + 1) (by
    change b.graph.length + 1 < tested.graph.length
    omega) (Nat.succ_ne_self _)
  exact ⟨tested, {
    test := htest
    testPlaced := happended.placed
    testHere := Builder.here_append.trans Builder.here_append
    testWithin := hown.within
    bodyPlaced := hplaced
    bodyHere := Builder.here_position (hnew _ (Nat.le_refl _) (by omega))
    bodyWithin := .refl _
    next := Builder.here_position (hnext.trans (hnew _ (Nat.le_succ _) (by omega)))
    builds := (harm (hbuilds.position (Nat.le_refl _) (by omega))).position (Nat.le_succ _)
      (Nat.lt_of_lt_of_le (by omega) hgrown) }⟩

/-- A variant arm binds the payload and evaluates its guard with it. -/
theorem emitPrelude_runs {isOk binds : Bool} {address payload : BitVec 64} {nextBb : ℕ} (hb : b.Placed)
    (hhead : c.head = .variant isOk binds) (hs : s.scrutinee = some (.result address isOk payload))
    (hg : (emitPrelude i c nextBb b).graph.Within g) :
    ∃ s', s'.scrutinee = s.scrutinee ∧ s'.seen binds = c.head.binder (.result address isOk payload) ∧
      s'.trace = s.trace ++
        (if c.guarded then [.guard i (c.head.binder (.result address isOk payload))] else []) ∧
      g.Runs (sem E x) (b.here, s)
        (if c.guarded && !E.guard i (c.head.binder (.result address isOk payload)) then ⟨nextBb, 0⟩
          else (emitPrelude i c nextBb b).here, s') := by
  rw [emitPrelude, hhead] at hg
  obtain ⟨bound, hbound⟩ : ∃ bound, bound = if binds then b.push (.instr (.bind isOk)) else b := ⟨_, rfl⟩
  -- the binder is in place
  have hbind : bound.Placed ∧ ∀ g, bound.graph.Within g → ∃ s1, s1.scrutinee = s.scrutinee ∧
      s1.seen binds = c.head.binder (.result address isOk payload) ∧ s1.trace = s.trace ∧
      g.Runs (sem E x) (b.here, s) (bound.here, s1) := by
    rw [hbound, hhead]
    cases binds with
    | false => exact ⟨hb, fun g _ => ⟨s, rfl, rfl, rfl, Relation.ReflTransGen.refl⟩⟩
    | true =>
      have hexec : (sem E x).exec (.bind isOk) s = some { s with binder := some payload } := by
        change exec E x (.bind isOk) s = _
        rw [exec, hs]
        exact if_pos rfl
      exact ⟨Builder.placed_push hb _, fun g hg =>
        ⟨{ s with binder := some payload }, rfl, rfl, rfl, Builder.runs_instr hb hexec hg⟩⟩
  obtain ⟨hplaced, hruns⟩ := hbind
  have hshape : emitPrelude i c nextBb b = if c.guarded then emitArmGuard i binds nextBb bound else bound := by
    rw [emitPrelude, hhead, hbound]
  rw [hshape]
  cases hguarded : c.guarded with
  | false =>
    rw [hguarded] at hg
    obtain ⟨s1, hscrutinee, hseen, htrace, hrun⟩ := hruns g (hbound ▸ hg)
    exact ⟨s1, hscrutinee, hseen, by rw [htrace]; exact (List.append_nil _).symm, hrun⟩
  | true =>
    rw [hguarded] at hg
    have hg' : (emitArmGuard i binds nextBb bound).graph.Within g := hbound ▸ hg
    have hwithin := (builds_emitArmGuard (i := i) binds nextBb (Builds.refl hplaced)).within
    obtain ⟨s1, hscrutinee, hseen, htrace, hrun⟩ := hruns g (hwithin.trans hg')
    obtain ⟨s2, hscrutinee', hbinder, htrace', hrun'⟩ :=
      emitArmGuard_runs (E := E) (x := x) (s := s1) hplaced hg'
    rw [hseen] at htrace' hrun'
    refine ⟨s2, hscrutinee'.trans hscrutinee, ?_, by rw [htrace', htrace]; rfl, hrun.trans ?_⟩
    · rw [← hseen, State.seen, State.seen, hbinder]
    · cases hv : E.guard i (c.head.binder (.result address isOk payload)) with
      | false =>
        rw [hv] at hrun'
        exact hrun'
      | true =>
        rw [hv] at hrun'
        exact hrun'

/-- The body of an arm, from the place behind its prelude. -/
theorem body_ends (hb : b.Placed) (hseen : s.seen c.binds = c.head.binder x)
    (hs : s.scrutinee = some x)
    (hg : (branchToMerge r m (emitBody (.body i c.binds) c.returns b)).graph.Within g) :
    ∃ s', s'.scrutinee = some x ∧ s'.trace = s.trace ++ [.body i (c.head.binder x)] ∧
      Ends E x g (b.here, s) m c.returns s' := by
  have hbody : exec E x (.body i c.binds) s = some (s.log (.body i (s.seen c.binds))) := rfl
  refine ⟨s.log (.body i (s.seen c.binds)), hs, ?_, emitBody_ends hb hbody hg⟩
  rw [hseen]
  rfl

theorem binder_value {v : Literal} (h : c.head = .value v) : c.head.binder x = none := by
  rw [h]
  rfl

theorem seen_none (hbinds : c.binds = false) (hbinder : c.head.binder x = none) :
    s.seen c.binds = c.head.binder x := by
  rw [hbinds, hbinder]
  rfl

/-- An arm of the code does what `codeAttempt` says. -/
theorem emitArm_runs (hb : b.Placed) (h : emitArm compare r m i c b = some b')
    (hs : s.scrutinee = some x) (hvariant : c.isVariant = true → x.ty = .result) (hg : b'.graph.Within g) :
    ArmRuns E x g (b.here, s) m i c (codeAttempt E x compare i c) b'.here := by
  obtain ⟨tested, hparts⟩ := emitArm_parts hb h
  rw [hparts.next]
  cases hhead : c.head with
  | wildcard =>
    have htest := hparts.test
    rw [emitTest, hhead] at htest
    have hwithin := hparts.testWithin.trans hg
    have hbinder : c.head.binder x = none := by
      rw [hhead]
      rfl
    have hbinds : c.binds = false := by rw [MatchCase.binds, hhead]
    have hprelude : emitPrelude i c (b.graph.length + 1) (tested.positionAtEnd b.graph.length) =
        tested.positionAtEnd b.graph.length := by rw [emitPrelude, hhead]
    have hbody := hparts.bodyWithin.trans hg
    rw [hprelude] at hbody
    rw [← Option.some.inj htest] at hwithin
    have hrun := Builder.runs_br (S := sem E x) (s := s) hparts.testPlaced hwithin
    rw [hparts.testHere] at hrun
    obtain ⟨s', hs', htrace, hend⟩ := body_ends (E := E) (s := s) hparts.bodyPlaced
      (seen_none hbinds hbinder) hs hbody
    rw [hparts.bodyHere] at hend
    have htried : codeAttempt E x compare i c = ⟨false, true⟩ := by rw [codeAttempt, hhead]
    rw [htried]
    exact ⟨s', hs', htrace, Ends.after hrun hend⟩
  | value v =>
    obtain ⟨s1, hs1, htrace1, hrun⟩ := emitTest_value_runs (E := E) (s := s) hparts.testPlaced hhead
      hparts.test hs (hparts.testWithin.trans hg)
    rw [hparts.testHere] at hrun
    have hbinder := binder_value (x := x) hhead
    have hbinds : c.binds = false := by rw [MatchCase.binds, hhead]
    have hguard : (codeAttempt E x compare i c).guard = c.guarded := by
      rw [codeAttempt, hhead]
      cases c.guarded with
      | false => rfl
      | true => rfl
    rw [ArmRuns, Tried.events, hguard, hbinder]
    cases htaken : (codeAttempt E x compare i c).taken with
    | false =>
      rw [htaken] at hrun
      refine ⟨s1, hs1, ?_, hrun⟩
      rw [htrace1, if_neg Bool.false_ne_true, List.append_nil]
    | true =>
      rw [htaken] at hrun
      have hprelude : emitPrelude i c (b.graph.length + 1) (tested.positionAtEnd b.graph.length) =
          tested.positionAtEnd b.graph.length := by rw [emitPrelude, hhead]
      have hbody := hparts.bodyWithin.trans hg
      rw [hprelude] at hbody
      obtain ⟨s', hs', htrace, hend⟩ := body_ends (E := E) (s := s1) hparts.bodyPlaced
        (seen_none hbinds hbinder) hs1 hbody
      rw [hparts.bodyHere] at hend
      refine ⟨s', hs', ?_, Ends.after hrun hend⟩
      rw [htrace, htrace1, hbinder, if_pos rfl, List.append_assoc]
  | variant isOk binds =>
    have hresult := hvariant (by rw [MatchCase.isVariant, hhead])
    have hbinds : c.binds = binds := by rw [MatchCase.binds, hhead]
    have htried : codeAttempt E x compare i c = attempt E x i c := by rw [codeAttempt, hhead]
    rw [htried]
    cases x with
    | literal v => cases v <;> cases hresult
    | result address ok payload =>
      obtain ⟨s1, hs1, htrace1, hrun⟩ := emitTest_variant_runs (E := E) (x := .result address ok payload)
        hparts.testPlaced hhead hparts.test hs (hparts.testWithin.trans hg)
      rw [hparts.testHere] at hrun
      by_cases hok : ok = isOk
      · subst hok
        have haccepts : c.head.accepts E (.result address ok payload) = true := by
          rw [hhead, Head.accepts]
          exact decide_eq_true rfl
        rw [if_pos rfl] at hrun
        refine ArmRuns.after hrun htrace1 ?_
        have hpreludeBuilds := builds_emitPrelude (i := i) (c := c) (b.graph.length + 1)
          (Builds.refl hparts.bodyPlaced)
        have hbodyBuilds := (builds_branchToMerge (r := r) (m := m)
          (builds_emitBody (.body i c.binds) c.returns (Builds.refl hpreludeBuilds.placed))).within
        obtain ⟨s2, hs2, hseen, htrace2, hrun2⟩ := emitPrelude_runs (E := E)
          (x := .result address ok payload) (s := s1) (i := i) hparts.bodyPlaced hhead hs1
          (hbodyBuilds.trans (hparts.bodyWithin.trans hg))
        rw [hparts.bodyHere] at hrun2
        rw [attempt, if_pos haccepts]
        have hfinal := body_ends (E := E) (x := .result address ok payload) (s := s2)
          hpreludeBuilds.placed (by rw [hbinds]; exact hseen) (hs2.trans hs1)
          (hparts.bodyWithin.trans hg)
        cases hguarded : c.guarded with
        | false =>
          rw [hguarded] at htrace2 hrun2
          obtain ⟨s', hs', htrace, hend⟩ := hfinal
          refine ⟨s', hs', ?_, Ends.after hrun2 hend⟩
          rw [htrace, htrace2]
          simp [Tried.events]
        | true =>
          rw [hguarded] at htrace2 hrun2
          cases hv : E.guard i (c.head.binder (.result address ok payload)) with
          | false =>
            rw [hv] at hrun2
            exact ⟨s2, hs2.trans hs1, by rw [htrace2]; rfl, hrun2⟩
          | true =>
            rw [hv] at hrun2
            obtain ⟨s', hs', htrace, hend⟩ := hfinal
            refine ⟨s', hs', ?_, Ends.after hrun2 hend⟩
            rw [htrace, htrace2]
            simp [Tried.events]
      · have hrejects : ¬ c.head.accepts E (.result address ok payload) = true := by
          rw [hhead, Head.accepts, decide_eq_true_iff]
          exact hok
        rw [if_neg hok] at hrun
        rw [attempt, if_neg hrejects]
        exact ⟨s1, hs1, by rw [htrace1]; exact (List.append_nil _).symm, hrun⟩

/-! ### The statement -/

variable {cases : List MatchCase}

theorem builds_emitArms (hb : b.Placed) (h : emitArms compare r m i cases b = some b') : Builds b b' := by
  induction cases generalizing i b with
  | nil =>
    obtain rfl := Option.some.inj h
    exact .refl hb
  | cons c rest ih =>
    obtain ⟨b1, hfirst, hrest⟩ := Option.bind_eq_some_iff.mp h
    obtain ⟨tested, hparts⟩ := emitArm_parts hb hfirst
    exact hparts.builds.trans (ih hparts.builds.placed hrest)

/-- The arms do what `codeAttempt` says, one after the other. -/
theorem emitArms_runs (hb : b.Placed) (h : emitArms compare r m i cases b = some b') (hs : s.scrutinee = some x)
    (hvariant : ∀ c ∈ cases, c.isVariant = true → x.ty = .result) (hg : b'.graph.Within g) :
    ∃ s', s'.trace = s.trace ++ (tryArms (codeAttempt E x compare) x i cases).1 ∧
      match (tryArms (codeAttempt E x compare) x i cases).2 with
      | some returns => Ends E x g (b.here, s) m returns s'
      | none => g.Runs (sem E x) (b.here, s) (b'.here, s') := by
  induction cases generalizing i b s with
  | nil =>
    obtain rfl := Option.some.inj h
    exact ⟨s, (List.append_nil _).symm, Relation.ReflTransGen.refl⟩
  | cons c rest ih =>
    obtain ⟨b1, hfirst, hrest⟩ := Option.bind_eq_some_iff.mp h
    obtain ⟨tested, hparts⟩ := emitArm_parts hb hfirst
    have hlater := builds_emitArms hparts.builds.placed hrest
    obtain ⟨s1, hs1, htrace1, hend1⟩ := emitArm_runs (E := E) hb hfirst hs
      (hvariant c (List.mem_cons_self ..)) (hlater.within.trans hg)
    rw [tryArms]
    cases htaken : (codeAttempt E x compare i c).taken with
    | true =>
      rw [htaken] at hend1
      exact ⟨s1, htrace1, hend1⟩
    | false =>
      rw [htaken] at hend1
      obtain ⟨s2, htrace2, hend2⟩ := ih hparts.builds.placed hrest hs1
        (fun c' hc' => hvariant c' (List.mem_cons_of_mem _ hc'))
      refine ⟨s2, by rw [htrace2, htrace1]; exact List.append_assoc .., ?_⟩
      rw [if_neg Bool.false_ne_true]
      cases hlast : (tryArms (codeAttempt E x compare) x (i + 1) rest).2 with
      | some returns =>
        rw [hlast] at hend2
        exact Ends.after hend1 hend2
      | none =>
        rw [hlast] at hend2
        exact hend1.trans hend2

/-- Between two arms the block is open. -/
theorem terminated_emitArms (hb : b.Placed) (hopen : b.terminated = false)
    (h : emitArms compare r m i cases b = some b') : b'.terminated = false := by
  induction cases generalizing i b with
  | nil =>
    obtain rfl := Option.some.inj h
    exact hopen
  | cons c rest ih =>
    obtain ⟨b1, hfirst, hrest⟩ := Option.bind_eq_some_iff.mp h
    obtain ⟨tested, hparts⟩ := emitArm_parts hb hfirst
    refine ih hparts.builds.placed ?_ hrest
    have hempty : (b1.block b1.current).length = 0 := congrArg Pos.offset hparts.next
    rw [Builder.terminated, List.length_eq_zero_iff.mp hempty]
    rfl

theorem branchToMerge_runs (hb : b.Placed) (hopen : b.terminated = false)
    (hg : (branchToMerge r m b).graph.Within g) : g.Runs (sem E x) (b.here, s) (⟨m, 0⟩, s) := by
  rw [branchToMerge, if_neg (by rw [hopen]; exact Bool.false_ne_true)] at hg
  cases r with
  | false => exact Builder.runs_br hb hg
  | true =>
    have hreleased := Builder.placed_push hb (.instr .release)
    have hbranch := Builder.within_push hreleased (.br m)
    have hfirst := Builder.runs_instr (S := sem E x) (g := g) (s := s) (t := s) hb (i := .release) rfl
      (hbranch.trans hg)
    exact hfirst.trans (Builder.runs_br hreleased hg)

theorem builds_emitCases {default : Option Bool} (hb : b.Placed)
    (h : emitCases compare r cases default b = some b') : Builds b b' := by
  obtain ⟨b1, harms, rfl⟩ := Option.map_eq_some_iff.mp h
  have happended := (Builds.refl hb).append
  have hbuilds := builds_emitArms happended.placed harms
  have hgrown := hbuilds.within.length_le
  rw [Builder.length_append] at hgrown
  cases default with
  | none =>
    have hlast := (builds_branchToMerge (r := r) (m := b.graph.length) (Builds.refl hbuilds.placed)).within.length_le
    exact (happended.trans (builds_branchToMerge hbuilds)).position (Nat.le_refl _)
      (Nat.lt_of_lt_of_le hgrown hlast)
  | some returns =>
    have hlast := (builds_branchToMerge (r := r) (m := b.graph.length)
      (builds_emitBody .default returns (Builds.refl hbuilds.placed))).within.length_le
    exact (happended.trans (builds_branchToMerge (builds_emitBody .default returns hbuilds))).position
      (Nat.le_refl _) (Nat.lt_of_lt_of_le hgrown hlast)

/-- What a match statement of the code does. -/
theorem emitCases_runs {default : Option Bool} (hb : b.Placed)
    (hopen : b.terminated = false) (h : emitCases compare r cases default b = some b')
    (hs : s.scrutinee = some x) (hvariant : ∀ c ∈ cases, c.isVariant = true → x.ty = .result)
    (hg : b'.graph.Within g) :
    ∃ s', s'.trace = s.trace ++ (orDefault default (tryArms (codeAttempt E x compare) x 0 cases)).1 ∧
      b'.here = ⟨b.graph.length, 0⟩ ∧ Ends E x g (b.here, s) b.graph.length
        (orDefault default (tryArms (codeAttempt E x compare) x 0 cases)).2 s' := by
  obtain ⟨b1, harms, rfl⟩ := Option.map_eq_some_iff.mp h
  have happended := (Builds.refl hb).append
  have hbuilds := builds_emitArms happended.placed harms
  have hopen1 : b1.terminated = false := by
    refine terminated_emitArms happended.placed ?_ harms
    rw [Builder.terminated, Builder.block_append]
    exact hopen
  have hstart : b.appendBasicBlock.1.here = b.here := Builder.here_append
  have hlt : b.current < b.graph.length := hb
  -- the merge block is empty at the end
  have hmerge : ∀ {b2 : Builder Instr Condition}, Builds b.appendBasicBlock.1 b2 →
      (b2.positionAtEnd b.graph.length).here = ⟨b.graph.length, 0⟩ := by
    intro b2 hb2
    refine Builder.here_position ?_
    have hne : b.graph.length ≠ b.appendBasicBlock.1.current := by
      change b.graph.length ≠ b.current
      omega
    rw [hb2.frame _ (by rw [Builder.length_append]; exact Nat.lt_succ_self _) hne, Builder.block_new]
  cases default with
  | none =>
    have hlast := builds_branchToMerge (r := r) (m := b.graph.length) (Builds.refl hbuilds.placed)
    obtain ⟨s1, htrace, hend⟩ := emitArms_runs (E := E) happended.placed harms hs hvariant
      (hlast.within.trans hg)
    rw [hstart] at hend
    cases hlastArm : (tryArms (codeAttempt E x compare) x 0 cases).2 with
    | some returns =>
      rw [hlastArm] at hend
      have hshape : orDefault none (tryArms (codeAttempt E x compare) x 0 cases) =
          ((tryArms (codeAttempt E x compare) x 0 cases).1, returns) := by
        rw [← Prod.mk.eta (p := tryArms (codeAttempt E x compare) x 0 cases), hlastArm]
        rfl
      rw [hshape]
      exact ⟨s1, htrace, hmerge (hbuilds.trans hlast), hend⟩
    | none =>
      rw [hlastArm] at hend
      have hshape : orDefault none (tryArms (codeAttempt E x compare) x 0 cases) =
          ((tryArms (codeAttempt E x compare) x 0 cases).1, false) := by
        rw [← Prod.mk.eta (p := tryArms (codeAttempt E x compare) x 0 cases), hlastArm]
        rfl
      rw [hshape]
      exact ⟨s1, htrace, hmerge (hbuilds.trans hlast), hend.trans (branchToMerge_runs hbuilds.placed hopen1 hg)⟩
  | some returns =>
    have hlast := builds_branchToMerge (r := r) (m := b.graph.length)
      (builds_emitBody .default returns (Builds.refl hbuilds.placed))
    obtain ⟨s1, htrace, hend⟩ := emitArms_runs (E := E) happended.placed harms hs hvariant
      (hlast.within.trans hg)
    rw [hstart] at hend
    cases hlastArm : (tryArms (codeAttempt E x compare) x 0 cases).2 with
    | some returns' =>
      rw [hlastArm] at hend
      have hshape : orDefault (some returns) (tryArms (codeAttempt E x compare) x 0 cases) =
          ((tryArms (codeAttempt E x compare) x 0 cases).1, returns') := by
        rw [← Prod.mk.eta (p := tryArms (codeAttempt E x compare) x 0 cases), hlastArm]
        rfl
      rw [hshape]
      exact ⟨s1, htrace, hmerge (hbuilds.trans hlast), hend⟩
    | none =>
      rw [hlastArm] at hend
      have hshape : orDefault (some returns) (tryArms (codeAttempt E x compare) x 0 cases) =
          ((tryArms (codeAttempt E x compare) x 0 cases).1 ++ [.default], returns) := by
        rw [← Prod.mk.eta (p := tryArms (codeAttempt E x compare) x 0 cases), hlastArm]
        rfl
      rw [hshape]
      have hlogged : exec E x .default s1 = some (s1.log .default) := rfl
      have hbody := emitBody_ends hbuilds.placed hlogged hg
      refine ⟨s1.log .default, ?_, hmerge (hbuilds.trans hlast), Ends.after hend hbody⟩
      change s1.trace ++ [.default] = _
      rw [htrace, List.append_assoc]

end Neutron.Match
