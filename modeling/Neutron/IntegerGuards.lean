import Neutron.IntegerCode

/-!
# The guards of integer operators

Emission leaves the blocks before it alone, and a run of emitted code is known by where it ends: at the end
of the code, or at the handler with a message pending. A guard does the first or the second by its
condition.
-/

namespace Neutron.Integers

variable {c c' c'' d : FunctionContext} {m m' m'' : Machine} {x y : BitVec 64}

/-! ### What emission leaves alone -/

def FunctionContext.handler? (c : FunctionContext) : Option ℕ :=
  c.exceptionTargets.getLast?.or c.exceptionReturnBb

/-- From `c` on, code was emitted up to `c'`. -/
structure Emits (c c' : FunctionContext) : Prop where
  builds : Builds c.builder c'.builder
  next : c.next ≤ c'.next
  targets : c'.exceptionTargets = c.exceptionTargets
  returnBb : ∀ h, c.exceptionReturnBb = some h → c'.exceptionReturnBb = some h

namespace Emits

theorem refl (h : c.builder.Placed) : Emits c c := ⟨.refl h, le_rfl, rfl, fun _ h => h⟩

theorem trans (h : Emits c c') (h' : Emits c' c'') : Emits c c'' :=
  ⟨h.builds.trans h'.builds, h.next.trans h'.next, h'.targets.trans h.targets,
    fun bb hbb => h'.returnBb bb (h.returnBb bb hbb)⟩

theorem placed (h : Emits c c') : c'.builder.Placed := h.builds.placed

theorem handler (h : Emits c c') {bb : ℕ} (hbb : c.handler? = some bb) : c'.handler? = some bb := by
  unfold FunctionContext.handler? at hbb ⊢
  rw [h.targets]
  cases ht : c.exceptionTargets.getLast? with
  | none =>
    rw [ht, Option.none_or] at hbb
    rw [Option.none_or]
    exact h.returnBb bb hbb
  | some last =>
    rw [ht] at hbb
    exact hbb

theorem build (h : Emits c c') (i : Instr) : Emits c (c'.build i).1 :=
  ⟨h.builds.push _, h.next.trans (Nat.le_succ _), h.targets, h.returnBb⟩

theorem br (h : Emits c c') (target : ℕ) : Emits c (c'.br target) :=
  ⟨h.builds.push _, h.next, h.targets, h.returnBb⟩

theorem condBr (h : Emits c c') (condition t e : ℕ) : Emits c (c'.condBr condition t e) :=
  ⟨h.builds.push _, h.next, h.targets, h.returnBb⟩

theorem append (h : Emits c c') : Emits c c'.appendBasicBlock.1 :=
  ⟨h.builds.append, h.next, h.targets, h.returnBb⟩

theorem position (h : Emits c c') {n : ℕ} (hnew : c.builder.graph.length ≤ n)
    (hn : n < c'.builder.graph.length) : Emits c (c'.positionAtEnd n) :=
  ⟨h.builds.position hnew hn, h.next, h.targets, h.returnBb⟩

end Emits

/-- The handler is in place; no block changed. -/
structure HandlerMade (c c' : FunctionContext) (bb : ℕ) : Prop where
  emits : Emits c c'
  made : c'.handler? = some bb
  blocks : ∀ n, c'.builder.block n = c.builder.block n
  next : c'.next = c.next

theorem currentExceptionHandler_made (h : c.builder.Placed) :
    HandlerMade c c.currentExceptionHandler.1 c.currentExceptionHandler.2 := by
  unfold FunctionContext.currentExceptionHandler
  cases ht : c.exceptionTargets.getLast? with
  | some bb =>
    refine ⟨.refl h, ?_, fun _ => rfl, rfl⟩
    change c.exceptionTargets.getLast?.or _ = _
    rw [ht]
    rfl
  | none =>
    cases hr : c.exceptionReturnBb with
    | some bb =>
      refine ⟨.refl h, ?_, fun _ => rfl, rfl⟩
      change c.exceptionTargets.getLast?.or c.exceptionReturnBb = _
      rw [ht, hr]
      rfl
    | none =>
      refine ⟨⟨(Builds.refl h).append, le_rfl, rfl, fun bb hbb => ?_⟩, ?_, Builder.block_append, rfl⟩
      · rw [hr] at hbb
        cases hbb
      · change c.exceptionTargets.getLast?.or _ = _
        rw [ht]
        rfl

/-! ### Runs -/

/-- In every graph that contains the code, a run leads from its beginning to its end. -/
def Reaches (c c' : FunctionContext) (m m' : Machine) : Prop :=
  ∀ g : BlockGraph (ℕ × Instr) ℕ, c'.builder.graph.Within g →
    g.Runs sem (c.builder.here, m) (c'.builder.here, m')

/-- In every graph that contains the code, a run leads from its beginning to the handler. -/
def Faults (c c' : FunctionContext) (m : Machine) (message : String) : Prop :=
  ∃ bb m', c'.handler? = some bb ∧ m'.pending = some message ∧ m'.slots = m.slots ∧
    ∀ g : BlockGraph (ℕ × Instr) ℕ, c'.builder.graph.Within g → g.Runs sem (c.builder.here, m) (⟨bb, 0⟩, m')

/-- The values below `n`, the variables and the pending slot are as before. -/
structure Kept (n : ℕ) (m m' : Machine) : Prop where
  regs : ∀ r < n, m'.regs r = m.regs r
  slots : m'.slots = m.slots
  pending : m'.pending = m.pending

theorem Kept.refl (n : ℕ) (m : Machine) : Kept n m m := ⟨fun _ _ => rfl, rfl, rfl⟩

theorem Kept.trans {n k : ℕ} (h : Kept n m m') (h' : Kept k m' m'') (hle : n ≤ k) : Kept n m m'' :=
  ⟨fun r hr => (h'.regs r (by omega)).trans (h.regs r hr), h'.slots.trans h.slots, h'.pending.trans h.pending⟩

theorem Kept.set {n k : ℕ} (h : Kept n m m') (hle : n ≤ k) (v : Value) : Kept n m (m'.set k v) := by
  refine ⟨fun r hr => ?_, h.slots, h.pending⟩
  rw [Machine.set]
  dsimp only
  rw [if_neg (by omega), h.regs r hr]

theorem Reaches.refl (c : FunctionContext) (m : Machine) : Reaches c c m m := fun _ _ => Relation.ReflTransGen.refl

theorem Reaches.trans (h : Reaches c c' m m') (h' : Reaches c' c'' m' m'')
    (hw : c'.builder.graph.Within c''.builder.graph) : Reaches c c'' m m'' :=
  fun g hg => (h g (hw.trans hg)).trans (h' g hg)

theorem Faults.later {message : String} (h : Faults c c' m message) (h' : Emits c' c'') :
    Faults c c'' m message := by
  obtain ⟨bb, m', hbb, hpending, hslots, hruns⟩ := h
  exact ⟨bb, m', h'.handler hbb, hpending, hslots, fun g hg => hruns g (h'.builds.within.trans hg)⟩

theorem Reaches.faults {message : String} (h : Reaches c c' m m') (hslots : m'.slots = m.slots)
    (h' : Faults c' c'' m' message) (hw : c'.builder.graph.Within c''.builder.graph) :
    Faults c c'' m message := by
  obtain ⟨bb, m'', hbb, hpending, hslots', hruns⟩ := h'
  exact ⟨bb, m'', hbb, hpending, hslots'.trans hslots, fun g hg => (h g (hw.trans hg)).trans (hruns g hg)⟩

theorem reaches_build (h : c.builder.Placed) {i : Instr} (hi : exec (c.next, i) m = some m') :
    Reaches c (c.build i).1 m m' :=
  fun _ hg => Builder.runs_instr (S := sem) h hi hg

/-! ### Guards -/

section Throw
variable {n : ℕ} (message : String) (handler : ℕ)

theorem block_emitThrow (hn : n < c.builder.graph.length) {k : ℕ} (hk : k ≠ n) :
    (emitThrow c n message handler).builder.block k = c.builder.block k := by
  have hplaced : (c.positionAtEnd n).builder.Placed := hn
  change (((((c.positionAtEnd n).build (.stringWords message)).1.build (.ntscThrow c.next)).1.br
    handler).builder).block k = _
  have hother : ∀ {b : Builder (ℕ × Instr) ℕ} (_ : b.Placed) (_ : b.current = n) (i : Item (ℕ × Instr) ℕ),
      (b.push i).block k = b.block k := by
    intro b hb hcur i
    rw [Builder.block_push hb, hcur, if_neg hk]
  have hwords := Builder.placed_push hplaced (.instr (c.next, .stringWords message))
  have hthrow := Builder.placed_push hwords (.instr (c.next + 1, .ntscThrow c.next))
  exact (hother hthrow rfl _).trans ((hother hwords rfl _).trans (hother hplaced rfl _))

theorem within_emitThrow (hn : n < c.builder.graph.length) :
    c.builder.graph.Within (emitThrow c n message handler).builder.graph := by
  have hplaced : (c.positionAtEnd n).builder.Placed := hn
  exact ((((Builds.refl hplaced).push _).push _).push _).within

theorem length_emitThrow :
    (emitThrow c n message handler).builder.graph.length = c.builder.graph.length :=
  (Builder.length_push _).trans ((Builder.length_push _).trans (Builder.length_push _))

theorem Emits.throw (h : Emits d c) (hnew : d.builder.graph.length ≤ n) (hn : n < c.builder.graph.length) :
    Emits d (emitThrow c n message handler) :=
  (((h.position hnew hn).build _).build _).br _

/-- The throwing block runs to the handler with the message pending. -/
theorem emitThrow_runs (hempty : c.builder.block n = []) (hn : n < c.builder.graph.length) (m : Machine) :
    ∃ m', m'.pending = some message ∧ m'.slots = m.slots ∧ ∀ g : BlockGraph (ℕ × Instr) ℕ,
      (emitThrow c n message handler).builder.graph.Within g →
        g.Runs sem (⟨n, 0⟩, m) (⟨handler, 0⟩, m') := by
  have hplaced : (c.positionAtEnd n).builder.Placed := hn
  have hwords := Builder.placed_push hplaced (.instr (c.next, .stringWords message))
  have hthrow := Builder.placed_push hwords (.instr (c.next + 1, .ntscThrow c.next))
  have htext : (m.set c.next (.text message)).text c.next = some message := by
    rw [Machine.text, Machine.set]
    dsimp only
    rw [if_pos rfl]
  have hfirst : sem.exec (c.next, .stringWords message) m = some (m.set c.next (.text message)) := rfl
  have hsecond : sem.exec (c.next + 1, .ntscThrow c.next) (m.set c.next (.text message)) =
      some { (m.set c.next (.text message)).set (c.next + 1) (.int 0) with pending := some message } := by
    simp only [sem, exec, Instr.value, htext, Option.map_some]
  refine ⟨{ (m.set c.next (.text message)).set (c.next + 1) (.int 0) with pending := some message }, rfl, rfl,
    fun g hg => ?_⟩
  have hstart : (c.positionAtEnd n).builder.here = ⟨n, 0⟩ := Builder.here_position hempty
  rw [← hstart]
  have hlast := Builder.within_push hthrow (.br handler)
  have hmiddle := Builder.within_push hwords (.instr (c.next + 1, .ntscThrow c.next))
  have h1 := Builder.runs_instr (S := sem) hplaced hfirst (hmiddle.trans (hlast.trans hg))
  have h2 := Builder.runs_instr (S := sem) hwords hsecond (hlast.trans hg)
  have h3 := Builder.runs_br (S := sem) hthrow (s := { (m.set c.next (.text message)).set (c.next + 1)
    (.int 0) with pending := some message }) hg
  exact h1.trans (h2.trans h3)

end Throw

/-- What a guard does: it faults or goes on with nothing changed. -/
def Guards (c c' : FunctionContext) (m : Machine) : Option String → Prop
  | none => ∃ m', Reaches c c' m m' ∧ Kept c.next m m'
  | some message => Faults c c' m message

/-- The context at the branch of a guard, with the blocks of the two ways. -/
def guardBranch (c : FunctionContext) (condition : ℕ) : FunctionContext :=
  c.appendBasicBlock.1.appendBasicBlock.1.condBr condition c.builder.graph.length (c.builder.graph.length + 1)

theorem length_guardBranch (condition : ℕ) :
    (guardBranch c condition).builder.graph.length = c.builder.graph.length + 1 + 1 := by
  refine (Builder.length_push _).trans ?_
  exact (Builder.length_append ..).trans (congrArg (· + 1) (Builder.length_append ..))

theorem emitGuardThrow_eq (condition : ℕ) (message : String) : emitGuardThrow c condition message =
    (emitThrow (guardBranch c condition).currentExceptionHandler.1 c.builder.graph.length message
      (guardBranch c condition).currentExceptionHandler.2).positionAtEnd (c.builder.graph.length + 1) := by
  have hsecond : c.appendBasicBlock.1.appendBasicBlock.2 = c.builder.graph.length + 1 := Builder.length_append ..
  rw [guardBranch, ← hsecond]
  rfl

theorem Emits.guardBranch (h : Emits d c) (condition : ℕ) : Emits d (guardBranch c condition) :=
  h.append.append.condBr _ _ _

theorem Emits.guardThrow (h : Emits d c) (condition : ℕ) (message : String) :
    Emits d (emitGuardThrow c condition message) := by
  have hlength := h.builds.within.length_le
  have hmade := currentExceptionHandler_made (h.guardBranch condition).placed
  have hgrown := hmade.emits.builds.within.length_le
  rw [length_guardBranch] at hgrown
  rw [emitGuardThrow_eq]
  refine (((h.guardBranch condition).trans hmade.emits).throw message _ hlength (by omega)).position
    (by omega) ?_
  rw [length_emitThrow]
  omega

/-- The guard throws exactly when its condition holds. -/
theorem emitGuardThrow_guards (h : c.builder.Placed) {condition : ℕ} {b : Bool}
    (hb : m.bool condition = some b) (message : String) :
    Guards c (emitGuardThrow c condition message) m (if b then some message else none) := by
  have hlt : c.builder.current < c.builder.graph.length := h
  have hplaced : c.appendBasicBlock.1.appendBasicBlock.1.builder.Placed :=
    Builder.placed_append (Builder.placed_append h)
  have hstart : c.appendBasicBlock.1.appendBasicBlock.1.builder.here = c.builder.here :=
    Builder.here_append.trans Builder.here_append
  -- both new blocks are empty at the branch
  have hnew : ∀ n, c.builder.graph.length ≤ n → (guardBranch c condition).builder.block n = [] := by
    intro n hn
    have hne : ¬ n = c.builder.current := by omega
    refine (Builder.block_push hplaced _ n).trans ((if_neg hne).trans ?_)
    refine (Builder.block_append n).trans ((Builder.block_append n).trans ?_)
    exact Builder.block_of_ge hn
  have hmade := currentExceptionHandler_made ((Emits.refl h).guardBranch condition).placed
  have hgrown := hmade.emits.builds.within.length_le
  rw [length_guardBranch] at hgrown
  have htest : sem.test condition m = some (b, m) := by
    change (m.bool condition).map _ = _
    rw [hb]
    rfl
  have hbranch := fun g hg => Builder.runs_condBr (S := sem) (g := g) hplaced
    (t := c.builder.graph.length) (e := c.builder.graph.length + 1) htest hg
  rw [emitGuardThrow_eq]
  have hwithin := hmade.emits.builds.within.trans (within_emitThrow (n := c.builder.graph.length) message
    (guardBranch c condition).currentExceptionHandler.2 (by omega))
  have hcontinue := (block_emitThrow (c := (guardBranch c condition).currentExceptionHandler.1)
    (n := c.builder.graph.length) (k := c.builder.graph.length + 1) message
    (guardBranch c condition).currentExceptionHandler.2 (by omega) (by omega)).trans
    ((hmade.blocks _).trans (hnew _ (by omega)))
  cases b with
  | false =>
    refine ⟨m, fun g hg => ?_, .refl _ _⟩
    have hend := Builder.here_position hcontinue
    have hrun := hbranch g (hwithin.trans hg)
    rw [hstart] at hrun
    exact hend ▸ hrun
  | true =>
    obtain ⟨m', hpending, hslots, hthrow⟩ := emitThrow_runs message
      (guardBranch c condition).currentExceptionHandler.2 ((hmade.blocks _).trans (hnew _ le_rfl)) (by omega) m
    refine ⟨_, m', hmade.made, hpending, hslots, fun g hg => ?_⟩
    have hrun := hbranch g (hwithin.trans hg)
    rw [hstart] at hrun
    exact hrun.trans (hthrow g hg)

/-! ### The guard of a division -/

/-- The context at the first branch of the divisor guard, with the blocks of the four ways. -/
def divisorBranch (c : FunctionContext) (isZero : ℕ) : FunctionContext :=
  c.appendBasicBlock.1.appendBasicBlock.1.appendBasicBlock.1.appendBasicBlock.1.condBr isZero
    (c.builder.graph.length + 1) c.builder.graph.length

/-- The context at its second branch. -/
def overflowBranch (c : FunctionContext) (isZero overflows : ℕ) : FunctionContext :=
  ((emitThrow (divisorBranch c isZero).currentExceptionHandler.1 (c.builder.graph.length + 1) "division by zero"
    (divisorBranch c isZero).currentExceptionHandler.2).positionAtEnd c.builder.graph.length).condBr overflows
      (c.builder.graph.length + 2) (c.builder.graph.length + 3)

/-- The divisor guard after its tests. -/
def divisorThrows (c : FunctionContext) (isZero overflows : ℕ) : FunctionContext :=
  (emitThrow (overflowBranch c isZero overflows) (c.builder.graph.length + 2) "integer division overflow"
    (divisorBranch c isZero).currentExceptionHandler.2).positionAtEnd (c.builder.graph.length + 3)

/-- The tests of the divisor guard. -/
def divisorTests (c : FunctionContext) (lhs rhs : Operand) : FunctionContext :=
  ((((c.build (.icmp .eq rhs (.const 0))).1.build (.icmp .eq lhs (.const (BitVec.intMin 64)))).1.build
    (.icmp .eq rhs (.const (-1)))).1.build (.andBool (c.next + 1) (c.next + 2))).1

theorem emitCheckedDivisorGuard_eq (lhs rhs : Operand) : emitCheckedDivisorGuard c lhs rhs =
    divisorThrows (divisorTests c lhs rhs) c.next (c.next + 3) := by
  have hone : ∀ c : FunctionContext, c.appendBasicBlock.1.appendBasicBlock.2 = c.builder.graph.length + 1 :=
    fun _ => Builder.length_append ..
  have htwo : ∀ c : FunctionContext, c.appendBasicBlock.1.appendBasicBlock.1.appendBasicBlock.2 =
      c.builder.graph.length + 2 := fun c => (hone _).trans (congrArg (· + 1) (hone c))
  have hthree : ∀ c : FunctionContext,
      c.appendBasicBlock.1.appendBasicBlock.1.appendBasicBlock.1.appendBasicBlock.2 =
        c.builder.graph.length + 3 := fun c => (htwo _).trans (congrArg (· + 2) (hone c))
  rw [divisorThrows, overflowBranch, divisorBranch, ← hone, ← htwo, ← hthree]
  rfl

theorem length_divisorBranch (isZero : ℕ) :
    (divisorBranch c isZero).builder.graph.length = c.builder.graph.length + 4 := by
  refine (Builder.length_push _).trans ((Builder.length_append ..).trans (congrArg (· + 1) ?_))
  refine (Builder.length_append ..).trans (congrArg (· + 1) ?_)
  exact (Builder.length_append ..).trans (congrArg (· + 1) (Builder.length_append ..))

theorem Emits.divisorTests (h : Emits d c) (lhs rhs : Operand) : Emits d (divisorTests c lhs rhs) :=
  (((h.build _).build _).build _).build _

theorem Emits.divisorBranch (h : Emits d c) (isZero : ℕ) : Emits d (divisorBranch c isZero) :=
  h.append.append.append.append.condBr _ _ _

theorem Emits.divisorThrows (h : Emits d c) (isZero overflows : ℕ) : Emits d (divisorThrows c isZero overflows) := by
  have hlength := h.builds.within.length_le
  have hmade := currentExceptionHandler_made (h.divisorBranch isZero).placed
  have hgrown := hmade.emits.builds.within.length_le
  rw [length_divisorBranch] at hgrown
  have hzero := ((h.divisorBranch isZero).trans hmade.emits).throw (n := c.builder.graph.length + 1)
    "division by zero" (Integers.divisorBranch c isZero).currentExceptionHandler.2 (by omega) (by omega)
  have hcheck := (hzero.position (n := c.builder.graph.length) hlength (by rw [length_emitThrow]; omega)).condBr
    overflows (c.builder.graph.length + 2) (c.builder.graph.length + 3)
  have hcount : (overflowBranch c isZero overflows).builder.graph.length =
      (Integers.divisorBranch c isZero).currentExceptionHandler.1.builder.graph.length :=
    (Builder.length_push _).trans (length_emitThrow _ _)
  refine (Emits.throw (n := c.builder.graph.length + 2) "integer division overflow" _ hcheck (by omega) ?_).position
    (by omega) ?_
  · exact lt_of_lt_of_eq (by omega) hcount.symm
  · rw [length_emitThrow]
    exact lt_of_lt_of_eq (by omega) hcount.symm

/-- After the tests: zero first, then the minimum by minus one. -/
theorem divisorThrows_guards (h : c.builder.Placed) {isZero overflows : ℕ} {b o : Bool}
    (hb : m.bool isZero = some b) (ho : m.bool overflows = some o) :
    Guards c (divisorThrows c isZero overflows) m
      (if b then some "division by zero" else if o then some "integer division overflow" else none) := by
  have hlt : c.builder.current < c.builder.graph.length := h
  have hplaced := ((Emits.refl h).append.append.append.append).placed
  have hstart : c.appendBasicBlock.1.appendBasicBlock.1.appendBasicBlock.1.appendBasicBlock.1.builder.here =
      c.builder.here :=
    (Builder.here_append.trans Builder.here_append).trans (Builder.here_append.trans Builder.here_append)
  have hnew : ∀ n, c.builder.graph.length ≤ n → (divisorBranch c isZero).builder.block n = [] := by
    intro n hn
    have hne : ¬ n = c.builder.current := by omega
    refine (Builder.block_push hplaced _ n).trans ((if_neg hne).trans ?_)
    refine (Builder.block_append n).trans ((Builder.block_append n).trans ?_)
    refine (Builder.block_append n).trans ((Builder.block_append n).trans ?_)
    exact Builder.block_of_ge hn
  have hmade := currentExceptionHandler_made ((Emits.refl h).divisorBranch isZero).placed
  have hgrown := hmade.emits.builds.within.length_le
  rw [length_divisorBranch] at hgrown
  have htest : ∀ {r : ℕ} {v : Bool}, m.bool r = some v → sem.test r m = some (v, m) := by
    intro r v hv
    change (m.bool r).map _ = _
    rw [hv]
    rfl
  -- the zero throw fills its own block, the second branch the check block
  have hzeroBlock := fun n (hn : n ≠ c.builder.graph.length + 1) =>
    (block_emitThrow (c := (divisorBranch c isZero).currentExceptionHandler.1) "division by zero"
      (divisorBranch c isZero).currentExceptionHandler.2 (by omega) hn).trans (hmade.blocks n)
  have hcheck := Builder.here_position ((hzeroBlock c.builder.graph.length (by omega)).trans (hnew _ le_rfl))
  have hcheckPlaced : ((emitThrow (divisorBranch c isZero).currentExceptionHandler.1
      (c.builder.graph.length + 1) "division by zero"
      (divisorBranch c isZero).currentExceptionHandler.2).positionAtEnd c.builder.graph.length).builder.Placed :=
    lt_of_lt_of_eq (b := (divisorBranch c isZero).currentExceptionHandler.1.builder.graph.length)
      (by change c.builder.graph.length < _; omega) (length_emitThrow _ _).symm
  have hcount : (overflowBranch c isZero overflows).builder.graph.length =
      (divisorBranch c isZero).currentExceptionHandler.1.builder.graph.length :=
    (Builder.length_push _).trans (length_emitThrow _ _)
  have hoverflowBlock : ∀ n, c.builder.graph.length + 1 < n →
      (overflowBranch c isZero overflows).builder.block n = [] := by
    intro n hn
    have hne : ¬ n = c.builder.graph.length := by omega
    refine (Builder.block_push hcheckPlaced _ n).trans ((if_neg hne).trans ?_)
    exact (hzeroBlock n (by omega)).trans (hnew n (by omega))
  have hthird : c.builder.graph.length + 2 < (overflowBranch c isZero overflows).builder.graph.length :=
    lt_of_lt_of_eq (by omega) hcount.symm
  have hend := Builder.here_position ((block_emitThrow (n := c.builder.graph.length + 2)
    (k := c.builder.graph.length + 3) "integer division overflow"
    (divisorBranch c isZero).currentExceptionHandler.2 hthird (by omega)).trans (hoverflowBlock _ (by omega)))
  have hlast := within_emitThrow (n := c.builder.graph.length + 2) "integer division overflow"
    (divisorBranch c isZero).currentExceptionHandler.2 hthird
  have hzero := within_emitThrow (c := (divisorBranch c isZero).currentExceptionHandler.1)
    (n := c.builder.graph.length + 1) "division by zero" (divisorBranch c isZero).currentExceptionHandler.2
    (by omega)
  have hsecond := Builder.within_push hcheckPlaced (.condBr overflows (c.builder.graph.length + 2)
    (c.builder.graph.length + 3))
  have hreturn : ∀ bb, (divisorBranch c isZero).currentExceptionHandler.1.handler? = some bb →
      (divisorThrows c isZero overflows).handler? = some bb := fun _ h => h
  cases b with
  | true =>
    obtain ⟨m', hpending, hslots, hthrow⟩ := emitThrow_runs "division by zero"
      (divisorBranch c isZero).currentExceptionHandler.2 ((hmade.blocks _).trans (hnew _ (Nat.le_succ _)))
      (by omega) m
    refine ⟨_, m', hreturn _ hmade.made, hpending, hslots, fun g hg => ?_⟩
    have hfirst := Builder.runs_condBr (S := sem) hplaced (t := c.builder.graph.length + 1)
      (e := c.builder.graph.length) (htest hb)
      (hmade.emits.builds.within.trans (hzero.trans (hsecond.trans (hlast.trans hg))))
    rw [hstart] at hfirst
    exact hfirst.trans (hthrow g (hsecond.trans (hlast.trans hg)))
  | false =>
    have hfirst := fun g hg => Builder.runs_condBr (S := sem) (g := g) hplaced
      (t := c.builder.graph.length + 1) (e := c.builder.graph.length) (htest hb)
      (hmade.emits.builds.within.trans (hzero.trans (hsecond.trans (hlast.trans hg))))
    have hnext := fun g hg => Builder.runs_condBr (S := sem) (g := g) hcheckPlaced
      (t := c.builder.graph.length + 2) (e := c.builder.graph.length + 3) (htest ho) (hlast.trans hg)
    cases o with
    | true =>
      obtain ⟨m', hpending, hslots, hthrow⟩ := emitThrow_runs "integer division overflow"
        (divisorBranch c isZero).currentExceptionHandler.2 (hoverflowBlock _ (by omega)) hthird m
      refine ⟨_, m', hreturn _ hmade.made, hpending, hslots, fun g hg => ?_⟩
      have hrun := hfirst g hg
      rw [hstart] at hrun
      exact hrun.trans ((hcheck ▸ hnext g hg).trans (hthrow g hg))
    | false =>
      refine ⟨m, fun g hg => ?_, .refl _ _⟩
      have hrun := hfirst g hg
      rw [hstart] at hrun
      exact hend ▸ hrun.trans (hcheck ▸ hnext g hg)

end Neutron.Integers
