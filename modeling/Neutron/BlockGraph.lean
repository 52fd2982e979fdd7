import Mathlib.Data.List.Basic
import Mathlib.Logic.Relation
import Mathlib.Tactic.Common

/-!
# Graphs of basic blocks

A graph under construction is a list of blocks that only grow at their ends; items are appended to the
current block. Code runs from a position in a block, and what a run does in a graph it does in every
graph that contains it. A stretch of construction leaves alone the blocks that were there before, except
the one it started in.
-/

namespace Neutron

variable {ι κ σ : Type}

inductive Item (ι κ : Type) where
  | instr (i : ι)
  | br (target : ℕ)
  | condBr (c : κ) (thenTarget elseTarget : ℕ)
  | ret
  deriving DecidableEq

def Item.isTerminator : Item ι κ → Bool
  | .instr _ => false
  | .br _ | .condBr _ _ _ | .ret => true

abbrev BlockGraph (ι κ : Type) := List (List (Item ι κ))

/-- A position: a block and the number of its items that ran. -/
structure Pos where
  block : ℕ
  offset : ℕ
  deriving DecidableEq

/-- What items do. No result means undefined behaviour. -/
structure ItemSemantics (ι κ σ : Type) where
  exec : ι → σ → Option σ
  test : κ → σ → Option (Bool × σ)

namespace BlockGraph

def at? (g : BlockGraph ι κ) (p : Pos) : Option (Item ι κ) := (g[p.block]?).bind (·[p.offset]?)

/-- One item. There is no step from the end of an open block, and none from a return. -/
def step (S : ItemSemantics ι κ σ) (g : BlockGraph ι κ) (c : Pos × σ) : Option (Pos × σ) :=
  match g.at? c.1 with
  | none => none
  | some (.instr i) => (S.exec i c.2).map fun s => (⟨c.1.block, c.1.offset + 1⟩, s)
  | some (.br target) => some (⟨target, 0⟩, c.2)
  | some (.condBr k thenTarget elseTarget) =>
    (S.test k c.2).map fun r => (⟨if r.1 then thenTarget else elseTarget, 0⟩, r.2)
  | some .ret => none

/-- `c` runs to `c'`. -/
def Runs (S : ItemSemantics ι κ σ) (g : BlockGraph ι κ) : Pos × σ → Pos × σ → Prop :=
  Relation.ReflTransGen fun c c' => g.step S c = some c'

/-- Every block of `g` is the beginning of the block of that number in `g'`. -/
def Within (g g' : BlockGraph ι κ) : Prop :=
  ∀ (b : ℕ) (items : List (Item ι κ)), g[b]? = some items → ∃ more, g'[b]? = some (items ++ more)

variable {g g' g'' : BlockGraph ι κ} {S : ItemSemantics ι κ σ}

theorem Within.refl (g : BlockGraph ι κ) : g.Within g := fun _ items h => ⟨[], by rw [h, List.append_nil]⟩

theorem Within.trans (h : g.Within g') (h' : g'.Within g'') : g.Within g'' := by
  intro b items hb
  obtain ⟨more, hmore⟩ := h b items hb
  obtain ⟨rest, hrest⟩ := h' b _ hmore
  exact ⟨more ++ rest, by rw [hrest, List.append_assoc]⟩

theorem Within.length_le (h : g.Within g') : g.length ≤ g'.length := by
  by_contra hlt
  have hin : g'.length < g.length := Nat.not_le.mp hlt
  obtain ⟨more, hmore⟩ := h _ _ (List.getElem?_eq_getElem hin)
  rw [List.getElem?_eq_none (Nat.le_refl _)] at hmore
  cases hmore

theorem Within.at? (h : g.Within g') {p : Pos} {i : Item ι κ} (hp : g.at? p = some i) : g'.at? p = some i := by
  obtain ⟨items, hb, hi⟩ := Option.bind_eq_some_iff.mp hp
  obtain ⟨more, hmore⟩ := h _ _ hb
  obtain ⟨hlt, -⟩ := List.getElem?_eq_some_iff.mp hi
  exact Option.bind_eq_some_iff.mpr ⟨_, hmore, by rw [List.getElem?_append_left hlt, hi]⟩

theorem Runs.trans {c c' c'' : Pos × σ} (h : g.Runs S c c') (h' : g.Runs S c' c'') : g.Runs S c c'' :=
  Relation.ReflTransGen.trans h h'

theorem Runs.instr {p : Pos} {s s' : σ} {i : ι} (hp : g.at? p = some (.instr i)) (h : S.exec i s = some s') :
    g.Runs S (p, s) (⟨p.block, p.offset + 1⟩, s') := by
  refine Relation.ReflTransGen.single ?_
  rw [step, hp]
  dsimp only
  rw [h]
  rfl

theorem Runs.br {p : Pos} {s : σ} {target : ℕ} (hp : g.at? p = some (.br target)) :
    g.Runs S (p, s) (⟨target, 0⟩, s) := by
  refine Relation.ReflTransGen.single ?_
  rw [step, hp]

theorem Runs.condBr {p : Pos} {s s' : σ} {k : κ} {t e : ℕ} {b : Bool} (hp : g.at? p = some (.condBr k t e))
    (h : S.test k s = some (b, s')) : g.Runs S (p, s) (⟨if b then t else e, 0⟩, s') := by
  refine Relation.ReflTransGen.single ?_
  rw [step, hp]
  dsimp only
  rw [h]
  rfl

theorem step_ret {p : Pos} {s : σ} (hp : g.at? p = some .ret) : g.step S (p, s) = none := by
  rw [step, hp]

/-- Two runs from one place that cannot go on are the same. -/
theorem Runs.unique {c c' c'' : Pos × σ} (h : g.Runs S c c') (h' : g.Runs S c c'') (hstop : g.step S c' = none)
    (hstop' : g.step S c'' = none) : c' = c'' := by
  induction h using Relation.ReflTransGen.head_induction_on with
  | refl =>
    rcases Relation.ReflTransGen.cases_head h' with heq | ⟨d, hd, -⟩
    · exact heq
    · rw [hstop] at hd
      cases hd
  | head hstep _ ih =>
    rcases Relation.ReflTransGen.cases_head h' with heq | ⟨d, hd, hrest⟩
    · rw [← heq, hstep] at hstop'
      cases hstop'
    · rw [hstep] at hd
      obtain rfl := Option.some.inj hd
      exact ih hrest

end BlockGraph

/-- A graph under construction and the block that code is appended to. -/
structure Builder (ι κ : Type) where
  graph : BlockGraph ι κ
  current : ℕ

namespace Builder

def block (b : Builder ι κ) (n : ℕ) : List (Item ι κ) := b.graph.getD n []

/-- The position behind the last item. -/
def here (b : Builder ι κ) : Pos := ⟨b.current, (b.block b.current).length⟩

def appendBasicBlock (b : Builder ι κ) : Builder ι κ × ℕ := ({ b with graph := b.graph ++ [[]] }, b.graph.length)

def positionAtEnd (b : Builder ι κ) (n : ℕ) : Builder ι κ := { b with current := n }

def push (b : Builder ι κ) (i : Item ι κ) : Builder ι κ :=
  { b with graph := b.graph.set b.current (b.block b.current ++ [i]) }

def terminated (b : Builder ι κ) : Bool := ((b.block b.current).getLast?.map Item.isTerminator).getD false

/-- The current block exists. -/
def Placed (b : Builder ι κ) : Prop := b.current < b.graph.length

variable {b b' b'' : Builder ι κ} {g : BlockGraph ι κ} {S : ItemSemantics ι κ σ}

theorem graph_getElem? {n : ℕ} (h : n < b.graph.length) : b.graph[n]? = some (b.block n) := by
  rw [block, List.getD_eq_getElem?_getD, List.getElem?_eq_getElem h]
  rfl

@[simp] theorem current_push (i : Item ι κ) : (b.push i).current = b.current := rfl

@[simp] theorem length_push (i : Item ι κ) : (b.push i).graph.length = b.graph.length := List.length_set ..

theorem block_push (h : b.Placed) (i : Item ι κ) (n : ℕ) :
    (b.push i).block n = if n = b.current then b.block b.current ++ [i] else b.block n := by
  rw [block, List.getD_eq_getElem?_getD, push]
  by_cases hn : n = b.current
  · subst hn
    rw [List.getElem?_set_self h, if_pos rfl]
    rfl
  · rw [List.getElem?_set_ne (Ne.symm hn), if_neg hn, block, List.getD_eq_getElem?_getD]

theorem here_push (h : b.Placed) (i : Item ι κ) : (b.push i).here = ⟨b.current, b.here.offset + 1⟩ := by
  rw [here, current_push, block_push h, if_pos rfl, List.length_append]
  rfl

theorem block_append (n : ℕ) : b.appendBasicBlock.1.block n = b.block n := by
  rw [block, block, List.getD_eq_getElem?_getD, List.getD_eq_getElem?_getD, appendBasicBlock]
  by_cases hn : n < b.graph.length
  · rw [List.getElem?_append_left hn]
  · rw [List.getElem?_append_right (by omega), List.getElem?_eq_none (l := b.graph) (by omega)]
    cases n - b.graph.length <;> rfl

theorem block_of_ge {n : ℕ} (h : b.graph.length ≤ n) : b.block n = [] := by
  rw [block, List.getD_eq_getElem?_getD, List.getElem?_eq_none h]
  rfl

theorem block_new : b.appendBasicBlock.1.block b.graph.length = [] := by
  rw [block_append, block_of_ge (Nat.le_refl _)]

@[simp] theorem length_append : b.appendBasicBlock.1.graph.length = b.graph.length + 1 := by
  rw [appendBasicBlock, List.length_append]
  rfl

theorem here_append : b.appendBasicBlock.1.here = b.here := by
  rw [here, block_append]
  rfl

theorem here_position {n : ℕ} (h : b.block n = []) : (b.positionAtEnd n).here = ⟨n, 0⟩ := by
  change (⟨n, (b.block n).length⟩ : Pos) = _
  rw [h]
  rfl

theorem within_push (h : b.Placed) (i : Item ι κ) : b.graph.Within (b.push i).graph := by
  intro n items hitems
  obtain ⟨hn, -⟩ := List.getElem?_eq_some_iff.mp hitems
  have hn' : n < (b.push i).graph.length := by rwa [length_push]
  rw [graph_getElem? hn] at hitems
  obtain rfl := Option.some.inj hitems
  rw [graph_getElem? hn', block_push h]
  by_cases hcur : n = b.current
  · rw [if_pos hcur, hcur]
    exact ⟨_, rfl⟩
  · rw [if_neg hcur]
    exact ⟨[], by rw [List.append_nil]⟩

theorem within_append : b.graph.Within b.appendBasicBlock.1.graph := by
  intro n items hitems
  obtain ⟨hn, -⟩ := List.getElem?_eq_some_iff.mp hitems
  exact ⟨[], by rw [appendBasicBlock, List.getElem?_append_left hn, hitems, List.append_nil]⟩

theorem placed_push (h : b.Placed) (i : Item ι κ) : (b.push i).Placed := by
  rw [Placed, current_push, length_push]
  exact h

theorem placed_append (h : b.Placed) : b.appendBasicBlock.1.Placed := by
  rw [Placed, length_append]
  exact Nat.lt_succ_of_lt h

/-- What was pushed is what runs there. -/
theorem at?_push (h : b.Placed) {i : Item ι κ} (hg : (b.push i).graph.Within g) : g.at? b.here = some i := by
  have hlast : (b.push i).graph.at? b.here = some i := by
    refine Option.bind_eq_some_iff.mpr ⟨_, graph_getElem? (b := b.push i) (n := b.current) ?_, ?_⟩
    · rw [length_push]
      exact h
    · rw [block_push h, if_pos rfl]
      exact List.getElem?_concat_length
  exact hg.at? hlast

/-- Nothing runs at the end of the current block. -/
theorem step_here (s : σ) : b.graph.step S (b.here, s) = none := by
  have hend : b.graph.at? b.here = none := by
    by_cases h : b.current < b.graph.length
    · refine Option.bind_eq_none_iff.mpr fun items hitems => ?_
      rw [here] at hitems
      dsimp only at hitems
      rw [graph_getElem? h] at hitems
      obtain rfl := Option.some.inj hitems
      exact List.getElem?_eq_none (Nat.le_refl _)
    · rw [BlockGraph.at?, here]
      dsimp only
      rw [List.getElem?_eq_none (Nat.not_lt.mp h)]
      rfl
  rw [BlockGraph.step, hend]

theorem runs_instr (h : b.Placed) {i : ι} {s t : σ} (hi : S.exec i s = some t)
    (hg : (b.push (.instr i)).graph.Within g) : g.Runs S (b.here, s) ((b.push (.instr i)).here, t) := by
  rw [here_push h]
  exact BlockGraph.Runs.instr (at?_push h hg) hi

theorem terminated_push (h : b.Placed) (i : Item ι κ) : (b.push i).terminated = i.isTerminator := by
  rw [terminated, current_push, block_push h, if_pos rfl, List.getLast?_concat]
  rfl

theorem runs_br (h : b.Placed) {target : ℕ} {s : σ} (hg : (b.push (.br target)).graph.Within g) :
    g.Runs S (b.here, s) (⟨target, 0⟩, s) :=
  BlockGraph.Runs.br (at?_push h hg)

theorem runs_condBr (h : b.Placed) {k : κ} {t e : ℕ} {v : Bool} {s s' : σ} (hk : S.test k s = some (v, s'))
    (hg : (b.push (.condBr k t e)).graph.Within g) :
    g.Runs S (b.here, s) (⟨if v then t else e, 0⟩, s') :=
  BlockGraph.Runs.condBr (at?_push h hg) hk

end Builder

/-- Construction from `b` to `b'`: blocks grow at their ends, those there before are untouched except the
one it began in, and it ends in that one or in a new one. -/
structure Builds (b b' : Builder ι κ) : Prop where
  within : b.graph.Within b'.graph
  frame : ∀ n < b.graph.length, n ≠ b.current → b'.block n = b.block n
  current : b'.current = b.current ∨ b.graph.length ≤ b'.current
  placed : b'.Placed

namespace Builds
variable {b b' b'' : Builder ι κ}

theorem refl (h : b.Placed) : Builds b b := ⟨.refl _, fun _ _ _ => rfl, .inl rfl, h⟩

theorem trans (h : Builds b b') (h' : Builds b' b'') : Builds b b'' := by
  have hle := h.within.length_le
  refine ⟨h.within.trans h'.within, fun n hn hne => ?_, ?_, h'.placed⟩
  · have hother : n ≠ b'.current := by
      rcases h.current with heq | hge
      · rw [heq]
        exact hne
      · omega
    rw [h'.frame n (by omega) hother, h.frame n hn hne]
  · rcases h'.current with heq | hge
    · rw [heq]
      exact h.current
    · exact .inr (Nat.le_trans hle hge)

theorem push (h : Builds b b') (i : Item ι κ) : Builds b (b'.push i) := by
  refine ⟨h.within.trans (Builder.within_push h.placed i), fun n hn hne => ?_, h.current,
    Builder.placed_push h.placed i⟩
  have hother : n ≠ b'.current := by
    rcases h.current with heq | hge
    · rw [heq]
      exact hne
    · omega
  rw [Builder.block_push h.placed, if_neg hother, h.frame n hn hne]

theorem append (h : Builds b b') : Builds b b'.appendBasicBlock.1 := by
  refine ⟨h.within.trans Builder.within_append, fun n hn hne => ?_, h.current, Builder.placed_append h.placed⟩
  rw [Builder.block_append, h.frame n hn hne]

theorem position (h : Builds b b') {n : ℕ} (hnew : b.graph.length ≤ n) (hn : n < b'.graph.length) :
    Builds b (b'.positionAtEnd n) :=
  ⟨h.within, h.frame, .inr hnew, hn⟩

end Builds

end Neutron
