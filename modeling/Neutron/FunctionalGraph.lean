import Mathlib.Logic.Relation
import Mathlib.Data.List.Chain
import Mathlib.Data.List.Basic

/-!
# Cycles of a functional graph

A relation in which every node has at most one successor. A walk from a node comes back to it, or
ends at a node without successor, or comes back to a later node of the walk; the last two show that
its first node is on no cycle.
-/

namespace Neutron.FunctionalGraph

variable {α : Type*} {r : α → α → Prop}

def OnCycle (r : α → α → Prop) (a : α) : Prop := Relation.TransGen r a a

/-- A list of nodes in the order of the relation that starts and ends at one node and has no node
twice otherwise. -/
def Cycle (r : α → α → Prop) (chain : List α) : Prop :=
  ∃ start rest, chain = start :: (rest ++ [start]) ∧ (start :: rest).Nodup ∧ chain.IsChain r

theorem transGen_of_isChain {a b : α} {walk : List α} (h : (a :: (walk ++ [b])).IsChain r) :
    Relation.TransGen r a b := by
  induction walk generalizing a with
  | nil => exact .single (List.isChain_cons_cons.mp h).1
  | cons c walk ih =>
    obtain ⟨hac, hrest⟩ := List.isChain_cons_cons.mp h
    exact .head hac (ih hrest)

theorem exists_next {a b c : α} {walk : List α} (h : (a :: (walk ++ [b])).IsChain r)
    (hc : c ∈ a :: walk) : ∃ d ∈ walk ++ [b], r c d := by
  induction walk generalizing a with
  | nil =>
    rw [List.mem_singleton] at hc
    subst hc
    exact ⟨b, List.mem_singleton_self b, (List.isChain_cons_cons.mp h).1⟩
  | cons e walk ih =>
    obtain ⟨hae, hrest⟩ := List.isChain_cons_cons.mp h
    rcases List.mem_cons.mp hc with rfl | hc
    · exact ⟨e, List.mem_cons_self, hae⟩
    · obtain ⟨d, hd, hcd⟩ := ih hrest hc
      exact ⟨d, List.mem_cons_of_mem e hd, hcd⟩

/-- The nodes of a cycle reach each other. -/
theorem Cycle.transGen {chain : List α} (hcycle : Cycle r chain) {a b : α} (ha : a ∈ chain)
    (hb : b ∈ chain) : Relation.TransGen r a b := by
  obtain ⟨start, rest, rfl, -, hchain⟩ := hcycle
  have hthrough : ∀ c ∈ start :: (rest ++ [start]),
      Relation.TransGen r start c ∧ Relation.TransGen r c start := by
    intro c hc
    have hstart := transGen_of_isChain hchain
    have hmem : c = start ∨ c ∈ rest := by
      simp only [List.mem_cons, List.mem_append, List.not_mem_nil, or_false] at hc
      tauto
    rcases hmem with rfl | hc
    · exact ⟨hstart, hstart⟩
    · obtain ⟨before, after, rfl⟩ := List.append_of_mem hc
      rw [List.append_assoc, List.cons_append, List.isChain_cons_split] at hchain
      exact ⟨transGen_of_isChain hchain.1, transGen_of_isChain hchain.2⟩
  exact (hthrough a ha).2.trans (hthrough b hb).1

theorem Cycle.onCycle {chain : List α} (hcycle : Cycle r chain) {a : α} (ha : a ∈ chain) :
    OnCycle r a := hcycle.transGen ha ha

section Deterministic

variable (hdet : Relator.RightUnique r)

include hdet

theorem reach_back {a b : α} (ha : OnCycle r a) (hab : Relation.ReflTransGen r a b) :
    Relation.ReflTransGen r b a := by
  induction hab with
  | refl => exact .refl
  | @tail b c hab hbc ih =>
    have hba : Relation.TransGen r b a := by
      rcases Relation.reflTransGen_iff_eq_or_transGen.mp ih with rfl | hba
      · exact ha
      · exact hba
    obtain ⟨d, hbd, hda⟩ := Relation.TransGen.head'_iff.mp hba
    rw [hdet hbc hbd]
    exact hda

/-- A cycle holds everything that is reached from one of its nodes. -/
theorem Cycle.mem_of_reach {chain : List α} (hcycle : Cycle r chain) {a b : α} (ha : a ∈ chain)
    (hab : Relation.ReflTransGen r a b) : b ∈ chain := by
  obtain ⟨start, rest, rfl, -, hchain⟩ := hcycle
  induction hab with
  | refl => exact ha
  | @tail b c hab hbc ih =>
    have hb : b ∈ start :: rest := by
      simp only [List.mem_cons, List.mem_append, List.not_mem_nil, or_false] at ih
      rw [List.mem_cons]
      tauto
    obtain ⟨d, hd, hbd⟩ := exists_next hchain hb
    rw [hdet hbc hbd]
    exact List.mem_cons_of_mem start hd

theorem not_onCycle_of_end {start last : α} {walk : List α}
    (hchain : (start :: (walk ++ [last])).IsChain r) (hend : ∀ b, ¬ r last b) : ¬ OnCycle r start := by
  intro hstart
  have hback := reach_back hdet hstart (transGen_of_isChain hchain).to_reflTransGen
  have hlast : Relation.TransGen r last start := by
    rcases Relation.reflTransGen_iff_eq_or_transGen.mp hback with rfl | hlast
    · exact hstart
    · exact hlast
  obtain ⟨b, hb, -⟩ := Relation.TransGen.head'_iff.mp hlast
  exact hend b hb

/-- The nodes of a walk after its first are closed when the walk comes back to one of them. -/
theorem not_onCycle_of_lasso {start last : α} {walk : List α}
    (hchain : (start :: (walk ++ [last])).IsChain r) (hnodup : (start :: walk).Nodup)
    (hlast : last ∈ walk) : ¬ OnCycle r start := by
  intro hstart
  have hclosed : ∀ b, Relation.ReflTransGen r last b → b ∈ walk := by
    intro b hb
    induction hb with
    | refl => exact hlast
    | @tail b c _ hbc ih =>
      obtain ⟨d, hd, hbd⟩ := exists_next hchain (List.mem_cons_of_mem start ih)
      rw [hdet hbc hbd]
      rcases List.mem_append.mp hd with hd | hd
      · exact hd
      · rw [List.mem_singleton.mp hd]
        exact hlast
  have hback := reach_back hdet hstart (transGen_of_isChain hchain).to_reflTransGen
  exact (List.nodup_cons.mp hnodup).1 (hclosed start hback)

theorem Cycle.disjoint {first second : List α} (hfirst : Cycle r first) (hsecond : Cycle r second)
    {a : α} (ha : a ∈ second) (hnot : a ∉ first) : List.Disjoint first second := by
  intro b hb hb'
  exact hnot (hfirst.mem_of_reach hdet hb (hsecond.transGen hb' ha).to_reflTransGen)

end Deterministic

end Neutron.FunctionalGraph
