import Mathlib.Data.Set.Lattice

/-!
# Gen-kill transfer functions

A transfer adds the facts in `gen` and drops those in `kill`. Transfers are closed under
composition and union, and a loop whose body is one has its closure after a single pass.
-/

namespace Neutron

variable {α : Type*}

structure GenKill (α : Type*) where
  gen : Set α
  kill : Set α

namespace GenKill

def apply (t : GenKill α) (m : Set α) : Set α := t.gen ∪ (m \ t.kill)

def id : GenKill α := ⟨∅, ∅⟩

def seq (t u : GenKill α) : GenKill α := ⟨u.gen ∪ (t.gen \ u.kill), t.kill ∪ u.kill⟩

def join (t u : GenKill α) : GenKill α := ⟨t.gen ∪ u.gen, t.kill ∩ u.kill⟩

@[simp] theorem apply_id (m : Set α) : (id : GenKill α).apply m = m := by
  simp [id, apply]

@[simp] theorem apply_seq (t u : GenKill α) (m : Set α) :
    (t.seq u).apply m = u.apply (t.apply m) := by
  ext a
  simp only [seq, apply, Set.mem_union, Set.mem_sdiff]
  tauto

@[simp] theorem apply_join (t u : GenKill α) (m : Set α) :
    (t.join u).apply m = t.apply m ∪ u.apply m := by
  ext a
  simp only [join, apply, Set.mem_union, Set.mem_sdiff, Set.mem_inter_iff]
  tauto

/-- Facts that are not killed survive. -/
theorem mem_apply_of_mem {t : GenKill α} {m : Set α} {a : α} (ha : a ∈ m) (hk : a ∉ t.kill) :
    a ∈ t.apply m := .inr ⟨ha, hk⟩

/-- One pass from a state that already contains one pass adds nothing. -/
theorem apply_union_apply_subset (t : GenKill α) (m : Set α) :
    t.apply (m ∪ t.apply m) ⊆ m ∪ t.apply m := by
  intro a ha
  rcases ha with ha | ⟨ha, -⟩
  · exact .inr (.inl ha)
  · exact ha

theorem apply_mono (t : GenKill α) {m m' : Set α} (h : m ⊆ m') : t.apply m ⊆ t.apply m' := by
  intro a ha
  exact ha.imp_right fun hm => ⟨h hm.1, hm.2⟩

/-- What one pass does not leave, no number of passes leaves. -/
theorem iterate_subset (t : GenKill α) {m c : Set α} (hm : m ⊆ c) (hc : t.apply c ⊆ c) (n : ℕ) :
    t.apply^[n] m ⊆ c := by
  induction n with
  | zero => exact hm
  | succ n ih =>
    rw [Function.iterate_succ_apply']
    exact (t.apply_mono ih).trans hc

end GenKill

end Neutron
