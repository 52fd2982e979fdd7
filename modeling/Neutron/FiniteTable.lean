import Mathlib.Algebra.BigOperators.Group.List.Basic
import Mathlib.Algebra.GroupWithZero.Nat
import Mathlib.Algebra.Order.BigOperators.Group.List
import Mathlib.Algebra.Order.Group.Nat
import Mathlib.Data.Finmap
import Mathlib.Data.Fintype.BigOperators
import Mathlib.Data.List.AList

/-!
# Totals over finite tables

Association lists without duplicate keys, with the in-place updates a mutable
hash map offers and the sum of a weight over the entries. Every lemma about a
total states the effect of one table operation, so that an invariant about
"the number of places holding `x`" is proved by adding up such effects.
-/

universe u v w

/-- The total of a weight over a finite family when one member is replaced. -/
theorem sum_update_add {ι : Type u} {β : Type v} [Fintype ι] [DecidableEq ι] (weight : β → ℕ) (f : ι → β)
    (i : ι) (b : β) :
    ∑ j, weight (Function.update f i b j) + weight (f i) = ∑ j, weight (f j) + weight b := by
  have hother : ∑ j ∈ Finset.univ.erase i, weight (Function.update f i b j)
      = ∑ j ∈ Finset.univ.erase i, weight (f j) :=
    Finset.sum_congr rfl (fun j hj => by rw [Function.update_of_ne (Finset.ne_of_mem_erase hj)])
  have hnew := Finset.add_sum_erase Finset.univ (fun j => weight (Function.update f i b j)) (Finset.mem_univ i)
  have hold := Finset.add_sum_erase Finset.univ (fun j => weight (f j)) (Finset.mem_univ i)
  simp only [Function.update_self] at hnew
  omega

namespace AList

variable {α : Type u} {V : Type v} {W : Type w}

def mapWithKey (f : α → V → W) (s : AList (fun _ : α => V)) : AList (fun _ : α => W) where
  entries := s.entries.map (fun e => ⟨e.1, f e.1 e.2⟩)
  nodupKeys := by
    have hk : (s.entries.map (fun e => (⟨e.1, f e.1 e.2⟩ : Σ _ : α, W))).keys = s.entries.keys := by
      simp [List.keys, Function.comp_def]
    rw [List.NodupKeys, hk]
    exact s.nodupKeys

/-- The sum of a weight over all entries. -/
def total (f : α → V → ℕ) (s : AList (fun _ : α => V)) : ℕ :=
  (s.entries.map (fun e => f e.1 e.2)).sum

def size (s : AList (fun _ : α => V)) : ℕ := s.entries.length

/-- The entries whose value passes the test. -/
def filterVals (p : V → Bool) (s : AList (fun _ : α => V)) : AList (fun _ : α => V) where
  entries := s.entries.filter (fun e => p e.2)
  nodupKeys := s.nodupKeys.sublist List.filter_sublist

/-- The entries whose key passes the test. -/
def filterKeys (p : α → Bool) (s : AList (fun _ : α => V)) : AList (fun _ : α => V) where
  entries := s.entries.filter (fun e => p e.1)
  nodupKeys := s.nodupKeys.sublist List.filter_sublist

@[simp] theorem keys_mapWithKey (f : α → V → W) (s : AList (fun _ : α => V)) :
    (s.mapWithKey f).keys = s.keys := by
  simp [mapWithKey, keys, List.keys, Function.comp_def]

@[simp] theorem total_empty (f : α → V → ℕ) : total f (∅ : AList (fun _ : α => V)) = 0 := rfl

theorem total_mapWithKey (f : α → W → ℕ) (g : α → V → W) (s : AList (fun _ : α => V)) :
    total f (s.mapWithKey g) = total (fun k v => f k (g k v)) s := by
  simp [total, mapWithKey, Function.comp_def]

theorem size_eq_total (s : AList (fun _ : α => V)) : s.size = total (fun _ _ => 1) s := by
  simp [size, total]

variable {f : α → V → ℕ}

theorem total_filterVals {p : V → Bool} (s : AList (fun _ : α => V))
    (h : ∀ a v, p v = false → f a v = 0) : total f (s.filterVals p) = total f s := by
  unfold total filterVals
  dsimp only
  induction s.entries with
  | nil => rfl
  | cons e l ih =>
    by_cases hp : p e.2
    · simp [hp, ih]
    · simp [hp, ih, h e.1 e.2 (Bool.not_eq_true _ ▸ hp)]

variable [DecidableEq α]

def modify (a : α) (f : V → V) (s : AList (fun _ : α => V)) : AList (fun _ : α => V) :=
  s.mapWithKey (fun k v => if k = a then f v else v)

@[simp] theorem lookup_mapWithKey (f : α → V → W) (s : AList (fun _ : α => V)) (a : α) :
    (s.mapWithKey f).lookup a = (s.lookup a).map (f a) :=
  List.dlookup_map₂ a

theorem lookup_modify (a k : α) (f : V → V) (s : AList (fun _ : α => V)) :
    (s.modify a f).lookup k = if k = a then (s.lookup k).map f else s.lookup k := by
  rw [modify, lookup_mapWithKey]
  by_cases hk : k = a
  · simp [hk]
  · simp [hk]

@[simp] theorem lookup_modify_self (a : α) (f : V → V) (s : AList (fun _ : α => V)) :
    (s.modify a f).lookup a = (s.lookup a).map f := by
  simp [lookup_modify]

theorem lookup_modify_ne {a k : α} (h : k ≠ a) (f : V → V) (s : AList (fun _ : α => V)) :
    (s.modify a f).lookup k = s.lookup k := by
  simp [lookup_modify, h]

theorem lookup_insert_ite (a k : α) (v : V) (s : AList (fun _ : α => V)) :
    (s.insert a v).lookup k = if k = a then some v else s.lookup k := by
  by_cases hk : k = a
  · subst hk
    simp
  · simp [hk]

theorem lookup_erase_ite (a k : α) (s : AList (fun _ : α => V)) :
    (s.erase a).lookup k = if k = a then none else s.lookup k := by
  by_cases hk : k = a
  · subst hk
    simp
  · simp [hk]

variable {s : AList (fun _ : α => V)} {a : α}

/-- The entry of `a` splits the entry list, and `a` occurs on neither side. -/
theorem exists_split {v : V} (h : s.lookup a = some v) :
    ∃ l₁ l₂, s.entries = l₁ ++ ⟨a, v⟩ :: l₂ ∧ (∀ e ∈ l₁, e.1 ≠ a) ∧ (∀ e ∈ l₂, e.1 ≠ a) := by
  obtain ⟨l₁, l₂, hl⟩ := List.append_of_mem (mem_lookup_iff.mp h)
  have hnd : (s.entries.map Sigma.fst).Nodup := s.nodupKeys
  rw [hl, List.map_append, List.map_cons, List.nodup_append, List.nodup_cons] at hnd
  refine ⟨l₁, l₂, hl, ?_, ?_⟩
  · intro e he hea
    exact hnd.2.2 e.1 (List.mem_map_of_mem he) a (by simp) hea
  · intro e he hea
    have hm : e.1 ∈ l₂.map Sigma.fst := List.mem_map_of_mem he
    rw [hea] at hm
    exact hnd.2.1.1 hm

theorem erase_of_lookup_none (h : s.lookup a = none) : s.erase a = s :=
  AList.ext (List.kerase_of_notMem_keys (lookup_eq_none.mp h))

theorem modify_of_lookup_none (f : V → V) (h : s.lookup a = none) : s.modify a f = s := by
  have hne : ∀ e ∈ s.entries, e.1 ≠ a := by
    intro e he hea
    exact lookup_eq_none.mp h (hea ▸ List.mem_map_of_mem he)
  apply AList.ext
  calc
    _ = s.entries.map id := List.map_congr_left (fun e he => by simp [hne e he])
    _ = s.entries := List.map_id _

theorem total_congr {f g : α → V → ℕ}
    (h : ∀ a v, s.lookup a = some v → f a v = g a v) : total f s = total g s := by
  unfold total
  congr 1
  apply List.map_congr_left
  intro e he
  exact h e.1 e.2 (mem_lookup_iff.mpr he)

theorem total_le_total {f g : α → V → ℕ}
    (h : ∀ a v, s.lookup a = some v → f a v ≤ g a v) : total f s ≤ total g s := by
  unfold total
  apply List.sum_le_sum
  intro e he
  exact h e.1 e.2 (mem_lookup_iff.mpr he)

theorem total_erase {v : V} (h : s.lookup a = some v) : total f (s.erase a) + f a v = total f s := by
  obtain ⟨l₁, l₂, hl, h₁, -⟩ := exists_split h
  have hn : a ∉ l₁.keys := by
    intro ha
    obtain ⟨e, he, hea⟩ := List.mem_map.mp ha
    exact h₁ e he hea
  have he : (s.erase a).entries = l₁ ++ l₂ := by
    change List.kerase a s.entries = _
    have hc : List.kerase a ((⟨a, v⟩ : Σ _ : α, V) :: l₂) = l₂ := List.kerase_cons_eq rfl
    rw [hl, List.kerase_append_right hn, hc]
  simp only [total, he, hl, List.map_append, List.map_cons, List.sum_append, List.sum_cons]
  omega

theorem total_insert (v : V) (h : s.lookup a = none) : total f (s.insert a v) = f a v + total f s := by
  rw [total, entries_insert_of_notMem (lookup_eq_none.mp h), List.map_cons, List.sum_cons]
  rfl

theorem total_insert_replace {v : V} (w : V)
    (h : s.lookup a = some v) : total f (s.insert a w) + f a v = f a w + total f s := by
  have he : total f (s.insert a w) = f a w + total f (s.erase a) := by
    simp [total, entries_insert, AList.erase]
  rw [he, add_assoc, total_erase h]

/-- An entry of no weight takes the place of whatever stood there. -/
theorem total_insert_zero (s : AList (fun _ : α => V)) {v : V} (hv : f a v = 0) :
    total f (s.insert a v) + ((s.lookup a).map (f a)).getD 0 = total f s := by
  cases h : s.lookup a with
  | none =>
    rw [total_insert v h, hv]
    simp
  | some w =>
    have := total_insert_replace (f := f) v h
    simp only [Option.map_some, Option.getD_some]
    omega

theorem total_modify {v : V} (g : V → V)
    (h : s.lookup a = some v) : total f (s.modify a g) + f a v = total f s + f a (g v) := by
  obtain ⟨l₁, l₂, hl, h₁, h₂⟩ := exists_split h
  have hm (l : List (Σ _ : α, V)) (hne : ∀ e ∈ l, e.1 ≠ a) :
      (l.map (fun e => f e.1 (if e.1 = a then g e.2 else e.2))) = l.map (fun e => f e.1 e.2) :=
    List.map_congr_left (fun e he => by rw [if_neg (hne e he)])
  rw [modify, total_mapWithKey]
  simp only [total, hl, List.map_append, List.map_cons, List.sum_append, List.sum_cons,
    hm l₁ h₁, hm l₂ h₂, if_true]
  omega

theorem lookup_filterVals (p : V → Bool) (s : AList (fun _ : α => V)) (a : α) :
    (s.filterVals p).lookup a = (s.lookup a).filter p := by
  cases h : s.lookup a with
  | none =>
    rw [Option.filter_none, lookup_eq_none]
    intro hm
    obtain ⟨e, he, rfl⟩ := List.mem_map.mp (mem_keys.mp hm)
    exact lookup_eq_none.mp h (List.mem_map_of_mem (List.mem_of_mem_filter he))
  | some v =>
    have hv := mem_lookup_iff.mp h
    by_cases hp : p v
    · rw [Option.filter_some_pos hp]
      exact mem_lookup_iff.mpr (List.mem_filter.mpr ⟨hv, hp⟩)
    · rw [Option.filter_some_neg (Bool.not_eq_true _ ▸ hp), lookup_eq_none]
      intro hm
      obtain ⟨e, he, rfl⟩ := List.mem_map.mp (mem_keys.mp hm)
      obtain ⟨hm, hpe⟩ := List.mem_filter.mp he
      have hes := mem_lookup_iff.mpr hm
      rw [Option.mem_def, h, Option.some_inj] at hes
      rw [hes] at hp
      exact hp hpe

theorem le_total {v : V} (h : s.lookup a = some v) : f a v ≤ total f s := by
  have := total_erase (f := f) h
  omega

theorem add_le_total {a b : α} {v w : V} (hab : b ≠ a)
    (ha : s.lookup a = some v) (hb : s.lookup b = some w) : f a v + f b w ≤ total f s := by
  have he := total_erase (f := f) ha
  have hle : f b w ≤ total f (s.erase a) := le_total ((lookup_erase_ne hab).trans hb)
  omega

theorem exists_of_total_pos (h : 0 < total f s) : ∃ a v, s.lookup a = some v ∧ 0 < f a v := by
  obtain ⟨n, hn, hpos⟩ : ∃ n ∈ s.entries.map (fun e => f e.1 e.2), 0 < n := by
    by_contra hc
    push Not at hc
    exact h.ne' (List.sum_eq_zero (fun n hn => Nat.le_zero.mp (hc n hn)))
  obtain ⟨e, he, rfl⟩ := List.mem_map.mp hn
  exact ⟨e.1, e.2, mem_lookup_iff.mpr he, hpos⟩

theorem total_eq_zero (h : ∀ a v, s.lookup a = some v → f a v = 0) : total f s = 0 := by
  by_contra hc
  obtain ⟨a, v, hv, hpos⟩ := exists_of_total_pos (Nat.pos_of_ne_zero hc)
  exact hpos.ne' (h a v hv)

end AList
