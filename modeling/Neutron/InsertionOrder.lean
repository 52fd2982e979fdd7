import Neutron.RegistryArrays

/-!
# What the insertion loop does to positions

`array_sort` permutes a vector by adjacent swaps. Followed by the position each element began at, one
round of the outer loop inserts the next position somewhere to the left; where depends on the
comparison. Comparing the elements themselves this is a stable sort. Comparing texts that stay where they
were, it reverses every strictly descending run.
-/

namespace Neutron

variable (out : ℕ → Int → Int → Bool)

theorem swapAt_append (front : List Int) (y x : Int) (rest : List Int) :
    swapAt (front ++ y :: x :: rest) front.length (front.length + 1) = front ++ x :: y :: rest := by
  have hy : (front ++ y :: x :: rest).getD front.length 0 = y := by
    rw [List.getD_eq_getElem?_getD, List.getElem?_append_right le_rfl, Nat.sub_self]
    rfl
  have hx : (front ++ y :: x :: rest).getD (front.length + 1) 0 = x := by
    rw [List.getD_eq_getElem?_getD, List.getElem?_append_right (by omega), Nat.add_sub_cancel_left]
    rfl
  rw [swapAt, hx, hy, List.set_append_right _ _ le_rfl, Nat.sub_self,
    List.set_append_right _ _ (by omega), Nat.add_sub_cancel_left]
  rfl

/-- The inner loop moves one element left, past those the comparison puts after it. -/
theorem sinkLeft_append (front : List Int) (x : Int) (rest : List Int) :
    ∃ left right, front = left ++ right ∧
      sinkLeft out front.length (front ++ x :: rest) = left ++ x :: (right ++ rest) ∧
      (∀ k y, right[k]? = some y → out (left.length + k + 1) y x = true) ∧
      ∀ y, left.getLast? = some y → out left.length y x = false := by
  induction front using List.reverseRecOn generalizing rest with
  | nil => exact ⟨[], [], rfl, rfl, fun k y h => absurd h (by simp), fun y h => absurd h (by simp)⟩
  | append_singleton front y ih =>
    rw [List.length_append, List.length_singleton, sinkLeft, List.append_assoc]
    have hy : (front ++ ([y] ++ x :: rest)).getD front.length 0 = y := by
      rw [List.getD_eq_getElem?_getD, List.getElem?_append_right le_rfl, Nat.sub_self]
      rfl
    have hx : (front ++ ([y] ++ x :: rest)).getD (front.length + 1) 0 = x := by
      rw [List.getD_eq_getElem?_getD, List.getElem?_append_right (by omega), Nat.add_sub_cancel_left]
      rfl
    rw [hy, hx]
    by_cases hout : out (front.length + 1) y x = true
    · rw [if_pos hout]
      obtain ⟨left, right, hsplit, hsink, hpast, hstop⟩ := ih (y :: rest)
      refine ⟨left, right ++ [y], by rw [hsplit, List.append_assoc], ?_, fun k z hz => ?_, hstop⟩
      · change sinkLeft out front.length (swapAt (front ++ y :: x :: rest) _ _) = _
        rw [swapAt_append, hsink, List.append_assoc]
        rfl
      · by_cases hk : k < right.length
        · rw [List.getElem?_append_left hk] at hz
          exact hpast k z hz
        · rw [List.getElem?_append_right (by omega)] at hz
          have hlast : k - right.length = 0 := by
            by_contra hne
            rw [List.getElem?_eq_none_iff.mpr (by rw [List.length_singleton]; omega)] at hz
            cases hz
          rw [hlast] at hz
          obtain rfl : y = z := Option.some.inj hz
          have hlength : left.length + k + 1 = front.length + 1 := by
            rw [hsplit, List.length_append]
            omega
          rw [hlength]
          exact hout
    · rw [if_neg hout]
      refine ⟨front ++ [y], [], (List.append_nil _).symm, ?_, fun k z hz => absurd hz (by simp),
        fun z hz => ?_⟩
      · rw [List.append_assoc]
        rfl
      · rw [List.getLast?_concat] at hz
        obtain rfl : y = z := Option.some.inj hz
        rw [List.length_append, List.length_singleton]
        exact Bool.not_eq_true _ ▸ hout

theorem map_getD_range (l : List Int) : (List.range l.length).map (l.getD · 0) = l := by
  apply List.ext_getElem
  · rw [List.length_map, List.length_range]
  · intro i hi hi'
    rw [List.getElem_map, List.getElem_range, List.getD_eq_getElem?_getD, List.getElem?_eq_getElem hi']
    rfl

/-- An invariant of the outer loop over the positions sorted so far. -/
theorem insertionSort_positions {l : List Int} {I : ℕ → List ℕ → Prop} (hstart : I 0 [])
    (hstep : ∀ i left right, i < l.length → I i (left ++ right) → (left ++ right).Perm (List.range i) →
      (∀ k p, right[k]? = some p → out (left.length + k + 1) (l.getD p 0) (l.getD i 0) = true) →
      (∀ p, left.getLast? = some p → out left.length (l.getD p 0) (l.getD i 0) = false) →
        I (i + 1) (left ++ i :: right)) :
    ∃ order, I l.length order ∧ order.Perm (List.range l.length) ∧
      insertionSort out l = order.map (l.getD · 0) := by
  have hloop : ∀ count i order, i + count = l.length → I i order → order.Perm (List.range i) →
      ∃ final, I l.length final ∧ final.Perm (List.range l.length) ∧
        (List.range' i count).foldl (fun l i => sinkLeft out i l)
          (order.map (l.getD · 0) ++ (List.range' i count).map (l.getD · 0)) = final.map (l.getD · 0) := by
    intro count
    induction count with
    | zero =>
      intro i order hcount hI hperm
      obtain rfl : i = l.length := by omega
      exact ⟨order, hI, hperm, List.append_nil _⟩
    | succ count ih =>
      intro i order hcount hI hperm
      have hlength : (order.map (l.getD · 0)).length = i := by
        rw [List.length_map, hperm.length_eq, List.length_range]
      obtain ⟨left, right, hsplit, hsink, hpast, hstop⟩ := sinkLeft_append out
        (order.map (l.getD · 0)) (l.getD i 0) ((List.range' (i + 1) count).map (l.getD · 0))
      obtain ⟨before, after, rfl, rfl, rfl⟩ := List.map_eq_append_iff.mp hsplit
      rw [hlength] at hsink
      have hnext : I (i + 1) (before ++ i :: after) := by
        refine hstep i before after (by omega) hI hperm (fun k p hp => ?_) (fun p hp => ?_)
        · have hmapped := hpast k (l.getD p 0) (by rw [List.getElem?_map, hp]; rfl)
          rwa [List.length_map] at hmapped
        · have hmapped := hstop (l.getD p 0) (by rw [List.getLast?_map, hp]; rfl)
          rwa [List.length_map] at hmapped
      have hperm' : (before ++ i :: after).Perm (List.range (i + 1)) := by
        rw [List.range_succ]
        exact (List.perm_middle.trans (hperm.cons i)).trans (List.perm_append_singleton i _).symm
      obtain ⟨final, hfinal, hfinalPerm, hfold⟩ := ih (i + 1) _ (by omega) hnext hperm'
      refine ⟨final, hfinal, hfinalPerm, ?_⟩
      rw [List.range'_succ, List.foldl_cons, List.map_cons, hsink, ← hfold, List.map_append, List.map_cons,
        List.append_assoc]
      rfl
  by_cases hempty : l.length = 0
  · have hnil : l = [] := List.length_eq_zero_iff.mp hempty
    subst hnil
    exact ⟨[], hstart, .refl _, rfl⟩
  · have hfirst : I 1 [0] := hstep 0 [] [] (by omega) hstart (.refl _) (fun k p hp => absurd hp (by simp))
      (fun p hp => absurd hp (by simp))
    obtain ⟨final, hfinal, hperm, hfold⟩ := hloop (l.length - 1) 1 [0] (by omega) hfirst (.refl _)
    refine ⟨final, hfinal, hperm, ?_⟩
    have hlist : ([0].map (l.getD · 0) ++ (List.range' 1 (l.length - 1)).map (l.getD · 0)) = l := by
      rw [← List.map_append]
      have hrange : [0] ++ List.range' 1 (l.length - 1) = List.range l.length := by
        obtain ⟨n, hn⟩ : ∃ n, l.length = n + 1 := ⟨l.length - 1, by omega⟩
        rw [hn, List.range_eq_range', List.range'_succ]
        rfl
      rw [hrange, map_getD_range]
    rw [hlist] at hfold
    exact hfold

/-! ### Comparing the elements -/

/-- The order of a stable sort: by key, then by position. -/
def Before {α : Type} [LinearOrder α] (key : ℕ → α) (p q : ℕ) : Prop := key p < key q ∨ key p = key q ∧ p < q

/-- One round: the next position goes behind those whose element is not larger. -/
theorem stable_insert (l : List Int) (i : ℕ) (left right : List ℕ)
    (hsorted : (left ++ right).Pairwise (Before (l.getD · 0))) (hperm : (left ++ right).Perm (List.range i))
    (hpast : ∀ (k p : ℕ), right[k]? = some p → decide (l.getD i 0 < l.getD p 0) = true)
    (hstop : ∀ (p : ℕ), left.getLast? = some p → decide (l.getD i 0 < l.getD p 0) = false) :
    (left ++ i :: right).Pairwise (Before (l.getD · 0)) := by
  have hbelow : ∀ p ∈ left ++ right, p < i := fun p hp => List.mem_range.mp (hperm.mem_iff.mp hp)
  obtain ⟨hleft, hright, hacross⟩ := List.pairwise_append.mp hsorted
  refine List.pairwise_append.mpr ⟨hleft, List.pairwise_cons.mpr ⟨fun q hq => ?_, hright⟩, ?_⟩
  · obtain ⟨k, hk⟩ := List.mem_iff_getElem?.mp hq
    exact .inl (of_decide_eq_true (hpast k q hk))
  · have hinserted : ∀ p ∈ left, Before (l.getD · 0) p i := by
      intro p hp
      obtain ⟨last, hlast⟩ : ∃ last, left.getLast? = some last := by
        cases hl : left.getLast? with
        | none =>
          rw [List.getLast?_eq_none_iff.mp hl] at hp
          cases hp
        | some last => exact ⟨last, rfl⟩
      have hle : l.getD last 0 ≤ l.getD i 0 := not_lt.mp (of_decide_eq_false (hstop last hlast))
      have hupto : l.getD p 0 ≤ l.getD last 0 := by
        obtain ⟨front, rfl⟩ := List.getLast?_eq_some_iff.mp hlast
        rcases List.mem_append.mp hp with hfront | hend
        · rcases (List.pairwise_append.mp hleft).2.2 p hfront last (List.mem_singleton_self _) with h | h
          · exact h.le
          · exact h.1.le
        · rw [List.mem_singleton.mp hend]
      have hlt := hbelow p (List.mem_append_left _ hp)
      rcases lt_or_eq_of_le (hupto.trans hle) with h | h
      · exact .inl h
      · exact .inr ⟨h, hlt⟩
    intro p hp q hq
    rcases List.mem_cons.mp hq with rfl | hq
    · exact hinserted p hp
    · exact hacross p hp q hq

/-- Comparing the elements themselves, the loop is a stable sort. -/
theorem insertionSort_stable (l : List Int) :
    ∃ order : List ℕ, order.Perm (List.range l.length) ∧ order.Pairwise (Before (l.getD · 0)) ∧
      insertionSort (fun _ a b => b < a) l = order.map (l.getD · 0) := by
  obtain ⟨order, hsorted, hperm, hresult⟩ := insertionSort_positions (fun _ a b => b < a) (l := l)
    (I := fun _ order => order.Pairwise (Before (l.getD · 0))) List.Pairwise.nil
    (fun i left right _ => stable_insert l i left right)
  exact ⟨order, hperm, hsorted, hresult⟩

/-! ### Comparing texts that do not move -/

section Runs
variable {α : Type} [LinearOrder α] {t : ℕ → α}

/-- Every step from `i` to `j` goes strictly down. -/
def Descends (t : ℕ → α) (i j : ℕ) : Prop := ∀ k, i ≤ k → k < j → t (k + 1) < t k

theorem Descends.lt {i j : ℕ} (h : Descends t i j) (hij : i < j) : t j < t i := by
  induction j with
  | zero => omega
  | succ j ih =>
    have hlast := h j (by omega) (Nat.lt_succ_self j)
    by_cases hj : i = j
    · rw [hj]
      exact hlast
    · exact hlast.trans (ih (fun k hk hkj => h k hk (by omega)) (by omega))

/-- The order with every maximal descending run reversed. -/
def RunsReversed (t : ℕ → α) (p q : ℕ) : Prop := p < q ∧ ¬ Descends t p q ∨ q < p ∧ Descends t q p

/-- The positions after `i` rounds: the last run is reversed behind everything before it. -/
def RunsOrder (t : ℕ → α) (i : ℕ) (order : List ℕ) : Prop :=
  order.Pairwise (RunsReversed t) ∧ (0 < i → ∃ s < i, ∃ front,
    order = front ++ (List.range' s (i - s)).reverse ∧ front.length = s ∧ (∀ p ∈ front, p < s) ∧
      Descends t s (i - 1) ∧ (0 < s → ¬ t s < t (s - 1)))

theorem runsOrder_step (i : ℕ) (left right : List ℕ) (h : RunsOrder t i (left ++ right))
    (hperm : (left ++ right).Perm (List.range i))
    (hpast : ∀ (k p : ℕ), right[k]? = some p →
      decide (t (left.length + k + 1) < t (left.length + k + 1 - 1)) = true)
    (hstop : ∀ (p : ℕ), left.getLast? = some p → decide (t left.length < t (left.length - 1)) = false) :
    RunsOrder t (i + 1) (left ++ i :: right) := by
  obtain ⟨hpairs, hrun⟩ := h
  have hlength : left.length + right.length = i := by
    have := hperm.length_eq
    rwa [List.length_append, List.length_range] at this
  have hdown : Descends t left.length i := by
    intro k hk hki
    have hin : k - left.length < right.length := by omega
    have := of_decide_eq_true (hpast (k - left.length) _ (List.getElem?_eq_getElem hin))
    have hindex : left.length + (k - left.length) = k := by omega
    rwa [hindex] at this
  have hflat : 0 < left.length → ¬ t left.length < t (left.length - 1) := by
    intro hpos
    cases hlast : left.getLast? with
    | none =>
      rw [List.getLast?_eq_none_iff.mp hlast] at hpos
      exact absurd hpos (Nat.lt_irrefl 0)
    | some p => exact of_decide_eq_false (hstop p hlast)
  by_cases hnew : right = []
  · subst hnew
    rw [List.length_nil, Nat.add_zero] at hlength
    rw [List.append_nil] at hperm hpairs
    have hbelow : ∀ p ∈ left, p < i := fun p hp => List.mem_range.mp (hperm.mem_iff.mp hp)
    refine ⟨List.pairwise_append.mpr ⟨hpairs, List.pairwise_singleton _ _, fun p hp q hq => ?_⟩,
      fun _ => ⟨i, Nat.lt_succ_self i, left, ?_, hlength, hbelow, fun k hk hki => by omega, fun hpos => ?_⟩⟩
    · rw [List.mem_singleton.mp hq]
      have hp' := hbelow p hp
      refine .inl ⟨hp', fun hdescends => ?_⟩
      have hlast := hdescends (i - 1) (by omega) (by omega)
      have hstep : i - 1 + 1 = i := by omega
      rw [hstep] at hlast
      rw [← hlength] at hlast
      exact hflat (by omega) hlast
    · rw [Nat.add_sub_cancel_left]
      rfl
    · rw [← hlength]
      exact hflat (by omega)
  · have hright : 0 < right.length := List.length_pos_iff.mpr hnew
    obtain ⟨s, hs, front, horder, hfront, hsmall, hrunDown, hsFlat⟩ := hrun (by omega)
    have hstart : left.length = s := by
      by_contra hne
      rcases Nat.lt_or_gt_of_ne hne with hlt | hgt
      · have hdrop := hdown (s - 1) (by omega) (by omega)
        have hstep : s - 1 + 1 = s := by omega
        rw [hstep] at hdrop
        exact hsFlat (by omega) hdrop
      · have hdrop := hrunDown (left.length - 1) (by omega) (by omega)
        have hstep : left.length - 1 + 1 = left.length := by omega
        rw [hstep] at hdrop
        exact hflat (by omega) hdrop
    obtain ⟨rfl, rfl⟩ := List.append_inj horder (hstart.trans hfront.symm)
    have hmem : ∀ q ∈ (List.range' s (i - s)).reverse, s ≤ q ∧ q < i := by
      intro q hq
      rw [List.mem_reverse, List.mem_range'_1] at hq
      omega
    rw [hstart] at hdown
    obtain ⟨hleftPairs, hrightPairs, hacross⟩ := List.pairwise_append.mp hpairs
    refine ⟨List.pairwise_append.mpr ⟨hleftPairs, List.pairwise_cons.mpr ⟨fun q hq => ?_, hrightPairs⟩,
      fun p hp q hq => ?_⟩, fun _ => ⟨s, by omega, left, ?_, hstart, hsmall, ?_, hsFlat⟩⟩
    · obtain ⟨hsq, hqi⟩ := hmem q hq
      exact .inr ⟨hqi, fun k hk hki => hdown k (by omega) hki⟩
    · rcases List.mem_cons.mp hq with rfl | hq
      · have hp' := hsmall p hp
        refine .inl ⟨by omega, fun hdescends => ?_⟩
        have hdrop := hdescends (s - 1) (by omega) (by omega)
        have hstep : s - 1 + 1 = s := by omega
        rw [hstep] at hdrop
        exact hsFlat (by omega) hdrop
      · exact hacross p hp q hq
    · have hcount : i + 1 - s = (i - s) + 1 := by omega
      have hlast : s + (i - s) = i := by omega
      rw [hcount, List.range'_concat, List.reverse_append, Nat.one_mul, hlast]
      rfl
    · exact fun k hk hki => hdown k hk (by omega)

/-- Comparing texts by position, the loop reverses the maximal strictly descending runs. -/
theorem insertionSort_runs (t : ℕ → α) (l : List Int) :
    ∃ order : List ℕ, order.Perm (List.range l.length) ∧ order.Pairwise (RunsReversed t) ∧
      insertionSort (fun j _ _ => t j < t (j - 1)) l = order.map (l.getD · 0) := by
  obtain ⟨order, hruns, hperm, hresult⟩ := insertionSort_positions (fun j _ _ => t j < t (j - 1)) (l := l)
    (I := RunsOrder t) ⟨List.Pairwise.nil, fun h => absurd h (Nat.lt_irrefl 0)⟩
    (fun i left right _ => runsOrder_step i left right)
  exact ⟨order, hperm, hruns.1, hresult⟩

theorem either_order {R : ℕ → ℕ → Prop} {order : List ℕ} (h : order.Pairwise R) {p q : ℕ} (hp : p ∈ order)
    (hq : q ∈ order) (hne : p ≠ q) : R p q ∨ R q p := by
  have hboth : order.Pairwise (fun p q => R p q ∨ R q p) := h.imp .inl
  have : Std.Symm (fun p q => R p q ∨ R q p) := ⟨fun _ _ => Or.symm⟩
  exact hboth.forall hp hq hne

/-- Reversing the runs sorts exactly when every inversion lies inside one run. -/
theorem runsReversed_sorted_iff {n : ℕ} {order : List ℕ} (hperm : order.Perm (List.range n))
    (hruns : order.Pairwise (RunsReversed t)) :
    order.Pairwise (Before t) ↔ ∀ i j, i < j → j < n → t j < t i → Descends t i j := by
  have hmem : ∀ p, p ∈ order ↔ p < n := fun p => by rw [hperm.mem_iff, List.mem_range]
  constructor
  · intro hsorted i j hij hj hless
    have hboth := either_order (hsorted.and hruns) ((hmem i).mpr (by omega)) ((hmem j).mpr hj) (by omega)
    rcases hboth with ⟨hbefore, -⟩ | ⟨-, hrun⟩
    · rcases hbefore with h | h
      · exact absurd h hless.asymm
      · exact absurd h.1 hless.ne'
    · rcases hrun with h | h
      · omega
      · exact h.2
  · intro hinside
    refine hruns.imp_of_mem fun {p q} hp hq hrun => ?_
    rcases hrun with ⟨hpq, hflat⟩ | ⟨hqp, hdown⟩
    · have hle : t p ≤ t q := not_lt.mp fun hless => hflat (hinside p q hpq ((hmem q).mp hq) hless)
      rcases lt_or_eq_of_le hle with h | h
      · exact .inl h
      · exact .inr ⟨h, hpq⟩
    · exact .inl (hdown.lt hqp)

end Runs

end Neutron
