import Neutron.BinarySearch
import Mathlib.Algebra.BigOperators.Group.List.Basic
import Mathlib.Algebra.Order.BigOperators.Group.List

/-!
# Weighted choice

`random.weighted` checks the weights in one loop and picks an index in another. A failed check throws and
goes on, so that the second loop also runs over weights that were refused; there a negative weight is read
as an unsigned number just below `2 ^ 128`.
-/

namespace Neutron.Random

/-! ## The model -/

/-- The operations on `f64` of the second mode. -/
structure Floats where
  Num : Type
  ofBits : Int → Num
  zero : Num
  add : Num → Num → Num
  lt : Num → Num → Bool
  le : Num → Num → Bool
  /-- `draw as f64 / (u64::MAX as f64) * total` -/
  scale : ℕ → Num → Num

/-- The exceptions thrown, and the index returned; none when an operation overflows. -/
structure Outcome where
  throws : List String
  result : Option Int

def negativeWeight : String := "random.weighted: weights must be non-negative"

def noPositiveSum : String := "random.weighted: sum of weights must be positive"

def checkedWeight (negative : Bool) (throws : List String) : List String :=
  if negative then throws ++ [negativeWeight] else throws

/-- The weights as the loops over `0..len` read them. -/
def readWeights (r : Registry) (handle : Int) : List Int :=
  (List.range (r.arrayLen handle).toNat).map (fun i : ℕ => (r.arrayGet handle i).getD 0)

/-- The first loop: the exceptions thrown and the sum as an `i128`. -/
def totalInt : List Int → List String → Int → List String × Option Int
  | [], throws, total => (throws, some total)
  | weight :: rest, throws, total =>
    if -2 ^ 127 ≤ total + weight ∧ total + weight < 2 ^ 127 then
      totalInt rest (checkedWeight (weight < 0) throws) (total + weight)
    else (checkedWeight (weight < 0) throws, none)

/-- `weight as u128` -/
def asU128 (weight : Int) : Int := weight % 2 ^ 128

/-- The second loop from index `i` on: an index when the sum gets past `pick`; none at all when it
overflows. -/
def selectInt (pick : Int) : List Int → Int → Int → Option (Option Int)
  | [], _, _ => some none
  | weight :: rest, i, acc =>
    if acc + asU128 weight < 2 ^ 128 then
      if pick < acc + asU128 weight then some (some i) else selectInt pick rest (i + 1) (acc + asU128 weight)
    else none

def totalFloat (F : Floats) : List Int → List String → F.Num → List String × F.Num
  | [], throws, total => (throws, total)
  | bits :: rest, throws, total =>
    totalFloat F rest (checkedWeight (F.lt (F.ofBits bits) F.zero) throws) (F.add total (F.ofBits bits))

def selectFloat (F : Floats) (pick : F.Num) : List Int → Int → F.Num → Option Int
  | [], _, _ => none
  | bits :: rest, i, acc =>
    if F.lt pick (F.add acc (F.ofBits bits)) then some i else selectFloat F pick rest (i + 1) (F.add acc (F.ofBits bits))

/-- `draw` is what the generator gives. -/
def ntscRandomWeighted (F : Floats) (r : Registry) (handle mode : Int) (draw : ℕ) : Outcome :=
  let len := r.arrayLen handle
  let weights := readWeights r handle
  let throws := if len = 0 then ["random.weighted: weights array is empty"] else []
  if mode = 0 then
    match totalInt weights throws 0 with
    | (throws, none) => ⟨throws, none⟩
    | (throws, some total) =>
      if total ≤ 0 then ⟨throws ++ [noPositiveSum], some (-1)⟩
      else ⟨throws, (selectInt (draw % total) weights 0 0).map (·.getD (len - 1))⟩
  else
    let sums :=
      if mode = 1 then totalFloat F weights throws F.zero
      else (throws ++ ["random.weighted: unsupported element type"], F.zero)
    if F.le sums.2 F.zero then ⟨sums.1 ++ [noPositiveSum], some (-1)⟩
    else ⟨sums.1, some ((selectFloat F (F.scale draw sums.2) weights 0 F.zero).getD (len - 1))⟩

variable {r : Registry} {handle : Int}

theorem readWeights_eq : readWeights r handle = r.arrayToVec handle := by
  rw [readWeights, Sort.arrayLen_eq, Int.toNat_natCast]
  apply List.ext_getElem
  · rw [List.length_map, List.length_range]
  · intro n hn hn'
    rw [List.getElem_map, List.getElem_range, Sort.arrayGet_eq, List.getElem?_eq_getElem hn', Option.getD_some]

/-! ## The two loops -/

def Nonneg (weights : List Int) : Prop := ∀ w ∈ weights, 0 ≤ w

/-- The weights are `i64` values of a vector. -/
structure Fits (weights : List Int) : Prop where
  low : ∀ w ∈ weights, -2 ^ 63 ≤ w
  high : ∀ w ∈ weights, w < 2 ^ 63
  length : weights.length < 2 ^ 63

def refusals (weights : List Int) : List String := List.replicate (weights.countP (· < 0)) negativeWeight

variable {weights : List Int}

/-- One exception for each negative weight, and the sum, which is far from overflow. -/
theorem totalInt_eq (hlow : ∀ w ∈ weights, -2 ^ 63 ≤ w) (hhigh : ∀ w ∈ weights, w < 2 ^ 63)
    (throws : List String) (total : Int) (hbelow : -2 ^ 126 ≤ total - 2 ^ 63 * weights.length)
    (habove : total + 2 ^ 63 * weights.length ≤ 2 ^ 126) :
    totalInt weights throws total = (throws ++ refusals weights, some (total + weights.sum)) := by
  induction weights generalizing throws total with
  | nil => rw [totalInt, refusals, List.countP_nil, List.replicate_zero, List.append_nil, List.sum_nil, add_zero]
  | cons w weights ih =>
    obtain ⟨hw, hlow⟩ := List.forall_mem_cons.mp hlow
    obtain ⟨hw', hhigh⟩ := List.forall_mem_cons.mp hhigh
    rw [List.length_cons] at hbelow habove
    have hfits : -2 ^ 127 ≤ total + w ∧ total + w < 2 ^ 127 := by omega
    rw [totalInt, if_pos hfits, ih hlow hhigh _ _ (by omega) (by omega), List.sum_cons, add_assoc]
    congr 1
    rw [checkedWeight, refusals, refusals]
    by_cases hneg : w < 0
    · rw [if_pos (decide_eq_true hneg), List.countP_cons, if_pos (decide_eq_true hneg), List.replicate_succ,
        List.append_assoc, List.singleton_append]
    · rw [if_neg (by simpa using hneg), List.countP_cons, if_neg (by simpa using hneg), add_zero]

theorem asU128_nonneg {w : Int} (h : 0 ≤ w) (hlt : w < 2 ^ 128) : asU128 w = w := Int.emod_eq_of_lt h hlt

theorem asU128_neg {k : Int} (hpos : 0 < k) (hle : k ≤ 2 ^ 128) : asU128 (-k) = 2 ^ 128 - k := by
  unfold asU128
  omega

variable {pick : Int}

theorem selectInt_cons {w : Int} (hw : 0 ≤ w) {acc : Int} (hacc : acc + w < 2 ^ 128) (hnonneg : 0 ≤ acc)
    (rest : List Int) (i : Int) :
    selectInt pick (w :: rest) i acc = if pick < acc + w then some (some i) else selectInt pick rest (i + 1) (acc + w) := by
  rw [selectInt, asU128_nonneg hw (by omega), if_pos hacc]

/-- Weights whose sum does not get past the pick are passed over. -/
theorem selectInt_passes {front : List Int} (hfront : Nonneg front) (rest : List Int) (i : Int) {acc : Int}
    (hacc : 0 ≤ acc) (hpick : acc + front.sum ≤ pick) (hlt : pick < 2 ^ 128) :
    selectInt pick (front ++ rest) i acc = selectInt pick rest (i + front.length) (acc + front.sum) := by
  induction front generalizing i acc with
  | nil => rw [List.nil_append, List.length_nil, List.sum_nil, add_zero, Nat.cast_zero, add_zero]
  | cons w front ih =>
    obtain ⟨hw, hrest⟩ := List.forall_mem_cons.mp hfront
    have hsum : 0 ≤ front.sum := List.sum_nonneg hrest
    rw [List.sum_cons] at hpick
    rw [List.cons_append, selectInt_cons hw (by omega) hacc, if_neg (by omega), ih hrest (i + 1) (by omega : 0 ≤ acc + w) (by omega),
      List.length_cons, List.sum_cons, Nat.cast_succ, add_assoc, add_assoc, add_comm 1]

/-- Weights whose sum gets past the pick hold the index whose own interval the pick lies in. -/
theorem selectInt_stops {front : List Int} (hfront : Nonneg front) (rest : List Int) (i : Int) {acc : Int}
    (hacc : 0 ≤ acc) (hbelow : acc ≤ pick) (hpick : pick < acc + front.sum) (hlt : acc + front.sum < 2 ^ 128) :
    ∃ n < front.length, selectInt pick (front ++ rest) i acc = some (some (i + (n : ℕ))) ∧
      acc + (front.take n).sum ≤ pick ∧ pick < acc + (front.take (n + 1)).sum := by
  induction front generalizing i acc with
  | nil =>
    rw [List.sum_nil] at hpick
    omega
  | cons w front ih =>
    obtain ⟨hw, hrest⟩ := List.forall_mem_cons.mp hfront
    have hsum : 0 ≤ front.sum := List.sum_nonneg hrest
    rw [List.sum_cons] at hpick hlt
    rw [List.cons_append, selectInt_cons hw (by omega) hacc]
    by_cases hhere : pick < acc + w
    · refine ⟨0, Nat.succ_pos _, ?_, ?_, ?_⟩
      · rw [if_pos hhere, Nat.cast_zero, add_zero]
      · rw [List.take_zero, List.sum_nil, add_zero]
        exact hbelow
      · rw [List.take_succ_cons, List.take_zero, List.sum_singleton]
        exact hhere
    · obtain ⟨n, hn, hselect, hlow, hhigh⟩ := ih hrest (i + 1) (by omega : 0 ≤ acc + w) (by omega) (by omega) (by omega)
      refine ⟨n + 1, Nat.succ_lt_succ hn, ?_, ?_, ?_⟩
      · rw [if_neg hhere, hselect, Nat.cast_succ, add_assoc, add_comm 1]
      · rw [List.take_succ_cons, List.sum_cons, ← add_assoc]
        exact hlow
      · rw [List.take_succ_cons, List.sum_cons, ← add_assoc]
        exact hhigh

/-! ## What mode 0 returns -/

/-- The pick lies between the sum of the weights before an index and the sum with its own weight. -/
def InInterval (weights : List Int) (pick : Int) (n : ℕ) : Prop :=
  n < weights.length ∧ (weights.take n).sum ≤ pick ∧ pick < (weights.take (n + 1)).sum

/-- The index of the interval is returned, it is the only one, and its weight is not zero. -/
def Chooses (weights : List Int) (pick : Int) (out : Outcome) : Prop :=
  ∃ n : ℕ, out.throws = [] ∧ out.result = some n ∧ InInterval weights pick n ∧
    (∀ m, InInterval weights pick m → m = n) ∧ weights[n]? ≠ some 0

/-- One exception, and no operation that overflows. -/
def ThrowsOnce (out : Outcome) : Prop := out.throws.length = 1 ∧ out.result ≠ none

/-- What is expected of the choice among the weights of an array. -/
def Sound (F : Floats) (r : Registry) (handle : Int) (draw : ℕ) : Prop :=
  let weights := r.arrayToVec handle
  (weights ≠ [] → Nonneg weights → 0 < weights.sum →
    Chooses weights (draw % weights.sum) (ntscRandomWeighted F r handle 0 draw)) ∧
  ((∃ w ∈ weights, w < 0) ∨ weights.sum ≤ 0 → ThrowsOnce (ntscRandomWeighted F r handle 0 draw))

/-- One weight is negative, the sum is positive all the same, and the pick falls before that weight, or what
stands before it is smaller than what it takes away. -/
def OneNegative (weights : List Int) (pick : Int) : Prop :=
  ∃ (before after : List Int) (k : Int), weights = before ++ -k :: after ∧ 0 < k ∧ Nonneg before ∧ Nonneg after ∧
    0 < weights.sum ∧ (pick < before.sum ∨ before.sum < k)

theorem sum_take_le (h : Nonneg weights) {m n : ℕ} (hle : m ≤ n) :
    (weights.take m).sum ≤ (weights.take n).sum := by
  induction weights generalizing m n with
  | nil => rw [List.take_nil, List.take_nil]
  | cons w weights ih =>
    obtain ⟨hw, hrest⟩ := List.forall_mem_cons.mp h
    cases m with
    | zero =>
      rw [List.take_zero, List.sum_nil]
      exact List.sum_nonneg fun x hx => h x (List.mem_of_mem_take hx)
    | succ m =>
      cases n with
      | zero => exact absurd hle (Nat.not_succ_le_zero m)
      | succ n =>
        rw [List.take_succ_cons, List.take_succ_cons, List.sum_cons, List.sum_cons]
        exact Int.add_le_add_left (ih hrest (Nat.le_of_succ_le_succ hle)) w

theorem InInterval.unique (h : Nonneg weights) {m n : ℕ} (hm : InInterval weights pick m)
    (hn : InInterval weights pick n) : m = n := by
  obtain ⟨-, hmlow, hmhigh⟩ := hm
  obtain ⟨-, hnlow, hnhigh⟩ := hn
  rcases Nat.lt_trichotomy m n with hlt | heq | hlt
  · have hle := sum_take_le h (Nat.succ_le_of_lt hlt)
    rw [Nat.succ_eq_add_one] at hle
    omega
  · exact heq
  · have hle := sum_take_le h (Nat.succ_le_of_lt hlt)
    rw [Nat.succ_eq_add_one] at hle
    omega

theorem InInterval.weight_ne_zero {n : ℕ} (h : InInterval weights pick n) : weights[n]? ≠ some 0 := by
  obtain ⟨hn, hlow, hhigh⟩ := h
  intro hzero
  rw [List.getElem?_eq_getElem hn] at hzero
  rw [List.sum_take_succ _ _ hn, Option.some.inj hzero, add_zero] at hhigh
  omega

theorem sum_lt (hhigh : ∀ w ∈ weights, w < 2 ^ 63) : weights.sum ≤ 2 ^ 63 * weights.length := by
  induction weights with
  | nil => exact le_rfl
  | cons w weights ih =>
    obtain ⟨hw, hrest⟩ := List.forall_mem_cons.mp hhigh
    have hle := ih hrest
    rw [List.sum_cons, List.length_cons]
    omega

variable {F : Floats} {draw : ℕ} {weights : List Int}

/-- The first loop done: the exceptions, and the choice when the sum is positive. -/
theorem ntscRandomWeighted_eq (hweights : r.arrayToVec handle = weights) (hfits : Fits weights) (hne : weights ≠ []) :
    ntscRandomWeighted F r handle 0 draw =
      if weights.sum ≤ 0 then ⟨refusals weights ++ [noPositiveSum], some (-1)⟩
      else ⟨refusals weights,
        (selectInt (draw % weights.sum) weights 0 0).map (·.getD (weights.length - 1))⟩ := by
  have hlength := hfits.length
  have hlen : r.arrayLen handle = weights.length := by rw [Sort.arrayLen_eq, hweights]
  have hpos : (weights.length : Int) ≠ 0 := by
    have hpos := List.length_pos_of_ne_nil hne
    omega
  have htotal := totalInt_eq hfits.low hfits.high [] 0 (by omega) (by omega)
  rw [List.nil_append, zero_add] at htotal
  unfold ntscRandomWeighted
  simp only [readWeights_eq, hweights, hlen, if_neg hpos, htotal, if_true]

theorem refusals_eq_nil (h : Nonneg weights) : refusals weights = [] := by
  have hzero : weights.countP (· < 0) = 0 := by
    rw [List.countP_eq_zero]
    intro w hw hneg
    exact absurd (h w hw) (not_le.mpr (of_decide_eq_true hneg))
  rw [refusals, hzero, List.replicate_zero]

theorem length_refusals : (refusals weights).length = weights.countP (· < 0) := List.length_replicate

/-- A list with one negative weight, taken apart at it. -/
theorem exists_split_of_countP (h : weights.countP (· < 0) = 1) :
    ∃ (before after : List Int) (k : Int), weights = before ++ -k :: after ∧ 0 < k ∧ Nonneg before ∧ Nonneg after := by
  induction weights with
  | nil => cases h
  | cons w weights ih =>
    by_cases hneg : w < 0
    · have hzero : weights.countP (· < 0) = 0 := by
        rw [List.countP_cons, if_pos (decide_eq_true hneg)] at h
        omega
      refine ⟨[], weights, -w, by rw [neg_neg]; rfl, by omega, fun x hx => absurd hx List.not_mem_nil, fun x hx => ?_⟩
      have hx' := List.countP_eq_zero.mp hzero x hx
      exact not_lt.mp (fun hlt => hx' (decide_eq_true hlt))
    · rw [List.countP_cons, if_neg (by simpa using hneg), add_zero] at h
      obtain ⟨before, after, k, rfl, hk, hbefore, hafter⟩ := ih h
      exact ⟨w :: before, after, k, rfl, hk, List.forall_mem_cons.mpr ⟨not_lt.mp hneg, hbefore⟩, hafter⟩

theorem countP_split {before after : List Int} {k : Int} (hk : 0 < k) (hbefore : Nonneg before) (hafter : Nonneg after) :
    (before ++ -k :: after).countP (· < 0) = 1 := by
  have hzero : ∀ {l : List Int}, Nonneg l → l.countP (· < 0) = 0 := by
    intro l hl
    rw [List.countP_eq_zero]
    intro w hw hneg
    exact absurd (hl w hw) (not_le.mpr (of_decide_eq_true hneg))
  rw [List.countP_append, List.countP_cons, if_pos (by simpa using hk), hzero hbefore, hzero hafter]

/-- Past a negative weight the sum of unsigned numbers is far above any pick; it overflows when what stands
before is not smaller than what the weight takes away. -/
theorem selectInt_negative {before after : List Int} {k : Int} (hk : 0 < k) (hk' : k ≤ 2 ^ 63)
    (hbefore : Nonneg before) (hsum : before.sum < 2 ^ 127) (hpick : 0 ≤ pick) (hpick' : pick < 2 ^ 127) :
    selectInt pick (before ++ -k :: after) 0 0 ≠ none ↔ pick < before.sum ∨ before.sum < k := by
  have hnonneg : 0 ≤ before.sum := List.sum_nonneg hbefore
  by_cases hstops : pick < before.sum
  · obtain ⟨n, -, hselect, -⟩ := selectInt_stops hbefore (-k :: after) 0 le_rfl hpick (by omega) (by omega)
    rw [hselect]
    exact iff_of_true (Option.some_ne_none _) (Or.inl hstops)
  · rw [selectInt_passes hbefore _ _ le_rfl (by omega) (by omega), selectInt, asU128_neg hk (by omega)]
    by_cases hsmall : before.sum < k
    · rw [if_pos (by omega), if_pos (by omega)]
      exact iff_of_true (Option.some_ne_none _) (Or.inr hsmall)
    · rw [if_neg (by omega)]
      exact iff_of_false (fun h => h rfl) (by omega)

theorem exists_negative_of_not_nonneg (h : ¬ Nonneg weights) : ∃ w ∈ weights, w < 0 := by
  by_contra hnone
  exact h fun w hw => not_lt.mp fun hlt => hnone ⟨w, hw, hlt⟩

/-- Weights that are not negative: an index by the cumulative weights, or one exception for a sum of zero. -/
theorem sound_of_nonneg (hweights : r.arrayToVec handle = weights) (hfits : Fits weights) (hne : weights ≠ [])
    (hnonneg : Nonneg weights) : Sound F r handle draw := by
  have heq : ntscRandomWeighted F r handle 0 draw = _ := ntscRandomWeighted_eq hweights hfits hne
  rw [refusals_eq_nil hnonneg, List.nil_append] at heq
  unfold Sound
  rw [hweights]
  constructor
  · intro _ _ hsum
    have hlength := hfits.length
    have hbound := sum_lt hfits.high
    have hpick := Int.emod_nonneg (draw : Int) hsum.ne'
    have hpick' := Int.emod_lt_of_pos (draw : Int) hsum
    obtain ⟨n, hn, hselect, hlow, hhigh⟩ := selectInt_stops hnonneg [] 0 le_rfl hpick (by omega) (by omega)
    rw [List.append_nil, zero_add] at hselect
    rw [zero_add] at hlow hhigh
    rw [heq, if_neg (not_le.mpr hsum), hselect]
    have hinterval : InInterval weights (draw % weights.sum) n := ⟨hn, hlow, hhigh⟩
    exact ⟨n, rfl, rfl, hinterval, fun m hm => hm.unique hnonneg hinterval, hinterval.weight_ne_zero⟩
  · intro hbad
    have hsum : weights.sum ≤ 0 := by
      rcases hbad with ⟨w, hw, hneg⟩ | hsum
      · exact absurd (hnonneg w hw) (not_le.mpr hneg)
      · exact hsum
    rw [heq, if_pos hsum]
    exact ⟨rfl, Option.some_ne_none _⟩

/-- With a negative weight there is one exception and no overflow only when the sum is positive, no other
weight is negative, and the second loop ends before it overflows. -/
theorem sound_iff_of_negative (hweights : r.arrayToVec handle = weights) (hfits : Fits weights)
    (hneg : ∃ w ∈ weights, w < 0) : Sound F r handle draw ↔ OneNegative weights (draw % weights.sum) := by
  have hne : weights ≠ [] := by
    rintro rfl
    obtain ⟨w, hw, -⟩ := hneg
    exact absurd hw List.not_mem_nil
  have heq : ntscRandomWeighted F r handle 0 draw = _ := ntscRandomWeighted_eq hweights hfits hne
  have hcount : 0 < weights.countP (· < 0) := by
    obtain ⟨w, hw, hlt⟩ := hneg
    exact List.countP_pos_iff.mpr ⟨w, hw, decide_eq_true hlt⟩
  have honly : Sound F r handle draw ↔ ThrowsOnce (ntscRandomWeighted F r handle 0 draw) := by
    unfold Sound
    rw [hweights]
    refine ⟨fun h => h.2 (Or.inl hneg), fun h => ⟨fun _ hnonneg _ => ?_, fun _ => h⟩⟩
    obtain ⟨w, hw, hlt⟩ := hneg
    exact absurd (hnonneg w hw) (not_le.mpr hlt)
  rw [honly, heq]
  by_cases hsum : weights.sum ≤ 0
  · rw [if_pos hsum]
    refine iff_of_false ?_ ?_
    · rintro ⟨hlength, -⟩
      rw [List.length_append, length_refusals, List.length_singleton] at hlength
      omega
    · rintro ⟨_, _, _, _, _, _, _, hpos, _⟩
      exact absurd hsum (not_le.mpr hpos)
  · have hpos := not_le.mp hsum
    have hlength := hfits.length
    have hbound := sum_lt hfits.high
    have hpick := Int.emod_nonneg (draw : Int) hpos.ne'
    have hpick' := Int.emod_lt_of_pos (draw : Int) hpos
    have hresult : ∀ {before after : List Int} {k : Int}, weights = before ++ -k :: after → 0 < k → Nonneg before →
        Nonneg after → (selectInt (draw % weights.sum) weights 0 0 ≠ none ↔
          draw % weights.sum < before.sum ∨ before.sum < k) := by
      intro before after k hsplit hk hbefore hafter
      have hmem : ∀ {x : Int}, x ∈ before ∨ x = -k → x ∈ weights := by
        rintro x (hx | rfl)
        · rw [hsplit]
          exact List.mem_append_left _ hx
        · rw [hsplit]
          exact List.mem_append_right _ List.mem_cons_self
      have hlow := hfits.low _ (hmem (Or.inr rfl))
      have hhigh : ∀ w ∈ before, w < 2 ^ 63 := fun w hw => hfits.high w (hmem (Or.inl hw))
      have hsmall := sum_lt hhigh
      have hcount : before.length ≤ weights.length := by
        rw [hsplit, List.length_append]
        exact Nat.le_add_right _ _
      rw [← selectInt_negative hk (by omega) hbefore (by omega) hpick (by omega), ← hsplit]
    rw [if_neg hsum]
    constructor
    · rintro ⟨hone, hsome⟩
      rw [length_refusals] at hone
      obtain ⟨before, after, k, hsplit, hk, hbefore, hafter⟩ := exists_split_of_countP hone
      refine ⟨before, after, k, hsplit, hk, hbefore, hafter, hpos, (hresult hsplit hk hbefore hafter).mp ?_⟩
      exact fun hnone => hsome (by rw [hnone]; rfl)
    · rintro ⟨before, after, k, hsplit, hk, hbefore, hafter, -, hends⟩
      constructor
      · rw [length_refusals, hsplit, countP_split hk hbefore hafter]
      · have hsome := (hresult hsplit hk hbefore hafter).mpr hends
        intro hnone
        exact hsome (Option.map_eq_none_iff.mp hnone)

/-- An empty array throws twice. -/
theorem not_sound_of_empty (hweights : r.arrayToVec handle = []) : ¬ Sound F r handle draw := by
  intro hsound
  unfold Sound at hsound
  rw [hweights] at hsound
  obtain ⟨hlength, -⟩ := hsound.2 (Or.inr le_rfl)
  have hlen : r.arrayLen handle = 0 := by rw [Sort.arrayLen_eq, hweights]; rfl
  unfold ntscRandomWeighted at hlength
  simp only [readWeights_eq, hweights, hlen, if_true, totalInt, le_refl] at hlength
  cases hlength

/-- The choice is what is expected of it exactly on arrays with no negative weight that are not empty, and on
those with one negative weight that the second loop happens to end before or to survive. -/
theorem ntscRandomWeighted_sound_iff (F : Floats) (r : Registry) (handle : Int) (draw : ℕ)
    (hfits : Fits (r.arrayToVec handle)) :
    Sound F r handle draw ↔ r.arrayToVec handle ≠ [] ∧ (Nonneg (r.arrayToVec handle) ∨
      OneNegative (r.arrayToVec handle) (draw % (r.arrayToVec handle).sum)) := by
  by_cases hne : r.arrayToVec handle = []
  · exact iff_of_false (not_sound_of_empty hne) (fun h => h.1 hne)
  · by_cases hnonneg : Nonneg (r.arrayToVec handle)
    · exact iff_of_true (sound_of_nonneg rfl hfits hne hnonneg) ⟨hne, Or.inl hnonneg⟩
    · rw [sound_iff_of_negative rfl hfits (exists_negative_of_not_nonneg hnonneg), or_iff_right hnonneg,
        and_iff_right hne]

/-- The first mode uses none of them. -/
def noFloats : Floats := ⟨Unit, fun _ => (), (), fun _ _ => (), fun _ _ => false, fun _ _ => true, fun _ _ => ()⟩

def weightsArray (weights : List Int) : Registry := (Registry.empty.insert (.array ⟨8, false, weights⟩)).1

theorem ntscRandomWeighted_sound_nonneg : Sound noFloats (weightsArray [2, 0, 3]) 1 9 := by
  have hweights : (weightsArray [2, 0, 3]).arrayToVec 1 = [2, 0, 3] := by decide +kernel
  have hfits : Fits ((weightsArray [2, 0, 3]).arrayToVec 1) := by
    rw [hweights]
    exact ⟨by decide, by decide, by decide⟩
  refine (ntscRandomWeighted_sound_iff noFloats (weightsArray [2, 0, 3]) 1 9 hfits).mpr ?_
  rw [hweights]
  exact ⟨by decide, Or.inl (by unfold Nonneg; decide)⟩

/-- Of the weights 5, -3, 10 the second loop does not end before the negative one, and overflows there. -/
theorem ntscRandomWeighted_overflows :
    ¬ ∀ (F : Floats) (r : Registry) (handle : Int) (draw : ℕ), Fits (r.arrayToVec handle) → Sound F r handle draw := by
  intro h
  have hweights : (weightsArray [5, -3, 10]).arrayToVec 1 = [5, -3, 10] := by decide +kernel
  have hfits : Fits ((weightsArray [5, -3, 10]).arrayToVec 1) := by
    rw [hweights]
    exact ⟨by decide, by decide, by decide⟩
  obtain ⟨-, hthrows⟩ := h noFloats (weightsArray [5, -3, 10]) 1 7 hfits
  obtain ⟨-, hsome⟩ := hthrows (Or.inl (by rw [hweights]; decide))
  exact hsome (by decide +kernel)

end Neutron.Random
