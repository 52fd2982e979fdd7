import Neutron.RegistryArrays
import Mathlib.Data.String.Basic
import Mathlib.Order.Compare

/-!
# Binary search

`sort.binary_search` over a registry array. The interval bounds are `i64` values, so that each step of
the arithmetic is checked; elements are read through the registry, with a default.
-/

namespace Neutron.Sort

/-- An `i64` result; none when the operation overflows. -/
def checked (n : Int) : Option Int := if -2 ^ 63 ≤ n ∧ n < 2 ^ 63 then some n else none

/-- `low + (high - low) / 2` -/
def midpoint (low high : Int) : Option Int :=
  match checked (high - low) with
  | some span => checked (low + span.tdiv 2)
  | none => none

theorem checked_eq_some {n m : Int} (h : checked n = some m) : m = n := by
  unfold checked at h
  split at h
  · exact (Option.some.inj h).symm
  · cases h

theorem checked_of_fits {n : Int} (hlow : -2 ^ 63 ≤ n) (hhigh : n < 2 ^ 63) : checked n = some n :=
  if_pos ⟨hlow, hhigh⟩

theorem midpoint_mem {low high mid : Int} (hlt : low < high) (h : midpoint low high = some mid) :
    low ≤ mid ∧ mid < high := by
  unfold midpoint at h
  split at h
  · rename_i span hspan
    obtain rfl := checked_eq_some hspan
    obtain rfl := checked_eq_some h
    rw [Int.tdiv_eq_ediv_of_nonneg (by omega)]
    omega
  · cases h

theorem midpoint_of_fits {low high : Int} (hnonneg : 0 ≤ low) (hlt : low < high) (hfits : high < 2 ^ 63) :
    ∃ mid, midpoint low high = some mid := by
  have hdiv : (high - low).tdiv 2 = (high - low) / 2 := Int.tdiv_eq_ediv_of_nonneg (by omega)
  rw [midpoint, checked_of_fits (by omega) (by omega)]
  exact ⟨_, checked_of_fits (by omega) (by omega)⟩

/-- The loop on the interval from `low` to `high`: the index returned with the exception thrown, if any;
none when an operation overflows. `probe` compares the element at an index with the needle, and is none
when the mode is not supported. -/
def searchLoop (probe : Int → Option Ordering) (low high : Int) : Option (Int × Option String) :=
  if hlt : low < high then
    match _hmid : midpoint low high with
    | none => none
    | some mid =>
      match probe mid with
      | none => some (-1, some "sort.binary_search: unsupported element type")
      | some .lt =>
        match _hnext : checked (mid + 1) with
        | none => none
        | some next => searchLoop probe next high
      | some .gt => searchLoop probe low mid
      | some .eq => some (mid, none)
  else some (-1, none)
termination_by (high - low).toNat
decreasing_by
  · have hmem := midpoint_mem hlt _hmid
    have hstep := checked_eq_some _hnext
    omega
  · have hmem := midpoint_mem hlt _hmid
    omega

/-- The bits of an `f64` as an integer in the order of `f64::total_cmp`. -/
def totalKey (bits : Int) : Int :=
  if bits % 2 ^ 64 < 2 ^ 63 then f64Magnitude bits else -(f64Magnitude bits : Int) - 1

/-- The text of a string handle, empty for any other. -/
def textOf (r : Registry) (handle : Int) : String := (r.getString handle).getD ""

/-- The comparison made at index `mid`. -/
def probeAt (r : Registry) (handle value mode mid : Int) : Option Ordering :=
  let elem := (r.arrayGet handle mid).getD 0
  if mode = 0 then some (compare elem value)
  else if mode = 1 then some (compare (totalKey elem) (totalKey value))
  else if mode = 2 then some (compare (textOf r elem) (textOf r value))
  else none

def ntscSortBinarySearch (r : Registry) (handle value mode : Int) : Option (Int × Option String) :=
  searchLoop (probeAt r handle value mode) 0 (r.arrayLen handle)

/-! ## The loop -/

section Loop

variable {κ : Type} [LinearOrder κ] {probe : Int → Option Ordering} {f : Int → κ} {needle : κ} {n : Int}

/-- What is known of the interval: outside it stands no element equal to the needle. -/
structure Narrowed (f : Int → κ) (needle : κ) (n low high : Int) : Prop where
  nonneg : 0 ≤ low
  ordered : low ≤ high
  bound : high ≤ n
  below : ∀ i, 0 ≤ i → i < low → f i < needle
  above : ∀ i, high ≤ i → i < n → needle < f i

variable (hmono : ∀ i j, 0 ≤ i → i ≤ j → j < n → f i ≤ f j)

theorem Narrowed.start (hn : 0 ≤ n) : Narrowed f needle n 0 n where
  nonneg := le_rfl
  ordered := hn
  bound := le_rfl
  below i hi hlt := by omega
  above i hle hlt := by omega

include hmono in
theorem Narrowed.raise {low high mid : Int} (h : Narrowed f needle n low high) (hlow : low ≤ mid) (hhigh : mid < high)
    (hless : f mid < needle) : Narrowed f needle n (mid + 1) high where
  nonneg := by
    have hnonneg := h.nonneg
    omega
  ordered := by omega
  bound := h.bound
  below i hi hlt := by
    have hbound := h.bound
    exact lt_of_le_of_lt (hmono i mid hi (by omega) (by omega)) hless
  above := h.above

include hmono in
theorem Narrowed.lower {low high mid : Int} (h : Narrowed f needle n low high) (hlow : low ≤ mid) (hhigh : mid < high)
    (hgreater : needle < f mid) : Narrowed f needle n low mid where
  nonneg := h.nonneg
  ordered := hlow
  bound := by
    have hbound := h.bound
    omega
  below := h.below
  above i hle hlt := by
    have hnonneg := h.nonneg
    exact lt_of_lt_of_le hgreater (hmono mid i (by omega) hle hlt)

/-- An index of an element equal to the needle, or -1 and no such element. -/
def Found (f : Int → κ) (needle : κ) (n i : Int) : Prop :=
  (0 ≤ i ∧ i < n ∧ f i = needle) ∨ (i = -1 ∧ ∀ j, 0 ≤ j → j < n → f j ≠ needle)

theorem Narrowed.absent {low : Int} (h : Narrowed f needle n low low) : Found f needle n (-1) := by
  refine Or.inr ⟨rfl, fun j hj hlt => ?_⟩
  by_cases hside : j < low
  · exact (h.below j hj hside).ne
  · exact (h.above j (not_lt.mp hside) hlt).ne'

variable (hprobe : ∀ i, 0 ≤ i → i < n → probe i = some (compare (f i) needle)) (hfits : n < 2 ^ 63)

include hmono hprobe hfits in
/-- Each round halves the interval and keeps what is known of it. -/
theorem searchLoop_finds {low high : Int} (h : Narrowed f needle n low high) :
    ∃ i, searchLoop probe low high = some (i, none) ∧ Found f needle n i := by
  induction hk : (high - low).toNat using Nat.strongRecOn generalizing low high with
  | ind k ih =>
    have hnonneg := h.nonneg
    have hbound := h.bound
    by_cases hlt : low < high
    · obtain ⟨mid, hmid⟩ := midpoint_of_fits hnonneg hlt (by omega)
      obtain ⟨hlow, hhigh⟩ := midpoint_mem hlt hmid
      have hnext : checked (mid + 1) = some (mid + 1) := checked_of_fits (by omega) (by omega)
      rw [searchLoop, dif_pos hlt]
      split
      · rename_i hnone
        rw [hnone] at hmid
        cases hmid
      · rename_i mid' hmid'
        obtain rfl := Option.some.inj (hmid'.symm.trans hmid)
        rw [hprobe mid' (by omega) (by omega)]
        cases hord : compare (f mid') needle with
        | lt =>
          dsimp only
          split
          · rename_i hnone
            rw [hnone] at hnext
            cases hnext
          · rename_i next hnext'
            obtain rfl := Option.some.inj (hnext'.symm.trans hnext)
            exact ih _ (by omega) (h.raise hmono hlow hhigh (compare_lt_iff_lt.mp hord)) rfl
        | eq => exact ⟨mid', rfl, Or.inl ⟨by omega, by omega, compare_eq_iff_eq.mp hord⟩⟩
        | gt => exact ih _ (by omega) (h.lower hmono hlow hhigh (compare_gt_iff_gt.mp hord)) rfl
    · have heq : high = low := le_antisymm (not_lt.mp hlt) h.ordered
      subst heq
      rw [searchLoop, dif_neg hlt]
      exact ⟨-1, rfl, h.absent⟩

end Loop

/-! ## The search in an array -/

variable {r : Registry} {handle : Int}

theorem arrayLen_eq : r.arrayLen handle = ((r.arrayToVec handle).length : Int) := by
  unfold Registry.arrayLen Registry.arrayToVec
  cases r.array? handle with
  | none => rfl
  | some a => rfl

theorem arrayGet_eq (n : ℕ) : r.arrayGet handle n = (r.arrayToVec handle)[n]? := by
  unfold Registry.arrayGet Registry.arrayToVec
  rw [if_neg (by omega)]
  cases r.array? handle with
  | none => rfl
  | some a => rfl

/-- The index returned holds an element with the needle's key when there is one, and is -1 otherwise. -/
def FindsKey {κ : Type} (key : Int → κ) (r : Registry) (handle value mode : Int) : Prop :=
  ∃ i, ntscSortBinarySearch r handle value mode = some (i, none) ∧
    ((∃ e ∈ r.arrayToVec handle, key e = key value) →
      ∃ (n : ℕ) (e : Int), i = n ∧ (r.arrayToVec handle)[n]? = some e ∧ key e = key value) ∧
    ((∀ e ∈ r.arrayToVec handle, key e ≠ key value) → i = -1)

theorem findsKey_of_sorted {κ : Type} [LinearOrder κ] (key : Int → κ) {value mode : Int}
    (hprobe : ∀ i, probeAt r handle value mode i = some (compare (key ((r.arrayGet handle i).getD 0)) (key value)))
    (hlen : (r.arrayToVec handle).length < 2 ^ 63)
    (hsorted : (r.arrayToVec handle).Pairwise (fun x y => key x ≤ key y)) : FindsKey key r handle value mode := by
  have hat : ∀ {n : ℕ} (hn : n < (r.arrayToVec handle).length),
      key ((r.arrayGet handle n).getD 0) = key ((r.arrayToVec handle)[n]) := by
    intro n hn
    rw [arrayGet_eq, List.getElem?_eq_getElem hn, Option.getD_some]
  have hmono : ∀ i j, 0 ≤ i → i ≤ j → j < ((r.arrayToVec handle).length : Int) →
      key ((r.arrayGet handle i).getD 0) ≤ key ((r.arrayGet handle j).getD 0) := by
    intro i j hi hij hj
    obtain ⟨p, rfl⟩ := Int.eq_ofNat_of_zero_le hi
    obtain ⟨q, rfl⟩ := Int.eq_ofNat_of_zero_le (hi.trans hij)
    have hq : q < (r.arrayToVec handle).length := by omega
    rw [hat (by omega : p < _), hat hq]
    rcases Nat.lt_or_eq_of_le (Int.ofNat_le.mp hij) with hlt | rfl
    · exact List.pairwise_iff_getElem.mp hsorted p q _ hq hlt
    · exact le_rfl
  have hstart : Narrowed (fun i => key ((r.arrayGet handle i).getD 0)) (key value) (r.arrayToVec handle).length 0
      (r.arrayToVec handle).length := Narrowed.start (Int.natCast_nonneg _)
  obtain ⟨i, hrun, hfound⟩ := searchLoop_finds hmono (fun i _ _ => hprobe i) (by omega) hstart
  refine ⟨i, ?_, ?_, ?_⟩
  · rw [ntscSortBinarySearch, arrayLen_eq]
    exact hrun
  · rintro ⟨e, he, hkey⟩
    rcases hfound with ⟨hnonneg, hlt, heq⟩ | ⟨-, habsent⟩
    · obtain ⟨n, rfl⟩ := Int.eq_ofNat_of_zero_le hnonneg
      have hn : n < (r.arrayToVec handle).length := by omega
      exact ⟨n, _, rfl, List.getElem?_eq_getElem hn, (hat hn).symm.trans heq⟩
    · obtain ⟨n, hn, rfl⟩ := List.mem_iff_getElem.mp he
      exact absurd ((hat hn).trans hkey) (habsent n (by omega) (by omega))
  · intro hnone
    rcases hfound with ⟨hnonneg, hlt, heq⟩ | ⟨hminus, -⟩
    · obtain ⟨n, rfl⟩ := Int.eq_ofNat_of_zero_le hnonneg
      have hn : n < (r.arrayToVec handle).length := by omega
      exact absurd ((hat hn).symm.trans heq) (hnone _ (List.getElem_mem hn))
    · exact hminus

/-- The search is exact on arrays sorted as values, as texts, and as floats in their total order; a vector
holds fewer elements than an `i64` counts. -/
theorem ntscSortBinarySearch_exact (r : Registry) (handle value : Int)
    (hlen : (r.arrayToVec handle).length < 2 ^ 63) :
    ((r.arrayToVec handle).Pairwise (· ≤ ·) → FindsKey id r handle value 0) ∧
      ((r.arrayToVec handle).Pairwise (fun x y => textOf r x ≤ textOf r y) →
        FindsKey (textOf r) r handle value 2) ∧
      ((r.arrayToVec handle).Pairwise (fun x y => totalKey x ≤ totalKey y) →
        FindsKey totalKey r handle value 1) := by
  refine ⟨fun hsorted => ?_, fun hsorted => ?_, fun hsorted => ?_⟩
  · exact findsKey_of_sorted id (fun _ => rfl) hlen hsorted
  · exact findsKey_of_sorted (textOf r) (fun _ => rfl) hlen hsorted
  · exact findsKey_of_sorted totalKey (fun _ => rfl) hlen hsorted

/-- The values 1, 3, 3, 7 behind handle 1, the texts "a" and "b" behind handle 4. -/
def sortedArrays : Registry :=
  ((((Registry.empty.insert (.array ⟨8, false, [1, 3, 3, 7]⟩)).1.insert (.string "a")).1.insert (.string "b")).1.insert
    (.array ⟨8, true, [2, 3]⟩)).1

theorem ntscSortBinarySearch_sorted :
    FindsKey id sortedArrays 1 3 0 ∧ FindsKey (textOf sortedArrays) sortedArrays 4 3 2 := by
  constructor
  · exact (ntscSortBinarySearch_exact sortedArrays 1 3 (by decide +kernel)).1 (by decide +kernel)
  · exact (ntscSortBinarySearch_exact sortedArrays 4 3 (by decide +kernel)).2.1 (by decide +kernel)

end Neutron.Sort
