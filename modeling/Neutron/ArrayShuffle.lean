import Mathlib.Data.List.GetD
import Neutron.ArraySorting

/-!
# Shuffling arrays

`array_shuffle` is a Fisher-Yates pass over a clone. It reads four random bytes for each element and picks the
partner of a position from the first of them alone.
-/

namespace Neutron

/-! ### The loop -/

theorem swapAt_self (l : List Int) (i : ℕ) : swapAt l i i = l := by
  rw [swapAt, List.set_set]
  by_cases hi : i < l.length
  · rw [List.getD_eq_getElem _ _ hi, List.set_getElem_self]
  · exact List.set_eq_of_length_le (by omega)

/-- The position takes the element of its partner. -/
theorem getElem?_swapAt {l : List Int} {i j : ℕ} (hi : i < l.length) (hj : j < l.length) :
    (swapAt l i j)[i]? = l[j]? := by
  have hpartner : l[j]? = some (l.getD j 0) := by rw [List.getD_eq_getElem _ _ hj, List.getElem?_eq_getElem hj]
  rw [swapAt, List.getElem?_set, hpartner]
  split
  · rename_i h
    rw [if_pos (by rw [List.length_set]; exact hj), h]
  · exact List.getElem?_set_self hi

theorem drop_swapAt {l : List Int} {i j : ℕ} (hj : j ≤ i) : (swapAt l i j).drop (i + 1) = l.drop (i + 1) := by
  rw [swapAt, List.drop_set_of_lt (by omega), List.drop_set_of_lt (by omega)]

namespace Registry

attribute [local irreducible] drawn

/-- The partner of a position. -/
def partner (bytes : List UInt8) (i : ℕ) : ℕ :=
  if i * 4 < bytes.length then (bytes.getD (i * 4) 0).toNat % (i + 1) else i / 2

theorem shuffleLoop_succ (bytes : List UInt8) (i : ℕ) (l : List Int) :
    shuffleLoop bytes (i + 1) l = shuffleLoop bytes i (swapAt l (i + 1) (partner bytes (i + 1))) := by
  change shuffleLoop bytes i (if i + 1 ≠ partner bytes (i + 1) then _ else l) = _
  by_cases h : i + 1 = partner bytes (i + 1)
  · rw [if_neg (not_not_intro h), ← h, swapAt_self]
  · rw [if_pos h]
    rfl

theorem partner_le (bytes : List UInt8) (i : ℕ) : partner bytes i ≤ i := by
  unfold partner
  split
  · exact Nat.le_of_lt_succ (Nat.mod_lt _ (by omega))
  · omega

/-- A partner is picked from one byte. -/
theorem partner_lt {bytes : List UInt8} {i : ℕ} (h : i * 4 < bytes.length) : partner bytes i < 256 := by
  rw [partner, if_pos h]
  exact (Nat.mod_le _ _).trans_lt (UInt8.toNat_lt _)

theorem partner_set_self {bytes : List UInt8} {i j : ℕ} (h : i * 4 < bytes.length) (hj : j ≤ i) (hi : i < 256) :
    partner (bytes.set (i * 4) (UInt8.ofNat j)) i = j := by
  rw [partner, List.length_set, if_pos h, List.getD_eq_getElem?_getD, List.getElem?_set_self h, Option.getD_some,
    UInt8.toNat_ofNat', Nat.mod_eq_of_lt (show j < 2 ^ 8 by omega), Nat.mod_eq_of_lt (by omega)]

theorem partner_set_ne (bytes : List UInt8) (b : UInt8) {i k : ℕ} (h : i ≠ k) :
    partner (bytes.set (k * 4) b) i = partner bytes i := by
  rw [partner, partner, List.length_set, List.getD_eq_getElem?_getD, List.getElem?_set_ne (by omega),
    List.getD_eq_getElem?_getD]

theorem shuffleLoop_set (bytes : List UInt8) (b : UInt8) {i k : ℕ} (h : i < k) (l : List Int) :
    shuffleLoop (bytes.set (k * 4) b) i l = shuffleLoop bytes i l := by
  induction i generalizing l with
  | zero => rfl
  | succ i ih => rw [shuffleLoop_succ, shuffleLoop_succ, partner_set_ne bytes b (by omega), ih (by omega)]

/-- The loop has left a position for good once it has passed it. -/
theorem drop_shuffleLoop (bytes : List UInt8) (i : ℕ) (l : List Int) :
    (shuffleLoop bytes i l).drop (i + 1) = l.drop (i + 1) := by
  induction i generalizing l with
  | zero => rfl
  | succ i ih =>
    rw [shuffleLoop_succ, ← List.drop_drop, ih, List.drop_drop, drop_swapAt (partner_le _ _)]

theorem take_perm {n : ℕ} {l l' : List Int} (hperm : l'.Perm l) (hdone : l'.drop n = l.drop n) :
    (l'.take n).Perm (l.take n) := by
  rw [← List.perm_append_right_iff (l.drop n), List.take_append_drop, ← hdone, List.take_append_drop]
  exact hperm

/-- Below 256 the bytes can be chosen for any arrangement of the positions still to come. -/
theorem shuffleLoop_reaches {i : ℕ} {l l' : List Int} (hi : i < l.length) (hsmall : i < 256) (hperm : l'.Perm l)
    (hdone : l'.drop (i + 1) = l.drop (i + 1)) :
    ∃ bytes : List UInt8, bytes.length = 4 * l.length ∧ shuffleLoop bytes i l = l' := by
  have hfront := take_perm hperm hdone
  induction i generalizing l with
  | zero =>
    refine ⟨List.replicate (4 * l.length) 0, List.length_replicate, ?_⟩
    obtain ⟨x, hx⟩ := List.length_eq_one_iff.mp (show (l.take 1).length = 1 by rw [List.length_take]; omega)
    rw [hx, List.perm_singleton, ← hx] at hfront
    rw [shuffleLoop, ← List.take_append_drop 1 l, ← List.take_append_drop 1 l', hfront, hdone]
  | succ i ih =>
    have hi' : i + 1 < l'.length := hperm.length_eq ▸ hi
    have hmem : l'[i + 1] ∈ l.take (i + 2) :=
      hfront.mem_iff.mp (List.mem_take_iff_getElem.mpr ⟨i + 1, by omega, rfl⟩)
    obtain ⟨j, hj, hlj⟩ := List.mem_take_iff_getElem.mp hmem
    have hswap := hperm.trans (swapAt_perm hi (show j < l.length by omega)).symm
    have hmid : (swapAt l (i + 1) j)[i + 1]? = l'[i + 1]? := by
      rw [getElem?_swapAt hi (by omega), List.getElem?_eq_getElem (by omega), hlj, List.getElem?_eq_getElem hi']
    have hnext : l'.drop (i + 1) = (swapAt l (i + 1) j).drop (i + 1) := by
      rw [List.drop_eq_getElem?_toList_append (l := l'),
        List.drop_eq_getElem?_toList_append (l := swapAt l (i + 1) j), hmid, drop_swapAt (by omega), hdone]
    have hlen : (swapAt l (i + 1) j).length = l.length := length_swapAt l _ _
    obtain ⟨bytes, hbytes, hloop⟩ := ih (by omega) (by omega) hswap hnext (take_perm hswap hnext)
    rw [hlen] at hbytes
    refine ⟨bytes.set ((i + 1) * 4) (UInt8.ofNat j), by rw [List.length_set, hbytes], ?_⟩
    rw [shuffleLoop_succ, partner_set_self (by omega) (by omega) hsmall, shuffleLoop_set bytes _ (by omega), hloop]

/-- From 256 on the last position loses its element. -/
theorem shuffleLoop_moves {bytes : List UInt8} {i : ℕ} {l : List Int} (hlen : l.length = i + 1)
    (hbytes : bytes.length = 4 * l.length) (hbig : 256 ≤ i) (hl : l.Nodup) : shuffleLoop bytes i l ≠ l := by
  intro hsame
  obtain ⟨k, rfl⟩ : ∃ k, i = k + 1 := ⟨i - 1, by omega⟩
  have hpartner : partner bytes (k + 1) < 256 := partner_lt (by omega)
  have hdrop := drop_shuffleLoop bytes k (swapAt l (k + 1) (partner bytes (k + 1)))
  rw [← shuffleLoop_succ, hsame] at hdrop
  have hlast := congrArg List.head? hdrop
  rw [List.head?_drop, List.head?_drop, getElem?_swapAt (by omega) (by omega)] at hlast
  have := (List.getElem?_inj (by omega) hl).mp hlast
  omega

/-! ### The result -/

variable {r s : Registry} {id : Int} {a : ArrayData} {c : List Int}

/-- The elements of the result, for the bytes that the random device gave. -/
def shuffled (r : Registry) (bytes : List UInt8) (id : Int) : List Int :=
  (r.arrayShuffle bytes id).1.arrayToVec (r.arrayShuffle bytes id).2

theorem Cloned.shuffled (h : Cloned r a s c) (bytes : List UInt8)
    (hclone : arrayClone 0 r id = s.insert (.array { a with elements := c })) :
    r.shuffled bytes id = shuffleLoop bytes (c.length - 1) c := by
  have hl : (s.insert (.array { a with elements := c })).1.lookup (drawn s.issued) =
      some (.array { a with elements := c }) := by rw [lookup_insert, if_pos rfl]
  have hnull := drawn_ne_null h.bound
  have hid : (s.insert (.array { a with elements := c })).2 = drawn s.issued := rfl
  rw [Registry.shuffled, arrayShuffle, hclone]
  simp only [hid, if_neg hnull, hl]
  split
  · rename_i hshort
    have hlast : c.length - 1 = 0 := by omega
    rw [arrayToVec, hid, array?_eq_some.mpr ⟨hnull, hl⟩, hlast]
    rfl
  · rw [arrayToVec, array?_eq_some.mpr ⟨hnull, (lookup_setElements hl _ _).trans (if_pos rfl)⟩]
    rfl

theorem Cloned.nodup (h : Cloned r a s c) (hi : r.issued + a.elements.length + 1 < 2 ^ 64)
    (hdistinct : a.stringElements = false → a.elements.Nodup) : c.Nodup := by
  cases hs : a.stringElements with
  | false => rw [(h.raw hs).1]; exact hdistinct hs
  | true =>
    rw [h.copies hs]
    refine List.nodup_range.map_on fun p hp q hq heq => ?_
    rw [List.mem_range] at hp hq
    have := drawn_injective (by omega) (by omega) heq
    omega

/-- A shuffle of distinct elements can give every arrangement exactly up to 256 elements. -/
theorem arrayShuffle_reaches_iff (hb : r.Balanced) (ha : r.array? id = some a)
    (hi : r.issued + a.elements.length + 1 < 2 ^ 64)
    (hlive : a.stringElements = true → ∀ e ∈ a.elements, (r.text? e).isSome)
    (hdistinct : a.stringElements = false → a.elements.Nodup) :
    (∀ l : List Int, l.Perm (r.clonedElements id) → ∃ bytes : List UInt8,
      bytes.length = 4 * a.elements.length ∧ r.shuffled bytes id = l) ↔ a.elements.length ≤ 256 := by
  obtain ⟨s, c, hc, hclone⟩ := arrayClone_cloned hb ha hi hlive
  obtain ⟨-, -, hcloned, -⟩ := hc.result 0 hclone
  have hlen := hc.length
  rw [hcloned, ← hlen]
  constructor
  · intro hall
    by_contra hlong
    obtain ⟨bytes, hbytes, hsame⟩ := hall c (.refl c)
    rw [hc.shuffled bytes hclone] at hsame
    exact shuffleLoop_moves (by omega) hbytes (by omega) (hc.nodup hi hdistinct) hsame
  · intro hshort l hperm
    by_cases hempty : c.length = 0
    · obtain rfl := List.length_eq_zero_iff.mp hempty
      refine ⟨[], rfl, ?_⟩
      rw [hc.shuffled [] hclone, hperm.eq_nil]
      rfl
    · have hdone : l.drop (c.length - 1 + 1) = c.drop (c.length - 1 + 1) := by
        rw [List.drop_eq_nil_of_le (by rw [hperm.length_eq]; omega), List.drop_eq_nil_of_le (by omega)]
      obtain ⟨bytes, hbytes, hloop⟩ := shuffleLoop_reaches (by omega) (by omega) hperm hdone
      exact ⟨bytes, hbytes, (hc.shuffled bytes hclone).trans hloop⟩

theorem arrayShuffle_reaches_three : ∃ bytes : List UInt8, bytes.length = 12 ∧
    plainValues.shuffled bytes 1 = [2, 3, 1] := by
  have harray : plainValues.array? 1 = some ⟨8, false, [3, 1, 2]⟩ := by decide +kernel
  exact (arrayShuffle_reaches_iff (balanced_empty.insert (by decide) _) harray (by decide)
    (fun hbad => absurd hbad Bool.false_ne_true) (fun _ => by decide)).mpr (by decide) [2, 3, 1] (by decide +kernel)

end Registry
end Neutron
