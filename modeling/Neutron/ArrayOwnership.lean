import Neutron.Execution
import Neutron.RegistryEffects

/-!
# Who owns an element string

Each string handle is in at most one slot of at most one string array. Between the
steps of an operation a string may be loose: copied and not yet stored, or taken out of
an array and not yet dropped. `Disjoint r loose` counts array slots and loose handles
together, so that every operation moves a string from one place to another.
-/

namespace Neutron

-- comparing draws by evaluation would unfold the two's complement reading
attribute [local irreducible] Registry.drawn

/-! ## The sorting and shuffling loops permute -/

theorem swapAt_perm {l : List Int} {i j : ℕ} (hi : i < l.length) (hj : j < l.length) :
    (swapAt l i j).Perm l := by
  have hgi : l.getD i 0 = l[i] := by rw [List.getD_eq_getElem?_getD, List.getElem?_eq_getElem hi, Option.getD_some]
  have hgj : l.getD j 0 = l[j] := by rw [List.getD_eq_getElem?_getD, List.getElem?_eq_getElem hj, Option.getD_some]
  have h₁ := l.getD_set_perm_cons i l[j]
  have h₂ := (l.set i l[j]).getD_set_perm_cons j l[i]
  have hslot : (l.set i l[j])[j]?.getD l[i] = l[j] := by
    rw [List.getElem?_set]
    split
    · simp_all
    · simp [hj]
  rw [List.getElem?_eq_getElem hi, Option.getD_some] at h₁
  rw [hslot] at h₂
  rw [swapAt, hgi, hgj]
  exact (h₂.trans h₁).cons_inv

theorem length_swapAt (l : List Int) (i j : ℕ) : (swapAt l i j).length = l.length := by
  simp [swapAt]

theorem sinkLeft_perm (out : ℕ → Int → Int → Bool) (j : ℕ) (l : List Int) (hj : j < l.length) :
    (sinkLeft out j l).Perm l := by
  induction j generalizing l with
  | zero => exact .refl l
  | succ j ih =>
    unfold sinkLeft
    split
    · have hswap := swapAt_perm (l := l) (i := j) (j := j + 1) (by omega) hj
      exact (ih _ (by rw [length_swapAt]; omega)).trans hswap
    · exact .refl l

theorem insertionSort_perm (out : ℕ → Int → Int → Bool) (l : List Int) :
    (insertionSort out l).Perm l := by
  have hfold (is : List ℕ) (m : List Int) (hm : m.Perm l) (his : ∀ i ∈ is, i < l.length) :
      (is.foldl (fun m i => sinkLeft out i m) m).Perm l := by
    induction is generalizing m with
    | nil => exact hm
    | cons i is ih =>
      have hi : i < m.length := hm.length_eq ▸ his i (by simp)
      exact ih _ ((sinkLeft_perm out i m hi).trans hm) (fun k hk => his k (List.mem_cons_of_mem i hk))
  refine hfold _ l (.refl l) (fun i hi => ?_)
  rw [List.mem_range'_1] at hi
  omega

theorem shuffleLoop_perm (bytes : List UInt8) (i : ℕ) (l : List Int) (hi : i < l.length) :
    (Registry.shuffleLoop bytes i l).Perm l := by
  induction i generalizing l with
  | zero => exact .refl l
  | succ i ih =>
    unfold Registry.shuffleLoop
    have hpick : ∀ j ≤ i + 1, (if i + 1 ≠ j then swapAt l (i + 1) j else l).Perm l := by
      intro j hj
      split
      · exact swapAt_perm hi (by omega)
      · exact .refl l
    have hj : (if (i + 1) * 4 < bytes.length then (bytes.getD ((i + 1) * 4) 0).toNat % (i + 2)
        else (i + 1) / 2) ≤ i + 1 := by
      split
      · exact Nat.le_of_lt_succ (Nat.mod_lt _ (by omega))
      · omega
    have hp := hpick _ hj
    exact (ih _ (by rw [hp.length_eq]; omega)).trans hp

/-! ## Slots -/

/-- The slots of a string array that hold `x`. -/
def Handle.slots (x : Int) : Handle → ℕ
  | .array a => if a.stringElements then a.elements.count x else 0
  | _ => 0

theorem Handle.slots_string (x : Int) (text : String) : (Handle.string text).slots x = 0 := rfl

theorem Handle.slots_array (x : Int) (a : ArrayData) :
    (Handle.array a).slots x = if a.stringElements then a.elements.count x else 0 := rfl

namespace Registry

variable {r r' : Registry} {loose : List Int}

def owners (r : Registry) (x : Int) : ℕ := r.total (fun _ hd => hd.slots x)

/-- Every slot of a string array and every loose handle holds its own live string. -/
structure Disjoint (r : Registry) (loose : List Int) : Prop where
  balanced : r.Balanced
  bound : r.issued < 2 ^ 64
  once : ∀ x, r.owners x + loose.count x ≤ 1
  live : ∀ x, 0 < r.owners x + loose.count x → ∃ s, r.lookup x = some (.string s)

variable {kept : List Int}

theorem Disjoint.forget (h : r.Disjoint loose) (hk : ∀ x, kept.count x ≤ loose.count x) : r.Disjoint kept := by
  refine ⟨h.balanced, h.bound, fun x => ?_, fun x hx => ?_⟩
  · have h₁ := hk x
    have h₂ := h.once x
    omega
  · have h₁ := hk x
    exact h.live x (by omega)

theorem Disjoint.perm (h : r.Disjoint loose) (hp : kept.Perm loose) : r.Disjoint kept :=
  h.forget (fun x => (hp.count_eq x).le)

theorem owners_insert (h : r.Balanced) (hi : r.issued + 1 < 2 ^ 64) (hd : Handle) (x : Int) :
    (r.insert hd).1.owners x = r.owners x + hd.slots x := by
  unfold owners
  rw [total_congr_shards (shards_insert hd), total_store hd (h.fresh (by omega))]

theorem lookup_insert (hd : Handle) (k : Int) :
    (r.insert hd).1.lookup k = if k = drawn r.issued then some hd else r.lookup k := by
  rw [lookup_congr (shards_insert hd), lookup_store]

/-- A new string is loose. -/
theorem Disjoint.putString (h : r.Disjoint loose) (hi : r.issued + 1 < 2 ^ 64) (text : String) :
    (r.putString text).1.Disjoint ((r.putString text).2 :: loose) := by
  have hnew := h.balanced.fresh (by omega)
  have hown (x : Int) : (r.putString text).1.owners x = r.owners x := by
    rw [Registry.putString, owners_insert h.balanced hi, Handle.slots_string, Nat.add_zero]
  have hzero : r.owners (drawn r.issued) + loose.count (drawn r.issued) = 0 := by
    by_contra hne
    obtain ⟨s, hs⟩ := h.live (drawn r.issued) (by omega)
    rw [hnew] at hs
    cases hs
  have hid : (r.putString text).2 = drawn r.issued := rfl
  refine ⟨h.balanced.insert hi _, hi,
    fun x => ?_, fun x hx => ?_⟩
  · have h₁ := hown x
    have h₂ := h.once x
    rw [hid, List.count_cons]
    split
    · rename_i heq
      obtain rfl : drawn r.issued = x := by simpa using heq
      omega
    · omega
  · rw [Registry.putString, lookup_insert]
    split
    · exact ⟨text, rfl⟩
    · rename_i hne
      have h₁ := hown x
      rw [hid, List.count_cons, if_neg (by simpa using Ne.symm hne)] at hx
      exact h.live x (by omega)

/-- An array takes over the loose strings it is built from. -/
theorem Disjoint.putArray {a : ArrayData} (h : r.Disjoint loose) (hi : r.issued + 1 < 2 ^ 64)
    (hk : ∀ x, kept.count x + (if a.stringElements then a.elements.count x else 0) ≤ loose.count x) :
    (r.putArray a).1.Disjoint kept := by
  have hnew := h.balanced.fresh (by omega)
  have hown (x : Int) : (r.putArray a).1.owners x =
      r.owners x + if a.stringElements then a.elements.count x else 0 := by
    rw [Registry.putArray, owners_insert h.balanced hi, Handle.slots_array]
  refine ⟨h.balanced.insert hi _, hi,
    fun x => ?_, fun x hx => ?_⟩
  · have h₁ := hown x
    have h₂ := h.once x
    have h₃ := hk x
    omega
  · have h₁ := hown x
    have h₃ := hk x
    obtain ⟨s, hs⟩ := h.live x (by omega)
    rw [Registry.putArray, lookup_insert, if_neg]
    · exact ⟨s, hs⟩
    · rintro rfl
      rw [hnew] at hs
      cases hs

/-- What only touches other entries keeps the strings apart. -/
theorem Disjoint.of_reaches (h : r.Disjoint loose) (hr : Reaches (fun _ => True) r r') (hi : r'.issued < 2 ^ 64)
    (hle : ∀ x, r'.owners x + kept.count x ≤ r.owners x + loose.count x)
    (hl : ∀ x, 0 < r'.owners x + kept.count x → ∀ s, r.lookup x = some (.string s) →
      r'.lookup x = some (.string s)) : r'.Disjoint kept := by
  refine ⟨hr.balanced h.balanced hi, hi, fun x => (hle x).trans (h.once x), fun x hx => ?_⟩
  obtain ⟨s, hs⟩ := h.live x (hx.trans_le (hle x))
  exact ⟨s, hl x hx s hs⟩

/-- The loose string that goes away is in no array. -/
theorem Disjoint.takeString {x : Int} (h : r.Disjoint (x :: loose)) : (r.takeString x).1.Disjoint loose := by
  have hx : (x :: loose).count x = loose.count x + 1 := List.count_cons_self
  obtain ⟨text, htext⟩ := h.live x (by omega)
  by_cases hnull : x = null
  · rw [Registry.takeString, if_pos hnull]
    exact h.forget (fun y => List.count_le_count_cons)
  have heq : (r.takeString x).1 = r.retire x := by
    rw [Registry.takeString, if_neg hnull, htext]
  have hown (y : Int) : (r.retire x).owners y = r.owners y := by
    have h₁ := total_discard (f := fun _ hd => hd.slots y) htext
    rw [Handle.slots_string, Nat.add_zero] at h₁
    exact h₁
  have hr : Reaches (fun _ => True) r (r.retire x) := Reaches.retirePlain trivial htext (by simp)
  rw [heq]
  refine h.of_reaches hr h.bound (fun y => ?_) (fun y hy s hs => ?_)
  · have h₁ : loose.count y ≤ (x :: loose).count y := List.count_le_count_cons
    rw [hown]
    omega
  · have hne : y ≠ x := by
      rintro rfl
      have h₁ := h.once y
      rw [hown] at hy
      omega
    change (r.discard x).lookup y = _
    rw [lookup_discard, if_neg hne]
    exact hs

theorem Disjoint.takeStrings {es : List Int} (h : r.Disjoint (es ++ loose)) :
    (r.takeStrings es).Disjoint loose := by
  unfold Registry.takeStrings
  induction es generalizing r with
  | nil => exact h
  | cons e es ih => exact ih h.takeString

/-- An array that goes away leaves its strings loose. -/
theorem Disjoint.removeArray {id : Int} {a : ArrayData} (h : r.Disjoint loose) (hid : id ≠ null)
    (hl : r.lookup id = some (.array a)) :
    (r.remove id).1.Disjoint ((if a.stringElements then a.elements else []) ++ loose) := by
  have heq : (r.remove id).1 = r.retireBumping id := by
    rw [Registry.remove, if_neg hid, hl]
  have hown (x : Int) : (r.retireBumping id).owners x +
      (if a.stringElements then a.elements.count x else 0) = r.owners x :=
    total_discard (f := fun _ hd => hd.slots x) hl
  have hr : Reaches (fun _ => True) r (r.retireBumping id) := Reaches.retireBumping trivial hl
  rw [heq]
  refine h.of_reaches hr h.bound (fun x => ?_) (fun x hx s hs => ?_)
  · have h₁ := hown x
    rw [List.count_append]
    split
    · rename_i hs
      rw [if_pos hs] at h₁
      omega
    · rename_i hs
      rw [if_neg hs] at h₁
      rw [List.count_nil]
      omega
  · have hne : x ≠ id := by
      rintro rfl
      rw [hl] at hs
      cases hs
    change (r.discard id).lookup x = _
    rw [lookup_discard, if_neg hne]
    exact hs

/-- An update of an array's elements exchanges slots with loose handles. -/
theorem Disjoint.setElements {id : Int} {a : ArrayData} (h : r.Disjoint loose)
    (hl : r.lookup id = some (.array a)) (f : List Int → List Int)
    (hk : ∀ x, (if a.stringElements then (f a.elements).count x else 0) + kept.count x ≤
      (if a.stringElements then a.elements.count x else 0) + loose.count x) :
    (r.setElements id f).Disjoint kept := by
  have hown (x : Int) : (r.setElements id f).owners x +
      (if a.stringElements then a.elements.count x else 0) =
        r.owners x + if a.stringElements then (f a.elements).count x else 0 :=
    total_modify (f := fun _ hd => hd.slots x) _ hl
  have hr : Reaches (fun _ => True) r (r.setElements id f) := Reaches.refl.setElements hl f
  refine h.of_reaches hr h.bound (fun x => ?_) (fun x hx s hs => ?_)
  · have h₁ := hown x
    have h₂ := hk x
    omega
  · have hne : x ≠ id := by
      rintro rfl
      rw [hl] at hs
      cases hs
    rw [Registry.setElements, lookup_modify, if_neg hne]
    exact hs

end Registry
end Neutron
