import Neutron.ArrayOwnership

/-!
# String arrays own disjoint elements

The array operations one by one over `Disjoint`. Every operation copies or moves each
element string once, except `sort.sort_by`: it writes the sorted elements of its source
into the copy it returns.
-/

namespace Neutron

-- comparing draws by evaluation would unfold the two's complement reading
attribute [local irreducible] Registry.drawn

namespace Registry

variable {r r' : Registry} {loose : List Int}

theorem count_set_add {l : List Int} {i : ℕ} (hi : i < l.length) (v x : Int) :
    (l.set i v).count x + [l[i]].count x = l.count x + [v].count x := by
  have h := (l.getD_set_perm_cons i v).count_eq x
  rw [List.getElem?_eq_getElem hi, Option.getD_some, List.count_cons, List.count_cons] at h
  rw [List.count_singleton, List.count_singleton]
  exact h

/-! ## Pushing, writing, popping and dropping -/

variable {a : ArrayData}

/-- A string array adopts a loose copy of the string it is given. -/
theorem Disjoint.adoptElement {elem value : Int} (h : r.Disjoint loose)
    (ha : r.adoptElement a elem = some (r', value)) (hi : r'.issued < 2 ^ 64) :
    r'.Disjoint ((if a.stringElements then [value] else []) ++ loose) := by
  unfold Registry.adoptElement at ha
  by_cases hs : a.stringElements = true
  · rw [if_pos hs] at ha ⊢
    cases hl : r.lookup elem with
    | none => simp [hl] at ha
    | some hd =>
      cases hd with
      | string text =>
        simp only [hl, Option.some.injEq] at ha
        have h₁ : (r.putString text).1 = r' := congrArg Prod.fst ha
        have h₂ : (r.putString text).2 = value := congrArg Prod.snd ha
        rw [← h₁] at hi ⊢
        rw [← h₂]
        exact h.putString hi text
      | _ => simp [hl] at ha
  · rw [if_neg hs] at ha ⊢
    simp only [Option.some.injEq, Prod.mk.injEq] at ha
    obtain ⟨rfl, -⟩ := ha
    exact h

theorem Disjoint.arrayPush (h : r.Disjoint loose) (id elem : Int)
    (hi : (r.arrayPush id elem).1.issued < 2 ^ 64) : (r.arrayPush id elem).1.Disjoint loose := by
  rcases Registry.arrayPush_cases r id elem with heq | ⟨a, r₁, value, -, ha, heq | ⟨hl₁, heq⟩⟩
  · rw [heq]
    exact h
  · rw [heq] at hi ⊢
    exact (h.adoptElement ha hi).forget (fun x => by rw [List.count_append]; omega)
  · rw [heq] at hi ⊢
    refine (h.adoptElement ha hi).setElements hl₁ (fun l => l ++ [value]) (fun x => ?_)
    rw [List.count_append, List.count_append]
    split
    · omega
    · rw [List.count_nil]
      omega

theorem issued_takeString (id : Int) : (r.takeString id).1.issued = r.issued := by
  unfold Registry.takeString
  split
  · rfl
  · cases r.lookup id with
    | none => rfl
    | some hd => cases hd <;> rfl

theorem Disjoint.arraySet (h : r.Disjoint loose) (id index elem : Int)
    (hi : (r.arraySet id index elem).1.issued < 2 ^ 64) :
    (r.arraySet id index elem).1.Disjoint loose := by
  rcases Registry.arraySet_cases r id index elem with heq | ⟨a, r₁, value, -, ha, heq | ⟨hlt, hl₁, heq⟩⟩
  · rw [heq]
    exact h
  · rw [heq] at hi ⊢
    exact (h.adoptElement ha hi).forget (fun x => by rw [List.count_append]; omega)
  · rw [heq] at hi ⊢
    split at hi
    · rename_i hs
      rw [issued_takeString] at hi
      have h₁ := h.adoptElement ha hi
      rw [if_pos hs] at h₁ ⊢
      refine Disjoint.takeString (h₁.setElements hl₁ (fun l => l.set index.toNat value) (fun x => ?_))
      have hc := count_set_add hlt value x
      rw [if_pos hs, if_pos hs, ← List.singleton_append, List.count_append, List.count_append]
      omega
    · rename_i hs
      have h₁ := h.adoptElement ha hi
      rw [if_neg hs] at h₁ ⊢
      exact h₁.setElements hl₁ (fun l => l.set index.toNat value)
        (fun x => by rw [if_neg hs, if_neg hs, List.nil_append])

/-- The string a pop hands to its caller. -/
def popped (r : Registry) (id : Int) : List Int := (r.owned id).getLast?.toList

theorem Disjoint.arrayPop (h : r.Disjoint loose) (id : Int) :
    (r.arrayPop id).1.Disjoint (r.popped id ++ loose) := by
  unfold Registry.arrayPop
  have hnone (hown : r.owned id = []) : r.Disjoint (r.popped id ++ loose) := by
    rw [popped, hown]
    exact h
  split
  · rename_i hid
    refine hnone ?_
    rw [owned, hid, h.balanced.lookup_null h.bound]
  cases hl : r.lookup id with
  | none => exact hnone (by rw [owned, hl])
  | some hd =>
    cases hd with
    | array a =>
      dsimp only
      cases hlast : a.elements.getLast? with
      | none =>
        refine hnone ?_
        rw [owned, hl]
        dsimp only
        rw [List.getLast?_eq_none_iff.mp hlast, ite_self]
      | some e =>
        refine h.setElements hl List.dropLast (fun x => ?_)
        rw [popped, owned, hl]
        dsimp only
        split
        · rw [hlast, List.count_append, ← Nat.add_assoc, ← List.count_append, Option.toList_some,
            List.dropLast_append_getLast? e hlast]
        · simp
    | _ => exact hnone (by rw [owned, hl])

theorem Disjoint.arrayDrop (h : r.Disjoint loose) (id : Int) : (r.arrayDrop id).Disjoint loose := by
  unfold Registry.arrayDrop
  by_cases hid : id = null
  · rw [if_pos hid]
    exact h
  rw [if_neg hid]
  cases hl : r.lookup id with
  | none => exact h
  | some hd =>
    cases hd with
    | array a =>
      have h₁ := h.removeArray hid hl
      dsimp only
      by_cases hs : a.stringElements = true
      · rw [if_pos hs] at h₁ ⊢
        exact h₁.takeStrings
      · rw [if_neg hs] at h₁ ⊢
        exact h₁
    | _ => exact h

/-! ## Copying -/

theorem Disjoint.cloneOrNull {e : Int} (h : r.Disjoint loose) (he : ∃ s, r.lookup e = some (.string s)) :
    ∃ text, (r.cloneOrNull e).1 = (r.putString text).1 ∧ (r.cloneOrNull e).2 = (r.putString text).2 := by
  obtain ⟨text, htext⟩ := he
  have hnull := h.balanced.lookup_null h.bound
  have hne : e ≠ null := by
    intro heq
    rw [← heq, htext] at hnull
    cases hnull
  have hget : r.getString e = some text := by rw [getString, if_neg hne, htext]
  have hcopy : r.cloneString e = ((r.putString text).1, some (r.putString text).2) := by
    rw [cloneString, hget]
  refine ⟨text, ?_, ?_⟩
  · rw [Registry.cloneOrNull, hcopy]
  · rw [Registry.cloneOrNull, hcopy, Option.getD_some]

/-- Copying live strings leaves the copies loose. -/
theorem Disjoint.cloneElements (es : List Int) (h : r.Disjoint loose)
    (hes : ∀ e ∈ es, ∃ s, r.lookup e = some (.string s))
    (hi : (mapElements (fun r e => r.cloneOrNull e) es r).1.issued < 2 ^ 64) :
    (mapElements (fun r e => r.cloneOrNull e) es r).1.Disjoint
      ((mapElements (fun r e => r.cloneOrNull e) es r).2 ++ loose) := by
  induction es generalizing r loose with
  | nil => exact h
  | cons e es ih =>
    obtain ⟨text, hfst, hsnd⟩ := h.cloneOrNull (hes e (by simp))
    have hmap : mapElements (fun r e => r.cloneOrNull e) (e :: es) r =
        ((mapElements (fun r e => r.cloneOrNull e) es (r.putString text).1).1,
          (r.putString text).2 :: (mapElements (fun r e => r.cloneOrNull e) es (r.putString text).1).2) := by
      simp only [mapElements, hfst, hsnd]
    rw [hmap] at hi ⊢
    have hmono := (reaches_mapElements (P := fun _ => True) (f := fun r e => r.cloneOrNull e)
      (fun r e => reaches_cloneString e) es (r.putString text).1).issued_le
    have hi₁ : r.issued + 1 < 2 ^ 64 := hmono.trans_lt hi
    have h₁ := h.putString hi₁ text
    have hes₁ : ∀ e' ∈ es, ∃ s, (r.putString text).1.lookup e' = some (.string s) := by
      intro e' he'
      obtain ⟨s, hs⟩ := hes e' (List.mem_cons_of_mem e he')
      refine ⟨s, ?_⟩
      rw [Registry.putString, lookup_insert, if_neg]
      · exact hs
      · rintro rfl
        rw [h.balanced.fresh (by omega)] at hs
        cases hs
    exact (ih h₁ hes₁ hi).perm List.perm_middle.symm

theorem Disjoint.mapElements {f : Registry → Int → Registry × Int} (hf : ∀ r e, Reaches (fun _ => True) r (f r e).1)
    (hfd : ∀ r e loose, r.Disjoint loose → (f r e).1.issued < 2 ^ 64 → (f r e).1.Disjoint loose)
    (es : List Int) (h : r.Disjoint loose) (hi : (mapElements f es r).1.issued < 2 ^ 64) :
    (mapElements f es r).1.Disjoint loose := by
  induction es generalizing r with
  | nil => exact h
  | cons e es ih =>
    have hmono := (reaches_mapElements (P := fun _ => True) hf es (f r e).1).issued_le
    exact ih (hfd r e loose h (hmono.trans_lt hi)) hi

variable {id : Int}

theorem slots_le_owners {hd : Handle} (hl : r.lookup id = some hd) (x : Int) : hd.slots x ≤ r.owners x := by
  have h := total_discard (f := fun _ hd => hd.slots x) hl
  exact (Nat.le_add_left _ _).trans h.le

/-- The elements of a string array are live strings. -/
theorem Disjoint.live_element {e : Int} (h : r.Disjoint loose)
    (hl : r.lookup id = some (.array a)) (hs : a.stringElements = true) (he : e ∈ a.elements) :
    ∃ s, r.lookup e = some (.string s) := by
  have hle := slots_le_owners hl e
  have hpos := List.count_pos_iff.mpr he
  rw [Handle.slots_array, if_pos hs] at hle
  exact h.live e (by omega)

/-- A copy of an array copies the strings it selects and treats every other element with
`raw`, which may itself copy arrays. -/
theorem Disjoint.copyArray {raw : ArrayData → Registry → Int → Registry × Int}
    {select : List Int → List Int} (hselect : ∀ l, ∀ e ∈ select l, e ∈ l)
    (hraw : ∀ a r e, Reaches (fun _ => True) r (raw a r e).1)
    (hrawd : ∀ a r e loose, r.Disjoint loose → (raw a r e).1.issued < 2 ^ 64 →
      (raw a r e).1.Disjoint loose)
    (h : r.Disjoint loose) (id : Int) (hi : (r.copyArray raw select id).1.issued < 2 ^ 64) :
    (r.copyArray raw select id).1.Disjoint loose := by
  unfold Registry.copyArray at hi ⊢
  split
  · exact h
  rename_i hid
  rw [if_neg hid] at hi
  cases hl : r.lookup id with
  | none => exact h
  | some hd =>
    cases hd with
    | array a =>
      simp only [hl] at hi ⊢
      by_cases hs : a.stringElements = true
      · simp only [hs, if_true] at hi ⊢
        have hi₁ := (Nat.lt_succ_self _).trans hi
        have h₁ := h.cloneElements (select a.elements)
          (fun e he => h.live_element hl hs (hselect a.elements e he)) hi₁
        refine h₁.putArray hi (fun x => ?_)
        rw [if_pos rfl, List.count_append]
        exact (Nat.add_comm _ _).le
      · simp only [hs] at hi ⊢
        have hi₁ := (Nat.lt_succ_self _).trans hi
        have h₁ := h.mapElements (hraw a) (hrawd a) (select a.elements) hi₁
        exact h₁.putArray hi (fun x => by simp)
    | _ => exact h

theorem Disjoint.arrayClone (levels : ℕ) (h : r.Disjoint loose) (id : Int)
    (hi : (arrayClone levels r id).1.issued < 2 ^ 64) : (arrayClone levels r id).1.Disjoint loose := by
  induction levels generalizing r id loose with
  | zero => exact h.copyArray (fun l e he => he) reaches_keepRaw (fun a r e loose h hi => h) id hi
  | succ levels ih =>
    refine h.copyArray (fun l e he => he) (fun a r e => ?_) (fun a r e loose h hi => ?_) id hi
    · split
      · exact (allocates_arrayClone levels r e).reaches
      · exact .refl
    · split at hi
      · rename_i hc
        rw [if_pos hc]
        exact ih h e hi
      · rename_i hc
        rw [if_neg hc]
        exact h

theorem Disjoint.selected {select : List Int → List Int} (hselect : ∀ l, ∀ e ∈ select l, e ∈ l)
    (h : r.Disjoint loose) (id : Int) (hi : (r.copyArray keepRaw select id).1.issued < 2 ^ 64) :
    (r.copyArray keepRaw select id).1.Disjoint loose :=
  h.copyArray hselect reaches_keepRaw (fun _ _ _ _ h _ => h) id hi

theorem mem_of_mem_sliceWindow {start stop : Int} (l : List Int) :
    ∀ e ∈ sliceWindow start stop l, e ∈ l := by
  intro e he
  unfold sliceWindow at he
  exact List.mem_of_mem_take (List.mem_of_mem_drop he)

theorem Disjoint.arrayRemoveAt (h : r.Disjoint loose) (id index : Int)
    (hi : (r.arrayRemoveAt id index).1.issued < 2 ^ 64) : (r.arrayRemoveAt id index).1.Disjoint loose := by
  refine h.selected (fun l e he => ?_) id hi
  have hsub (k : Int) : (if 0 ≤ k then l.eraseIdx k.toNat else l).Sublist l := by
    split
    · exact List.eraseIdx_sublist l _
    · exact .refl l
  exact (hsub _).subset he

theorem Disjoint.arrayFill (h : r.Disjoint loose) {val : Int} (count elemSize : Int) {stringElements : Bool}
    (hval : stringElements = true → ∃ s, r.lookup val = some (.string s))
    (hi : (r.arrayFill val count elemSize stringElements).1.issued < 2 ^ 64) :
    (r.arrayFill val count elemSize stringElements).1.Disjoint loose := by
  unfold Registry.arrayFill at hi ⊢
  split
  · exact h
  rename_i hc
  rw [if_neg hc] at hi
  cases stringElements with
  | true =>
    simp only [if_true] at hi ⊢
    have hi₁ := (Nat.lt_succ_self _).trans hi
    have h₁ := h.cloneElements (List.replicate count.toNat val)
      (fun e he => List.eq_of_mem_replicate he ▸ hval rfl) hi₁
    refine h₁.putArray hi (fun x => ?_)
    rw [if_pos rfl, List.count_append]
    exact (Nat.add_comm _ _).le
  | false =>
    have hi₁ := (Nat.lt_succ_self _).trans hi
    have h₁ := h.mapElements (f := fun r e => (r, e)) (fun r e => .refl) (fun r e loose h hi => h)
      (List.replicate count.toNat val) hi₁
    exact h₁.putArray hi (fun x => by simp)

theorem Disjoint.arrayNew (h : r.Disjoint loose) (elemSize : Int) (stringElements : Bool)
    (hi : (r.arrayNew elemSize stringElements).1.issued < 2 ^ 64) :
    (r.arrayNew elemSize stringElements).1.Disjoint loose := by
  unfold Registry.arrayNew at hi ⊢
  split
  · exact h
  · rename_i hc
    rw [if_neg hc] at hi
    exact h.putArray hi (fun x => by simp)

/-! ## Sorting and shuffling -/

/-- Reordering the elements of an array. -/
theorem Disjoint.permuteElements (h : r.Disjoint loose)
    (hl : r.lookup id = some (.array a)) {f : List Int → List Int} (hf : (f a.elements).Perm a.elements) :
    (r.setElements id f).Disjoint loose :=
  h.setElements hl f (fun x => by rw [hf.count_eq])

theorem Disjoint.arraySort (h : r.Disjoint loose) (id mode : Int)
    (hi : (r.arraySort id mode).1.issued < 2 ^ 64) : (r.arraySort id mode).1.Disjoint loose := by
  unfold Registry.arraySort at hi ⊢
  dsimp only at hi ⊢
  by_cases hne : (Registry.arrayClone 0 r id).2 = null
  · rw [if_pos hne] at hi ⊢
    exact h.arrayClone 0 id hi
  · rw [if_neg hne] at hi ⊢
    obtain ⟨-, a, -, hl, -⟩ := lookup_arrayClone 0 hne
    simp only [hl] at hi ⊢
    exact (h.arrayClone 0 id hi).permuteElements hl (insertionSort_perm _ _)

theorem Disjoint.arrayShuffle (h : r.Disjoint loose) (bytes : List UInt8) (id : Int)
    (hi : (r.arrayShuffle bytes id).1.issued < 2 ^ 64) : (r.arrayShuffle bytes id).1.Disjoint loose := by
  unfold Registry.arrayShuffle at hi ⊢
  dsimp only at hi ⊢
  by_cases hne : (Registry.arrayClone 0 r id).2 = null
  · rw [if_pos hne] at hi ⊢
    exact h.arrayClone 0 id hi
  · rw [if_neg hne] at hi ⊢
    obtain ⟨-, a, -, hl, -⟩ := lookup_arrayClone 0 hne
    simp only [hl] at hi ⊢
    split
    · rename_i hlen
      rw [if_pos hlen] at hi
      exact h.arrayClone 0 id hi
    · rename_i hlen
      rw [if_neg hlen] at hi
      exact (h.arrayClone 0 id hi).permuteElements hl (shuffleLoop_perm bytes _ _ (by omega))

/-- A clone of an empty string array stores nothing but the new array. -/
theorem arrayClone_empty (hid : id ≠ null) (hl : r.lookup id = some (.array a))
    (he : a.elements = []) : (Registry.arrayClone 0 r id).1 = (r.putArray { a with elements := [] }).1 := by
  have hcopy : Registry.arrayClone 0 r id = r.copyArray keepRaw (fun l => l) id := rfl
  rw [hcopy, Registry.copyArray, if_neg hid, hl]
  dsimp only
  rw [he, Registry.mapElements]

/-- Writing the source's elements into the copy is harmless when they are not strings, or
when there are none. -/
theorem Disjoint.sortBy (h : r.Disjoint loose) (hown : r.owned id = []) (cmp : Int → Int → Int)
    (hi : (r.sortBy id cmp).1.issued < 2 ^ 64) : (r.sortBy id cmp).1.Disjoint loose := by
  have hle : (Registry.arrayClone 0 r id).1.issued ≤ (r.sortBy id cmp).1.issued := by
    unfold Registry.sortBy
    dsimp only
    split
    · exact le_rfl
    · exact (reaches_arrayWriteElements (P := fun _ => True) _ _).issued_le
  have hc := h.arrayClone 0 id (hle.trans_lt hi)
  unfold Registry.sortBy
  dsimp only
  by_cases hne : (Registry.arrayClone 0 r id).2 = null
  · rw [if_pos hne]
    exact hc
  rw [if_neg hne]
  obtain ⟨a, b, hl, hlb, hab⟩ := lookup_arrayClone 0 hne
  dsimp only
  unfold Registry.arrayWriteElements
  cases hb : (Registry.arrayClone 0 r id).1.array? (Registry.arrayClone 0 r id).2 with
  | none => exact hc
  | some c =>
    obtain rfl : b = c := by simpa [hlb] using lookup_of_array hb
    refine hc.setElements hlb (fun _ => _) (fun x => ?_)
    by_cases hs : b.stringElements = true
    · rw [hab] at hs
      have he : a.elements = [] := by simpa [owned, hl, hs] using hown
      have hid : id ≠ null := by
        intro heq
        have hnull := h.balanced.lookup_null h.bound
        rw [← heq, hl] at hnull
        cases hnull
      have hsource : (Registry.arrayClone 0 r id).1.arrayToVec id = [] := by
        rw [arrayClone_empty hid hl he, Registry.arrayToVec, Registry.array?, Registry.borrow, if_neg hid,
          Registry.putArray, lookup_insert]
        by_cases hnew : id = drawn r.issued
        · rw [if_pos hnew]
          rfl
        · rw [if_neg hnew, hl]
          exact he
      rw [hsource]
      simp [insertionSort]
    · rw [if_neg hs, if_neg hs]

/-! ## Dropping one array leaves the others alone -/

theorem lookup_takeString_ne {x y : Int} (hne : y ≠ x) : (r.takeString x).1.lookup y = r.lookup y := by
  unfold Registry.takeString
  split
  · rfl
  · cases r.lookup x with
    | none => rfl
    | some hd =>
      cases hd with
      | string s =>
        change (r.discard x).lookup y = _
        rw [lookup_discard, if_neg hne]
      | _ => rfl

theorem lookup_takeStrings {es : List Int} {y : Int} (hy : y ∉ es) :
    (r.takeStrings es).lookup y = r.lookup y := by
  unfold Registry.takeStrings
  induction es generalizing r with
  | nil => rfl
  | cons e es ih =>
    rw [List.mem_cons, not_or] at hy
    rw [List.foldl_cons, ih hy.2, lookup_takeString_ne hy.1]

theorem lookup_arrayDrop {id y : Int} (hne : y = id → ∀ a, r.lookup y ≠ some (.array a))
    (hy : y ∉ r.owned id) : (r.arrayDrop id).lookup y = r.lookup y := by
  unfold Registry.arrayDrop
  split
  · rfl
  rename_i hid
  cases hl : r.lookup id with
  | none => rfl
  | some hd =>
    cases hd with
    | array a =>
      have hother : y ≠ id := fun heq => hne heq a (heq ▸ hl)
      have hremove : (r.remove id).1.lookup y = r.lookup y := by
        rw [Registry.remove, if_neg hid, hl]
        change (r.discard id).lookup y = _
        rw [lookup_discard, if_neg hother]
      dsimp only
      by_cases hs : a.stringElements = true
      · have hmem : y ∉ a.elements := by simpa [owned, hl, hs] using hy
        rw [if_pos hs, lookup_takeStrings hmem, hremove]
      · rw [if_neg hs, hremove]
    | _ => rfl

/-- Two arrays that hold one string are the same array. -/
theorem Disjoint.same_array {id id' : Int} {a b : ArrayData} {e : Int} (h : r.Disjoint loose)
    (hl : r.lookup id = some (.array a)) (hs : a.stringElements = true) (he : e ∈ a.elements)
    (hl' : r.lookup id' = some (.array b)) (hs' : b.stringElements = true) (he' : e ∈ b.elements) :
    id = id' := by
  by_contra hne
  have htotal := total_discard (f := fun _ hd => hd.slots e) hl'
  have hkept : (r.discard id').lookup id = some (.array a) := by rw [lookup_discard, if_neg hne, hl]
  have hle := slots_le_owners hkept e
  have honce := h.once e
  have hpos := List.count_pos_iff.mpr he
  have hpos' := List.count_pos_iff.mpr he'
  simp only [Handle.slots_array, if_pos hs, if_pos hs'] at hle htotal
  unfold owners at hle honce
  omega

/-- What a program relies on: the strings of a string array are live and its own. -/
structure SeparateElements (r : Registry) : Prop where
  live : ∀ id a, r.lookup id = some (.array a) → a.stringElements = true →
    ∀ e ∈ a.elements, ∃ s, r.lookup e = some (.string s)
  separate : ∀ id a (i : ℕ) id' b (j : ℕ) e, r.lookup id = some (.array a) → a.stringElements = true →
    a.elements[i]? = some e → r.lookup id' = some (.array b) → b.stringElements = true →
    b.elements[j]? = some e → id = id' ∧ i = j
  dropped : ∀ id id' b, id ≠ id' → r.lookup id' = some (.array b) → b.stringElements = true →
    (r.arrayDrop id).lookup id' = some (.array b) ∧
      ∀ e ∈ b.elements, (r.arrayDrop id).lookup e = r.lookup e

theorem Disjoint.nodup (h : r.Disjoint loose)
    (hl : r.lookup id = some (.array a)) (hs : a.stringElements = true) : a.elements.Nodup := by
  rw [List.nodup_iff_count_le_one]
  intro e
  have hle := slots_le_owners hl e
  have honce := h.once e
  rw [Handle.slots_array, if_pos hs] at hle
  omega

theorem Disjoint.separateElements (h : r.Disjoint loose) : r.SeparateElements := by
  refine ⟨fun id a hl hs e he => h.live_element hl hs he, ?_, ?_⟩
  · intro id a i id' b j e hl hs hi hl' hs' hj
    obtain rfl := h.same_array hl hs (List.mem_of_getElem? hi) hl' hs' (List.mem_of_getElem? hj)
    obtain rfl : a = b := by simpa [hl] using hl'
    obtain ⟨hlt, -⟩ := List.getElem?_eq_some_iff.mp hi
    exact ⟨rfl, (List.getElem?_inj hlt (h.nodup hl hs)).mp (hi.trans hj.symm)⟩
  · intro id id' b hne hl' hs'
    have howned {e : Int} (he : e ∈ r.owned id) : ∃ a, r.lookup id = some (.array a) ∧
        a.stringElements = true ∧ e ∈ a.elements := by
      cases hl : r.lookup id with
      | none => simp [owned, hl] at he
      | some hd =>
        cases hd with
        | array a => simpa [owned, hl] using he
        | _ => simp [owned, hl] at he
    refine ⟨?_, fun e he => ?_⟩
    · rw [lookup_arrayDrop (fun heq => absurd heq.symm hne), hl']
      intro hmem
      obtain ⟨a, hl, hs, he⟩ := howned hmem
      obtain ⟨text, htext⟩ := h.live_element hl hs he
      rw [hl'] at htext
      cases htext
    · apply lookup_arrayDrop
      · obtain ⟨text, htext⟩ := h.live_element hl' hs' he
        simp [htext]
      · intro hmem
        obtain ⟨a, hl, hs, hea⟩ := howned hmem
        exact hne (h.same_array hl hs hea hl' hs' he)

end Registry
end Neutron
