import Neutron.RegistryLedger

/-!
# The effects of the registry operations

One lemma per operation says that it only has the effects of `Reaches` and, where the
operation allocates, that the handle it returns was drawn while it ran.
-/

namespace Neutron.Registry

-- comparing draws by evaluation would unfold the two's complement reading
attribute [local irreducible] drawn

variable {P : Int → Prop} {r r' : Registry}

/-- The handle was drawn between the two states. -/
def Fresh (r r' : Registry) (id : Int) : Prop := ∃ n, r.issued ≤ n ∧ n < r'.issued ∧ id = drawn n

variable {id : Int}

theorem Fresh.after {r₀ : Registry} (h : Fresh r r' id) (hle : r₀.issued ≤ r.issued) : Fresh r₀ r' id := by
  obtain ⟨n, h₁, h₂, h₃⟩ := h
  exact ⟨n, hle.trans h₁, h₂, h₃⟩

theorem Fresh.before {r₁ : Registry} (h : Fresh r r' id) (hle : r'.issued ≤ r₁.issued) : Fresh r r₁ id := by
  obtain ⟨n, h₁, h₂, h₃⟩ := h
  exact ⟨n, h₁, h₂.trans_le hle, h₃⟩

theorem fresh_insert (hd : Handle) : Fresh r (r.insert hd).1 (r.insert hd).2 :=
  ⟨r.issued, le_rfl, Nat.lt_succ_self _, rfl⟩

theorem Reaches.retireBumping {hd : Handle} (hp : P id) (hl : r.lookup id = some hd) :
    Reaches P r (r.retireBumping id) :=
  Reaches.refl.retire hp hl (r.generation + 1) (.inl rfl)

theorem Reaches.retirePlain {hd : Handle} (hp : P id) (hl : r.lookup id = some hd)
    (hm : ∀ m, hd ≠ .memory m) : Reaches P r (r.retire id) :=
  Reaches.refl.retire hp hl r.generation (.inr ⟨rfl, hm⟩)

theorem reaches_remove (hp : P id) : Reaches P r (r.remove id).1 := by
  unfold remove
  split
  · exact .refl
  · cases hl : r.lookup id with
    | none => exact .refl
    | some hd => exact Reaches.retireBumping hp hl

theorem reaches_removeAll (ids : List Int) (hp : ∀ x ∈ ids, P x) : Reaches P r (r.removeAll ids) := by
  unfold removeAll
  induction ids generalizing r with
  | nil => exact .refl
  | cons id ids ih =>
    exact (reaches_remove (hp id (by simp))).trans (ih (fun x hx => hp x (List.mem_cons_of_mem id hx)))

theorem reaches_removeKind (kind : Handle → Bool) (hp : P id) : Reaches P r (r.removeKind id kind).1 := by
  unfold removeKind
  cases r.borrow id with
  | none => exact .refl
  | some hd =>
    dsimp only
    split
    · exact reaches_remove hp
    · exact .refl

/-- The removals that test the kind before they retire the entry. -/
theorem reaches_takeString (hp : ∀ s, r.lookup id = some (.string s) → P id) :
    Reaches P r (r.takeString id).1 := by
  unfold takeString
  split
  · exact .refl
  · cases hl : r.lookup id with
    | none => exact .refl
    | some hd =>
      cases hd with
      | string s => exact Reaches.retirePlain (hp s hl) hl (by simp)
      | _ => exact .refl

theorem reaches_takeStrings (ids : List Int) (hp : ∀ x ∈ ids, P x) : Reaches P r (r.takeStrings ids) := by
  unfold takeStrings
  induction ids generalizing r with
  | nil => exact .refl
  | cons id ids ih =>
    exact (reaches_takeString (fun _ _ => hp id (by simp))).trans
      (ih (fun x hx => hp x (List.mem_cons_of_mem id hx)))

theorem reaches_asyncSleepDrop (hp : P id) : Reaches P r (r.asyncSleepDrop id) := by
  unfold asyncSleepDrop
  split
  · exact .refl
  · cases hl : r.lookup id with
    | none => exact .refl
    | some hd =>
      cases hd with
      | asyncSleep state ms deadline => exact Reaches.retirePlain hp hl (by simp)
      | _ => exact .refl

theorem reaches_removeGoroutineHandle (hp : P id) : Reaches P r (r.removeGoroutineHandle id) := by
  unfold removeGoroutineHandle
  split
  · exact .refl
  · cases hl : r.lookup id with
    | none => exact .refl
    | some hd =>
      cases hd with
      | goroutine core => exact Reaches.retirePlain hp hl (by simp)
      | _ => exact .refl

theorem reaches_sliceDrop (hp : P id) : Reaches P r (r.sliceDrop id) := by
  unfold sliceDrop
  split
  · exact .refl
  · cases hl : r.lookup id with
    | none => exact .refl
    | some hd =>
      cases hd with
      | slice s => exact Reaches.retireBumping hp hl
      | _ => exact .refl

theorem reaches_memoryDrop (hp : P id) : Reaches P r (r.memoryDrop id) := by
  unfold memoryDrop
  split
  · exact .refl
  · cases hl : r.lookup id with
    | none => exact .refl
    | some hd =>
      cases hd with
      | memory m => exact Reaches.retireBumping hp hl
      | _ => exact .refl

theorem reaches_takeOpaque (type : ℕ) (hp : P id) : Reaches P r (r.takeOpaque type id).1 := by
  unfold takeOpaque
  split
  · exact .refl
  · cases hl : r.lookup id with
    | none => exact .refl
    | some hd =>
      cases hd with
      | opaqueValue t payload =>
        dsimp only
        split
        · exact Reaches.retirePlain hp hl (by simp)
        · exact .refl
      | _ => exact .refl

theorem reaches_withOpaqueIo {α : Type} (type : ℕ) (id : Int) (f : Int → Int × α) :
    Reaches P r (r.withOpaqueIo type id f).1 := by
  unfold withOpaqueIo
  split
  · exact .refl
  · cases hl : r.lookup id with
    | none => exact .refl
    | some hd =>
      cases hd with
      | opaqueValue t payload =>
        dsimp only
        split
        · rename_i ht
          subst ht
          exact Reaches.refl.exchange hl _
        · exact .refl
      | _ => exact .refl

theorem lookup_of_borrow {hd : Handle} (h : r.borrow id = some hd) : r.lookup id = some hd := by
  unfold borrow at h
  split at h
  · cases h
  · exact h

theorem lookup_of_getString {text : String} (h : r.getString id = some text) :
    r.lookup id = some (.string text) := by
  unfold getString at h
  split at h
  · cases h
  · cases hl : r.lookup id with
    | none => simp [hl] at h
    | some hd =>
      cases hd with
      | string s => simpa [hl] using h
      | _ => simp [hl] at h

theorem reaches_sharedRetain (id : Int) : Reaches P r (r.sharedRetain id).1 := by
  unfold sharedRetain
  cases hl : r.borrow id with
  | none => exact .refl
  | some hd =>
    cases hd with
    | shared s => exact Reaches.refl.modify (lookup_of_borrow hl) _ (.shared _ _)
    | _ => exact .refl

theorem reaches_chanRetain (id : Int) : Reaches P r (r.chanRetain id).1 := by
  unfold chanRetain
  cases hl : r.borrow id with
  | none => exact .refl
  | some hd =>
    cases hd with
    | chan core count => exact Reaches.refl.modify (lookup_of_borrow hl) _ (.chan core _ _)
    | _ => exact .refl

theorem reaches_sharedRelease (hp : ∀ s, r.lookup id = some (.shared s) → P id) :
    Reaches P r (r.sharedRelease id).1 := by
  unfold sharedRelease
  split
  · exact .refl
  · cases hl : r.lookup id with
    | none => exact .refl
    | some hd =>
      cases hd with
      | shared s =>
        dsimp only
        split
        · exact Reaches.refl.modify hl _ (.shared _ _)
        · exact Reaches.retirePlain (hp s hl) hl (by simp)
      | _ => exact .refl

/-! ## Arrays -/

theorem lookup_of_array {a : ArrayData} (h : r.array? id = some a) : r.lookup id = some (.array a) := by
  unfold array? at h
  cases hl : r.borrow id with
  | none => simp [hl] at h
  | some hd =>
    cases hd with
    | array b =>
      obtain rfl : b = a := by simpa [hl] using h
      exact lookup_of_borrow hl
    | _ => simp [hl] at h

theorem Reaches.setElements {a : ArrayData} (h : Reaches P r r')
    (hl : r'.lookup id = some (.array a)) (f : List Int → List Int) :
    Reaches P r (r'.setElements id f) :=
  h.modify hl _ (.array _ _)

theorem reaches_cloneString (id : Int) : Reaches P r (r.cloneString id).1 := by
  unfold cloneString
  cases r.getString id with
  | none => exact .refl
  | some text => exact Reaches.refl.insert _ rfl

theorem reaches_adoptElement {a : ArrayData} {elem value : Int}
    (h : r.adoptElement a elem = some (r', value)) : Reaches P r r' := by
  unfold adoptElement at h
  split at h
  · cases hl : r.lookup elem with
    | none => simp [hl] at h
    | some hd =>
      cases hd with
      | string text =>
        simp only [hl, Option.some.injEq, Prod.ext_iff] at h
        obtain ⟨rfl, -⟩ := h
        exact Reaches.refl.insert _ rfl
      | _ => simp [hl] at h
  · simp only [Option.some.injEq, Prod.mk.injEq] at h
    obtain ⟨rfl, -⟩ := h
    exact .refl

/-- An array seen after adopting an element is the array seen before. -/
theorem lookup_adoptElement {a b : ArrayData} {id elem value : Int}
    (h : r.adoptElement a elem = some (r', value)) (hl : r'.lookup id = some (.array b)) :
    r.lookup id = some (.array b) := by
  unfold adoptElement at h
  split at h
  · cases he : r.lookup elem with
    | none => simp [he] at h
    | some hd =>
      cases hd with
      | string text =>
        simp only [he, Option.some.injEq, Prod.ext_iff] at h
        obtain ⟨rfl, -⟩ := h
        rw [lookup_congr (shards_insert _), lookup_store] at hl
        split at hl
        · cases hl
        · exact hl
      | _ => simp [he] at h
  · simp only [Option.some.injEq, Prod.mk.injEq] at h
    obtain ⟨rfl, -⟩ := h
    exact hl

/-- What a push leaves: nothing, the copy alone, or the array with the value at its end. -/
theorem arrayPush_cases (r : Registry) (id elem : Int) : (r.arrayPush id elem).1 = r ∨
    ∃ a r₁ value, r.lookup id = some (.array a) ∧ r.adoptElement a elem = some (r₁, value) ∧
      ((r.arrayPush id elem).1 = r₁ ∨
        r₁.lookup id = some (.array a) ∧ (r.arrayPush id elem).1 = r₁.setElements id (· ++ [value])) := by
  unfold arrayPush
  split
  · rename_i a hl
    split
    · rename_i r₁ value ha
      refine .inr ⟨a, r₁, value, hl, ha, ?_⟩
      split
      · rename_i b hl₁
        obtain rfl : a = b := by simpa [hl] using lookup_adoptElement ha hl₁
        exact .inr ⟨hl₁, rfl⟩
      · exact .inl rfl
    · exact .inl rfl
  · exact .inl rfl

/-- The same of a write, which releases the string it replaces. -/
theorem arraySet_cases (r : Registry) (id index elem : Int) : (r.arraySet id index elem).1 = r ∨
    ∃ a r₁ value, r.lookup id = some (.array a) ∧ r.adoptElement a elem = some (r₁, value) ∧
      ((r.arraySet id index elem).1 = r₁ ∨ ∃ hlt : index.toNat < a.elements.length,
        r₁.lookup id = some (.array a) ∧ (r.arraySet id index elem).1 =
          if a.stringElements then
            ((r₁.setElements id (·.set index.toNat value)).takeString (a.elements[index.toNat])).1
          else r₁.setElements id (·.set index.toNat value)) := by
  unfold arraySet
  split
  · exact .inl rfl
  split
  · rename_i a hl
    split
    · rename_i r₁ value ha
      refine .inr ⟨a, r₁, value, hl, ha, ?_⟩
      split
      · rename_i b hl₁
        obtain rfl : a = b := by simpa [hl] using lookup_adoptElement ha hl₁
        split
        · rename_i hlt
          exact .inr ⟨hlt, hl₁, rfl⟩
        · exact .inl rfl
      · exact .inl rfl
    · exact .inl rfl
  · exact .inl rfl

theorem reaches_arrayPush (id elem : Int) : Reaches P r (r.arrayPush id elem).1 := by
  rcases arrayPush_cases r id elem with heq | ⟨a, r₁, value, -, ha, heq | ⟨hl₁, heq⟩⟩
  · rw [heq]
    exact .refl
  · rw [heq]
    exact reaches_adoptElement ha
  · rw [heq]
    exact (reaches_adoptElement ha).setElements hl₁ _

/-- The elements a string array owns. -/
def owned (r : Registry) (id : Int) : List Int :=
  match r.lookup id with
  | some (.array a) => if a.stringElements then a.elements else []
  | _ => []

theorem reaches_arraySet (id index elem : Int) (hp : ∀ x, (r.owned id)[index.toNat]? = some x → P x) :
    Reaches P r (r.arraySet id index elem).1 := by
  rcases arraySet_cases r id index elem with heq | ⟨a, r₁, value, hl, ha, heq | ⟨hlt, hl₁, heq⟩⟩
  · rw [heq]
    exact .refl
  · rw [heq]
    exact reaches_adoptElement ha
  · rw [heq]
    have hset : Reaches P r _ := (reaches_adoptElement ha).setElements hl₁ (·.set index.toNat value)
    split
    · rename_i hs
      refine hset.trans (reaches_takeString fun _ _ => hp _ ?_)
      rw [owned, hl]
      simp [hs, hlt]
    · exact hset

theorem reaches_arrayDrop (hid : ∀ a, r.lookup id = some (.array a) → P id) (hp : ∀ x ∈ r.owned id, P x) :
    Reaches P r (r.arrayDrop id) := by
  unfold arrayDrop
  split
  · exact .refl
  cases hl : r.lookup id with
  | none => exact .refl
  | some hd =>
    cases hd with
    | array a =>
      dsimp only
      by_cases hs : a.stringElements = true
      · rw [if_pos hs]
        exact (reaches_remove (hid a hl)).trans
          (reaches_takeStrings _ (fun x hx => hp x (by simp [owned, hl, hs, hx])))
      · rw [if_neg hs]
        exact reaches_remove (hid a hl)
    | _ => exact .refl

theorem reaches_arrayPop (id : Int) : Reaches P r (r.arrayPop id).1 := by
  unfold arrayPop
  split
  · exact .refl
  cases hl : r.lookup id with
  | none => exact .refl
  | some hd =>
    cases hd with
    | array a =>
      dsimp only
      cases a.elements.getLast? with
      | none => exact .refl
      | some e => exact Reaches.refl.setElements hl _
    | _ => exact .refl

theorem reaches_mapElements {f : Registry → Int → Registry × Int} (hf : ∀ r e, Reaches P r (f r e).1)
    (l : List Int) (r : Registry) : Reaches P r (mapElements f l r).1 := by
  induction l generalizing r with
  | nil => exact .refl
  | cons e l ih => exact (hf r e).trans (ih (f r e).1)

/-- An operation that returns a handle or the null handle: either it changes nothing, or
the handle was drawn while it ran. -/
structure Allocates (P : Int → Prop) (r : Registry) (out : Registry × Int) : Prop where
  reaches : Reaches P r out.1
  fresh : out = (r, null) ∨ Fresh r out.1 out.2

theorem Allocates.insert (h : Reaches P r r') (hd : Handle) (hplain : hd.core? = none) :
    Allocates P r (r'.insert hd) :=
  ⟨h.insert hd hplain, .inr ((fresh_insert hd).after h.issued_le)⟩

theorem Allocates.none : Allocates P r (r, null) := ⟨.refl, .inl rfl⟩

theorem allocates_arrayNew (elemSize : Int) (stringElements : Bool) :
    Allocates P r (r.arrayNew elemSize stringElements) := by
  unfold arrayNew
  split
  · exact .none
  · exact .insert .refl _ rfl

theorem allocates_copyArray {raw : ArrayData → Registry → Int → Registry × Int}
    (hraw : ∀ a r e, Reaches P r (raw a r e).1) (select : List Int → List Int) (id : Int) :
    Allocates P r (r.copyArray raw select id) := by
  unfold copyArray
  split
  · exact .none
  cases hl : r.lookup id with
  | none => exact .none
  | some hd =>
    cases hd with
    | array a =>
      refine .insert (reaches_mapElements (fun r e => ?_) _ r) _ rfl
      split
      · exact reaches_cloneString e
      · exact hraw a r e
    | _ => exact .none

theorem allocates_arrayClone (levels : ℕ) (r : Registry) (id : Int) :
    Allocates P r (arrayClone levels r id) := by
  induction levels generalizing r id with
  | zero => exact allocates_copyArray (fun a r e => .refl) _ id
  | succ levels ih =>
    refine allocates_copyArray (fun a r e => ?_) _ id
    split
    · exact (ih r e).reaches
    · exact .refl

theorem allocates_arrayFill (val count elemSize : Int) (stringElements : Bool) :
    Allocates P r (r.arrayFill val count elemSize stringElements) := by
  unfold arrayFill
  split
  · exact .none
  · refine .insert (reaches_mapElements (fun r e => ?_) _ r) _ rfl
    split
    · exact reaches_cloneString e
    · exact .refl

theorem reaches_keepRaw (a : ArrayData) (r : Registry) (e : Int) : Reaches P r (keepRaw a r e).1 := .refl

/-- An update in place of the array a clone has just produced. -/
theorem Allocates.setElements {out : Registry × Int} {a : ArrayData} (h : Allocates P r out)
    (hne : out.2 ≠ null) (hl : out.1.lookup out.2 = some (.array a)) (f : List Int → List Int) :
    Allocates P r (out.1.setElements out.2 f, out.2) := by
  refine ⟨h.reaches.setElements hl f, ?_⟩
  rcases h.fresh with heq | hf
  · rw [heq] at hne
    exact absurd rfl hne
  · exact .inr hf

/-- A successful copy is a new array with the element representation of its source. -/
theorem lookup_copyArray {raw : ArrayData → Registry → Int → Registry × Int} {select : List Int → List Int}
    (h : (r.copyArray raw select id).2 ≠ null) :
    ∃ a b, r.lookup id = some (.array a) ∧
      (r.copyArray raw select id).1.lookup (r.copyArray raw select id).2 = some (.array b) ∧
      b.stringElements = a.stringElements := by
  unfold copyArray at h ⊢
  split
  · rename_i hid
    rw [if_pos hid] at h
    exact absurd rfl h
  · rename_i hid
    rw [if_neg hid] at h
    cases hl : r.lookup id with
    | none => simp [hl] at h
    | some hd =>
      cases hd with
      | array a =>
        dsimp only [putArray]
        rw [lookup_congr (shards_insert _), lookup_store]
        exact ⟨a, _, rfl, if_pos rfl, rfl⟩
      | _ => simp [hl] at h

theorem lookup_arrayClone (levels : ℕ) (h : (arrayClone levels r id).2 ≠ null) :
    ∃ a b, r.lookup id = some (.array a) ∧
      (arrayClone levels r id).1.lookup (arrayClone levels r id).2 = some (.array b) ∧
      b.stringElements = a.stringElements := by
  cases levels with
  | zero => exact lookup_copyArray h
  | succ levels => exact lookup_copyArray h

theorem allocates_arrayShuffle (bytes : List UInt8) (id : Int) :
    Allocates P r (r.arrayShuffle bytes id) := by
  have h := allocates_arrayClone (P := P) 0 r id
  unfold arrayShuffle
  dsimp only
  by_cases hne : (arrayClone 0 r id).2 = null
  · rw [if_pos hne]
    rcases h.fresh with heq | hf
    · rw [heq]
      exact .none
    · exact ⟨h.reaches, .inr (hne ▸ hf)⟩
  · rw [if_neg hne]
    obtain ⟨-, a, -, hl, -⟩ := lookup_arrayClone 0 hne
    simp only [hl]
    split
    · exact h
    · exact h.setElements hne hl _

theorem allocates_arraySort (id mode : Int) : Allocates P r (r.arraySort id mode) := by
  have h := allocates_arrayClone (P := P) 0 r id
  unfold arraySort
  dsimp only
  by_cases hne : (arrayClone 0 r id).2 = null
  · rw [if_pos hne]
    rcases h.fresh with heq | hf
    · rw [heq]
      exact .none
    · exact ⟨h.reaches, .inr (hne ▸ hf)⟩
  · rw [if_neg hne]
    obtain ⟨-, a, -, hl, -⟩ := lookup_arrayClone 0 hne
    simp only [hl]
    exact h.setElements hne hl _

theorem reaches_arrayWriteElements (id : Int) (elements : List Int) :
    Reaches P r (r.arrayWriteElements id elements).1 := by
  unfold arrayWriteElements
  cases ha : r.array? id with
  | none => exact .refl
  | some a => exact Reaches.refl.setElements (lookup_of_array ha) (fun _ => elements)

theorem reaches_sortBy (id : Int) (cmp : Int → Int → Int) : Reaches P r (r.sortBy id cmp).1 := by
  have h := allocates_arrayClone (P := P) 0 r id
  unfold sortBy
  dsimp only
  split
  · exact h.reaches
  · exact h.reaches.trans (reaches_arrayWriteElements _ _)

theorem fresh_sortBy {id k : Int} {cmp : Int → Int → Int} (hk : (r.sortBy id cmp).2 = some k) :
    Fresh r (r.sortBy id cmp).1 k := by
  have h := allocates_arrayClone (P := fun _ => True) 0 r id
  unfold sortBy at hk ⊢
  dsimp only at hk ⊢
  by_cases hne : (arrayClone 0 r id).2 = null
  · rw [if_pos hne] at hk
    cases hk
  · rw [if_neg hne] at hk ⊢
    dsimp only at hk ⊢
    split at hk
    · obtain rfl := Option.some_inj.mp hk
      rcases h.fresh with heq | hf
      · rw [heq] at hne
        exact absurd rfl hne
      · exact hf.before (reaches_arrayWriteElements (P := fun _ => True) _ _).issued_le
    · cases hk

theorem reaches_arraySetStringElements (id : Int) (stringElements : Bool) :
    Reaches P r (r.arraySetStringElements id stringElements) := by
  unfold arraySetStringElements
  cases ha : r.array? id with
  | none => exact .refl
  | some a => exact Reaches.refl.modify (lookup_of_array ha) _ (.array _ _)

/-! ## Slices and memory capabilities -/

/-- An operation that returns a handle or nothing: a handle it returns after drawing from
the counter was drawn while it ran. -/
structure MayAllocate (P : Int → Prop) (r : Registry) (out : Registry × Option Int) : Prop where
  reaches : Reaches P r out.1
  fresh : ∀ id, out.2 = some id → out.1.issued = r.issued ∨ Fresh r out.1 id

theorem MayAllocate.insert (h : Reaches P r r') (hd : Handle) (hplain : hd.core? = none) :
    MayAllocate P r ((r'.insert hd).1, some (r'.insert hd).2) :=
  ⟨h.insert hd hplain, fun _ hid => .inr (Option.some_inj.mp hid ▸ (fresh_insert hd).after h.issued_le)⟩

theorem MayAllocate.none : MayAllocate P r (r, Option.none) := ⟨.refl, fun _ hid => by cases hid⟩

theorem mayAllocate_cloneString (id : Int) : MayAllocate P r (r.cloneString id) := by
  unfold cloneString
  cases r.getString id with
  | none => exact .none
  | some text => exact .insert .refl _ rfl

theorem mayAllocate_sliceOf (array start stop : Int) : MayAllocate P r (r.sliceOf array start stop) := by
  unfold sliceOf
  split
  · exact .none
  cases r.array? array with
  | none => exact .none
  | some a =>
    dsimp only
    split
    · exact .none
    · exact .insert .refl _ rfl

theorem mayAllocate_sliceSub (id start stop : Int) : MayAllocate P r (r.sliceSub id start stop) := by
  unfold sliceSub
  split
  · exact .none
  cases r.sliceWindow? id with
  | none => exact .none
  | some w =>
    obtain ⟨array, base, len⟩ := w
    dsimp only
    split
    · exact .none
    · exact .insert .refl _ rfl

theorem mayAllocate_memoryOffset (id delta : Int) : MayAllocate P r (r.memoryOffset id delta) := by
  unfold memoryOffset
  cases r.memory? id with
  | none => exact .none
  | some m =>
    dsimp only
    split
    · exact .none
    · exact .insert .refl _ rfl

theorem mayAllocate_memoryClone (id : Int) : MayAllocate P r (r.memoryClone id) := by
  unfold memoryClone
  cases r.memory? id with
  | none => exact .none
  | some m => exact .insert .refl _ rfl

theorem reaches_pushWindow (out array : Int) (l : List ℕ) (r : Registry) :
    Reaches P r (pushWindow out array l r).1 := by
  induction l generalizing r with
  | nil => exact .refl
  | cons i l ih =>
    unfold pushWindow
    cases r.arrayGet array i with
    | none => exact .refl
    | some e =>
      dsimp only
      split
      · exact (reaches_arrayPush out e).trans (ih _)
      · exact reaches_arrayPush out e

theorem pushWindow_null (hnull : r.lookup null = none) (array : Int) (l : List ℕ) :
    (pushWindow null array l r).1 = r := by
  cases l with
  | nil => rfl
  | cons i l =>
    unfold pushWindow
    cases r.arrayGet array i with
    | none => rfl
    | some e => simp [arrayPush, hnull]

theorem reaches_sliceToArray (id : Int) : Reaches P r (r.sliceToArray id).1 := by
  unfold sliceToArray
  cases r.sliceWindow? id with
  | none => exact .refl
  | some w =>
    obtain ⟨array, start, len⟩ := w
    dsimp only
    cases r.array? array with
    | none => exact .refl
    | some a => exact (allocates_arrayNew a.elemSize a.stringElements).reaches.trans (reaches_pushWindow _ _ _ _)

theorem fresh_sliceToArray {id k : Int} (hnull : r.lookup null = none) (hk : (r.sliceToArray id).2 = some k) :
    (r.sliceToArray id).1.issued = r.issued ∨ Fresh r (r.sliceToArray id).1 k := by
  unfold sliceToArray at hk ⊢
  cases hw : r.sliceWindow? id with
  | none => simp [hw] at hk
  | some w =>
    obtain ⟨array, start, len⟩ := w
    cases ha : r.array? array with
    | none => simp [hw, ha] at hk
    | some a =>
      simp only [hw, ha] at hk ⊢
      rcases (allocates_arrayNew (P := fun _ => True) (r := r) a.elemSize a.stringElements).fresh with heq | hf
      · left
        rw [heq]
        exact congrArg Registry.issued (pushWindow_null hnull array _)
      · right
        split at hk
        · exact Option.some_inj.mp hk ▸
            hf.before (reaches_pushWindow (P := fun _ => True) _ _ _ _).issued_le
        · cases hk

/-- Repeated writes may replace any string the array owns by then. -/
theorem reaches_writeSlots (hP : ∀ x, P x) (array : Int) (value : Registry → ℕ → Option Int)
    (l : List (ℕ × ℕ)) (r : Registry) : Reaches P r (writeSlots array value l r).1 := by
  induction l generalizing r with
  | nil => exact .refl
  | cons p l ih =>
    obtain ⟨src, dst⟩ := p
    unfold writeSlots
    cases value r src with
    | none => exact .refl
    | some e =>
      have h := reaches_arraySet (r := r) array dst e (fun x _ => hP x)
      dsimp only
      split
      · exact h.trans (ih _)
      · exact h

theorem reaches_sliceSet (hP : ∀ x, P x) (id index value : Int) :
    Reaches P r (r.sliceSet id index value).1 := by
  unfold sliceSet
  split
  · exact .refl
  cases r.sliceWindow? id with
  | none => exact .refl
  | some w =>
    obtain ⟨array, start, len⟩ := w
    dsimp only
    split
    · exact .refl
    · exact reaches_arraySet _ _ _ (fun x _ => hP x)

theorem reaches_sliceFill (hP : ∀ x, P x) (id value : Int) : Reaches P r (r.sliceFill id value).1 := by
  unfold sliceFill
  cases r.sliceWindow? id with
  | none => exact .refl
  | some w => exact reaches_writeSlots hP _ _ _ r

theorem reaches_sliceCopyFrom (hP : ∀ x, P x) (dst src : Int) :
    Reaches P r (r.sliceCopyFrom dst src).1 := by
  unfold sliceCopyFrom
  cases r.sliceWindow? dst with
  | none => exact .refl
  | some w =>
    cases r.sliceWindow? src with
    | none => exact .refl
    | some v =>
      dsimp only
      split
      · exact .refl
      · exact reaches_writeSlots hP _ _ _ r

theorem reaches_memoryStore (cache : Option CachedRegion) (id : Int) (width : ℕ) (value : Int) :
    Reaches P r (r.memoryStore cache id width value).1 := by
  unfold memoryStore
  rcases hm : r.memoryRegion cache id with ⟨cache', _ | ⟨n, offset⟩⟩
  · exact .refl
  · dsimp only
    split
    · exact Reaches.refl.frame r.leakSites _
    · exact .refl

end Neutron.Registry
