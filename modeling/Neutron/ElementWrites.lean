import Neutron.ArrayDisjoint

/-!
# Writing one element

What `array_set` does, case by case. A write to an array of plain values replaces the bits. A write to
a string array first registers a copy of the text and looks at the index afterwards, so that a
refused write can leave the copy behind; a successful one removes the string it replaced.
-/

namespace Neutron.Registry

attribute [local irreducible] drawn

variable {r : Registry} {id elem : Int} {a : ArrayData} {i : ℕ}

/-- The text of a live string. -/
def text? (r : Registry) (id : Int) : Option String :=
  match r.lookup id with
  | some (.string text) => some text
  | _ => none

theorem text?_eq_some {text : String} : r.text? id = some text ↔ r.lookup id = some (.string text) := by
  unfold text?
  constructor
  · intro h
    split at h
    · rename_i heq
      rw [heq, Option.some.inj h]
    · simp at h
  · intro h
    rw [h]

theorem array?_eq_some : r.array? id = some a ↔ id ≠ null ∧ r.lookup id = some (.array a) := by
  unfold array? borrow
  by_cases hid : id = null
  · simp [hid]
  · rw [if_neg hid]
    constructor
    · intro h
      split at h
      · rename_i heq
        rw [heq, Option.some.inj h]
        exact ⟨hid, rfl⟩
      · simp at h
    · rintro ⟨-, h⟩
      rw [h]

theorem lookup_of_array? (h : r.array? id = some a) : r.lookup id = some (.array a) :=
  (array?_eq_some.mp h).2

/-! ### Tables after a step -/

theorem lookup_setElements (h : r.lookup id = some (.array a)) (f : List Int → List Int) (k : Int) :
    (r.setElements id f).lookup k =
      if k = id then some (.array { a with elements := f a.elements }) else r.lookup k := by
  rw [setElements, lookup_modify]
  by_cases hk : k = id
  · rw [if_pos hk, if_pos hk, hk, h]
    rfl
  · rw [if_neg hk, if_neg hk]

theorem lookup_takeString (x k : Int) :
    (r.takeString x).1.lookup k =
      if k = x ∧ x ≠ null ∧ (r.text? x).isSome then none else r.lookup k := by
  by_cases hk : k = x
  · subst hk
    unfold takeString text?
    by_cases hnull : k = null
    · simp [hnull]
    · rw [if_neg hnull]
      cases hl : r.lookup k with
      | none => simp [hl]
      | some hd =>
        cases hd with
        | string s =>
          change (r.discard k).lookup k = _
          rw [lookup_discard]
          simp [hnull]
        | _ => simp [hl]
  · rw [lookup_takeString_ne hk, if_neg (fun h => hk h.1)]

/-! ### The cases of a write -/

theorem arraySet_noArray {index : Int} (h : r.array? id = none) :
    r.arraySet id index elem = (r, false) := by
  unfold arraySet
  split
  · rfl
  rename_i hid
  cases hl : r.lookup id with
  | none => rfl
  | some hd =>
    cases hd with
    | array b =>
      have hb : r.array? id = some b := array?_eq_some.mpr ⟨fun hnull => hid (.inl hnull), hl⟩
      simp [h] at hb
    | _ => rfl

theorem arraySet_raw (ha : r.array? id = some a) (hs : a.stringElements = false) :
    r.arraySet id i elem =
      if i < a.elements.length then (r.setElements id (·.set i elem), true) else (r, false) := by
  obtain ⟨hid, hl⟩ := array?_eq_some.mp ha
  have hguard : ¬ (id = null ∨ (i : Int) < 0) := by omega
  rw [arraySet, if_neg hguard, hl]
  simp only [adoptElement, hs]
  by_cases hi : i < a.elements.length
  · simp [hl, hi]
  · simp [hl, hi]

theorem adoptElement_noText (hs : a.stringElements = true) (he : r.text? elem = none) :
    r.adoptElement a elem = none := by
  rw [adoptElement, if_pos hs]
  cases hle : r.lookup elem with
  | none => rfl
  | some hd =>
    cases hd with
    | string text => simp [text?, hle] at he
    | _ => rfl

theorem adoptElement_text {text : String} (hs : a.stringElements = true) (he : r.text? elem = some text) :
    r.adoptElement a elem = some ((r.insert (.string text)).1, drawn r.issued) := by
  rw [adoptElement, if_pos hs, text?_eq_some.mp he]
  rfl

theorem arraySet_noText (ha : r.array? id = some a) (hs : a.stringElements = true)
    (he : r.text? elem = none) : r.arraySet id i elem = (r, false) := by
  obtain ⟨hid, hl⟩ := array?_eq_some.mp ha
  have hguard : ¬ (id = null ∨ (i : Int) < 0) := by omega
  rw [arraySet, if_neg hguard, hl]
  simp only [adoptElement_noText hs he]

/-- The state after a copy of the text has replaced the element. -/
def replaceText (r : Registry) (id : Int) (i : ℕ) (old : Int) (text : String) : Registry :=
  (((r.insert (.string text)).1.setElements id (·.set i (drawn r.issued))).takeString old).1

theorem arraySet_text {text : String} (ha : r.array? id = some a) (hs : a.stringElements = true)
    (he : r.text? elem = some text) :
    r.arraySet id i elem =
      if id ≠ drawn r.issued ∧ i < a.elements.length then
        (r.replaceText id i (a.elements.getD i 0) text, true)
      else ((r.insert (.string text)).1, false) := by
  obtain ⟨hid, hl⟩ := array?_eq_some.mp ha
  have hguard : ¬ (id = null ∨ (i : Int) < 0) := by omega
  rw [arraySet, if_neg hguard, hl]
  simp only [adoptElement_text hs he, lookup_insert]
  by_cases hnew : id = drawn r.issued
  · rw [if_pos hnew, if_neg (fun h => h.1 hnew)]
  · rw [if_neg hnew, hl]
    by_cases hi : i < a.elements.length
    · simp [hi, hs, hnew, replaceText]
    · simp [hi]

end Neutron.Registry
