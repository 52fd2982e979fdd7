import Neutron.SliceLoops

/-!
# What a refused slice operation leaves behind

The window of a slice is checked against the slice, the slot against the array, and for a string array
only after the copy of the text is in the registry; a loop that is refused half-way keeps what it
wrote. For each operation this module says exactly when a refusal leaves the registry as it was.
-/

namespace Neutron.Registry

attribute [local irreducible] drawn

variable {r s : Registry} {id index value : Int}

theorem ne_of_issued_lt (h : r.issued < s.issued) : s ≠ r := by
  intro heq
  rw [heq] at h
  exact absurd h (Nat.lt_irrefl _)

/-! ### `slice_set` -/

/-- A text copied for a string array finds the array still there and the slot in range. -/
def SetKeeps (r : Registry) (id index value : Int) : Prop :=
  ∀ array start len a text, r.sliceWindow? id = some (array, start, len) → 0 ≤ index → index.toNat < len →
    r.array? array = some a → a.stringElements = true → r.text? value = some text →
      array ≠ drawn r.issued ∧ start + index.toNat < a.elements.length

variable {array : Int}

theorem sliceSet_window {start len : ℕ} (hw : r.sliceWindow? id = some (array, start, len))
    (hindex : 0 ≤ index) (hlen : index.toNat < len) :
    r.sliceSet id index value = r.arraySet array (start + index.toNat : ℕ) value := by
  rw [sliceSet, if_neg (by omega), hw]
  simp only [if_neg (Nat.not_le.mpr hlen), Nat.cast_add]

theorem sliceSet_keeps_iff :
    ((r.sliceSet id index value).2 = false → (r.sliceSet id index value).1 = r) ↔
      r.SetKeeps id index value := by
  constructor
  · intro h array start len a text hw hindex hlen ha hs htext
    rw [sliceSet_window hw hindex hlen] at h
    by_contra hbad
    have hset := arraySet_text (i := start + index.toNat) ha hs htext
    rw [if_neg hbad] at hset
    refine ne_of_issued_lt ?_ (h (by rw [hset]))
    rw [issued_arraySet_text ha hs htext]
    omega
  · intro h hfail
    by_cases hindex : index < 0
    · rw [sliceSet, if_pos hindex]
    cases hw : r.sliceWindow? id with
    | none => rw [sliceSet, if_neg hindex, hw]
    | some window =>
      obtain ⟨array, start, len⟩ := window
      by_cases hlen : len ≤ index.toNat
      · rw [sliceSet, if_neg hindex, hw]
        simp only [if_pos hlen]
      · have hwindow : r.sliceSet id index value = r.arraySet array (start + index.toNat : ℕ) value :=
          sliceSet_window hw (by omega) (by omega)
        rw [hwindow] at hfail ⊢
        cases ha : r.array? array with
        | none => rw [arraySet_noArray ha]
        | some a =>
          cases hs : a.stringElements with
          | false =>
            rw [arraySet_raw ha hs] at hfail ⊢
            split at hfail
            · cases hfail
            · rename_i hout
              rw [if_neg hout]
          | true =>
            cases htext : r.text? value with
            | none => rw [arraySet_noText ha hs htext]
            | some text =>
              have hkeeps := h array start len a text hw (by omega) (by omega) ha hs htext
              rw [arraySet_text ha hs htext, if_pos hkeeps] at hfail
              cases hfail

/-! ### `slice_fill` -/

/-- The registry with the array of the window, as `slice_fill` and `slice_copy_from` find it. Without
the array the first write is refused, and nothing happens. -/
theorem writeSlots_noArray (ha : r.array? array = none) (read : Registry → ℕ → Option Int)
    (pairs : List (ℕ × ℕ)) : (writeSlots array read pairs r).1 = r := by
  cases pairs with
  | nil => rfl
  | cons p pairs =>
    obtain ⟨src, dst⟩ := p
    rw [writeSlots]
    cases read r src with
    | none => rfl
    | some e => simp only [arraySet_noArray ha, Bool.false_eq_true, if_false]

theorem slotPairs_fill (start len : ℕ) :
    (List.range' start len).map (fun i => (i, i)) = slotPairs start start 0 len := by
  rw [slotPairs, List.range'_eq_map_range, List.map_map, ← List.range_eq_range']
  rfl

/-- A window of plain values is in range, or holds the value wherever it is. In a string array the
window is in range, the ids drawn are not the array's, and no slot but the last holds the string that is
being copied. -/
def FillKeeps (r : Registry) (id value : Int) : Prop :=
  ∀ array start len a, r.sliceWindow? id = some (array, start, len) → r.array? array = some a →
    if a.stringElements then
      len = 0 ∨ r.text? value = none ∨ ∀ k < len, start + k < a.elements.length ∧
        array ≠ drawn (r.issued + k) ∧ (k + 1 < len → ¬ (value = oldAt a start k ∧ value ≠ null))
    else
      (∀ k < len, start + k < a.elements.length) ∨
        ∀ k < len, start + k < a.elements.length → a.elements[start + k]? = some value

theorem fill_passes_iff {a : ArrayData} {start len : ℕ} (hlive : (r.text? value).isSome) :
    (∀ k, 0 ≤ k → k < 0 + len → Passes r array a start (fun _ => some value) k) ↔
      ∀ k < len, start + k < a.elements.length ∧ array ≠ drawn (r.issued + k) ∧
        (k + 1 < len → ¬ (value = oldAt a start k ∧ value ≠ null)) := by
  constructor
  · intro h k hk
    obtain ⟨-, hnew, hfits⟩ := h k (Nat.zero_le k) (by omega)
    refine ⟨hfits, hnew, fun hnext => ?_⟩
    obtain ⟨⟨e, he, hlast⟩, -⟩ := h (k + 1) (Nat.zero_le _) (by omega)
    obtain rfl : value = e := Option.some.inj he
    exact hlast.1
  · intro h k _ hk
    have halive : ∀ j < len, LiveAt r (oldAt a start) j value := by
      intro j hj
      induction j with
      | zero => exact hlive
      | succ j ih => exact ⟨(h j (by omega)).2.2 hj, .inr (ih (by omega))⟩
    obtain ⟨hfits, hnew, -⟩ := h k (by omega)
    exact ⟨⟨value, rfl, halive k (by omega)⟩, hnew, hfits⟩

theorem mem_slotPairs {srcStart start len : ℕ} {p : ℕ × ℕ} :
    p ∈ slotPairs srcStart start 0 len ↔ ∃ k < len, p = (srcStart + k, start + k) := by
  rw [slotPairs, List.mem_map]
  constructor
  · rintro ⟨k, hk, rfl⟩
    exact ⟨k, by simpa using hk, rfl⟩
  · rintro ⟨k, hk, rfl⟩
    exact ⟨k, by simpa using hk, rfl⟩

/-- On plain values: a loop leaves the registry alone when it is refused exactly when it is never refused,
or writes only what is there. -/
theorem writeSlots_raw_keeps_iff {a : ArrayData} {read : Registry → ℕ → Option Int}
    {srcStart start : ℕ} (ha : r.array? array = some a) (hs : a.stringElements = false)
    (hread : ∀ s l i, Rewritten r array a s l → (read s i).isSome = (read r i).isSome)
    (hreach : ∀ i j, i ≤ j → (read r (srcStart + j)).isSome → (read r (srcStart + i)).isSome) (len : ℕ) :
    ((writeSlots array read (slotPairs srcStart start 0 len) r).2 = false →
        (writeSlots array read (slotPairs srcStart start 0 len) r).1 = r) ↔
      (∀ k < len, (read r (srcStart + k)).isSome ∧ start + k < a.elements.length) ∨
        ∀ k < len, start + k < a.elements.length →
          ∀ v, read r (srcStart + k) = some v → a.elements[start + k]? = some v := by
  have hok := (Rewritten.refl ha).writeSlots_succeeds hs hread (slotPairs srcStart start 0 len)
  have hsame := writeSlots_same_iff ha hs hreach start 0 len
  have hwindow : (∀ p ∈ slotPairs srcStart start 0 len, (read r p.1).isSome ∧ p.2 < a.elements.length) ↔
      ∀ k < len, (read r (srcStart + k)).isSome ∧ start + k < a.elements.length := by
    constructor
    · intro h k hk
      exact h _ (mem_slotPairs.mpr ⟨k, hk, rfl⟩)
    · intro h p hp
      obtain ⟨k, hk, rfl⟩ := mem_slotPairs.mp hp
      exact h k hk
  rw [hwindow] at hok
  rw [hsame, ← hok]
  constructor
  · intro h
    cases hdone : (writeSlots array read (slotPairs srcStart start 0 len) r).2 with
    | true => exact .inl rfl
    | false => exact .inr fun k hk => h hdone k (Nat.zero_le k) (by omega)
  · rintro (hdone | hall) hfail
    · rw [hdone] at hfail
      cases hfail
    · exact fun k _ hk => hall k (by omega)

/-- On texts: exactly when the first step has no text to copy, or every step passes. -/
theorem writeSlots_text_keeps_iff {a : ArrayData} {value : Registry → ℕ → Option Int}
    {srcStart start : ℕ} (ha : r.array? array = some a) (hs : a.stringElements = true)
    (read : ℕ → Option Int)
    (hvalue : ∀ m s, Written r array a start read m s → value s (srcStart + m) = read m) (len : ℕ) :
    ((writeSlots array value (slotPairs srcStart start 0 len) r).2 = false →
        (writeSlots array value (slotPairs srcStart start 0 len) r).1 = r) ↔
      len = 0 ∨ (∀ e, read 0 = some e → r.text? e = none) ∨
        ∀ k, 0 ≤ k → k < 0 + len → Passes r array a start read k := by
  have hrefl : Written r array a start read 0 r := Written.refl ha
  have hok := (hrefl.run value srcStart hs hvalue len).1
  rw [← hok]
  cases len with
  | zero => exact ⟨fun _ => .inl rfl, fun _ _ => rfl⟩
  | succ len =>
    rw [slotPairs_succ, writeSlots, hvalue 0 r hrefl]
    cases he : read 0 with
    | none => simp
    | some e =>
      dsimp only
      cases htext : r.text? e with
      | none =>
        have hno : r.arraySet array (start + 0 : ℕ) e = (r, false) := arraySet_noText ha hs htext
        simp only [hno, Bool.false_eq_true, if_false, forall_const, true_iff]
        exact .inr (.inl fun e' he' => by rw [← Option.some.inj he', htext])
      | some text =>
        have hdrawn := issued_arraySet_text ha hs htext (start + 0)
        split
        · rename_i hwrite
          constructor
          · intro h
            right; right
            by_contra hfail
            have hkept := h (by simpa using hfail)
            have hle := issued_le_writeSlots (s := (r.arraySet array (start + 0 : ℕ) e).1) array value
              (slotPairs srcStart start (0 + 1) len)
            exact ne_of_issued_lt (by omega) hkept
          · rintro (hzero | hnone | hdone) hfail
            · omega
            · have := hnone e rfl
              rw [htext] at this
              cases this
            · rw [hdone] at hfail
              cases hfail
        · constructor
          · intro h
            have hkept : (r.arraySet array (start + 0 : ℕ) e).1 = r := h rfl
            exact absurd hkept (ne_of_issued_lt (by omega))
          · rintro (hzero | hnone | hdone) _
            · omega
            · have := hnone e rfl
              rw [htext] at this
              cases this
            · cases hdone

/-- A slice has one window, on one array. -/
theorem forall_window_iff {start len : ℕ} {a : ArrayData} {P : Int → ℕ → ℕ → ArrayData → Prop}
    (hw : r.sliceWindow? id = some (array, start, len)) (ha : r.array? array = some a) :
    (∀ array start len a, r.sliceWindow? id = some (array, start, len) → r.array? array = some a →
      P array start len a) ↔ P array start len a := by
  constructor
  · intro h
    exact h array start len a hw ha
  · intro h array' start' len' a' hw' ha'
    rw [hw] at hw'
    obtain ⟨rfl, rfl, rfl⟩ : array = array' ∧ start = start' ∧ len = len' := by simpa using hw'
    rw [ha] at ha'
    obtain rfl := Option.some.inj ha'
    exact h

theorem forall_window_noArray {start len : ℕ} {P : Int → ℕ → ℕ → ArrayData → Prop}
    (hw : r.sliceWindow? id = some (array, start, len)) (ha : r.array? array = none) :
    ∀ array start len a, r.sliceWindow? id = some (array, start, len) → r.array? array = some a →
      P array start len a := by
  intro array' start' len' a hw' ha'
  rw [hw] at hw'
  obtain ⟨rfl, rfl, rfl⟩ : array = array' ∧ start = start' ∧ len = len' := by simpa using hw'
  rw [ha] at ha'
  cases ha'

theorem sliceFill_keeps_iff :
    ((r.sliceFill id value).2 = false → (r.sliceFill id value).1 = r) ↔ r.FillKeeps id value := by
  cases hw : r.sliceWindow? id with
  | none =>
    rw [sliceFill, hw]
    refine ⟨fun _ array start len a hw' => ?_, fun _ _ => rfl⟩
    rw [hw] at hw'
    cases hw'
  | some window =>
    obtain ⟨array, start, len⟩ := window
    rw [sliceFill, hw]
    dsimp only
    rw [slotPairs_fill]
    cases ha : r.array? array with
    | none => exact ⟨fun _ => forall_window_noArray hw ha, fun _ _ => writeSlots_noArray ha _ _⟩
    | some a =>
      have hkeeps : r.FillKeeps id value ↔ _ := forall_window_iff hw ha
      rw [hkeeps]
      cases hs : a.stringElements with
      | false =>
        rw [writeSlots_raw_keeps_iff ha hs (fun _ _ _ _ => rfl) (fun _ _ _ _ => rfl)]
        simp
      | true =>
        rw [writeSlots_text_keeps_iff ha hs (fun _ => some value) (fun _ _ _ => rfl)]
        simp only [if_true]
        cases htext : r.text? value with
        | none => simp [htext]
        | some text =>
          rw [fill_passes_iff (by rw [htext]; rfl)]
          simp [htext]

/-! ### `slice_copy_from` -/

/-- The element step `k` of a copy reads: a string an earlier step stored when the windows overlap, none
when the source array's id was drawn again. -/
def copyRead (r : Registry) (dst : Int) (dstStart : ℕ) (src : Int) (srcStart k : ℕ) : Option Int :=
  if src = dst ∧ dstStart ≤ srcStart + k ∧ srcStart < dstStart then
    some (drawn (r.issued + (srcStart + k - dstStart)))
  else if ∃ j < k, src = drawn (r.issued + j) then none
  else r.arrayGet src (srcStart + k : ℕ)

/-- Windows of plain values are in range, or hold the same wherever both are. For a string array the
first element read has no text, or every step finds a live text and a slot. -/
def CopyKeeps (r : Registry) (dst src : Int) : Prop :=
  ∀ dstArray dstStart srcArray srcStart len a, r.sliceWindow? dst = some (dstArray, dstStart, len) →
    r.sliceWindow? src = some (srcArray, srcStart, len) → r.array? dstArray = some a →
      if a.stringElements then
        len = 0 ∨ (∀ e, r.arrayGet srcArray srcStart = some e → r.text? e = none) ∨
          ∀ k < len, Passes r dstArray a dstStart (copyRead r dstArray dstStart srcArray srcStart) k
      else
        (∀ k < len, (r.arrayGet srcArray (srcStart + k : ℕ)).isSome ∧ dstStart + k < a.elements.length) ∨
          ∀ k < len, dstStart + k < a.elements.length →
            ∀ v, r.arrayGet srcArray (srcStart + k : ℕ) = some v → a.elements[dstStart + k]? = some v

theorem Written.copyRead {array src : Int} {a : ArrayData} {start srcStart m : ℕ}
    (ha : r.array? array = some a)
    (h : Written r array a start (copyRead r array start src srcStart) m s) :
    s.arrayGet src (srcStart + m : ℕ) = copyRead r array start src srcStart m := by
  rw [Registry.copyRead, arrayGet_nat]
  by_cases hsrc : src = array
  · subst hsrc
    have hnot : ¬ ∃ j < m, src = drawn (r.issued + j) := fun ⟨j, hj, heq⟩ => (h.passed j hj).2.1 heq
    rw [h.target, Option.bind_some]
    by_cases hlive : srcStart + m < a.elements.length
    · rw [getElem?_refreshed _ _ _ hlive]
      by_cases hover : start ≤ srcStart + m ∧ srcStart < start
      · rw [if_pos (by omega), if_pos ⟨rfl, hover⟩]
      · rw [if_neg (by omega), if_neg (fun hall => hover hall.2), if_neg hnot, arrayGet_nat, ha]
        rfl
    · have hnone : (refreshed r a.elements start m)[srcStart + m]? = none := by
        rw [List.getElem?_eq_none_iff, length_refreshed]
        omega
      have hpast : ¬ (start ≤ srcStart + m ∧ srcStart < start) := by
        intro hover
        have hslot := (h.passed (srcStart + m - start) (by omega)).2.2
        omega
      rw [hnone, if_neg (fun hall => hpast hall.2), if_neg hnot, arrayGet_nat, ha, Option.bind_some,
        List.getElem?_eq_none_iff.mpr (by omega)]
  · rw [if_neg (fun hall => hsrc hall.1), h.others src hsrc]
    by_cases hdrawn : ∃ j < m, src = drawn (r.issued + j)
    · rw [if_pos hdrawn, if_pos hdrawn]
      rfl
    · rw [if_neg hdrawn, if_neg hdrawn, arrayGet_nat]

theorem arrayGet_reaches (id : Int) {i j : ℕ} (hij : i ≤ j) (h : (r.arrayGet id (j : ℕ)).isSome) :
    (r.arrayGet id (i : ℕ)).isSome := by
  rw [arrayGet_nat] at h ⊢
  cases ha : r.array? id with
  | none =>
    rw [ha] at h
    cases h
  | some a =>
    rw [ha, Option.bind_some, isSome_getElem?] at h
    rw [Option.bind_some, isSome_getElem?]
    omega

theorem slotPairs_copy (srcStart start len : ℕ) :
    (List.range len).map (fun o => (srcStart + o, start + o)) = slotPairs srcStart start 0 len := by
  rw [slotPairs, List.range_eq_range']

theorem copyRead_zero {dst src : Int} {dstStart srcStart : ℕ} :
    copyRead r dst dstStart src srcStart 0 = r.arrayGet src srcStart := by
  have hnot : ¬ ∃ j < 0, src = drawn (r.issued + j) := fun ⟨j, hj, _⟩ => Nat.not_lt_zero j hj
  rw [copyRead, if_neg (by omega), if_neg hnot]
  rfl

theorem sliceCopyFrom_keeps_iff {dst src : Int} :
    ((r.sliceCopyFrom dst src).2 = false → (r.sliceCopyFrom dst src).1 = r) ↔ r.CopyKeeps dst src := by
  cases hd : r.sliceWindow? dst with
  | none =>
    rw [sliceCopyFrom, hd]
    refine ⟨fun _ dstArray dstStart srcArray srcStart len a hd' => ?_, fun _ _ => rfl⟩
    rw [hd] at hd'
    cases hd'
  | some window =>
    obtain ⟨dstArray, dstStart, dstLen⟩ := window
    cases hsrc : r.sliceWindow? src with
    | none =>
      rw [sliceCopyFrom, hd, hsrc]
      refine ⟨fun _ dstArray dstStart srcArray srcStart len a _ hs' => ?_, fun _ _ => rfl⟩
      rw [hsrc] at hs'
      cases hs'
    | some window =>
      obtain ⟨srcArray, srcStart, srcLen⟩ := window
      rw [sliceCopyFrom, hd, hsrc]
      dsimp only
      by_cases hlen : dstLen = srcLen
      · subst hlen
        rw [if_neg (by simp), slotPairs_copy]
        cases ha : r.array? dstArray with
        | none =>
          refine ⟨fun _ array' start' _ _ len' a hd' _ ha' => ?_, fun _ _ => writeSlots_noArray ha _ _⟩
          rw [hd] at hd'
          obtain ⟨rfl, rfl, rfl⟩ : dstArray = array' ∧ dstStart = start' ∧ dstLen = len' := by simpa using hd'
          rw [ha] at ha'
          cases ha'
        | some a =>
          have hkeeps : r.CopyKeeps dst src ↔ if a.stringElements then
              dstLen = 0 ∨ (∀ e, r.arrayGet srcArray srcStart = some e → r.text? e = none) ∨
                ∀ k < dstLen, Passes r dstArray a dstStart
                  (copyRead r dstArray dstStart srcArray srcStart) k
            else
              (∀ k < dstLen, (r.arrayGet srcArray (srcStart + k : ℕ)).isSome ∧
                dstStart + k < a.elements.length) ∨
              ∀ k < dstLen, dstStart + k < a.elements.length →
                ∀ v, r.arrayGet srcArray (srcStart + k : ℕ) = some v → a.elements[dstStart + k]? = some v := by
            constructor
            · intro h
              exact h _ _ _ _ _ a hd hsrc ha
            · intro h dstArray' dstStart' srcArray' srcStart' len' a' hd' hs' ha'
              rw [hd] at hd'
              rw [hsrc] at hs'
              obtain ⟨rfl, rfl, rfl⟩ : dstArray = dstArray' ∧ dstStart = dstStart' ∧ dstLen = len' := by
                simpa using hd'
              obtain ⟨rfl, rfl⟩ : srcArray = srcArray' ∧ srcStart = srcStart' := by simpa using hs'
              rw [ha] at ha'
              obtain rfl := Option.some.inj ha'
              exact h
          rw [hkeeps]
          cases hs : a.stringElements with
          | false =>
            rw [writeSlots_raw_keeps_iff ha hs (fun s l i hw => hw.arrayGet_isSome ha i)
              (fun i j hij => arrayGet_reaches srcArray (by omega))]
            simp
          | true =>
            rw [writeSlots_text_keeps_iff ha hs (copyRead r dstArray dstStart srcArray srcStart)
              (fun m s hw => hw.copyRead ha), copyRead_zero]
            simp
      · rw [if_pos hlen]
        refine ⟨fun _ _ _ _ _ len' a hd' hs' => ?_, fun _ _ => rfl⟩
        rw [hd] at hd'
        rw [hsrc] at hs'
        obtain ⟨-, -, rfl⟩ := by simpa using hd'
        obtain ⟨-, -, rfl⟩ := by simpa using hs'
        exact absurd rfl hlen

/-! ### `slice_to_array` -/

section Push
variable {out elem : Int} {b : ArrayData}

theorem arrayPush_raw (hl : r.lookup out = some (.array b)) (hs : b.stringElements = false) :
    r.arrayPush out elem = (r.setElements out (· ++ [elem]), true) := by
  rw [arrayPush, hl]
  simp [adoptElement, hs, hl]

theorem arrayPush_noText (hl : r.lookup out = some (.array b)) (hs : b.stringElements = true)
    (he : r.text? elem = none) : r.arrayPush out elem = (r, false) := by
  rw [arrayPush, hl]
  simp only [adoptElement_noText hs he]

theorem arrayPush_text {text : String} (hl : r.lookup out = some (.array b))
    (hs : b.stringElements = true) (he : r.text? elem = some text) :
    r.arrayPush out elem = if out ≠ drawn r.issued then
        ((r.insert (.string text)).1.setElements out (· ++ [drawn r.issued]), true)
      else ((r.insert (.string text)).1, false) := by
  rw [arrayPush, hl]
  simp only [adoptElement_text hs he, lookup_insert]
  by_cases hnew : out = drawn r.issued
  · rw [if_pos hnew, if_neg (fun hne => hne hnew)]
  · rw [if_neg hnew, hl, if_pos hnew]

theorem arrayPush_noArray (h : ∀ b, r.lookup out ≠ some (.array b)) : r.arrayPush out elem = (r, false) := by
  unfold arrayPush
  cases hl : r.lookup out with
  | none => rfl
  | some hd =>
    cases hd with
    | array b => exact absurd hl (h b)
    | _ => rfl

theorem issued_le_arrayPush : r.issued ≤ (r.arrayPush out elem).1.issued := by
  by_cases h : ∃ b, r.lookup out = some (.array b)
  · obtain ⟨b, hl⟩ := h
    cases hs : b.stringElements with
    | false =>
      rw [arrayPush_raw hl hs]
      exact le_rfl
    | true =>
      cases he : r.text? elem with
      | none => rw [arrayPush_noText hl hs he]
      | some text =>
        rw [arrayPush_text hl hs he]
        split
        · exact Nat.le_succ _
        · exact Nat.le_succ _
  · rw [arrayPush_noArray (fun b hl => h ⟨b, hl⟩)]

theorem issued_le_pushWindow (array : Int) (is : List ℕ) : r.issued ≤ (pushWindow out array is r).1.issued := by
  induction is generalizing r with
  | nil => exact le_rfl
  | cons i is ih =>
    rw [pushWindow]
    cases r.arrayGet array i with
    | none => exact le_rfl
    | some e =>
      have hstep : r.issued ≤ (r.arrayPush out e).1.issued := issued_le_arrayPush
      dsimp only
      split
      · exact hstep.trans ih
      · exact hstep

/-- The element push number `k` reads: none when the array's id was drawn again. -/
def pushRead (r : Registry) (array : Int) (start k : ℕ) : Option Int :=
  if ∃ j < k, array = drawn (r.issued + j) then none else r.arrayGet array (start + k : ℕ)

/-- Push number `k` finds a live text; nothing is removed on the way. -/
def Pushes (r : Registry) (out array : Int) (start k : ℕ) : Prop :=
  (∃ e, pushRead r array start k = some e ∧ LiveAt r (fun _ => null) k e) ∧ out ≠ drawn (r.issued + k)

/-- The registry after `m` pushes to a string array. -/
structure Pushed (r : Registry) (out array : Int) (b : ArrayData) (start m : ℕ) (s : Registry) : Prop where
  issued : s.issued = r.issued + m
  target : ∃ l, s.lookup out = some (.array { b with elements := l })
  live : ∀ h, (s.text? h).isSome ↔ LiveAt r (fun _ => null) m h
  source : s.array? array = if ∃ j < m, array = drawn (r.issued + j) then none else r.array? array

variable {array : Int} {start m : ℕ}

theorem Pushed.read (h : Pushed r out array b start m s) :
    s.arrayGet array (start + m : ℕ) = pushRead r array start m := by
  rw [pushRead, arrayGet_nat, h.source]
  by_cases hdrawn : ∃ j < m, array = drawn (r.issued + j)
  · rw [if_pos hdrawn, if_pos hdrawn]
    rfl
  · rw [if_neg hdrawn, if_neg hdrawn, arrayGet_nat]

theorem array?_setElements_ne {k : Int} {f : List Int → List Int} (hl : r.lookup out = some (.array b))
    (hk : k ≠ out) : (r.setElements out f).array? k = r.array? k := by
  apply Option.ext
  intro c
  rw [array?_eq_some, array?_eq_some, lookup_setElements hl, if_neg hk]

theorem text?_setElements_lookup (f : List Int → List Int) (hl : r.lookup out = some (.array b)) (h : Int) :
    (r.setElements out f).text? h = r.text? h := by
  unfold text?
  rw [lookup_setElements hl]
  by_cases hid : h = out
  · rw [if_pos hid, hid, hl]
  · rw [if_neg hid]

theorem Pushed.advance (h : Pushed r out array b start m s) (hs : b.stringElements = true)
    (hne : array ≠ out) {e : Int} (he : pushRead r array start m = some e)
    (hpass : Pushes r out array start m) :
    (s.arrayPush out e).2 = true ∧ Pushed r out array b start (m + 1) (s.arrayPush out e).1 := by
  obtain ⟨⟨e', he', hlive⟩, hnew⟩ := hpass
  obtain rfl : e' = e := Option.some.inj (he'.symm.trans he)
  obtain ⟨l, hl⟩ := h.target
  obtain ⟨text, htext⟩ := Option.isSome_iff_exists.mp ((h.live e').mpr hlive)
  rw [arrayPush_text hl hs htext, h.issued, if_pos hnew]
  have hcopy : (s.insert (.string text)).1.lookup out = some (.array { b with elements := l }) := by
    rw [lookup_insert, h.issued, if_neg hnew, hl]
  refine ⟨rfl, ?_, ⟨l ++ [drawn (r.issued + m)], ?_⟩, fun x => ?_, ?_⟩
  · change s.issued + 1 = _
    rw [h.issued, Nat.add_assoc]
  · dsimp only
    rw [lookup_setElements hcopy, if_pos rfl]
  · dsimp only
    rw [text?_setElements_lookup _ hcopy, text?_insert_string, h.issued, LiveAt]
    by_cases hx : x = drawn (r.issued + m)
    · simp [hx]
    · rw [if_neg hx, h.live x]
      exact ⟨fun hl => ⟨fun hbad => hbad.2 hbad.1, .inr hl⟩, fun hl => hl.2.resolve_left hx⟩
  · dsimp only
    rw [array?_setElements_ne hcopy hne, array?_insert_text, h.issued, h.source]
    by_cases hlast : array = drawn (r.issued + m)
    · rw [if_pos hlast, if_pos ⟨m, by omega, hlast⟩]
    · rw [if_neg hlast]
      have hiff : (∃ j < m, array = drawn (r.issued + j)) ↔ ∃ j < m + 1, array = drawn (r.issued + j) := by
        constructor
        · rintro ⟨j, hj, hkj⟩
          exact ⟨j, by omega, hkj⟩
        · rintro ⟨j, hj, hkj⟩
          have hjm : j ≠ m := fun heq => hlast (heq ▸ hkj)
          exact ⟨j, by omega, hkj⟩
      simp only [hiff]

theorem Pushed.refuse (h : Pushed r out array b start m s) (hs : b.stringElements = true) {e : Int}
    (he : pushRead r array start m = some e) (hstop : ¬ Pushes r out array start m) :
    (s.arrayPush out e).2 = false := by
  obtain ⟨l, hl⟩ := h.target
  cases htext : s.text? e with
  | none => rw [arrayPush_noText hl hs htext]
  | some text =>
    have hlive := (h.live e).mp (by rw [htext]; rfl)
    rw [arrayPush_text hl hs htext, h.issued, if_neg (fun hnew => hstop ⟨⟨e, he, hlive⟩, hnew⟩)]

theorem Pushed.run (hs : b.stringElements = true) (hne : array ≠ out) (count : ℕ)
    (h : Pushed r out array b start m s) :
    (pushWindow out array (List.range' (start + m) count) s).2 = true ↔
      ∀ k, m ≤ k → k < m + count → Pushes r out array start k := by
  induction count generalizing m s with
  | zero => exact ⟨fun _ k hle hlt => by omega, fun _ => rfl⟩
  | succ count ih =>
    rw [List.range'_succ, pushWindow, h.read]
    by_cases hpass : Pushes r out array start m
    · obtain ⟨e, he, -⟩ := hpass.1
      obtain ⟨hok, hnext⟩ := h.advance hs hne he hpass
      have hiff := ih hnext
      rw [← Nat.add_assoc] at hiff
      simp only [he, hok, if_true]
      rw [hiff]
      constructor
      · intro hall k hle hlt
        by_cases hk : k = m
        · rw [hk]
          exact hpass
        · exact hall k (by omega) (by omega)
      · intro hall k hle hlt
        exact hall k (by omega) (by omega)
    · have hfail : ¬ ∀ k, m ≤ k → k < m + (count + 1) → Pushes r out array start k :=
        fun hall => hpass (hall m le_rfl (by omega))
      cases he : pushRead r array start m with
      | none => exact ⟨fun hbad => absurd hbad Bool.false_ne_true, fun hall => absurd hall hfail⟩
      | some e =>
        have hno := h.refuse hs he hpass
        simp only [hno, Bool.false_eq_true, if_false, false_iff]
        exact hfail

/-- Pushes of plain values go through while the window is in range, and the array grows. -/
theorem pushWindow_raw (hs : b.stringElements = false) (hne : array ≠ out) (is : List ℕ)
    (hl : r.lookup out = some (.array b)) :
    ((pushWindow out array is r).2 = true ↔ ∀ i ∈ is, (r.arrayGet array (i : ℕ)).isSome) ∧
      ∃ l, (pushWindow out array is r).1.lookup out = some (.array { b with elements := b.elements ++ l }) ∧
        ∀ i, is.head? = some i → (r.arrayGet array (i : ℕ)).isSome → l ≠ [] := by
  induction is generalizing r b with
  | nil => exact ⟨by simp [pushWindow], [], by simp [pushWindow, hl], by simp⟩
  | cons i is ih =>
    rw [pushWindow]
    cases he : r.arrayGet array i with
    | none =>
      refine ⟨by simp [he], [], by simp [hl], ?_⟩
      intro j hj hsome
      obtain rfl : i = j := by simpa using hj
      rw [he] at hsome
      cases hsome
    | some e =>
      simp only [arrayPush_raw hl hs, if_true]
      have hnext : (r.setElements out (· ++ [e])).lookup out =
          some (.array { b with elements := b.elements ++ [e] }) := by
        rw [lookup_setElements hl, if_pos rfl]
      have hget : ∀ j : ℕ, (r.setElements out (· ++ [e])).arrayGet array j = r.arrayGet array j := by
        intro j
        rw [arrayGet_nat, arrayGet_nat, array?_setElements_ne hl hne]
      obtain ⟨hiff, l, hfinal, -⟩ := ih (b := { b with elements := b.elements ++ [e] }) hs hnext
      refine ⟨?_, e :: l, ?_, fun _ _ _ => by simp⟩
      · rw [hiff, List.forall_mem_cons]
        simp [hget, he]
      · rw [hfinal]
        simp

/-- Every push of the window goes through. -/
def PushesWindow (r : Registry) (out array : Int) (b : ArrayData) (start len : ℕ) : Prop :=
  if b.stringElements then ∀ k < len, Pushes r out array start k
  else ∀ k < len, (r.arrayGet array (start + k : ℕ)).isSome

theorem pushWindow_succeeds_iff (hl : r.lookup out = some (.array b)) (hne : array ≠ out) (len : ℕ) :
    (pushWindow out array (List.range' start len) r).2 = true ↔ r.PushesWindow out array b start len := by
  rw [PushesWindow]
  cases hs : b.stringElements with
  | true =>
    have hrefl : Pushed r out array b start 0 r := ⟨rfl, ⟨b.elements, hl⟩, fun _ => Iff.rfl, by simp⟩
    have hiff := hrefl.run hs hne len
    simpa using hiff
  | false =>
    rw [(pushWindow_raw hs hne (List.range' start len) hl).1]
    simp only [Bool.false_eq_true, if_false]
    constructor
    · intro h k hk
      exact h (start + k) (by rw [List.mem_range'_1]; omega)
    · intro h i hi
      rw [List.mem_range'_1] at hi
      obtain ⟨k, rfl⟩ := Nat.exists_eq_add_of_le hi.1
      exact h k (by omega)

/-- Once the first element was pushed the registry is a different one. -/
theorem pushWindow_changes {e : Int} {len : ℕ} (hl : r.lookup out = some (.array b)) (hne : array ≠ out)
    (hlen : 0 < len) (he : r.arrayGet array (start : ℕ) = some e)
    (htext : b.stringElements = true → (r.text? e).isSome) :
    (pushWindow out array (List.range' start len) r).1 ≠ r := by
  obtain ⟨count, rfl⟩ : ∃ count, len = count + 1 := ⟨len - 1, by omega⟩
  cases hs : b.stringElements with
  | false =>
    intro hsame
    obtain ⟨-, l, hfinal, hgrows⟩ := pushWindow_raw hs hne (List.range' start (count + 1)) hl
    rw [hsame, hl] at hfinal
    have hlist : b.elements = b.elements ++ l := by
      have := Handle.array.inj (Option.some.inj hfinal)
      exact congrArg ArrayData.elements this
    exact hgrows start rfl (by rw [he]; rfl) (List.self_eq_append_right.mp hlist)
  | true =>
    obtain ⟨text, htext⟩ := Option.isSome_iff_exists.mp (htext hs)
    have hdrawn : (r.arrayPush out e).1.issued = r.issued + 1 := by
      rw [arrayPush_text hl hs htext]
      split <;> rfl
    rw [List.range'_succ, pushWindow, he]
    dsimp only
    split
    · have hle : (r.arrayPush out e).1.issued ≤
          (pushWindow out array (List.range' (start + 1) count) (r.arrayPush out e).1).1.issued :=
        issued_le_pushWindow array _
      exact ne_of_issued_lt (by omega)
    · exact ne_of_issued_lt (by change r.issued < (r.arrayPush out e).1.issued; omega)

end Push

/-- The result registered for a window can be filled from it. An array of element size zero cannot be
registered, and its window goes to whatever array the null handle names. -/
def ToArrayKeeps (r : Registry) (id : Int) : Prop :=
  ∀ array start len a, r.sliceWindow? id = some (array, start, len) → r.array? array = some a →
    if 0 < a.elemSize then
      len = 0 ∨ array ≠ drawn r.issued ∧
        (r.insert (.array ⟨a.elemSize, a.stringElements, []⟩)).1.PushesWindow (drawn r.issued) array
          ⟨a.elemSize, a.stringElements, []⟩ start len
    else
      ∀ b e, 0 < len → r.lookup null = some (.array b) → r.arrayGet array (start : ℕ) = some e →
        (b.stringElements = true → (r.text? e).isSome) → r.PushesWindow null array b start len

theorem toArray_registered_iff {b : ArrayData} {start len : ℕ} :
    ((pushWindow (drawn r.issued) array (List.range' start len) (r.insert (.array b)).1).2 = false →
        (pushWindow (drawn r.issued) array (List.range' start len) (r.insert (.array b)).1).1 = r) ↔
      (pushWindow (drawn r.issued) array (List.range' start len) (r.insert (.array b)).1).2 = true := by
  have hle : (r.insert (.array b)).1.issued ≤
      (pushWindow (drawn r.issued) array (List.range' start len) (r.insert (.array b)).1).1.issued :=
    issued_le_pushWindow array _
  have hnew : (r.insert (.array b)).1.issued = r.issued + 1 := rfl
  constructor
  · intro h
    by_contra hfail
    exact ne_of_issued_lt (by omega) (h (by simpa using hfail))
  · intro hdone hfail
    rw [hdone] at hfail
    cases hfail

theorem sliceToArray_keeps_iff :
    ((r.sliceToArray id).2 = none → (r.sliceToArray id).1 = r) ↔ r.ToArrayKeeps id := by
  cases hw : r.sliceWindow? id with
  | none =>
    rw [sliceToArray, hw]
    refine ⟨fun _ array start len a hw' => ?_, fun _ _ => rfl⟩
    rw [hw] at hw'
    cases hw'
  | some window =>
    obtain ⟨array, start, len⟩ := window
    rw [sliceToArray, hw]
    dsimp only
    cases ha : r.array? array with
    | none => exact ⟨fun _ => forall_window_noArray hw ha, fun _ _ => rfl⟩
    | some a =>
      have hkeeps : r.ToArrayKeeps id ↔ _ := forall_window_iff hw ha
      rw [hkeeps]
      have hnone : ∀ p : Registry × Bool, ∀ out : Int,
          (if p.2 = true then some out else none) = none ↔ p.2 = false := by
        intro p out
        cases p.2 <;> simp
      by_cases hsize : 0 < a.elemSize
      · have hout : r.arrayNew a.elemSize a.stringElements =
            ((r.insert (.array ⟨a.elemSize, a.stringElements, []⟩)).1, drawn r.issued) := by
          rw [arrayNew, if_neg (by omega), Int.toNat_natCast]
          rfl
        rw [if_pos hsize]
        simp only [hout]
        rw [hnone, toArray_registered_iff]
        have htarget : (r.insert (.array ⟨a.elemSize, a.stringElements, []⟩)).1.lookup (drawn r.issued) =
            some (.array ⟨a.elemSize, a.stringElements, []⟩) := by
          rw [lookup_insert, if_pos rfl]
        by_cases hclash : array = drawn r.issued
        · cases len with
          | zero => exact ⟨fun _ => .inl rfl, fun _ => rfl⟩
          | succ len =>
            have harray : (r.insert (.array ⟨a.elemSize, a.stringElements, []⟩)).1.array? array =
                some ⟨a.elemSize, a.stringElements, []⟩ :=
              array?_eq_some.mpr ⟨(array?_eq_some.mp ha).1, hclash ▸ htarget⟩
            rw [List.range'_succ, pushWindow, arrayGet_nat, harray]
            exact ⟨fun hbad => absurd hbad Bool.false_ne_true,
              fun hbad => absurd hclash (hbad.resolve_left (Nat.succ_ne_zero len)).1⟩
        · rw [pushWindow_succeeds_iff htarget hclash]
          constructor
          · exact fun h => .inr ⟨hclash, h⟩
          · rintro (rfl | ⟨-, h⟩)
            · rw [PushesWindow]
              split
              · exact fun k hk => absurd hk (Nat.not_lt_zero k)
              · exact fun k hk => absurd hk (Nat.not_lt_zero k)
            · exact h
      · have hout : r.arrayNew a.elemSize a.stringElements = (r, null) := by
          rw [arrayNew, if_pos (by omega)]
        rw [if_neg hsize]
        simp only [hout]
        rw [hnone]
        have hne : array ≠ null := (array?_eq_some.mp ha).1
        constructor
        · intro h b e hlen hl he htext
          rw [← pushWindow_succeeds_iff hl hne]
          by_contra hfail
          exact pushWindow_changes hl hne hlen he htext (h (by simpa using hfail))
        · intro h hfail
          cases len with
          | zero => rfl
          | succ len =>
            rw [List.range'_succ, pushWindow] at hfail ⊢
            cases he : r.arrayGet array (start : ℕ) with
            | none => rfl
            | some e =>
              by_cases hl : ∃ b, r.lookup null = some (.array b)
              · obtain ⟨b, hl⟩ := hl
                by_cases htext : b.stringElements = true → (r.text? e).isSome
                · have hwindow := h b e (Nat.succ_pos len) hl he htext
                  rw [← pushWindow_succeeds_iff hl hne, List.range'_succ, pushWindow] at hwindow
                  rw [hwindow] at hfail
                  cases hfail
                · have hnotext : b.stringElements = true ∧ r.text? e = none := by
                    simpa using htext
                  simp [arrayPush_noText hl hnotext.1 hnotext.2]
              · have hno : r.arrayPush null e = (r, false) := arrayPush_noArray (fun b hb => hl ⟨b, hb⟩)
                simp [hno]

/-- For every registry: exactly when a slice operation that is refused leaves the registry as it was. -/
theorem refused_slices_keep_iff (r : Registry) :
    (∀ id index value, ((r.sliceSet id index value).2 = false → (r.sliceSet id index value).1 = r) ↔
      r.SetKeeps id index value) ∧
    (∀ id value, ((r.sliceFill id value).2 = false → (r.sliceFill id value).1 = r) ↔
      r.FillKeeps id value) ∧
    (∀ dst src, ((r.sliceCopyFrom dst src).2 = false → (r.sliceCopyFrom dst src).1 = r) ↔
      r.CopyKeeps dst src) ∧
    (∀ id, ((r.sliceToArray id).2 = none → (r.sliceToArray id).1 = r) ↔ r.ToArrayKeeps id) :=
  ⟨fun _ _ _ => sliceSet_keeps_iff, fun _ _ => sliceFill_keeps_iff, fun _ _ => sliceCopyFrom_keeps_iff,
    fun _ => sliceToArray_keeps_iff⟩

/-- The slice `4` of a string array that held one string and was emptied since. -/
def emptiedWindow : Registry :=
  let words := ((Registry.empty.putString "a").1.arrayNew 8 true).1
  ((((words.arrayPush 2 1).1.sliceOf 2 0 1).1).arrayPop 2).1

/-- A write through it is refused, and the copy of the text stays. -/
theorem refused_sliceSet_leaves_copy :
    ¬ ∀ (r : Registry) (id index value : Int), (r.sliceSet id index value).2 = false →
      (r.sliceSet id index value).1 = r := by
  intro h
  have hsame := h emptiedWindow 4 0 1 (by decide +kernel)
  have hlive := congrArg Registry.live hsame
  revert hlive
  decide +kernel

end Neutron.Registry
