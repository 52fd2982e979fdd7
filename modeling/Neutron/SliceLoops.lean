import Neutron.SliceChains

/-!
# Loops of element writes

`slice_fill` and `slice_copy_from` write one slot after another and stop at the first refusal. On an
array of plain values only the list changes. On a string array every step registers one string and
removes another, so what a later step finds is described from the state before the loop: the slots
rewritten so far, the ids drawn so far, and the strings that are still live.
-/

namespace Neutron.Registry

attribute [local irreducible] drawn

variable {r s : Registry} {array src : Int} {a : ArrayData} {start srcStart : ℕ}

theorem modify_self {id : Int} {h : Handle} {f : Handle → Handle} (hl : r.lookup id = some h)
    (hf : f h = h) : r.modify id f = r := by
  have hentries : (r.shards (shardOf id)).modify id f = r.shards (shardOf id) := by
    apply AList.ext
    calc
      _ = (r.shards (shardOf id)).entries.map (fun e => e) := by
        apply List.map_congr_left
        intro e he
        change (⟨e.1, if e.1 = id then f e.2 else e.2⟩ : Σ _ : Int, Handle) = e
        by_cases hid : e.1 = id
        · have hlookup : (r.shards (shardOf id)).lookup e.1 = some e.2 := AList.mem_lookup_iff.mpr he
          rw [hid] at hlookup
          have hvalue : e.2 = h := Option.some.inj (hlookup.symm.trans hl)
          rw [if_pos hid, hvalue, hf, ← hvalue]
        · rw [if_neg hid]
      _ = _ := List.map_id' _
  rw [modify, hentries, setShard_self]

theorem setElements_self {id : Int} {f : List Int → List Int} (ha : r.array? id = some a)
    (hf : f a.elements = a.elements) : r.setElements id f = r :=
  modify_self (lookup_of_array? ha) (by simp [hf])

theorem arrayGet_nat (id : Int) (i : ℕ) : r.arrayGet id i = (r.array? id).bind (fun a => a.elements[i]?) := by
  rw [arrayGet, if_neg (by omega)]
  rfl

theorem text?_insert_string (text : String) (h : Int) :
    (r.insert (.string text)).1.text? h = if h = drawn r.issued then some text else r.text? h := by
  unfold text?
  rw [lookup_insert]
  by_cases hnew : h = drawn r.issued
  · rw [if_pos hnew, if_pos hnew]
  · rw [if_neg hnew, if_neg hnew]

theorem text?_setElements (f : List Int → List Int) (ha : r.array? array = some a) (h : Int) :
    (r.setElements array f).text? h = r.text? h := by
  unfold text?
  rw [lookup_setElements (lookup_of_array? ha)]
  by_cases hid : h = array
  · rw [if_pos hid, hid, lookup_of_array? ha]
  · rw [if_neg hid]

theorem text?_takeString (x h : Int) :
    (r.takeString x).1.text? h = if h = x ∧ h ≠ null then none else r.text? h := by
  unfold text?
  rw [lookup_takeString]
  by_cases htake : h = x ∧ x ≠ null ∧ (r.text? x).isSome
  · rw [if_pos htake, if_pos ⟨htake.1, htake.1 ▸ htake.2.1⟩]
  · rw [if_neg htake]
    by_cases hx : h = x ∧ h ≠ null
    · rw [if_pos hx]
      obtain ⟨rfl, hnull⟩ := hx
      have hnone : r.text? h = none := by
        rw [← Option.not_isSome_iff_eq_none]
        exact fun hsome => htake ⟨rfl, hnull, hsome⟩
      exact hnone
    · rw [if_neg hx]

theorem array?_insert_text (text : String) (k : Int) :
    (r.insert (.string text)).1.array? k = if k = drawn r.issued then none else r.array? k := by
  apply Option.ext
  intro b
  rw [array?_eq_some, lookup_insert]
  by_cases hnew : k = drawn r.issued
  · simp [if_pos hnew]
  · rw [if_neg hnew, if_neg hnew, array?_eq_some]

/-- The pairs of slots a loop over two windows goes through. -/
def slotPairs (srcStart start first count : ℕ) : List (ℕ × ℕ) :=
  (List.range' first count).map (fun o => (srcStart + o, start + o))

theorem slotPairs_succ (first count : ℕ) :
    slotPairs srcStart start first (count + 1) =
      (srcStart + first, start + first) :: slotPairs srcStart start (first + 1) count := rfl

/-! ### Plain values -/

/-- Only the elements of one array may differ, not their number. -/
structure Rewritten (r : Registry) (array : Int) (a : ArrayData) (s : Registry) (l : List Int) : Prop where
  target : s.array? array = some { a with elements := l }
  length : l.length = a.elements.length
  others : ∀ k, k ≠ array → s.array? k = r.array? k
  texts : ∀ h, s.text? h = r.text? h

theorem Rewritten.refl (ha : r.array? array = some a) : Rewritten r array a r a.elements :=
  ⟨ha, rfl, fun _ _ => rfl, fun _ => rfl⟩

theorem Rewritten.set {l : List Int} (h : Rewritten r array a s l) (i : ℕ) (v : Int) :
    Rewritten r array a (s.setElements array (·.set i v)) (l.set i v) := by
  refine ⟨array?_setElements_self h.target _, by rw [List.length_set, h.length], fun k hk => ?_,
    fun e => (text?_setElements _ h.target e).trans (h.texts e)⟩
  rw [← h.others k hk]
  obtain ⟨hid, hl⟩ := array?_eq_some.mp h.target
  apply Option.ext
  intro b
  rw [array?_eq_some, array?_eq_some, lookup_setElements hl, if_neg hk]

theorem Rewritten.arrayGet_isSome {l : List Int} (h : Rewritten r array a s l)
    (ha : r.array? array = some a) (i : ℕ) : (s.arrayGet src i).isSome = (r.arrayGet src i).isSome := by
  rw [arrayGet_nat, arrayGet_nat]
  by_cases hsrc : src = array
  · subst hsrc
    rw [h.target, ha]
    change l[i]?.isSome = a.elements[i]?.isSome
    rw [Bool.eq_iff_iff, isSome_getElem?, isSome_getElem?, h.length]
  · rw [h.others src hsrc]


/-- A write to an array of plain values goes through exactly when its index is in range. -/
theorem Rewritten.arraySet {l : List Int} (h : Rewritten r array a s l) (hs : a.stringElements = false)
    (i : ℕ) (v : Int) :
    s.arraySet array i v =
      if i < a.elements.length then (s.setElements array (·.set i v), true) else (s, false) := by
  rw [← h.length]
  exact arraySet_raw h.target hs

theorem Rewritten.writeSlots_succeeds {value : Registry → ℕ → Option Int}
    (hs : a.stringElements = false)
    (hvalue : ∀ s l i, Rewritten r array a s l → (value s i).isSome = (value r i).isSome)
    {l : List Int} (h : Rewritten r array a s l) (pairs : List (ℕ × ℕ)) :
    (writeSlots array value pairs s).2 = true ↔
      ∀ p ∈ pairs, (value r p.1).isSome ∧ p.2 < a.elements.length := by
  induction pairs generalizing s l with
  | nil => simp [writeSlots]
  | cons p pairs ih =>
    obtain ⟨i, j⟩ := p
    have hread := hvalue s l i h
    rw [List.forall_mem_cons]
    cases hv : value s i with
    | none =>
      rw [hv] at hread
      simp [writeSlots, hv, ← hread]
    | some v =>
      rw [hv] at hread
      simp only [writeSlots, hv, h.arraySet hs]
      by_cases hj : j < a.elements.length
      · rw [if_pos hj]
        simp only [if_true]
        rw [ih (h.set j v)]
        simp [hj, ← hread]
      · rw [if_neg hj]
        simp [hj]

/-- Slots that are not written keep their elements. -/
theorem Rewritten.writeSlots_frame (hs : a.stringElements = false) {l : List Int}
    (h : Rewritten r array a s l) (value : Registry → ℕ → Option Int) (pairs : List (ℕ × ℕ)) :
    ∃ l', Rewritten r array a (writeSlots array value pairs s).1 l' ∧
      ∀ i, (∀ p ∈ pairs, p.2 ≠ i) → l'[i]? = l[i]? := by
  induction pairs generalizing s l with
  | nil => exact ⟨l, h, fun _ _ => rfl⟩
  | cons p pairs ih =>
    obtain ⟨src, dst⟩ := p
    rw [writeSlots]
    cases hv : value s src with
    | none => exact ⟨l, h, fun _ _ => rfl⟩
    | some v =>
      simp only [h.arraySet hs]
      by_cases hj : dst < a.elements.length
      · rw [if_pos hj]
        obtain ⟨l', hl', hkept⟩ := ih (h.set dst v)
        refine ⟨l', by simpa using hl', fun i hi => ?_⟩
        rw [hkept i (fun p hp => hi p (List.mem_cons_of_mem _ hp)),
          List.getElem?_set_ne (hi (src, dst) (by simp))]
      · rw [if_neg hj]
        exact ⟨l, by simpa using h, fun _ _ => rfl⟩

/-- A loop over two windows of plain values leaves the registry as it was exactly when every slot it
reaches already holds the value it writes there. -/
theorem writeSlots_same_iff {value : Registry → ℕ → Option Int} (ha : r.array? array = some a)
    (hs : a.stringElements = false)
    (hreach : ∀ i j, i ≤ j → (value r (srcStart + j)).isSome → (value r (srcStart + i)).isSome)
    (start first count : ℕ) :
    (writeSlots array value (slotPairs srcStart start first count) r).1 = r ↔
      ∀ k, first ≤ k → k < first + count → start + k < a.elements.length →
        ∀ v, value r (srcStart + k) = some v → a.elements[start + k]? = some v := by
  induction count generalizing first with
  | zero =>
    simp only [slotPairs, List.range'_zero, List.map_nil, writeSlots, true_iff]
    intro k hle hlt
    omega
  | succ count ih =>
    rw [slotPairs_succ, writeSlots]
    have hrefl := Rewritten.refl ha
    cases hv : value r (srcStart + first) with
    | none =>
      simp only [true_iff]
      intro k hle _ _ v hk
      have hsome := hreach first k hle (by rw [hk]; rfl)
      rw [hv] at hsome
      cases hsome
    | some v =>
      simp only [hrefl.arraySet hs]
      by_cases hj : start + first < a.elements.length
      · rw [if_pos hj]
        simp only [if_true]
        by_cases hsame : a.elements[start + first]? = some v
        · have hset : a.elements.set (start + first) v = a.elements := by
            obtain ⟨_, hget⟩ := List.getElem?_eq_some_iff.mp hsame
            rw [← hget, List.set_getElem_self]
          rw [setElements_self (f := (·.set (start + first) v)) ha hset, ih (first + 1)]
          constructor
          · intro h k hle hlt hk w hw
            by_cases hfirst : k = first
            · subst hfirst
              rw [hv] at hw
              rw [hsame, hw]
            · exact h k (by omega) (by omega) hk w hw
          · intro h k hle hlt
            exact h k (by omega) (by omega)
        · constructor
          · intro h
            obtain ⟨l', hl', hkept⟩ := (hrefl.set (start + first) v).writeSlots_frame hs value
              (slotPairs srcStart start (first + 1) count)
            rw [h] at hl'
            have hlist : a.elements = l' := by
              have htarget := hl'.target
              rw [ha] at htarget
              exact congrArg ArrayData.elements (Option.some.inj htarget)
            have hthis := hkept (start + first) (by
              intro p hp
              obtain ⟨o, ho, rfl⟩ := List.mem_map.mp hp
              have := (List.mem_range'_1.mp ho).1
              change start + o ≠ start + first
              omega)
            rw [← hlist, List.getElem?_set_self hj] at hthis
            exact absurd hthis hsame
          · intro h
            exact absurd (h first le_rfl (by omega) hj v hv) hsame
      · rw [if_neg hj]
        simp only [Bool.false_eq_true, if_false, true_iff]
        intro k hle _ hk
        omega

/-! ### Texts -/

/-- The element in slot `start + k` before the loop, which step `k` removes. -/
def oldAt (a : ArrayData) (start k : ℕ) : Int := a.elements.getD (start + k) 0

/-- The text behind `h` before step `k` of a loop of writes. Step `j` stores a copy of what `read j` names
under the next id and then removes the element it replaced. -/
def textAt (r : Registry) (old : ℕ → Int) (read : ℕ → Option Int) : ℕ → Int → Option String
  | 0, h => r.text? h
  | k + 1, h =>
      if h = old k ∧ h ≠ null then none
      else if h = drawn (r.issued + k) then (read k).bind (textAt r old read k)
      else textAt r old read k h

/-- A string that is live before step `k`. -/
def LiveAt (r : Registry) (old : ℕ → Int) : ℕ → Int → Prop
  | 0, h => (r.text? h).isSome
  | k + 1, h => ¬ (h = old k ∧ h ≠ null) ∧ (h = drawn (r.issued + k) ∨ LiveAt r old k h)

/-- Step `k` finds a live text to copy, and a slot for it. -/
def Passes (r : Registry) (array : Int) (a : ArrayData) (start : ℕ) (read : ℕ → Option Int) (k : ℕ) : Prop :=
  (∃ h, read k = some h ∧ LiveAt r (oldAt a start) k h) ∧
    array ≠ drawn (r.issued + k) ∧ start + k < a.elements.length

/-- The elements after `k` steps. -/
def refreshed (r : Registry) (l : List Int) (start : ℕ) : ℕ → List Int
  | 0 => l
  | k + 1 => (refreshed r l start k).set (start + k) (drawn (r.issued + k))

/-- The registry after `m` steps of a loop of writes to a string array. -/
structure Written (r : Registry) (array : Int) (a : ArrayData) (start : ℕ) (read : ℕ → Option Int) (m : ℕ)
    (s : Registry) : Prop where
  issued : s.issued = r.issued + m
  target : s.array? array = some { a with elements := refreshed r a.elements start m }
  text : ∀ h, s.text? h = textAt r (oldAt a start) read m h
  others : ∀ k, k ≠ array →
    s.array? k = if ∃ j < m, k = drawn (r.issued + j) then none else r.array? k
  passed : ∀ j < m, Passes r array a start read j

variable {read : ℕ → Option Int} {m : ℕ}

theorem Written.refl (ha : r.array? array = some a) : Written r array a start read 0 r :=
  ⟨rfl, ha, fun _ => rfl, fun k _ => by simp, fun j hj => absurd hj (Nat.not_lt_zero j)⟩

theorem length_refreshed (l : List Int) (k : ℕ) : (refreshed r l start k).length = l.length := by
  induction k with
  | zero => rfl
  | succ k ih => rw [refreshed, List.length_set, ih]

theorem getElem?_refreshed (l : List Int) (k i : ℕ) (hi : i < l.length) :
    (refreshed r l start k)[i]? =
      if start ≤ i ∧ i < start + k then some (drawn (r.issued + (i - start))) else l[i]? := by
  induction k with
  | zero =>
    rw [if_neg (by omega)]
    rfl
  | succ k ih =>
    rw [refreshed]
    by_cases hk : start + k = i
    · subst hk
      rw [List.getElem?_set_self (by rwa [length_refreshed]), if_pos (by omega), Nat.add_sub_cancel_left]
    · rw [List.getElem?_set_ne hk, ih]
      by_cases hin : start ≤ i ∧ i < start + k
      · rw [if_pos hin, if_pos (by omega)]
      · rw [if_neg hin, if_neg (by omega)]

/-- As long as every step found its text, the live strings are those with a text. -/
theorem isSome_textAt (k : ℕ) (hpassed : ∀ j < k, Passes r array a start read j) (h : Int) :
    (textAt r (oldAt a start) read k h).isSome ↔ LiveAt r (oldAt a start) k h := by
  induction k generalizing h with
  | zero => rfl
  | succ k ih =>
    have ih' := ih (fun j hj => hpassed j (by omega))
    rw [textAt, LiveAt]
    by_cases hold : h = oldAt a start k ∧ h ≠ null
    · rw [if_pos hold]
      exact ⟨fun hnone => absurd hnone Bool.false_ne_true, fun hlive => absurd hold hlive.1⟩
    · rw [if_neg hold]
      by_cases hnew : h = drawn (r.issued + k)
      · obtain ⟨⟨e, he, hlive⟩, -, -⟩ := hpassed k (by omega)
        rw [if_pos hnew, he]
        change (textAt r (oldAt a start) read k e).isSome ↔ _
        rw [ih' e]
        exact ⟨fun _ => ⟨hold, .inl hnew⟩, fun _ => hlive⟩
      · rw [if_neg hnew, ih' h]
        exact ⟨fun hl => ⟨hold, .inr hl⟩, fun hl => hl.2.resolve_left hnew⟩

theorem Written.live (h : Written r array a start read m s) (e : Int) :
    (s.text? e).isSome ↔ LiveAt r (oldAt a start) m e := by
  rw [h.text e]
  exact isSome_textAt m h.passed e

/-- A write to a string array, seen from before the loop. -/
theorem Written.arraySet (h : Written r array a start read m s) (hs : a.stringElements = true) {e : Int}
    {text : String} (htext : s.text? e = some text) :
    s.arraySet array (start + m : ℕ) e =
      if array ≠ drawn (r.issued + m) ∧ start + m < a.elements.length then
        (s.replaceText array (start + m) (oldAt a start m) text, true)
      else ((s.insert (.string text)).1, false) := by
  have hset := arraySet_text (i := start + m) h.target hs htext
  rw [length_refreshed, h.issued] at hset
  by_cases hfits : start + m < a.elements.length
  · have hold : (refreshed r a.elements start m).getD (start + m) 0 = oldAt a start m := by
      rw [oldAt, List.getD_eq_getElem?_getD, List.getD_eq_getElem?_getD, getElem?_refreshed _ _ _ hfits,
        if_neg (by omega)]
    rw [hold] at hset
    exact hset
  · rw [if_neg (fun hall => hfits hall.2)] at hset ⊢
    exact hset

theorem Written.advance (h : Written r array a start read m s) (hs : a.stringElements = true) {e : Int}
    (he : read m = some e) (hpass : Passes r array a start read m) :
    (s.arraySet array (start + m : ℕ) e).2 = true ∧
      Written r array a start read (m + 1) (s.arraySet array (start + m : ℕ) e).1 := by
  obtain ⟨⟨e', he', hlive⟩, hfits⟩ := hpass
  obtain rfl : e' = e := Option.some.inj (he'.symm.trans he)
  obtain ⟨text, htext⟩ := Option.isSome_iff_exists.mp ((h.live e').mpr hlive)
  rw [h.arraySet hs htext, if_pos hfits]
  refine ⟨rfl, ?_⟩
  have hcopy : (s.insert (.string text)).1.array? array =
      some { a with elements := refreshed r a.elements start m } := by
    rw [array?_insert_text, h.issued, if_neg hfits.1, h.target]
  refine ⟨?_, ?_, fun x => ?_, fun k hk => ?_, fun j hj => ?_⟩
  · change (Registry.takeString _ _).1.issued = _
    rw [issued_takeString]
    change s.issued + 1 = _
    rw [h.issued, Nat.add_assoc]
  · change (Registry.takeString _ _).1.array? array = _
    rw [array?_takeString, array?_setElements_self hcopy, h.issued]
    rfl
  · change (Registry.takeString _ _).1.text? x = _
    rw [text?_takeString, text?_setElements _ hcopy, text?_insert_string, h.issued, textAt, he]
    by_cases hx : x = drawn (r.issued + m)
    · rw [if_pos hx, if_pos hx, Option.bind_some, ← h.text e', htext]
    · rw [if_neg hx, if_neg hx, h.text x]
  · change (Registry.takeString _ _).1.array? k = _
    have hset : (((s.insert (.string text)).1.setElements array
        (·.set (start + m) (drawn s.issued))).array? k) = (s.insert (.string text)).1.array? k :=
      (Rewritten.refl hcopy).set (start + m) (drawn s.issued) |>.others k hk
    rw [array?_takeString, hset, array?_insert_text, h.issued, h.others k hk]
    by_cases hnew : k = drawn (r.issued + m)
    · rw [if_pos hnew, if_pos ⟨m, by omega, hnew⟩]
    · rw [if_neg hnew]
      have hiff : (∃ j < m, k = drawn (r.issued + j)) ↔ ∃ j < m + 1, k = drawn (r.issued + j) := by
        constructor
        · rintro ⟨j, hj, hkj⟩
          exact ⟨j, by omega, hkj⟩
        · rintro ⟨j, hj, hkj⟩
          have hjm : j ≠ m := fun heq => hnew (heq ▸ hkj)
          exact ⟨j, by omega, hkj⟩
      simp only [hiff]
  · by_cases hjm : j = m
    · subst hjm
      exact ⟨⟨e', he, hlive⟩, hfits⟩
    · exact h.passed j (by omega)

theorem Written.refuse (h : Written r array a start read m s) (hs : a.stringElements = true) {e : Int}
    (he : read m = some e) (hstop : ¬ Passes r array a start read m) :
    (s.arraySet array (start + m : ℕ) e).2 = false := by
  cases htext : s.text? e with
  | none => rw [arraySet_noText h.target hs htext]
  | some text =>
    have hlive := (h.live e).mp (by rw [htext]; rfl)
    rw [h.arraySet hs htext, if_neg (fun hfits => hstop ⟨⟨e, he, hlive⟩, hfits⟩)]

/-- A loop over a string array succeeds exactly when every step passes. -/
theorem Written.run (value : Registry → ℕ → Option Int) (srcStart : ℕ) (hs : a.stringElements = true)
    (hvalue : ∀ m s, Written r array a start read m s → value s (srcStart + m) = read m)
    (count : ℕ) (h : Written r array a start read m s) :
    ((writeSlots array value (slotPairs srcStart start m count) s).2 = true ↔
      ∀ k, m ≤ k → k < m + count → Passes r array a start read k) ∧
    ((writeSlots array value (slotPairs srcStart start m count) s).2 = true →
      Written r array a start read (m + count)
        (writeSlots array value (slotPairs srcStart start m count) s).1) := by
  induction count generalizing m s with
  | zero =>
    refine ⟨⟨fun _ k hle hlt => by omega, fun _ => rfl⟩, fun _ => h⟩
  | succ count ih =>
    rw [slotPairs_succ, writeSlots, hvalue m s h]
    by_cases hpass : Passes r array a start read m
    · obtain ⟨e, he, -⟩ := hpass.1
      obtain ⟨hok, hnext⟩ := h.advance hs he hpass
      obtain ⟨hiff, hfinal⟩ := ih hnext
      simp only [he, hok, if_true]
      refine ⟨?_, fun hdone => ?_⟩
      · rw [hiff]
        constructor
        · intro hall k hle hlt
          by_cases hk : k = m
          · rw [hk]
            exact hpass
          · exact hall k (by omega) (by omega)
        · intro hall k hle hlt
          exact hall k (by omega) (by omega)
      · have hrun := hfinal hdone
        rwa [Nat.add_right_comm, Nat.add_assoc m count 1] at hrun
    · have hfail : ∀ hall : ∀ k, m ≤ k → k < m + (count + 1) → Passes r array a start read k, False :=
        fun hall => hpass (hall m le_rfl (by omega))
      cases he : read m with
      | none => exact ⟨⟨fun hbad => absurd hbad Bool.false_ne_true, fun hall => (hfail hall).elim⟩,
          fun hbad => absurd hbad Bool.false_ne_true⟩
      | some e =>
        have hno := h.refuse hs he hpass
        simp only [hno, Bool.false_eq_true, if_false, false_iff, false_implies, and_true]
        exact fun hall => hfail hall

/-- A write that has a text to copy draws an id, whether it goes through or not. -/
theorem issued_arraySet_text {e : Int} {text : String} (ha : r.array? array = some a)
    (hs : a.stringElements = true) (he : r.text? e = some text) (i : ℕ) :
    (r.arraySet array i e).1.issued = r.issued + 1 := by
  rw [arraySet_text ha hs he]
  split
  · exact issued_takeString _
  · rfl

theorem issued_le_arraySet (e : Int) (i : ℕ) : r.issued ≤ (r.arraySet array i e).1.issued := by
  cases ha : r.array? array with
  | none => rw [arraySet_noArray ha]
  | some a =>
    cases hs : a.stringElements with
    | false =>
      rw [arraySet_raw ha hs]
      split
      · exact le_rfl
      · exact le_rfl
    | true =>
      cases he : r.text? e with
      | none => rw [arraySet_noText ha hs he]
      | some text =>
        rw [issued_arraySet_text ha hs he]
        omega

theorem issued_le_writeSlots (array : Int) (value : Registry → ℕ → Option Int) (pairs : List (ℕ × ℕ)) :
    s.issued ≤ (writeSlots array value pairs s).1.issued := by
  induction pairs generalizing s with
  | nil => exact le_rfl
  | cons p pairs ih =>
    obtain ⟨src, dst⟩ := p
    rw [writeSlots]
    cases value s src with
    | none => exact le_rfl
    | some e =>
      have hstep : s.issued ≤ (s.arraySet array dst e).1.issued := issued_le_arraySet e dst
      dsimp only
      split
      · exact hstep.trans ih
      · exact hstep

end Neutron.Registry
