import Neutron.InsertionOrder
import Neutron.ElementWrites
import Mathlib.Data.String.Basic

/-!
# Sorting arrays

`array_sort` clones its source and runs the insertion loop over the clone. For values it compares what it
moves. For texts it compares a list read before the loop, by position, and that list does not move with
the elements.
-/

namespace Neutron.Registry

attribute [local irreducible] drawn

variable {r s : Registry} {id : Int} {a : ArrayData}

/-! ### The clone -/

/-- Entries stay as they are. -/
def Extends (r s : Registry) : Prop := ∀ k h, r.lookup k = some h → s.lookup k = some h

theorem extends_insert (hb : r.Balanced) (hi : r.issued < 2 ^ 64 - 1) (h : Handle) :
    r.Extends (r.insert h).1 := by
  intro k hd hk
  have hnew := hb.fresh hi
  rw [lookup_insert, if_neg]
  · exact hk
  · rintro rfl
    rw [hnew] at hk
    cases hk

theorem Extends.textOrEmpty (h : r.Extends s) {e : Int} (he : (r.text? e).isSome) :
    s.textOrEmpty e = r.textOrEmpty e := by
  obtain ⟨text, htext⟩ := Option.isSome_iff_exists.mp he
  have hl := text?_eq_some.mp htext
  rw [Registry.textOrEmpty, Registry.textOrEmpty, hl, h e _ hl]

theorem Extends.text? (h : r.Extends s) {e : Int} (he : (r.text? e).isSome) : (s.text? e).isSome := by
  obtain ⟨text, htext⟩ := Option.isSome_iff_exists.mp he
  rw [text?_eq_some.mpr (h e _ (text?_eq_some.mp htext))]
  rfl

theorem cloneOrNull_of_clone {e : Int} {p : Registry × Int} (h : r.cloneString e = (p.1, some p.2)) :
    r.cloneOrNull e = p := by
  rw [cloneOrNull, h]
  rfl

theorem cloneOrNull_live (hb : r.Balanced) (hi : r.issued < 2 ^ 64) {e : Int} {text : String}
    (he : r.text? e = some text) : r.cloneOrNull e = r.insert (.string text) := by
  have hl := text?_eq_some.mp he
  have hnull : e ≠ null := by
    rintro rfl
    rw [hb.lookup_null hi] at hl
    cases hl
  have hget : r.getString e = some text := by
    rw [getString, if_neg hnull, hl]
  refine cloneOrNull_of_clone ?_
  simp only [cloneString, hget, putString]

theorem mapElements_cons (f : Registry → Int → Registry × Int) (e : Int) (es : List Int) (r : Registry) :
    mapElements f (e :: es) r =
      ((mapElements f es (f r e).1).1, (f r e).2 :: (mapElements f es (f r e).1).2) := rfl

theorem map_range_succ (g : ℕ → Int) (first count : ℕ) :
    (List.range (count + 1)).map (fun k => g (first + k)) =
      g first :: (List.range count).map (fun k => g (first + 1 + k)) := by
  rw [List.range_succ_eq_map, List.map_cons, List.map_map]
  refine congrArg (g first :: ·) (List.map_congr_left fun k _ => ?_)
  exact congrArg g (by omega)

/-- Copying live strings registers one new string for each, in order. -/
theorem mapElements_clone (es : List Int) (hb : r.Balanced) (hi : r.issued + es.length < 2 ^ 64)
    (hlive : ∀ e ∈ es, (r.text? e).isSome) :
    let out := mapElements (fun r e => r.cloneOrNull e) es r
    out.2 = (List.range es.length).map (fun k => drawn (r.issued + k)) ∧
      out.1.issued = r.issued + es.length ∧ out.1.Balanced ∧ r.Extends out.1 ∧
      out.2.map out.1.textOrEmpty = es.map r.textOrEmpty ∧ ∀ h ∈ out.2, (out.1.text? h).isSome := by
  induction es generalizing r with
  | nil => exact ⟨rfl, rfl, hb, fun _ _ h => h, rfl, by simp [mapElements]⟩
  | cons e es ih =>
    rw [List.length_cons] at hi
    obtain ⟨text, htext⟩ := Option.isSome_iff_exists.mp (hlive e (List.mem_cons_self ..))
    have hstep := cloneOrNull_live hb (by omega) htext
    have hextends := extends_insert hb (by omega) (.string text)
    have hissued : (r.insert (.string text)).1.issued = r.issued + 1 := rfl
    have hnext := ih (r := (r.insert (.string text)).1) (hb.insert (by omega) _) (by omega)
      (fun x hx => hextends.text? (hlive x (List.mem_cons_of_mem _ hx)))
    intro out
    have hout : out = ((mapElements (fun r e => r.cloneOrNull e) es (r.insert (.string text)).1).1,
        drawn r.issued :: (mapElements (fun r e => r.cloneOrNull e) es (r.insert (.string text)).1).2) := by
      have hfirst : (r.insert (.string text)).2 = drawn r.issued := rfl
      change mapElements (fun r e => r.cloneOrNull e) (e :: es) r = _
      rw [mapElements_cons, hstep, hfirst]
    rw [hout]
    obtain ⟨hids, hcount, hbalanced, hkept, htexts, hcopies⟩ := hnext
    have hfirst : (mapElements (fun r e => r.cloneOrNull e) es (r.insert (.string text)).1).1.lookup
        (drawn r.issued) = some (.string text) :=
      hkept _ _ (by rw [lookup_insert, if_pos rfl])
    refine ⟨?_, ?_, hbalanced, fun k h hk => hkept k h (hextends k h hk), ?_, fun h hh => ?_⟩
    · dsimp only
      rw [hids, List.length_cons, map_range_succ, hissued]
    · dsimp only
      rw [hcount, hissued, List.length_cons]
      omega
    · dsimp only
      rw [List.map_cons, List.map_cons, htexts]
      congr 1
      · rw [Registry.textOrEmpty, hfirst, Registry.textOrEmpty, text?_eq_some.mp htext]
      · exact List.map_congr_left fun x hx => hextends.textOrEmpty (hlive x (List.mem_cons_of_mem _ hx))
    · rcases List.mem_cons.mp hh with rfl | hh
      · rw [text?_eq_some.mpr hfirst]
        rfl
      · exact hcopies h hh

theorem mapElements_keep (es : List Int) : mapElements (fun r e => (r, e)) es r = (r, es) := by
  induction es with
  | nil => rfl
  | cons e es ih => rw [mapElements, ih]

/-- What the clone of an array is made of: the registry `s` with the copies in it, and the new elements. -/
structure Cloned (r : Registry) (a : ArrayData) (s : Registry) (c : List Int) : Prop where
  balanced : s.Balanced
  bound : s.issued < 2 ^ 64 - 1
  kept : r.Extends s
  texts : c.map s.textOrEmpty = a.elements.map r.textOrEmpty
  copies : a.stringElements = true → c = (List.range a.elements.length).map (fun k => drawn (r.issued + k))
  raw : a.stringElements = false → c = a.elements ∧ s = r

theorem arrayClone_cloned (hb : r.Balanced) (ha : r.array? id = some a)
    (hi : r.issued + a.elements.length + 1 < 2 ^ 64)
    (hlive : a.stringElements = true → ∀ e ∈ a.elements, (r.text? e).isSome) :
    ∃ s c, Cloned r a s c ∧ arrayClone 0 r id = s.insert (.array { a with elements := c }) := by
  obtain ⟨hid, hl⟩ := array?_eq_some.mp ha
  have hclone : arrayClone 0 r id =
      (mapElements (fun r e => if a.stringElements then r.cloneOrNull e else keepRaw a r e) a.elements r).1.insert
        (.array { a with elements := (mapElements (fun r e => if a.stringElements then r.cloneOrNull e
          else keepRaw a r e) a.elements r).2 }) := by
    rw [arrayClone, copyArray, if_neg hid, hl]
    rfl
  cases hs : a.stringElements with
  | false =>
    refine ⟨r, a.elements, ⟨hb, by omega, fun _ _ h => h, rfl,
      fun hbad => absurd (hs.symm.trans hbad) Bool.false_ne_true, fun _ => ⟨rfl, rfl⟩⟩, ?_⟩
    have hkeep : (fun (r : Registry) (e : Int) => if a.stringElements then r.cloneOrNull e
        else keepRaw a r e) = fun r e => (r, e) := by
      funext r e
      rw [hs]
      rfl
    rw [hclone, hkeep, mapElements_keep, hs]
  | true =>
    obtain ⟨hids, hcount, hbalanced, hkept, htexts, -⟩ :=
      mapElements_clone a.elements hb (by omega) (hlive hs)
    have hcopy : (fun (r : Registry) (e : Int) => if a.stringElements then r.cloneOrNull e
        else keepRaw a r e) = fun r e => r.cloneOrNull e := by
      funext r e
      rw [hs]
      rfl
    refine ⟨_, _, ⟨hbalanced, by omega, hkept, htexts, fun _ => hids,
      fun hbad => absurd (hbad.symm.trans hs) Bool.false_ne_true⟩, ?_⟩
    rw [hclone, hcopy, hs]

/-! ### What sorting means -/

/-- The text of the element at a position. -/
def textKey (r : Registry) (a : ArrayData) (p : ℕ) : String := (a.elements.map r.textOrEmpty).getD p ""

def valueKey (a : ArrayData) (p : ℕ) : Int := a.elements.getD p 0

/-- The elements of the clone that `array_sort` permutes. -/
def clonedElements (r : Registry) (id : Int) : List Int :=
  (arrayClone 0 r id).1.arrayToVec (arrayClone 0 r id).2

/-- The result holds the clone's elements in stable key order, and they read as the source's did. -/
def SortedBy {α : Type} [LinearOrder α] (key : ℕ → α) (reading : Registry → Int → α) (r : Registry) (id : Int)
    (a : ArrayData) (mode : Int) : Prop :=
  ∃ (b : ArrayData) (order : List ℕ), (r.arraySort id mode).1.array? (r.arraySort id mode).2 = some b ∧
    order.Perm (List.range a.elements.length) ∧ order.Pairwise (Before key) ∧
    b.elements = order.map ((r.clonedElements id).getD · 0) ∧
    b.elements.map (reading (r.arraySort id mode).1) = order.map key

/-- The result is a fresh array, everything that was there is as before, and the elements are sorted: as
texts in mode 2, as values otherwise. -/
def Sorts (r : Registry) (id : Int) (a : ArrayData) (mode : Int) : Prop :=
  r.lookup (r.arraySort id mode).2 = none ∧ (r.arraySort id mode).2 ≠ null ∧
    r.Extends (r.arraySort id mode).1 ∧
    if mode = 2 then SortedBy (textKey r a) textOrEmpty r id a mode
    else SortedBy (valueKey a) (fun _ e => e) r id a mode

/-- Texts of a string array: every inversion lies inside one strictly descending run. Texts of an array of
plain values: they are ordered as the values are. Values: not those of a string array. -/
def SortFaithful (r : Registry) (a : ArrayData) (mode : Int) : Prop :=
  if mode = 2 then
    if a.stringElements then
      ∀ i j, i < j → j < a.elements.length → textKey r a j < textKey r a i → Descends (textKey r a) i j
    else
      ∀ i j, i < j → j < a.elements.length → (valueKey a j < valueKey a i ↔ textKey r a j < textKey r a i)
  else a.stringElements = true → a.elements = []

/-! ### The result -/

section Result
variable {c : List Int} {mode : Int}

theorem Cloned.fresh (h : Cloned r a s c) : s.lookup (drawn s.issued) = none := h.balanced.fresh h.bound

/-- The loop over the clone, with the texts it compares. -/
def sortLoop (s : Registry) (a : ArrayData) (c : List Int) (mode : Int) : List Int → List Int :=
  insertionSort (sortOut mode (if a.stringElements then some (c.map s.textOrEmpty) else none))

theorem textOrEmpty_insert_array {b : ArrayData} (hfresh : s.lookup (drawn s.issued) = none) :
    (s.insert (.array b)).1.textOrEmpty = s.textOrEmpty := by
  funext e
  rw [textOrEmpty, textOrEmpty, lookup_insert]
  by_cases he : e = drawn s.issued
  · rw [if_pos he, he, hfresh]
  · rw [if_neg he]

theorem textOrEmpty_setElements {b : ArrayData} {f : List Int → List Int}
    (hb : s.lookup id = some (.array b)) : (s.setElements id f).textOrEmpty = s.textOrEmpty := by
  funext e
  rw [textOrEmpty, textOrEmpty, lookup_setElements hb]
  by_cases he : e = id
  · rw [if_pos he, he, hb]
  · rw [if_neg he]

theorem Cloned.arraySort (h : Cloned r a s c)
    (hclone : arrayClone 0 r id = s.insert (.array { a with elements := c })) :
    r.arraySort id mode = ((s.insert (.array { a with elements := c })).1.setElements (drawn s.issued)
      (sortLoop s a c mode), drawn s.issued) := by
  have hid : (s.insert (.array { a with elements := c })).2 = drawn s.issued := rfl
  have hl : (s.insert (.array { a with elements := c })).1.lookup (drawn s.issued) =
      some (.array { a with elements := c }) := by rw [lookup_insert, if_pos rfl]
  rw [Registry.arraySort, hclone]
  simp only [hid, if_neg (drawn_ne_null h.bound), hl, textOrEmpty_insert_array h.fresh]
  rfl

theorem Cloned.result (h : Cloned r a s c) (mode : Int)
    (hclone : arrayClone 0 r id = s.insert (.array { a with elements := c })) :
    (r.arraySort id mode).1.array? (r.arraySort id mode).2 =
        some { a with elements := sortLoop s a c mode c } ∧
      (r.arraySort id mode).1.textOrEmpty = s.textOrEmpty ∧ r.clonedElements id = c ∧
      r.lookup (r.arraySort id mode).2 = none ∧ (r.arraySort id mode).2 ≠ null ∧
      r.Extends (r.arraySort id mode).1 := by
  have hl : (s.insert (.array { a with elements := c })).1.lookup (drawn s.issued) =
      some (.array { a with elements := c }) := by rw [lookup_insert, if_pos rfl]
  have hnull := drawn_ne_null h.bound
  have hnew : r.lookup (drawn s.issued) = none := by
    cases hr : r.lookup (drawn s.issued) with
    | none => rfl
    | some hd =>
      have hbad := h.kept _ _ hr
      rw [h.fresh] at hbad
      cases hbad
  rw [h.arraySort hclone]
  refine ⟨?_, ?_, ?_, hnew, hnull, fun k hd hk => ?_⟩
  · refine array?_eq_some.mpr ⟨hnull, ?_⟩
    rw [lookup_setElements hl, if_pos rfl]
  · dsimp only
    rw [textOrEmpty_setElements hl, textOrEmpty_insert_array h.fresh]
  · have harray : (s.insert (.array { a with elements := c })).1.array? (drawn s.issued) =
        some { a with elements := c } := array?_eq_some.mpr ⟨hnull, hl⟩
    have hid : (s.insert (.array { a with elements := c })).2 = drawn s.issued := rfl
    rw [clonedElements, hclone, hid, arrayToVec, harray]
    rfl
  · have hne : k ≠ drawn s.issued := by
      rintro rfl
      rw [hnew] at hk
      cases hk
    dsimp only
    rw [lookup_setElements hl, if_neg hne, lookup_insert, if_neg hne]
    exact h.kept k hd hk

/-- The comparison of values, and that of texts by position. -/
theorem sortLoop_values (hmode : mode = 0 ∨ mode = 2 ∧ a.stringElements = false) :
    sortLoop s a c mode = insertionSort (fun _ x y => y < x) := by
  rw [sortLoop]
  refine congrArg insertionSort (funext fun j => funext fun x => funext fun y => ?_)
  rcases hmode with rfl | ⟨rfl, hs⟩
  · rfl
  · rw [hs]
    rfl

theorem sortLoop_texts (hs : a.stringElements = true) (htexts : c.map s.textOrEmpty = a.elements.map r.textOrEmpty) :
    sortLoop s a c 2 = insertionSort (fun j _ _ => textKey r a j < textKey r a (j - 1)) := by
  rw [sortLoop, hs, htexts]
  rfl

theorem Cloned.length (h : Cloned r a s c) : c.length = a.elements.length := by
  have := congrArg List.length h.texts
  rwa [List.length_map, List.length_map] at this

theorem Cloned.map_textKey (h : Cloned r a s c) {order : List ℕ}
    (hperm : order.Perm (List.range a.elements.length)) :
    (order.map (c.getD · 0)).map s.textOrEmpty = order.map (textKey r a) := by
  rw [List.map_map]
  apply List.map_congr_left
  intro p hp
  have hlt : p < a.elements.length := List.mem_range.mp (hperm.mem_iff.mp hp)
  have hin : p < c.length := by rw [h.length]; exact hlt
  change s.textOrEmpty (c.getD p 0) = textKey r a p
  rw [textKey, ← h.texts, List.getD_eq_getElem?_getD, List.getD_eq_getElem?_getD, List.getElem?_map,
    List.getElem?_eq_getElem hin]
  rfl

end Result

/-- Elements sorted as values are sorted as texts exactly when both orders agree on all pairs. -/
theorem values_sort_texts_iff {e : ℕ → Int} {t : ℕ → String} {n : ℕ} {order : List ℕ}
    (ht : ∀ p < n, ∀ q < n, e p = e q → t p = t q) (hperm : order.Perm (List.range n))
    (hsorted : order.Pairwise (Before e)) :
    (∃ other : List ℕ, other.Perm (List.range n) ∧ other.Pairwise (Before t) ∧ order.map e = other.map e) ↔
      ∀ i j, i < j → j < n → (e j < e i ↔ t j < t i) := by
  have hmem : ∀ {l : List ℕ}, l.Perm (List.range n) → ∀ p, p ∈ l ↔ p < n :=
    fun hl p => by rw [hl.mem_iff, List.mem_range]
  constructor
  · rintro ⟨other, hother, htexts, hsame⟩ i j hij hj
    have hvalues : other.Pairwise (fun p q => e p ≤ e q) := by
      have hmapped : (order.map e).Pairwise (· ≤ ·) := by
        rw [List.pairwise_map]
        exact hsorted.imp fun {p q} hpq => hpq.elim (fun h => h.le) (fun h => h.1.le)
      rw [hsame, List.pairwise_map] at hmapped
      exact hmapped
    have hboth := either_order (htexts.and hvalues) ((hmem hother i).mpr (by omega))
      ((hmem hother j).mpr hj) (by omega)
    constructor
    · intro hless
      rcases hboth with ⟨-, hle⟩ | ⟨hbefore, -⟩
      · exact absurd hless (not_lt.mpr hle)
      · rcases hbefore with h | h
        · exact h
        · omega
    · intro hless
      rcases hboth with ⟨hbefore, -⟩ | ⟨-, hle⟩
      · rcases hbefore with h | h
        · exact absurd h hless.asymm
        · exact absurd h.1 hless.ne'
      · rcases lt_or_eq_of_le hle with h | h
        · exact h
        · exact absurd (ht j hj i (by omega) h) hless.ne
  · intro hagree
    refine ⟨order, hperm, hsorted.imp_of_mem fun {p q} hp hq hpq => ?_, rfl⟩
    have hp' := (hmem hperm p).mp hp
    have hq' := (hmem hperm q).mp hq
    rcases hpq with hless | ⟨hsame, hpq⟩
    · rcases Nat.lt_trichotomy p q with h | h | h
      · have hnot : ¬ t q < t p := fun hbad => ((hagree p q h hq').mpr hbad).asymm hless
        rcases lt_or_eq_of_le (not_lt.mp hnot) with hlt | heq
        · exact .inl hlt
        · exact .inr ⟨heq, h⟩
      · exact absurd hless (h ▸ lt_irrefl _)
      · exact .inl ((hagree q p h hp').mp hless)
    · exact .inr ⟨ht p hp' q hq' hsame, hpq⟩

section Modes
variable {c : List Int} {mode : Int}

/-- The result read back from the loop. -/
theorem Cloned.sortedBy_iff {α : Type} [LinearOrder α] {key : ℕ → α} {reading : Registry → Int → α}
    (h : Cloned r a s c) (hclone : arrayClone 0 r id = s.insert (.array { a with elements := c })) :
    SortedBy key reading r id a mode ↔ ∃ order : List ℕ, order.Perm (List.range a.elements.length) ∧
      order.Pairwise (Before key) ∧ sortLoop s a c mode c = order.map (c.getD · 0) ∧
      (order.map (c.getD · 0)).map (reading (r.arraySort id mode).1) = order.map key := by
  obtain ⟨harray, -, hcloned, -⟩ := h.result mode hclone
  constructor
  · rintro ⟨b, order, hb, hperm, hsorted, helements, hread⟩
    rw [harray] at hb
    obtain rfl := Option.some.inj hb
    rw [hcloned] at helements
    dsimp only at helements
    rw [helements] at hread
    exact ⟨order, hperm, hsorted, helements, hread⟩
  · rintro ⟨order, hperm, hsorted, helements, hread⟩
    refine ⟨_, order, harray, hperm, hsorted, ?_, ?_⟩
    · rw [hcloned]
      exact helements
    · dsimp only
      rw [helements]
      exact hread

/-- Mode 0 sorts values. -/
theorem raw_sorts_values (h : Cloned r a s c) (hs : a.stringElements = false)
    (hclone : arrayClone 0 r id = s.insert (.array { a with elements := c })) :
    SortedBy (valueKey a) (fun _ e => e) r id a 0 := by
  obtain ⟨rfl, rfl⟩ := h.raw hs
  obtain ⟨order, hperm, hsorted, hresult⟩ := insertionSort_stable a.elements
  refine (h.sortedBy_iff hclone).mpr ⟨order, hperm, hsorted, ?_, ?_⟩
  · rw [sortLoop_values (.inl rfl), hresult]
  · exact List.map_id _

/-- Mode 2 on plain values compares the values. -/
theorem raw_sorts_texts_iff (h : Cloned r a s c) (hs : a.stringElements = false)
    (hclone : arrayClone 0 r id = s.insert (.array { a with elements := c })) :
    SortedBy (textKey r a) textOrEmpty r id a 2 ↔ ∀ i j, i < j → j < a.elements.length →
      (valueKey a j < valueKey a i ↔ textKey r a j < textKey r a i) := by
  obtain ⟨-, htext, -⟩ := h.result 2 hclone
  obtain ⟨rfl, rfl⟩ := h.raw hs
  obtain ⟨order, hperm, hsorted, hresult⟩ := insertionSort_stable a.elements
  have hkey : ∀ p < a.elements.length, textKey s a p = s.textOrEmpty (valueKey a p) := by
    intro p hp
    rw [textKey, valueKey, List.getD_eq_getElem?_getD, List.getD_eq_getElem?_getD, List.getElem?_map,
      List.getElem?_eq_getElem hp]
    rfl
  have hsame : ∀ p < a.elements.length, ∀ q < a.elements.length, valueKey a p = valueKey a q →
      textKey s a p = textKey s a q := fun p hp q hq heq => by rw [hkey p hp, hkey q hq, heq]
  rw [h.sortedBy_iff hclone, ← values_sort_texts_iff hsame hperm hsorted,
    sortLoop_values (.inr ⟨rfl, hs⟩), hresult, htext]
  exact ⟨fun ⟨other, hother, htexts, hvalues, _⟩ => ⟨other, hother, htexts, hvalues⟩,
    fun ⟨other, hother, htexts, hvalues⟩ => ⟨other, hother, htexts, hvalues, h.map_textKey hother⟩⟩

/-- A copied element is an id that was not there before. -/
theorem Cloned.copy (h : Cloned r a s c) (hs : a.stringElements = true) {p : ℕ}
    (hp : p < a.elements.length) : c.getD p 0 = drawn (r.issued + p) := by
  rw [h.copies hs, List.getD_eq_getElem?_getD, List.getElem?_map, List.getElem?_range hp, Option.map_some,
    Option.getD_some]

/-- Mode 0 on strings orders the copies' ids, which are not the source's elements. -/
theorem strings_sort_values_iff (h : Cloned r a s c) (hs : a.stringElements = true) (hb : r.Balanced)
    (hi : r.issued + a.elements.length + 1 < 2 ^ 64) (hlive : ∀ e ∈ a.elements, (r.text? e).isSome)
    (hclone : arrayClone 0 r id = s.insert (.array { a with elements := c })) :
    SortedBy (valueKey a) (fun _ e => e) r id a 0 ↔ a.elements = [] := by
  rw [h.sortedBy_iff hclone]
  constructor
  · rintro ⟨order, hperm, -, -, hread⟩
    by_contra hne
    have hpos : 0 < a.elements.length := List.length_pos_iff.mpr hne
    have hzero : 0 ∈ order := hperm.mem_iff.mpr (List.mem_range.mpr hpos)
    have hsame : c.getD 0 0 = valueKey a 0 := by
      rw [List.map_map] at hread
      exact List.map_inj_left.mp hread 0 hzero
    rw [h.copy hs hpos, Nat.add_zero] at hsame
    have hfirst : valueKey a 0 ∈ a.elements := by
      rw [valueKey, List.getD_eq_getElem?_getD, List.getElem?_eq_getElem hpos]
      exact List.getElem_mem hpos
    obtain ⟨text, htext⟩ := Option.isSome_iff_exists.mp (hlive _ hfirst)
    have hl := text?_eq_some.mp htext
    rw [← hsame, hb.fresh (by omega)] at hl
    cases hl
  · intro hnil
    have hc : c = [] := List.length_eq_zero_iff.mp (by rw [h.length, hnil]; rfl)
    rw [hnil, hc, sortLoop_values (.inl rfl)]
    exact ⟨[], .refl _, List.Pairwise.nil, rfl, rfl⟩

/-- Mode 2 on strings reverses the descending runs. -/
theorem strings_sort_texts_iff (h : Cloned r a s c) (hs : a.stringElements = true)
    (hi : r.issued + a.elements.length + 1 < 2 ^ 64)
    (hclone : arrayClone 0 r id = s.insert (.array { a with elements := c })) :
    SortedBy (textKey r a) textOrEmpty r id a 2 ↔ ∀ i j, i < j → j < a.elements.length →
      textKey r a j < textKey r a i → Descends (textKey r a) i j := by
  obtain ⟨-, htext, -⟩ := h.result 2 hclone
  obtain ⟨order, hperm, hruns, hresult⟩ := insertionSort_runs (textKey r a) c
  rw [h.length] at hperm
  rw [h.sortedBy_iff hclone, ← runsReversed_sorted_iff hperm hruns, sortLoop_texts hs h.texts, hresult, htext]
  constructor
  · rintro ⟨other, hother, hsorted, hvalues, -⟩
    have hinjective : ∀ p ∈ order, ∀ q ∈ other, c.getD p 0 = c.getD q 0 → p = q := by
      intro p hp q hq heq
      have hp' := List.mem_range.mp (hperm.mem_iff.mp hp)
      have hq' := List.mem_range.mp (hother.mem_iff.mp hq)
      rw [h.copy hs hp', h.copy hs hq'] at heq
      have := drawn_injective (by omega) (by omega) heq
      omega
    have hsame : order = other := by
      apply List.ext_getElem
      · rw [hperm.length_eq, hother.length_eq]
      · intro k hk hk'
        refine hinjective _ (List.getElem_mem hk) _ (List.getElem_mem hk') ?_
        have hat := congrArg (fun l : List Int => l[k]?) hvalues
        rw [List.getElem?_map, List.getElem?_map, List.getElem?_eq_getElem hk,
          List.getElem?_eq_getElem hk'] at hat
        exact Option.some.inj hat
    rw [hsame]
    exact hsorted
  · exact fun hsorted => ⟨order, hperm, hsorted, rfl, h.map_textKey hperm⟩

end Modes

/-- For every live array: exactly when `array_sort` sorts, in modes 0 and 2. -/
theorem arraySort_sorts_iff {mode : Int} (hb : r.Balanced) (ha : r.array? id = some a)
    (hi : r.issued + a.elements.length + 1 < 2 ^ 64)
    (hlive : a.stringElements = true → ∀ e ∈ a.elements, (r.text? e).isSome) (hmode : mode = 0 ∨ mode = 2) :
    Sorts r id a mode ↔ SortFaithful r a mode := by
  obtain ⟨s, c, hc, hclone⟩ := arrayClone_cloned hb ha hi hlive
  obtain ⟨-, -, -, hfresh, hnull, hkept⟩ := hc.result mode hclone
  have hsorts : Sorts r id a mode ↔
      if mode = 2 then SortedBy (textKey r a) textOrEmpty r id a mode
      else SortedBy (valueKey a) (fun _ e => e) r id a mode :=
    ⟨fun h => h.2.2.2, fun h => ⟨hfresh, hnull, hkept, h⟩⟩
  rw [hsorts, SortFaithful]
  rcases hmode with rfl | rfl
  · rw [if_neg (by decide), if_neg (by decide)]
    cases hs : a.stringElements with
    | false => exact ⟨fun _ hbad => absurd hbad Bool.false_ne_true, fun _ => raw_sorts_values hc hs hclone⟩
    | true =>
      rw [strings_sort_values_iff hc hs hb hi (hlive hs) hclone]
      exact ⟨fun h _ => h, fun h => h rfl⟩
  · rw [if_pos rfl, if_pos rfl]
    cases hs : a.stringElements with
    | false =>
      rw [if_neg Bool.false_ne_true]
      exact raw_sorts_texts_iff hc hs hclone
    | true =>
      rw [if_pos rfl]
      exact strings_sort_texts_iff hc hs hi hclone

/-- The values 3, 1, 2 in an array of plain values. -/
def plainValues : Registry := (Registry.empty.insert (.array ⟨8, false, [3, 1, 2]⟩)).1

theorem arraySort_sorts_values : Sorts plainValues 1 ⟨8, false, [3, 1, 2]⟩ 0 := by
  have harray : plainValues.array? 1 = some ⟨8, false, [3, 1, 2]⟩ := by decide +kernel
  have hfaithful : SortFaithful plainValues ⟨8, false, [3, 1, 2]⟩ 0 := by
    rw [SortFaithful, if_neg (by decide)]
    exact fun hbad => absurd hbad Bool.false_ne_true
  exact (arraySort_sorts_iff (balanced_empty.insert (by decide) _) harray (by decide)
    (fun hbad => absurd hbad Bool.false_ne_true) (.inl rfl)).mpr hfaithful

/-- The texts "b", "c", "a" in a string array. -/
def threeTexts : Registry :=
  ((((Registry.empty.insert (.string "b")).1.insert (.string "c")).1.insert (.string "a")).1.insert
    (.array ⟨8, true, [1, 2, 3]⟩)).1

/-- The smallest text stops at the place its neighbour's text was read from. -/
theorem arraySort_leaves_texts_unsorted :
    ¬ ∀ (r : Registry) (id : Int) (a : ArrayData) (mode : Int), r.Balanced → r.array? id = some a →
      r.issued + a.elements.length + 1 < 2 ^ 64 →
      (a.stringElements = true → ∀ e ∈ a.elements, (r.text? e).isSome) → (mode = 0 ∨ mode = 2) →
        Sorts r id a mode := by
  intro h
  have hbalanced : threeTexts.Balanced :=
    (((balanced_empty.insert (by decide) _).insert (by decide) _).insert (by decide) _).insert (by decide) _
  have hresult : (threeTexts.arraySort 4 2).1.array? (threeTexts.arraySort 4 2).2 =
      some ⟨8, true, [5, 7, 6]⟩ := by decide +kernel
  have hread : [5, 7, 6].map (threeTexts.arraySort 4 2).1.textOrEmpty = ["b", "a", "c"] := by
    decide +kernel
  obtain ⟨-, -, -, hsorts⟩ := h threeTexts 4 ⟨8, true, [1, 2, 3]⟩ 2 hbalanced (by decide +kernel)
    (by decide +kernel) (by decide +kernel) (.inr rfl)
  rw [if_pos rfl] at hsorts
  obtain ⟨b, order, hb, -, hsorted, -, htexts⟩ := hsorts
  rw [hresult] at hb
  obtain rfl := Option.some.inj hb
  rw [hread] at htexts
  obtain ⟨p, rest, rfl, hp, hrest⟩ := List.map_eq_cons_iff.mp htexts.symm
  obtain ⟨q, rest, rfl, hq, -⟩ := List.map_eq_cons_iff.mp hrest
  have hle : textKey threeTexts ⟨8, true, [1, 2, 3]⟩ p ≤ textKey threeTexts ⟨8, true, [1, 2, 3]⟩ q :=
    ((List.pairwise_cons.mp hsorted).1 q (List.mem_cons_self ..)).elim (fun h => h.le) (fun h => h.1.le)
  rw [hp, hq] at hle
  revert hle
  decide

end Neutron.Registry
