import Neutron.SliceFailures

/-!
# Copying between overlapping windows

`slice_copy_from` walks both windows forward. Where the destination starts a little after the source in
the same array, the loop reads elements it has already written, so that slot `k` receives the source
element at `k` modulo the distance. This module says exactly when the destination window ends up with
what the source window held, for plain values and for texts.
-/

namespace Neutron.Registry

attribute [local irreducible] drawn

variable {r s : Registry} {dst src dstArray srcArray : Int} {dstStart srcStart len m : ℕ} {a c : ArrayData}

/-- How far the destination starts after the source in the same array, or zero. -/
def copyShift (dstArray : Int) (dstStart : ℕ) (srcArray : Int) (srcStart : ℕ) : ℕ :=
  if srcArray = dstArray then dstStart - srcStart else 0

/-- After `m` steps slot `k` of the destination holds the source element at `k` modulo the distance. -/
def Landed (a c : ArrayData) (dstStart srcStart shift m : ℕ) (l : List Int) : Prop :=
  ∀ i, l[i]? = if dstStart ≤ i ∧ i < dstStart + m then c.elements[srcStart + (i - dstStart) % shift]?
    else a.elements[i]?

theorem copyShift_read (hc : srcArray = dstArray → c = a) {l : List Int}
    (hl : srcArray = dstArray →
      Landed a c dstStart srcStart (copyShift dstArray dstStart srcArray srcStart) m l) :
    (if srcArray = dstArray then l else c.elements)[srcStart + m]? =
      c.elements[srcStart + m % copyShift dstArray dstStart srcArray srcStart]? := by
  by_cases hsame : srcArray = dstArray
  · have hread := hl hsame (srcStart + m)
    have hshift : copyShift dstArray dstStart srcArray srcStart = dstStart - srcStart := if_pos hsame
    rw [if_pos hsame, hread, hshift]
    by_cases hover : dstStart ≤ srcStart + m ∧ srcStart + m < dstStart + m
    · rw [if_pos hover]
      have hback : srcStart + m - dstStart = m - (dstStart - srcStart) := by omega
      rw [hback, ← Nat.mod_eq_sub_mod (by omega)]
    · rw [if_neg hover, hc hsame]
      by_cases hfar : srcStart < dstStart
      · rw [Nat.mod_eq_of_lt (by omega)]
      · rw [Nat.sub_eq_zero_of_le (by omega), Nat.mod_zero]
  · rw [if_neg hsame, copyShift, if_neg hsame, Nat.mod_zero]

theorem Rewritten.copy_reads {l : List Int} (h : Rewritten r dstArray a s l) (ha : r.array? dstArray = some a)
    (hc : r.array? srcArray = some c)
    (hl : Landed a c dstStart srcStart (copyShift dstArray dstStart srcArray srcStart) m l) :
    s.arrayGet srcArray (srcStart + m : ℕ) =
      c.elements[srcStart + m % copyShift dstArray dstStart srcArray srcStart]? := by
  have hca : srcArray = dstArray → c = a := fun hsame => by
    rw [hsame, ha] at hc
    exact (Option.some.inj hc).symm
  rw [← copyShift_read hca (fun _ => hl), arrayGet_nat]
  by_cases hsame : srcArray = dstArray
  · rw [if_pos hsame, hsame, h.target]
    rfl
  · rw [if_neg hsame, h.others srcArray hsame, hc]
    rfl

/-- The loop over plain values, when both windows are inside their arrays. -/
theorem Rewritten.copies (ha : r.array? dstArray = some a) (hs : a.stringElements = false)
    (hc : r.array? srcArray = some c) (hdst : dstStart + len ≤ a.elements.length)
    (hsrc : srcStart + len ≤ c.elements.length) (count : ℕ) (hcount : m + count = len) {l : List Int}
    (h : Rewritten r dstArray a s l)
    (hl : Landed a c dstStart srcStart (copyShift dstArray dstStart srcArray srcStart) m l) :
    (writeSlots dstArray (fun r i => r.arrayGet srcArray i) (slotPairs srcStart dstStart m count) s).2 =
        true ∧
      ∃ l', Rewritten r dstArray a (writeSlots dstArray (fun r i => r.arrayGet srcArray i)
          (slotPairs srcStart dstStart m count) s).1 l' ∧
        Landed a c dstStart srcStart (copyShift dstArray dstStart srcArray srcStart) len l' := by
  induction count generalizing m s l with
  | zero =>
    obtain rfl : m = len := by omega
    exact ⟨rfl, l, h, hl⟩
  | succ count ih =>
    have hread := h.copy_reads ha hc hl
    have hmod := Nat.mod_le m (copyShift dstArray dstStart srcArray srcStart)
    have hin : srcStart + m % copyShift dstArray dstStart srcArray srcStart < c.elements.length := by omega
    rw [List.getElem?_eq_getElem hin] at hread
    rw [slotPairs_succ, writeSlots, hread]
    simp only [h.arraySet hs, if_pos (show dstStart + m < a.elements.length by omega), if_true]
    refine ih (by omega) (h.set _ _) (fun i => ?_)
    by_cases hi : dstStart + m = i
    · subst hi
      rw [List.getElem?_set_self (by rw [h.length]; omega), if_pos (by omega), Nat.add_sub_cancel_left,
        List.getElem?_eq_getElem hin]
    · rw [List.getElem?_set_ne hi, hl i]
      by_cases hbefore : dstStart ≤ i ∧ i < dstStart + m
      · rw [if_pos hbefore, if_pos (by omega)]
      · rw [if_neg hbefore, if_neg (by omega)]

/-! ### Texts -/

/-- The next ids name nothing yet, are distinct, and are in no slot the copy looks at; so it is until the
64-bit counter wraps. -/
structure Unissued (r : Registry) (len : ℕ) (source : List Int) : Prop where
  absent : ∀ k < len, r.lookup (drawn (r.issued + k)) = none
  notNull : ∀ k < len, drawn (r.issued + k) ≠ null
  apart : ∀ j < len, ∀ k < len, drawn (r.issued + j) = drawn (r.issued + k) → j = k
  source : ∀ k < len, drawn (r.issued + k) ∉ source
  unheld : ∀ k < len, ∀ x b, r.array? x = some b → b.stringElements = true →
    drawn (r.issued + k) ∉ b.elements
  nullText : r.text? null = none

/-- In a balanced registry the next ids are new until the counter wraps. -/
theorem Balanced.unissued (hb : r.Balanced) {source : List Int} (hi : r.issued + len < 2 ^ 64)
    (hsource : ∀ e ∈ source, ∃ n < r.issued, e = drawn n)
    (hheld : ∀ x b, r.array? x = some b → b.stringElements = true → ∀ e ∈ b.elements, ∃ n < r.issued, e = drawn n) :
    r.Unissued len source := by
  have hnew : ∀ k < len, ∀ n < r.issued, drawn (r.issued + k) ≠ drawn n := fun k hk n hn heq => by
    have := drawn_injective (by omega) (by omega) heq
    omega
  have hnot : ∀ k < len, ∀ l : List Int, (∀ e ∈ l, ∃ n < r.issued, e = drawn n) → drawn (r.issued + k) ∉ l := by
    intro k hk l hl hmem
    obtain ⟨n, hn, heq⟩ := hl _ hmem
    exact hnew k hk n hn heq
  refine ⟨fun k hk => ?_, fun k hk => drawn_ne_null (by omega), fun j hj k hk heq => ?_,
    fun k hk => hnot k hk source hsource, fun k hk x b hx hs => hnot k hk b.elements (hheld x b hx hs), ?_⟩
  · by_contra hne
    obtain ⟨n, hn, heq⟩ := hb.issued _ hne
    exact hnew k hk n hn heq
  · have := drawn_injective (by omega) (by omega) heq
    omega
  · rw [text?, hb.lookup_null (by omega)]

section Texts
variable {old : ℕ → Int} {read : ℕ → Option Int} {source : List Int}

/-- A copy made by the loop stays: no later step removes it. -/
theorem Unissued.textAt_drawn (h : r.Unissued len source)
    (hold : ∀ i < len, ∀ j < len, old i ≠ drawn (r.issued + j)) {j : ℕ} (hj : j < m) (hm : m ≤ len) :
    textAt r old read m (drawn (r.issued + j)) = (read j).bind (textAt r old read j) := by
  induction m with
  | zero => exact absurd hj (Nat.not_lt_zero j)
  | succ m ih =>
    rw [textAt, if_neg (fun hbad => hold m (by omega) j (by omega) hbad.1.symm)]
    by_cases hlast : j = m
    · rw [if_pos (by rw [hlast]), hlast]
    · have hne : drawn (r.issued + j) ≠ drawn (r.issued + m) :=
        fun heq => hlast (h.apart j (by omega) m (by omega) heq)
      rw [if_neg hne]
      exact ih (by omega) (by omega)

/-- Any other string stays until its slot is written. -/
theorem Unissued.textAt_held (h : r.Unissued len source) {e : Int} (hm : m ≤ len)
    (he : ∀ j < len, e ≠ drawn (r.issued + j)) :
    textAt r old read m e = if ∃ j < m, e = old j then none else r.text? e := by
  induction m with
  | zero =>
    rw [if_neg (fun ⟨j, hj, _⟩ => Nat.not_lt_zero j hj)]
    rfl
  | succ m ih =>
    rw [textAt]
    have ih' := ih (by omega)
    by_cases hlast : e = old m
    · have hgone : ∃ j < m + 1, e = old j := ⟨m, by omega, hlast⟩
      rw [if_pos hgone]
      by_cases hnull : e = null
      · rw [if_neg (fun hbad => hbad.2 hnull), if_neg (he m (by omega)), ih', hnull, h.nullText]
        exact ite_self _
      · rw [if_pos ⟨hlast, hnull⟩]
    · rw [if_neg (fun hbad => hlast hbad.1), if_neg (he m (by omega)), ih']
      have hiff : (∃ j < m, e = old j) ↔ ∃ j < m + 1, e = old j := by
        constructor
        · rintro ⟨j, hj, heq⟩
          exact ⟨j, by omega, heq⟩
        · rintro ⟨j, hj, heq⟩
          have hjm : j ≠ m := fun hbad => hlast (hbad ▸ heq)
          exact ⟨j, by omega, heq⟩
      simp only [hiff]

end Texts

/-- The elements of the source window. -/
def windowOf (c : ArrayData) (srcStart len : ℕ) : List Int := (c.elements.drop srcStart).take len

theorem mem_windowOf {e : Int} {k : ℕ} (hk : k < len) (he : c.elements[srcStart + k]? = some e) :
    e ∈ windowOf c srcStart len := by
  rw [List.mem_iff_getElem?]
  exact ⟨k, by rw [windowOf, List.getElem?_take_of_lt hk, List.getElem?_drop, he]⟩

/-- Step `k` reads a copy the loop has made, or a live string that no step before it removed. -/
def Finds (r : Registry) (dstArray : Int) (a : ArrayData) (dstStart : ℕ) (srcArray : Int) (c : ArrayData)
    (srcStart k : ℕ) : Prop :=
  (srcArray = dstArray ∧ dstStart ≤ srcStart + k ∧ srcStart < dstStart) ∨
    ∃ e, c.elements[srcStart + k]? = some e ∧ (r.text? e).isSome ∧ ∀ j < k, e ≠ oldAt a dstStart j

section TextCopy
variable (ha : r.array? dstArray = some a) (hs : a.stringElements = true) (hc : r.array? srcArray = some c)
  (hdst : dstStart + len ≤ a.elements.length) (hsrc : srcStart + len ≤ c.elements.length)
  (hids : r.Unissued len (windowOf c srcStart len))
include ha hs hdst hids

theorem oldAt_ne_drawn {i j : ℕ} (hi : i < len) (hj : j < len) :
    oldAt a dstStart i ≠ drawn (r.issued + j) := by
  intro heq
  have hin : dstStart + i < a.elements.length := by omega
  refine hids.unheld j hj dstArray a ha hs ?_
  rw [← heq, oldAt, List.getD_eq_getElem?_getD, List.getElem?_eq_getElem hin]
  exact List.getElem_mem hin

include hc

/-- What step `k` reads, and the text it finds. -/
theorem copyRead_text {k : ℕ} (hk : k < len)
    (hpassed : ∀ j < k, Passes r dstArray a dstStart (copyRead r dstArray dstStart srcArray srcStart) j) :
    (Passes r dstArray a dstStart (copyRead r dstArray dstStart srcArray srcStart) k ↔
      Finds r dstArray a dstStart srcArray c srcStart k) ∧
    ((srcArray = dstArray ∧ dstStart ≤ srcStart + k ∧ srcStart < dstStart) ∧
        copyRead r dstArray dstStart srcArray srcStart k =
          some (drawn (r.issued + (srcStart + k - dstStart))) ∨
      ¬ (srcArray = dstArray ∧ dstStart ≤ srcStart + k ∧ srcStart < dstStart) ∧
        copyRead r dstArray dstStart srcArray srcStart k = c.elements[srcStart + k]?) := by
  have hfresh : ∀ x d, r.array? x = some d → ∀ j < len, x ≠ drawn (r.issued + j) := by
    intro x d hx j hj heq
    have habsent := hids.absent j hj
    rw [← heq, lookup_of_array? hx] at habsent
    cases habsent
  have hslot : dstArray ≠ drawn (r.issued + k) ∧ dstStart + k < a.elements.length :=
    ⟨hfresh dstArray a ha k hk, by omega⟩
  by_cases hover : srcArray = dstArray ∧ dstStart ≤ srcStart + k ∧ srcStart < dstStart
  · have hread : copyRead r dstArray dstStart srcArray srcStart k =
        some (drawn (r.issued + (srcStart + k - dstStart))) := if_pos hover
    refine ⟨⟨fun _ => .inl hover, fun _ => ⟨⟨_, hread, ?_⟩, hslot⟩⟩, .inl ⟨hover, hread⟩⟩
    have hback : srcStart + k - dstStart < k := by omega
    rw [← isSome_textAt k hpassed,
      hids.textAt_drawn (fun i hi j hj => oldAt_ne_drawn ha hs hdst hids hi hj) hback (by omega)]
    obtain ⟨⟨e, he, hlive⟩, -⟩ := hpassed (srcStart + k - dstStart) hback
    rw [he, Option.bind_some]
    exact (isSome_textAt _ (fun j hj => hpassed j (by omega)) e).mpr hlive
  · have hread : copyRead r dstArray dstStart srcArray srcStart k = c.elements[srcStart + k]? := by
      have hnot : ¬ ∃ j < k, srcArray = drawn (r.issued + j) :=
        fun ⟨j, hj, heq⟩ => hfresh srcArray c hc j (by omega) heq
      rw [copyRead, if_neg hover, if_neg hnot, arrayGet_nat, hc]
      rfl
    refine ⟨?_, .inr ⟨hover, hread⟩⟩
    have hheld : ∀ e, c.elements[srcStart + k]? = some e → ∀ j < len, e ≠ drawn (r.issued + j) :=
      fun e he j hj heq => hids.source j hj (heq ▸ mem_windowOf hk he)
    have hlive : ∀ e, c.elements[srcStart + k]? = some e →
        (LiveAt r (oldAt a dstStart) k e ↔ (r.text? e).isSome ∧ ∀ j < k, e ≠ oldAt a dstStart j) := by
      intro e he
      rw [← isSome_textAt k hpassed, hids.textAt_held (by omega) (hheld e he)]
      by_cases hgone : ∃ j < k, e = oldAt a dstStart j
      · rw [if_pos hgone]
        obtain ⟨j, hj, heq⟩ := hgone
        exact ⟨fun hbad => absurd hbad Bool.false_ne_true, fun hall => absurd heq (hall.2 j hj)⟩
      · rw [if_neg hgone]
        exact ⟨fun h => ⟨h, fun j hj heq => hgone ⟨j, hj, heq⟩⟩, fun h => h.1⟩
    constructor
    · rintro ⟨⟨e, he, halive⟩, -⟩
      rw [hread] at he
      exact .inr ⟨e, he, (hlive e he).mp halive⟩
    · rintro (hbad | ⟨e, he, halive⟩)
      · exact absurd hbad hover
      · exact ⟨⟨e, hread.trans he, (hlive e he).mpr halive⟩, hslot⟩

theorem passes_iff_finds :
    (∀ k < len, Passes r dstArray a dstStart (copyRead r dstArray dstStart srcArray srcStart) k) ↔
      ∀ k < len, Finds r dstArray a dstStart srcArray c srcStart k := by
  constructor
  · intro h k hk
    exact (copyRead_text ha hs hc hdst hids hk (fun j hj => h j (by omega))).1.mp (h k hk)
  · intro h k hk
    induction k using Nat.strong_induction_on with
    | _ k ih =>
      exact (copyRead_text ha hs hc hdst hids hk (fun j hj => ih j hj (by omega))).1.mpr (h k hk)

include hsrc

/-- The copy made by step `k` has the text of the source element at `k` modulo the distance. -/
theorem landed_text {k : ℕ} (hk : k < len)
    (hpassed : ∀ j < len, Passes r dstArray a dstStart (copyRead r dstArray dstStart srcArray srcStart) j) :
    (copyRead r dstArray dstStart srcArray srcStart k).bind
        (textAt r (oldAt a dstStart) (copyRead r dstArray dstStart srcArray srcStart) k) =
      (c.elements[srcStart + k % copyShift dstArray dstStart srcArray srcStart]?).bind r.text? := by
  induction k using Nat.strong_induction_on with
  | _ k ih =>
    rcases (copyRead_text ha hs hc hdst hids hk (fun j hj => hpassed j (by omega))).2 with
      ⟨hover, hread⟩ | ⟨hover, hread⟩
    · have hshift : copyShift dstArray dstStart srcArray srcStart = dstStart - srcStart := if_pos hover.1
      have hback : srcStart + k - dstStart < k := by omega
      rw [hread, Option.bind_some,
        hids.textAt_drawn (fun i hi j hj => oldAt_ne_drawn ha hs hdst hids hi hj) hback (by omega),
        ih _ hback (by omega), hshift]
      have hsub : srcStart + k - dstStart = k - (dstStart - srcStart) := by omega
      rw [hsub, ← Nat.mod_eq_sub_mod (by omega)]
    · have hmod : k % copyShift dstArray dstStart srcArray srcStart = k := by
        rw [copyShift]
        by_cases hsame : srcArray = dstArray
        · rw [if_pos hsame]
          by_cases hfar : srcStart < dstStart
          · exact Nat.mod_eq_of_lt (by omega)
          · rw [Nat.sub_eq_zero_of_le (by omega), Nat.mod_zero]
        · rw [if_neg hsame, Nat.mod_zero]
      rw [hmod, hread]
      have hin : srcStart + k < c.elements.length := by omega
      have hfound := (copyRead_text ha hs hc hdst hids hk (fun j hj => hpassed j (by omega))).1.mp
        (hpassed k hk)
      obtain ⟨e, he, -, hkept⟩ := hfound.resolve_left hover
      rw [he, Option.bind_some, Option.bind_some, hids.textAt_held (by omega)
        (fun j hj heq => hids.source j hj (heq ▸ mem_windowOf hk he)),
        if_neg (fun ⟨j, hj, heq⟩ => hkept j hj heq)]

end TextCopy

/-! ### Exactly when the window is copied -/

/-- The destination window reads what the source window held, as values or as texts, and every other
element reads as before. -/
def WindowCopied (r s : Registry) (dstArray : Int) (dstStart : ℕ) (srcArray : Int) (srcStart len : ℕ)
    (a : ArrayData) : Prop :=
  (∀ k < len, if a.stringElements then
      (s.arrayGet dstArray (dstStart + k : ℕ)).bind s.text? =
        (r.arrayGet srcArray (srcStart + k : ℕ)).bind r.text?
    else s.arrayGet dstArray (dstStart + k : ℕ) = r.arrayGet srcArray (srcStart + k : ℕ)) ∧
  ∀ x b i, r.array? x = some b → ¬ (x = dstArray ∧ dstStart ≤ i ∧ i < dstStart + len) →
    s.arrayGet x (i : ℕ) = r.arrayGet x (i : ℕ) ∧
      (b.stringElements = true →
        (s.arrayGet x (i : ℕ)).bind s.text? = (r.arrayGet x (i : ℕ)).bind r.text?)

/-- The source window repeats itself at the distance of an overlap. For texts the copy may also stop at a
string it has removed itself, and no string it removes is in a slot outside the window. -/
def CopyFaithful (r : Registry) (dstArray : Int) (dstStart : ℕ) (srcArray : Int) (srcStart len : ℕ)
    (a c : ArrayData) : Prop :=
  if a.stringElements then
    (∀ k < len, Finds r dstArray a dstStart srcArray c srcStart k) →
      (∀ k < len,
        (c.elements[srcStart + k % copyShift dstArray dstStart srcArray srcStart]?).bind r.text? =
          (c.elements[srcStart + k]?).bind r.text?) ∧
      ∀ x b i e, r.array? x = some b → b.stringElements = true →
        ¬ (x = dstArray ∧ dstStart ≤ i ∧ i < dstStart + len) → b.elements[i]? = some e →
          (r.text? e).isSome → ∀ j < len, e ≠ oldAt a dstStart j
  else
    ∀ k < len, c.elements[srcStart + k % copyShift dstArray dstStart srcArray srcStart]? =
      c.elements[srcStart + k]?

theorem arrayGet_of_array? {x : Int} {b : ArrayData} (hb : r.array? x = some b) (i : ℕ) :
    r.arrayGet x (i : ℕ) = b.elements[i]? := by
  rw [arrayGet_nat, hb]
  rfl

section Exact
variable (ha : r.array? dstArray = some a) (hc : r.array? srcArray = some c)
  (hdst : dstStart + len ≤ a.elements.length) (hsrc : srcStart + len ≤ c.elements.length)
include ha hc

theorem rawCopied_iff (hs : a.stringElements = false) {l : List Int} (h : Rewritten r dstArray a s l)
    (hl : Landed a c dstStart srcStart (copyShift dstArray dstStart srcArray srcStart) len l) :
    WindowCopied r s dstArray dstStart srcArray srcStart len a ↔
      CopyFaithful r dstArray dstStart srcArray srcStart len a c := by
  have hread : ∀ k < len, s.arrayGet dstArray (dstStart + k : ℕ) =
      c.elements[srcStart + k % copyShift dstArray dstStart srcArray srcStart]? := by
    intro k hk
    rw [arrayGet_of_array? h.target, hl, if_pos (by omega), Nat.add_sub_cancel_left]
  have houtside : ∀ x b i, r.array? x = some b → ¬ (x = dstArray ∧ dstStart ≤ i ∧ i < dstStart + len) →
      s.arrayGet x (i : ℕ) = r.arrayGet x (i : ℕ) := by
    intro x b i hb hout
    by_cases hx : x = dstArray
    · subst hx
      rw [arrayGet_of_array? h.target, hl, if_neg (fun hin => hout ⟨rfl, hin⟩), arrayGet_of_array? ha]
    · rw [arrayGet_nat, arrayGet_nat, h.others x hx]
  have htexts : s.text? = r.text? := funext h.texts
  simp only [WindowCopied, CopyFaithful, hs, Bool.false_eq_true, if_false]
  constructor
  · rintro ⟨hwindow, -⟩ k hk
    rw [← hread k hk, hwindow k hk, arrayGet_of_array? hc]
  · intro hrepeats
    refine ⟨fun k hk => ?_, fun x b i hb hout => ?_⟩
    · rw [hread k hk, hrepeats k hk, arrayGet_of_array? hc]
    · rw [houtside x b i hb hout, htexts]
      exact ⟨rfl, fun _ => rfl⟩

include hdst hsrc in
theorem textCopied_iff (hs : a.stringElements = true) (hids : r.Unissued len (windowOf c srcStart len))
    (h : Written r dstArray a dstStart (copyRead r dstArray dstStart srcArray srcStart) len s) :
    WindowCopied r s dstArray dstStart srcArray srcStart len a ↔
      CopyFaithful r dstArray dstStart srcArray srcStart len a c := by
  have hfinds := (passes_iff_finds ha hs hc hdst hids).mp h.passed
  have hread : ∀ k < len, (s.arrayGet dstArray (dstStart + k : ℕ)).bind s.text? =
      (c.elements[srcStart + k % copyShift dstArray dstStart srcArray srcStart]?).bind r.text? := by
    intro k hk
    rw [arrayGet_of_array? h.target]
    change ((refreshed r a.elements dstStart len)[dstStart + k]?).bind s.text? = _
    rw [getElem?_refreshed _ _ _ (by omega), if_pos (by omega), Nat.add_sub_cancel_left, Option.bind_some,
      h.text, hids.textAt_drawn (fun i hi j hj => oldAt_ne_drawn ha hs hdst hids hi hj) hk le_rfl]
    exact landed_text ha hs hc hdst hsrc hids hk h.passed
  have houtside : ∀ x b i, r.array? x = some b → ¬ (x = dstArray ∧ dstStart ≤ i ∧ i < dstStart + len) →
      s.arrayGet x (i : ℕ) = r.arrayGet x (i : ℕ) := by
    intro x b i hb hout
    by_cases hx : x = dstArray
    · subst hx
      rw [arrayGet_of_array? h.target, arrayGet_of_array? ha]
      change (refreshed r a.elements dstStart len)[i]? = _
      by_cases hi : i < a.elements.length
      · rw [getElem?_refreshed _ _ _ hi, if_neg (fun hin => hout ⟨rfl, hin⟩)]
      · rw [List.getElem?_eq_none_iff.mpr (by rw [length_refreshed]; omega),
          List.getElem?_eq_none_iff.mpr (by omega)]
    · have hnew : ¬ ∃ j < len, x = drawn (r.issued + j) := by
        rintro ⟨j, hj, rfl⟩
        have habsent := hids.absent j hj
        rw [lookup_of_array? hb] at habsent
        cases habsent
      rw [arrayGet_nat, arrayGet_nat, h.others x hx, if_neg hnew]
  have hkept : ∀ (x : Int) (b : ArrayData) (i : ℕ) (e : Int), r.array? x = some b → b.stringElements = true →
      b.elements[i]? = some e → s.text? e = if ∃ j < len, e = oldAt a dstStart j then none else r.text? e := by
    intro x b i e hb hbs he
    rw [h.text, hids.textAt_held le_rfl (fun j hj heq => hids.unheld j hj x b hb hbs ?_)]
    rw [← heq]
    exact List.mem_of_getElem? he
  simp only [WindowCopied, CopyFaithful, hs, if_true]
  constructor
  · rintro ⟨hwindow, hothers⟩ -
    refine ⟨fun k hk => ?_, fun x b i e hb hbs hout he hlive j hj heq => ?_⟩
    · rw [← hread k hk, hwindow k hk, arrayGet_of_array? hc]
    · have hsame := (hothers x b i hb hout).2 hbs
      rw [houtside x b i hb hout, arrayGet_of_array? hb, he, Option.bind_some, Option.bind_some,
        hkept x b i e hb hbs he, if_pos ⟨j, hj, heq⟩] at hsame
      rw [← hsame] at hlive
      cases hlive
  · intro hfaithful
    obtain ⟨hrepeats, hapart⟩ := hfaithful hfinds
    refine ⟨fun k hk => ?_, fun x b i hb hout => ⟨houtside x b i hb hout, fun hbs => ?_⟩⟩
    · rw [hread k hk, hrepeats k hk, arrayGet_of_array? hc]
    · rw [houtside x b i hb hout, arrayGet_of_array? hb]
      cases he : b.elements[i]? with
      | none => rfl
      | some e =>
        rw [Option.bind_some, Option.bind_some, hkept x b i e hb hbs he]
        by_cases hgone : ∃ j < len, e = oldAt a dstStart j
        · rw [if_pos hgone]
          obtain ⟨j, hj, heq⟩ := hgone
          cases htext : r.text? e with
          | none => rfl
          | some text =>
            exact absurd heq (hapart x b i e hb hbs hout he (by rw [htext]; rfl) j hj)
        · rw [if_neg hgone]

end Exact

/-- For windows inside their arrays: `slice_copy_from`, if it succeeds, copies the source window as it
was exactly when the window repeats itself at the distance of an overlap; for texts, ids being new, also
exactly when no other slot holds a string the copy removes. -/
theorem sliceCopyFrom_copies_iff (hd : r.sliceWindow? dst = some (dstArray, dstStart, len))
    (hw : r.sliceWindow? src = some (srcArray, srcStart, len)) (ha : r.array? dstArray = some a)
    (hc : r.array? srcArray = some c) (hdst : dstStart + len ≤ a.elements.length)
    (hsrc : srcStart + len ≤ c.elements.length)
    (hids : a.stringElements = true → r.Unissued len (windowOf c srcStart len)) :
    ((r.sliceCopyFrom dst src).2 = true →
        WindowCopied r (r.sliceCopyFrom dst src).1 dstArray dstStart srcArray srcStart len a) ↔
      CopyFaithful r dstArray dstStart srcArray srcStart len a c := by
  have hcall : r.sliceCopyFrom dst src = writeSlots dstArray (fun r i => r.arrayGet srcArray i)
      (slotPairs srcStart dstStart 0 len) r := by
    rw [sliceCopyFrom, hd, hw]
    dsimp only
    rw [if_neg (by simp), slotPairs_copy]
  rw [hcall]
  cases hs : a.stringElements with
  | false =>
    have hstart : Landed a c dstStart srcStart (copyShift dstArray dstStart srcArray srcStart) 0
        a.elements := fun i => by rw [if_neg (by omega)]
    obtain ⟨hdone, l, hl, hlanded⟩ := Rewritten.copies ha hs hc hdst hsrc len (Nat.zero_add len)
      (Rewritten.refl ha) hstart
    rw [← rawCopied_iff ha hc hs hl hlanded]
    exact ⟨fun h => h hdone, fun h _ => h⟩
  | true =>
    have hrefl : Written r dstArray a dstStart (copyRead r dstArray dstStart srcArray srcStart) 0 r :=
      Written.refl ha
    obtain ⟨hdone, hfinal⟩ := hrefl.run (fun r i => r.arrayGet srcArray i) srcStart hs
      (fun m s hm => hm.copyRead ha) len
    rw [Nat.zero_add] at hfinal
    by_cases hok : (writeSlots dstArray (fun r i => r.arrayGet srcArray i)
        (slotPairs srcStart dstStart 0 len) r).2 = true
    · rw [← textCopied_iff ha hc hdst hsrc hs (hids hs) (hfinal hok)]
      exact ⟨fun h => h hok, fun h _ => h⟩
    · refine ⟨fun _ => ?_, fun _ hbad => absurd hbad hok⟩
      rw [CopyFaithful, if_pos hs]
      intro hfinds
      have hpasses := (passes_iff_finds ha hs hc hdst (hids hs)).mpr hfinds
      exact absurd (hdone.mpr fun k _ hk => hpasses k (by omega)) hok

/-- An array of three values with the slices `2` of its first two and `3` of its last two elements. -/
def twoWindows : Registry :=
  let values := [1, 2, 3].foldl (fun r e => (r.arrayPush 1 e).1) (Registry.empty.arrayNew 8 false).1
  ((values.sliceOf 1 0 2).1.sliceOf 1 1 3).1

/-- An array of the texts `p`, `q` and `p` with the slices `7` of its first two and `8` of its last two. -/
def overlappingTexts : Registry :=
  let texts := ((Registry.empty.putString "p").1.putString "q").1
  let array := [1, 2, 1].foldl (fun r e => (r.arrayPush 3 e).1) (texts.arrayNew 8 true).1
  ((array.sliceOf 3 0 2).1.sliceOf 3 1 3).1

theorem balanced_overlappingTexts : overlappingTexts.Balanced := by
  have hpush : ∀ {r : Registry} (e : Int), r.Balanced → (r.arrayPush 3 e).1.issued < 2 ^ 64 →
      (r.arrayPush 3 e).1.Balanced := fun {r} e hb hi =>
    (reaches_arrayPush 3 e : Reaches (fun _ => True) r _).balanced hb hi
  have hslice : ∀ {r : Registry} (start stop : Int), r.Balanced → (r.sliceOf 3 start stop).1.issued < 2 ^ 64 →
      (r.sliceOf 3 start stop).1.Balanced := fun {r} start stop hb hi =>
    ((mayAllocate_sliceOf 3 start stop).reaches : Reaches (fun _ => True) r _).balanced hb hi
  have hnew : (((Registry.empty.putString "p").1.putString "q").1.arrayNew 8 true).1.Balanced :=
    ((balanced_empty.insert (by decide) _).insert (by decide) _).insert (by decide) _
  exact hslice _ _ (hslice _ _ (hpush 1 (hpush 2 (hpush 1 hnew (by decide +kernel)) (by decide +kernel))
    (by decide +kernel)) (by decide +kernel)) (by decide +kernel)

theorem array_overlappingTexts {x : Int} {b : ArrayData} (h : overlappingTexts.array? x = some b) :
    x = 3 ∧ b = ⟨8, true, [4, 5, 6]⟩ := by
  have hlive : overlappingTexts.lookup x ≠ none := fun hnone => by
    rw [array?, borrow, hnone] at h
    exact absurd h (by simp)
  obtain ⟨n, hn, rfl⟩ := balanced_overlappingTexts.issued x hlive
  have hissued : overlappingTexts.issued = 8 := by decide +kernel
  rw [hissued] at hn
  have hothers : ∀ n < 8, n ≠ 2 → overlappingTexts.array? (drawn n) = none := by decide +kernel
  have hsecond : n = 2 := by
    by_contra hne
    rw [hothers n hn hne] at h
    cases h
  subst hsecond
  have harray : overlappingTexts.array? (drawn 2) = some ⟨8, true, [4, 5, 6]⟩ := by decide +kernel
  exact ⟨by decide +kernel, Option.some.inj (h.symm.trans harray)⟩

/-- Copying backwards over an overlap, of numbers and of texts. -/
theorem sliceCopyFrom_copies_backwards :
    WindowCopied twoWindows (twoWindows.sliceCopyFrom 2 3).1 1 0 1 1 2 ⟨8, false, [1, 2, 3]⟩ ∧
      WindowCopied overlappingTexts (overlappingTexts.sliceCopyFrom 7 8).1 3 0 3 1 2 ⟨8, true, [4, 5, 6]⟩ := by
  constructor
  · have harray : twoWindows.array? 1 = some ⟨8, false, [1, 2, 3]⟩ := by decide +kernel
    have hfaithful : CopyFaithful twoWindows 1 0 1 1 2 ⟨8, false, [1, 2, 3]⟩ ⟨8, false, [1, 2, 3]⟩ := by
      rw [CopyFaithful, if_neg (by decide)]
      decide
    exact (sliceCopyFrom_copies_iff (by decide +kernel) (by decide +kernel) harray harray (by decide)
      (by decide) (fun hs => absurd hs (by decide))).mpr hfaithful (by decide +kernel)
  · have harray : overlappingTexts.array? 3 = some ⟨8, true, [4, 5, 6]⟩ := by decide +kernel
    have hdrawn : ∀ e ∈ [4, 5, 6], ∃ n < overlappingTexts.issued, e = drawn n := by decide +kernel
    have hids : overlappingTexts.Unissued 2 (windowOf ⟨8, true, [4, 5, 6]⟩ 1 2) := by
      refine balanced_overlappingTexts.unissued (by decide +kernel) (fun e he => hdrawn e ?_) fun x b hx _ => ?_
      · exact List.mem_of_mem_drop (List.mem_of_mem_take he)
      · obtain ⟨-, rfl⟩ := array_overlappingTexts hx
        exact hdrawn
    have hfaithful : CopyFaithful overlappingTexts 3 0 3 1 2 ⟨8, true, [4, 5, 6]⟩ ⟨8, true, [4, 5, 6]⟩ := by
      rw [CopyFaithful, if_pos rfl]
      refine fun _ => ⟨fun k _ => ?_, fun x b i e hx _ hout he _ j hj heq => ?_⟩
      · rw [copyShift, if_pos rfl, Nat.zero_sub, Nat.mod_zero]
      · obtain ⟨rfl, rfl⟩ := array_overlappingTexts hx
        have hlast : 2 ≤ i := by omega
        have hin : i < 3 := (List.getElem?_eq_some_iff.mp he).1
        obtain rfl : i = 2 := by omega
        obtain rfl : 6 = e := Option.some.inj he
        revert heq
        revert j
        decide
    exact (sliceCopyFrom_copies_iff (by decide +kernel) (by decide +kernel) harray harray (by decide)
      (by decide) (fun _ => hids)).mpr hfaithful (by decide +kernel)

/-- Copying forwards over the same overlap repeats the first element. -/
theorem sliceCopyFrom_smears :
    ¬ ∀ (r : Registry) (dst src dstArray srcArray : Int) (dstStart srcStart len : ℕ) (a c : ArrayData),
      r.sliceWindow? dst = some (dstArray, dstStart, len) →
      r.sliceWindow? src = some (srcArray, srcStart, len) → r.array? dstArray = some a →
      r.array? srcArray = some c → dstStart + len ≤ a.elements.length →
      srcStart + len ≤ c.elements.length → (r.sliceCopyFrom dst src).2 = true →
        WindowCopied r (r.sliceCopyFrom dst src).1 dstArray dstStart srcArray srcStart len a := by
  intro h
  have harray : twoWindows.array? 1 = some ⟨8, false, [1, 2, 3]⟩ := by decide +kernel
  have hwindow := (h twoWindows 3 2 1 1 1 0 2 _ _ (by decide +kernel) (by decide +kernel) harray harray
    (by decide) (by decide) (by decide +kernel)).1 1 (by decide)
  revert hwindow
  decide +kernel

end Neutron.Registry
