import Neutron.Execution
import Neutron.RegistryEffects
import Neutron.Abi

/-!
# The leak report

`live_count` is a counter, `live_entries` filters the table by the set of permanent ids.
The two figures agree, and string literals stay readable, along every run of value calls
in which no call consumes a literal. Nothing in the runtime refuses to consume one: a
literal handed to `ntsc_string_drop` is removed like any other string.
-/

namespace Neutron

open Execution

-- comparing draws by evaluation would unfold the two's complement reading
attribute [local irreducible] Registry.drawn

namespace Registry

variable {P : Int → Prop} {r r' : Registry}

/-- The entries the leak reporter lists. -/
def listed (r : Registry) : ℕ := r.total (fun id _ => if id ∈ r.permanentIds then 0 else 1)

/-- The counter is the number of listed entries, and permanent entries are strings. -/
structure Reported (r : Registry) : Prop where
  count : r.live = r.listed
  strings : ∀ id ∈ r.permanentIds, ∃ s, r.lookup id = some (.string s)

theorem length_filter_rows (ids : List Int) (l : List (Σ _ : Int, Handle)) :
    ((l.map (fun e => (e.1, e.2))).filter (fun e => e.1 ∉ ids)).length =
      (l.map (fun e => if e.1 ∈ ids then 0 else 1)).sum := by
  induction l with
  | nil => rfl
  | cons e l ih =>
    rw [List.map_cons, List.map_cons, List.sum_cons, ← ih]
    by_cases he : e.1 ∈ ids
    · rw [List.filter_cons_of_neg (by simpa using he), if_pos he, Nat.zero_add]
    · rw [List.filter_cons_of_pos (by simpa using he), if_neg he, List.length_cons, Nat.add_comm]

/-- The reporter prints one line for every listed entry. -/
theorem length_liveEntries (escapeDebug : String → List Char) :
    (r.liveEntries escapeDebug).length = r.listed := by
  unfold liveEntries listed rows total
  dsimp only
  rw [List.length_mergeSort, List.length_map, List.filter_flatMap, List.length_flatMap, Fin.sum_univ_def]
  congr 1
  apply List.map_congr_left
  intro i _
  exact length_filter_rows r.permanentIds (r.shards i).entries

theorem Reaches.permanentIds_eq (h : Reaches P r r') : r'.permanentIds = r.permanentIds := by
  induction h with
  | refl => rfl
  | draw _ ih => exact ih
  | insert _ hd hplain ih => exact ih
  | retire _ hp hl g hg ih => exact ih
  | modify _ hl f hf ih => exact ih
  | exchange _ ho value ih => exact ih
  | frame _ sites regions ih => exact ih

/-- An effect that spares the id leaves the string behind it alone. -/
theorem Reaches.string_kept {id : Int} {s : String} (h : Reaches P r r') (hid : ¬P id) (hb : r.Balanced)
    (hi : r'.issued < 2 ^ 64) (hl : r.lookup id = some (.string s)) : r'.lookup id = some (.string s) := by
  induction h with
  | refl => exact hl
  | @draw r' _ ih =>
    have hi' : r'.issued + 1 < 2 ^ 64 := hi
    exact ih (by omega)
  | @insert r' h hd hplain ih =>
    have hi' : r'.issued + 1 < 2 ^ 64 := hi
    have h' := ih (by omega)
    have hne : id ≠ drawn r'.issued := by
      rintro rfl
      rw [(h.balanced hb (by omega)).fresh (by omega)] at h'
      cases h'
    rw [lookup_congr (shards_insert hd), lookup_store, if_neg hne]
    exact h'
  | @retire r' k hd _ hp hk g hg ih =>
    have hne : id ≠ k := by
      rintro rfl
      exact hid hp
    change (r'.discard k).lookup id = _
    rw [lookup_discard, if_neg hne]
    exact ih hi
  | @modify r' k hd _ hk f hf ih =>
    have h' := ih hi
    have hne : id ≠ k := by
      rintro rfl
      rw [h', Option.some_inj] at hk
      subst hk
      cases hf
    rw [lookup_modify, if_neg hne]
    exact h'
  | @exchange r' k t payload _ ho value ih =>
    have h' := ih hi
    have hne : id ≠ k := by
      rintro rfl
      rw [ho] at h'
      cases h'
    rw [lookup_store, if_neg hne, lookup_discard, if_neg hne]
    exact h'
  | frame _ sites regions ih => exact ih hi

/-- An id that is not permanent counts once. -/
theorem listed_store_new {id : Int} (hd : Handle) (hn : r.lookup id = none) (hid : id ∉ r.permanentIds) :
    (r.store id hd).listed = r.listed + 1 := by
  have h := total_store (f := fun id _ => if id ∈ r.permanentIds then 0 else 1) hd hn
  rw [if_neg hid] at h
  exact h

theorem listed_discard {id : Int} (hn : r.lookup id ≠ none) (hid : id ∉ r.permanentIds) :
    (r.discard id).listed + 1 = r.listed := by
  obtain ⟨old, ho⟩ := Option.ne_none_iff_exists'.mp hn
  have h := total_discard (f := fun id _ => if id ∈ r.permanentIds then 0 else 1) ho
  rw [if_neg hid] at h
  exact h

theorem listed_modify (id : Int) (f : Handle → Handle) : (r.modify id f).listed = r.listed := by
  cases hl : r.lookup id with
  | none => rw [modify_of_lookup_none f hl]
  | some hd =>
    exact Nat.add_right_cancel (total_modify (f := fun id _ => if id ∈ r.permanentIds then 0 else 1) f hl)

/-- Effects that remove no permanent id keep the two figures equal. -/
theorem Reaches.count_kept (h : Reaches P r r') (hP : ∀ x, P x → x ∉ r.permanentIds) (hb : r.Balanced)
    (hi : r'.issued < 2 ^ 64) (hr : r.Reported) : r'.live = r'.listed := by
  have hold {r' : Registry} {x : Int} (h : Reaches P r r') (hi : r'.issued < 2 ^ 64) (hn : r'.lookup x = none) :
      x ∉ r'.permanentIds := by
    intro hx
    rw [h.permanentIds_eq] at hx
    obtain ⟨s, hs⟩ := hr.strings x hx
    have := h.string_kept (fun hp => hP x hp hx) hb hi hs
    rw [hn] at this
    cases this
  induction h with
  | refl => exact hr.count
  | @draw r' _ ih =>
    have hi' : r'.issued + 1 < 2 ^ 64 := hi
    exact ih (by omega)
  | @insert r' h hd hplain ih =>
    have hi' : r'.issued + 1 < 2 ^ 64 := hi
    have hn := (h.balanced hb (by omega)).fresh (by omega)
    have h₁ := listed_store_new hd hn (hold h (by omega) hn)
    have h₂ : (r'.insert hd).1.listed = (r'.store (drawn r'.issued) hd).listed :=
      total_congr_shards (shards_insert hd) _
    change r'.live + 1 = _
    rw [h₂, h₁, ih (by omega)]
    rfl
  | @retire r' id hd h hp hl g hg ih =>
    have hperm : id ∉ r'.permanentIds := h.permanentIds_eq ▸ hP id hp
    have h₁ := listed_discard (by simp [hl]) hperm
    have h₂ := ih hi
    change r'.live - 1 = ((r'.discard id).listed : Int)
    omega
  | @modify r' id hd _ hl f hf ih =>
    rw [listed_modify]
    exact ih hi
  | @exchange r' id t payload h ho value ih =>
    have hne : r'.lookup id ≠ none := by simp [ho]
    have hgone : (r'.discard id).lookup id = none := by rw [lookup_discard, if_pos rfl]
    have hperm : id ∉ r'.permanentIds := by
      intro hx
      rw [h.permanentIds_eq] at hx
      obtain ⟨s, hs⟩ := hr.strings id hx
      have := h.string_kept (fun hp => hP id hp hx) hb hi hs
      rw [ho] at this
      cases this
    have h₁ := listed_store_new (r := r'.discard id) (.opaqueValue t value) hgone hperm
    rw [h₁, listed_discard hne hperm]
    exact ih hi
  | @frame r' _ sites regions ih => exact ih hi

theorem Reported.reaches (hr : r.Reported) (h : Reaches P r r') (hP : ∀ x, P x → x ∉ r.permanentIds)
    (hb : r.Balanced) (hi : r'.issued < 2 ^ 64) : r'.Reported := by
  refine ⟨h.count_kept hP hb hi hr, fun id hid => ?_⟩
  rw [h.permanentIds_eq] at hid
  obtain ⟨s, hs⟩ := hr.strings id hid
  exact ⟨s, h.string_kept (fun hp => hP id hp hid) hb hi hs⟩

theorem total_congr {f g : Int → Handle → ℕ} (hp : r.Placed)
    (h : ∀ id hd, r.lookup id = some hd → f id hd = g id hd) : r.total f = r.total g := by
  apply Finset.sum_congr rfl
  intro i _
  apply AList.total_congr
  intro id hd hl
  apply h
  have hi : shardOf id = i := hp i id (AList.lookup_isSome.mp (by simp [hl]))
  rw [lookup, hi]
  exact hl

/-- A literal registered under a new id is not listed. -/
theorem Reported.putStringPermanent (hr : r.Reported) (hb : r.Balanced) (hi : r.issued + 1 < 2 ^ 64)
    (text : String) : (r.putStringPermanent text).1.Reported := by
  have hn := hb.fresh (by omega)
  have hlookup (k : Int) : (r.putStringPermanent text).1.lookup k =
      if k = drawn r.issued then some (.string text) else r.lookup k := by
    rw [Registry.putStringPermanent, lookup_congr (shards_insertPermanent _), lookup_store]
  have hperm (k : Int) (hk : k ≠ drawn r.issued) :
      k ∈ (r.putStringPermanent text).1.permanentIds ↔ k ∈ r.permanentIds := by
    change k ∈ drawn r.issued :: r.permanentIds.filter (· ≠ drawn r.issued) ↔ _
    simp [hk]
  have hself : drawn r.issued ∈ (r.putStringPermanent text).1.permanentIds := List.mem_cons_self
  refine ⟨?_, fun id hid => ?_⟩
  · have h₁ := total_store (f := fun id _ => if id ∈ (r.putStringPermanent text).1.permanentIds then 0 else 1)
      (.string text) hn
    have h₂ : r.total (fun id _ => if id ∈ (r.putStringPermanent text).1.permanentIds then 0 else 1) =
        r.listed := by
      apply total_congr hb.placed
      intro k hd hk
      have hne : k ≠ drawn r.issued := by
        rintro rfl
        rw [hn] at hk
        cases hk
      simp only [hperm k hne]
    have h₃ : (r.putStringPermanent text).1.listed = (r.store (drawn r.issued) (.string text)).total
        (fun id _ => if id ∈ (r.putStringPermanent text).1.permanentIds then 0 else 1) :=
      total_congr_shards (shards_insertPermanent _) _
    rw [if_pos hself, h₂, Nat.add_zero] at h₁
    rw [h₃, h₁]
    exact hr.count
  · rw [hlookup]
    split
    · exact ⟨text, rfl⟩
    · rename_i hne
      exact hr.strings id ((hperm id hne).mp hid)

end Registry

/-! ## Runs of value calls -/

/-- The calls that create, copy, throw, drop and consume strings, arrays and shared boxes.
`newString` is any conversion that registers a text. -/
inductive ValueCall where
  | newString (text : String)
  | stringConcat (a b : Int)
  | stringClone (id : Int)
  | stringDrop (id : Int)
  | stringFromWords (words byteCount : Int)
  | stringFromWordsPermanent (words byteCount : Int)
  | assert (msg : Int)
  | throw (msg : Int)
  | exceptionTakeMessage
  | exceptionClear
  | arrayNew (elemSize : Int) (stringElements : Bool)
  | arraySetStringElements (id : Int) (stringElements : Bool)
  | arrayGet (id index : Int)
  | arrayPush (id elem : Int)
  | arraySet (id index elem : Int)
  | arrayPop (id : Int)
  | arrayDrop (id : Int)
  | arrayClone (levels : ℕ) (id : Int)
  | arrayFill (val count elemSize : Int) (stringElements : Bool)
  | arrayRange (start stop : Int)
  | arraySlice (id start stop : Int)
  | arrayReverse (id : Int)
  | arrayClear (id : Int)
  | arrayRemoveAt (id index : Int)
  | arrayShuffle (bytes : List UInt8) (id : Int)
  | arraySort (id mode : Int)
  | sortBy (id : Int) (cmp : Int → Int → Int)
  | sharedNew (inner : Int)
  | sharedRetain (id : Int)
  | sharedRelease (id : Int)
  | leakMark (id line column : Int)

/-- A run of value calls with the literals registered so far. -/
structure Literals where
  w : World
  literals : List (Int × String)

namespace World

variable (w : World) (t : ℕ) (fromUtf8Lossy : List UInt8 → String)

/-- The state after a value call made by thread `t`. -/
def valueStep : ValueCall → World
  | .newString text => w.withReg (w.rt.reg.putString text).1
  | .stringConcat a b => w.withReg (w.rt.reg.stringConcat a b).1
  | .stringClone id => w.withReg (w.rt.reg.cloneString id).1
  | .stringDrop id => w.stringDrop id
  | .stringFromWords words count => (w.stringFromWords fromUtf8Lossy words count false).1
  | .stringFromWordsPermanent words count => (w.stringFromWords fromUtf8Lossy words count true).1
  | .assert msg => w.assert msg
  | .throw msg => (w.throw t msg).1
  | .exceptionTakeMessage => (w.exceptionTakeMessage t).1
  | .exceptionClear => w.exceptionClear t
  | .arrayNew elemSize strings => w.withReg (w.rt.reg.arrayNew elemSize strings).1
  | .arraySetStringElements id strings => w.withReg (w.rt.reg.arraySetStringElements id strings)
  | .arrayGet id index => (w.arrayGet t id index).1
  | .arrayPush id elem => (w.arrayPush id elem).1
  | .arraySet id index elem => (w.arraySet t id index elem).1
  | .arrayPop id => (w.arrayPop id).1
  | .arrayDrop id => w.arrayDrop id
  | .arrayClone levels id => w.withReg (Registry.arrayClone levels w.rt.reg id).1
  | .arrayFill val count elemSize strings => w.withReg (w.rt.reg.arrayFill val count elemSize strings).1
  | .arrayRange start stop => w.withReg (w.rt.reg.arrayRange start stop).1
  | .arraySlice id start stop => w.withReg (w.rt.reg.arraySlice id start stop).1
  | .arrayReverse id => w.withReg (w.rt.reg.arrayReverse id).1
  | .arrayClear id => w.withReg (w.rt.reg.arrayClear id).1
  | .arrayRemoveAt id index => w.withReg (w.rt.reg.arrayRemoveAt id index).1
  | .arrayShuffle bytes id => w.withReg (w.rt.reg.arrayShuffle bytes id).1
  | .arraySort id mode => w.withReg (w.rt.reg.arraySort id mode).1
  | .sortBy id cmp => w.withReg (w.rt.reg.sortBy id cmp).1
  | .sharedNew inner => w.withReg (w.rt.reg.sharedNew inner).1
  | .sharedRetain id => w.withReg (w.rt.reg.sharedRetain id).1
  | .sharedRelease id => w.withReg (w.rt.reg.sharedRelease id).1
  | .leakMark id line column => w.withReg (w.rt.reg.markLeakSite id line column)

/-- The string handles a call consumes: the string dropped or asserted on, the message of
the pending exception when it is cleared, the element an array write replaces, and the
strings owned by an array that goes away. -/
def consumed : ValueCall → List Int
  | .stringDrop id => [id]
  | .assert msg => [msg]
  | .exceptionClear => (w.thread t).pending.toList
  | .arraySet id index _ => ((w.rt.reg.owned id)[index.toNat]?).toList
  | .arrayDrop id => w.rt.reg.owned id
  | .stringFromWords words _ | .stringFromWordsPermanent words _ => w.rt.reg.owned words
  | _ => []

end World

namespace Literals

variable (fromUtf8Lossy : List UInt8 → String) (l : Literals)

def step (c : ℕ × ValueCall) : Literals where
  w := l.w.valueStep c.1 fromUtf8Lossy c.2
  literals := match c.2 with
    | .stringFromWordsPermanent words count =>
        ((l.w.stringFromWords fromUtf8Lossy words count true).2,
          fromUtf8Lossy (if words = null then [] else l.w.rt.reg.wordBytes words count)) :: l.literals
    | _ => l.literals

/-- The call consumes no string literal. -/
def Spares (c : ℕ × ValueCall) : Prop := ∀ x ∈ l.w.consumed c.1 c.2, x ∉ l.w.rt.reg.permanentIds

instance (c : ℕ × ValueCall) : Decidable (l.Spares c) :=
  inferInstanceAs (Decidable (∀ x ∈ _, _))

def start : Literals := ⟨World.start, []⟩

end Literals

namespace World

open Registry

variable {w : World} {t : ℕ} {P : Int → Prop}

theorem reaches_throw (msg : Int) : Reaches P w.rt.reg (w.throw t msg).1.rt.reg := by
  unfold throw
  split
  · exact Reaches.refl.insert _ rfl
  · exact .refl

theorem reaches_throwString (message : String) : Reaches P w.rt.reg (w.throwString t message).1.rt.reg :=
  (Reaches.refl.insert _ rfl).trans (reaches_throw (w := w.withReg _) _)

theorem reaches_markLeakSite {r : Registry} (id line column : Int) :
    Reaches P r (r.markLeakSite id line column) := by
  unfold markLeakSite
  split
  · exact .refl
  · exact Reaches.refl.frame _ r.regions

/-- Every value call but the registration of a literal, with what it consumes. -/
theorem reaches_valueStep (fromUtf8Lossy : List UInt8 → String) {c : ValueCall}
    (hc : ∀ words count, c ≠ .stringFromWordsPermanent words count) (hp : ∀ x ∈ w.consumed t c, P x)
    (harray : ∀ id a, w.rt.reg.lookup id = some (.array a) → P id)
    (hshared : ∀ id s, w.rt.reg.lookup id = some (.shared s) → P id) :
    Reaches P w.rt.reg (w.valueStep t fromUtf8Lossy c).rt.reg := by
  cases c with
  | newString text => exact Reaches.refl.insert _ rfl
  | stringConcat a b => exact Reaches.refl.insert _ rfl
  | stringClone id => exact reaches_cloneString id
  | stringDrop id => exact reaches_takeString (fun _ _ => hp id (by simp [consumed]))
  | stringFromWords words count =>
    have hdrop : Reaches P w.rt.reg (if words = null then w.rt.reg else w.rt.reg.arrayDrop words) := by
      split
      · exact .refl
      · exact reaches_arrayDrop (harray words) hp
    exact hdrop.insert _ rfl
  | stringFromWordsPermanent words count => exact absurd rfl (hc words count)
  | assert msg => exact reaches_takeString (fun _ _ => hp msg (by simp [consumed]))
  | throw msg => exact reaches_throw msg
  | exceptionTakeMessage => exact .refl
  | exceptionClear =>
    change Reaches P w.rt.reg (w.rt.reg.takeString ((w.thread t).pending.getD null)).1
    cases hm : (w.thread t).pending with
    | none => exact .refl
    | some msg => exact reaches_takeString (fun _ _ => hp msg (by simp [consumed, hm]))
  | arrayNew elemSize strings => exact (allocates_arrayNew elemSize strings).reaches
  | arraySetStringElements id strings => exact reaches_arraySetStringElements id strings
  | arrayGet id index =>
    change Reaches P w.rt.reg (w.arrayGet t id index).1.rt.reg
    unfold World.arrayGet
    cases w.rt.reg.arrayGet id index with
    | some value => exact .refl
    | none => exact reaches_throwString _
  | arrayPush id elem => exact reaches_arrayPush id elem
  | arraySet id index elem =>
    change Reaches P w.rt.reg (w.arraySet t id index elem).1.rt.reg
    unfold World.arraySet
    split
    · split
      · exact reaches_throwString _
      · exact reaches_arraySet id index elem (fun x hx => hp x (by simp [consumed, hx]))
    · exact .refl
  | arrayPop id => exact reaches_arrayPop id
  | arrayDrop id => exact reaches_arrayDrop (harray id) hp
  | arrayClone levels id => exact (allocates_arrayClone levels w.rt.reg id).reaches
  | arrayFill val count elemSize strings => exact (allocates_arrayFill val count elemSize strings).reaches
  | arrayRange start stop => exact Reaches.refl.insert _ rfl
  | arraySlice id start stop => exact (allocates_copyArray reaches_keepRaw _ id).reaches
  | arrayReverse id => exact (allocates_copyArray reaches_keepRaw _ id).reaches
  | arrayClear id => exact (allocates_copyArray reaches_keepRaw _ id).reaches
  | arrayRemoveAt id index => exact (allocates_copyArray reaches_keepRaw _ id).reaches
  | arrayShuffle bytes id => exact (allocates_arrayShuffle bytes id).reaches
  | arraySort id mode => exact (allocates_arraySort id mode).reaches
  | sortBy id cmp => exact reaches_sortBy id cmp
  | sharedNew inner => exact Reaches.refl.insert _ rfl
  | sharedRetain id => exact reaches_sharedRetain id
  | sharedRelease id => exact reaches_sharedRelease (hshared id)
  | leakMark id line column => exact reaches_markLeakSite id line column

end World

namespace Literals

open Registry

variable {fromUtf8Lossy : List UInt8 → String} {l : Literals}

/-- The figures agree and every literal is a permanent string with its text. -/
structure Kept (l : Literals) : Prop where
  balanced : l.w.rt.reg.Balanced
  reported : l.w.rt.reg.Reported
  texts : ∀ e ∈ l.literals, e.1 ∈ l.w.rt.reg.permanentIds ∧ l.w.rt.reg.lookup e.1 = some (.string e.2)

/-- The ids that an ordinary call may remove. -/
theorem Kept.reaches {reg : Registry} (h : l.Kept)
    (hr : Reaches (fun x => x ∉ l.w.rt.reg.permanentIds) l.w.rt.reg reg) (hi : reg.issued < 2 ^ 64) :
    Kept ⟨l.w.withReg reg, l.literals⟩ := by
  refine ⟨hr.balanced h.balanced hi, h.reported.reaches hr (fun _ hx => hx) h.balanced hi, fun e he => ?_⟩
  obtain ⟨hperm, htext⟩ := h.texts e he
  refine ⟨?_, hr.string_kept (fun hn => hn hperm) h.balanced hi htext⟩
  change e.1 ∈ reg.permanentIds
  rw [hr.permanentIds_eq]
  exact hperm

theorem Kept.notMem_permanentIds (h : l.Kept) {id : Int} {hd : Handle}
    (hl : l.w.rt.reg.lookup id = some hd) (hs : ∀ s, hd ≠ .string s) : id ∉ l.w.rt.reg.permanentIds := by
  intro hid
  obtain ⟨s, hs'⟩ := h.reported.strings id hid
  exact hs s (Option.some_inj.mp (hl.symm.trans hs'))

/-- Registering a literal, after the word array is gone. -/
theorem Kept.putStringPermanent (h : l.Kept) (hi : l.w.rt.reg.issued + 1 < 2 ^ 64) (text : String) :
    Kept ⟨l.w.withReg (l.w.rt.reg.putStringPermanent text).1,
      ((l.w.rt.reg.putStringPermanent text).2, text) :: l.literals⟩ := by
  have hn := h.balanced.fresh (by omega)
  have hlookup (k : Int) : (l.w.rt.reg.putStringPermanent text).1.lookup k =
      if k = drawn l.w.rt.reg.issued then some (.string text) else l.w.rt.reg.lookup k := by
    rw [Registry.putStringPermanent, lookup_congr (shards_insertPermanent _), lookup_store]
  refine ⟨h.balanced.insertPermanent hi _, h.reported.putStringPermanent h.balanced hi text, fun e he => ?_⟩
  change e.1 ∈ drawn l.w.rt.reg.issued :: l.w.rt.reg.permanentIds.filter (· ≠ drawn l.w.rt.reg.issued) ∧
    (l.w.rt.reg.putStringPermanent text).1.lookup e.1 = some (.string e.2)
  rw [hlookup]
  rcases List.mem_cons.mp he with rfl | he
  · exact ⟨List.mem_cons_self, if_pos rfl⟩
  · obtain ⟨hperm, htext⟩ := h.texts e he
    have hne : e.1 ≠ drawn l.w.rt.reg.issued := by
      intro heq
      rw [heq, hn] at htext
      cases htext
    exact ⟨by simp [hne, hperm], (if_neg hne).trans htext⟩

theorem step_kept (c : ℕ × ValueCall) (h : l.Kept) (hc : l.Spares c)
    (hi : (l.step fromUtf8Lossy c).w.rt.reg.issued < 2 ^ 64) : (l.step fromUtf8Lossy c).Kept := by
  obtain ⟨t, c⟩ := c
  have harray : ∀ id a, l.w.rt.reg.lookup id = some (.array a) → id ∉ l.w.rt.reg.permanentIds :=
    fun id a hl => h.notMem_permanentIds hl (by simp)
  have hshared : ∀ id s, l.w.rt.reg.lookup id = some (.shared s) → id ∉ l.w.rt.reg.permanentIds :=
    fun id s hl => h.notMem_permanentIds hl (by simp)
  by_cases hlit : ∃ words count, c = .stringFromWordsPermanent words count
  · obtain ⟨words, count, rfl⟩ := hlit
    have hdrop : Reaches (fun x => x ∉ l.w.rt.reg.permanentIds) l.w.rt.reg
        (if words = null then l.w.rt.reg else l.w.rt.reg.arrayDrop words) := by
      split
      · exact .refl
      · exact reaches_arrayDrop (harray words) hc
    have hi' : (if words = null then l.w.rt.reg else l.w.rt.reg.arrayDrop words).issued + 1 < 2 ^ 64 := hi
    exact (h.reaches hdrop (by omega)).putStringPermanent hi'
      (fromUtf8Lossy (if words = null then [] else l.w.rt.reg.wordBytes words count))
  · have hne : ∀ words count, c ≠ .stringFromWordsPermanent words count :=
      fun words count heq => hlit ⟨words, count, heq⟩
    have hr := World.reaches_valueStep (w := l.w) (t := t) fromUtf8Lossy hne hc harray hshared
    have hk := h.reaches hr hi
    have hlits : (l.step fromUtf8Lossy (t, c)).literals = l.literals := by
      unfold step
      cases c with
      | stringFromWordsPermanent words count => exact absurd rfl (hne words count)
      | _ => rfl
    exact ⟨hk.balanced, hk.reported, fun e he => hk.texts e (hlits ▸ he)⟩

theorem issued_le_step (c : ℕ × ValueCall) :
    l.w.rt.reg.issued ≤ (l.step fromUtf8Lossy c).w.rt.reg.issued := by
  obtain ⟨t, c⟩ := c
  by_cases hlit : ∃ words count, c = .stringFromWordsPermanent words count
  · obtain ⟨words, count, rfl⟩ := hlit
    have hdrop : Reaches (fun _ => True) l.w.rt.reg
        (if words = null then l.w.rt.reg else l.w.rt.reg.arrayDrop words) := by
      split
      · exact .refl
      · exact reaches_arrayDrop (fun _ _ => trivial) (fun _ _ => trivial)
    exact hdrop.issued_le.trans (Nat.le_succ _)
  · exact (World.reaches_valueStep (P := fun _ => True) (w := l.w) (t := t) fromUtf8Lossy
      (fun words count heq => hlit ⟨words, count, heq⟩) (fun _ _ => trivial) (fun _ _ _ => trivial)
      (fun _ _ _ => trivial)).issued_le

theorem start_kept : start.Kept := by
  refine ⟨balanced_empty, ⟨?_, by simp [start, World.start, Runtime.empty, Registry.empty]⟩, by simp [start]⟩
  · have h : Registry.empty.listed = 0 := by
      rw [listed, total]
      exact Finset.sum_eq_zero (fun i _ => rfl)
    exact (congrArg Nat.cast h).symm

end Literals

/-- Along every run of value calls none of which consumes a string literal, and in which
fewer than `2 ^ 64` handles were issued, the counter is the number of reported entries
and every literal reads back its text. -/
theorem leak_figures_agree (fromUtf8Lossy : List UInt8 → String) (escapeDebug : String → List Char)
    (calls : List (ℕ × ValueCall))
    (hrun : Allowed (Literals.step fromUtf8Lossy) Literals.Spares Literals.start calls) :
    let l := execute (Literals.step fromUtf8Lossy) Literals.start calls
    l.w.rt.reg.issued < 2 ^ 64 →
    l.w.rt.reg.liveCount = (l.w.rt.reg.liveEntries escapeDebug).length ∧ 0 ≤ l.w.rt.reg.liveCount ∧
      ∀ e ∈ l.literals, l.w.rt.reg.getString e.1 = some e.2 := by
  intro l hi
  have h : l.w.rt.reg.issued < 2 ^ 64 → l.Kept :=
    hrun.invariant (I := fun l => l.w.rt.reg.issued < 2 ^ 64 → l.Kept)
      (fun l c hl hc hi => Literals.step_kept c (hl ((Literals.issued_le_step c).trans_lt hi)) hc hi)
      (fun _ => Literals.start_kept)
  have hk := h hi
  have hcount : l.w.rt.reg.liveCount = (l.w.rt.reg.liveEntries escapeDebug).length := by
    rw [Registry.length_liveEntries]
    exact hk.reported.count
  refine ⟨hcount, hcount ▸ Int.natCast_nonneg _, fun e he => ?_⟩
  have htext := (hk.texts e he).2
  have hne : e.1 ≠ null := by
    intro heq
    obtain ⟨n, hn, hdrawn⟩ := hk.balanced.issued e.1 (by simp [htext])
    exact Registry.drawn_ne_null (n := n) (by omega) (hdrawn.symm.trans heq)
  rw [Registry.getString, if_neg hne, htext]

/-- A literal spelled by one word, copied, and the copy dropped. -/
def copyLiteral : List (ℕ × ValueCall) :=
  [(0, .arrayNew 8 false), (0, .arrayPush 1 0x6968), (0, .stringFromWordsPermanent 1 2),
    (0, .stringClone 2), (0, .stringDrop 3)]

/-- The decoder on words of plain ASCII. -/
def decodeAscii (bytes : List UInt8) : String := String.ofList (bytes.map (fun b => Char.ofNat b.toNat))

theorem leak_figures_agree_of_copy :
    let l := execute (Literals.step decodeAscii) Literals.start copyLiteral
    l.literals = [(2, "hi")] ∧ l.w.rt.reg.getString 2 = some "hi" ∧
      l.w.rt.reg.liveCount = (l.w.rt.reg.liveEntries String.toList).length := by
  intro l
  have hrun : Allowed (Literals.step decodeAscii) Literals.Spares Literals.start copyLiteral := by
    decide +kernel
  have hi : l.w.rt.reg.issued < 2 ^ 64 := by decide +kernel
  have hlits : l.literals = [(2, "hi")] := by decide +kernel
  obtain ⟨hcount, -, htexts⟩ := leak_figures_agree decodeAscii String.toList copyLiteral hrun hi
  exact ⟨hlits, htexts (2, "hi") (by rw [hlits]; exact List.mem_cons_self), hcount⟩

/-- Dropping a literal makes the live counter negative and the literal unreadable. -/
theorem stringDrop_consumes_literal :
    ¬ ∀ (fromUtf8Lossy : List UInt8 → String) (escapeDebug : String → List Char)
        (calls : List (ℕ × ValueCall)),
      let l := execute (Literals.step fromUtf8Lossy) Literals.start calls
      l.w.rt.reg.liveCount = (l.w.rt.reg.liveEntries escapeDebug).length ∧ 0 ≤ l.w.rt.reg.liveCount ∧
        ∀ e ∈ l.literals, l.w.rt.reg.getString e.1 = some e.2 := by
  intro hall
  have h := (hall decodeAscii String.toList (copyLiteral ++ [(0, .stringDrop 2)])).2.1
  exact absurd h (by decide +kernel)

end Neutron
