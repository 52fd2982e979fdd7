import Neutron.ElementWrites
import Neutron.Execution

/-!
# Slices stay inside their windows

A slice of an array, slices of that slice and so on, while arrays are pushed to, popped, written and
dropped in between. No such operation makes a handle an array, or a slice, that was not one before,
so the last slice still names the window the requested bounds describe, and the array it was taken
from, or nothing at all.
-/

namespace Neutron.Registry
open Execution

attribute [local irreducible] drawn

/-! ### Entries fade -/

/-- What an operation on arrays may do to an entry. -/
inductive Fades : Option Handle → Option Handle → Prop
  | same (entry : Option Handle) : Fades entry entry
  | string (entry : Option Handle) (text : String) : Fades entry (some (.string text))
  | gone (entry : Option Handle) : Fades entry none
  | array (a b : ArrayData) : Fades (some (.array a)) (some (.array b))

def Faded (r r' : Registry) : Prop := ∀ id, Fades (r.lookup id) (r'.lookup id)

variable {r r' r'' : Registry}

theorem Fades.trans {x y z : Option Handle} (h : Fades x y) (h' : Fades y z) : Fades x z := by
  cases h' with
  | same => exact h
  | string _ text => exact .string x text
  | gone => exact .gone x
  | array a b =>
    cases h with
    | same => exact .array a b
    | array c _ => exact .array c b

theorem Faded.refl : Faded r r := fun _ => .same _

theorem Faded.trans (h : Faded r r') (h' : Faded r' r'') : Faded r r'' :=
  fun id => (h id).trans (h' id)

theorem Faded.array {id : Int} {b : ArrayData} (h : Faded r r') (hb : r'.array? id = some b) :
    ∃ a, r.array? id = some a := by
  obtain ⟨hid, hl⟩ := array?_eq_some.mp hb
  have hfade := h id
  rw [hl] at hfade
  cases hlr : r.lookup id with
  | none =>
    rw [hlr] at hfade
    cases hfade
  | some hd =>
    rw [hlr] at hfade
    cases hfade with
    | same => exact ⟨b, array?_eq_some.mpr ⟨hid, hlr⟩⟩
    | array a _ => exact ⟨a, array?_eq_some.mpr ⟨hid, hlr⟩⟩

theorem sliceWindow?_eq_some {id array : Int} {start len : ℕ} :
    r.sliceWindow? id = some (array, start, len) ↔
      id ≠ null ∧ r.lookup id = some (.slice ⟨array, start, len⟩) := by
  unfold sliceWindow? borrow
  by_cases hid : id = null
  · simp [hid]
  · rw [if_neg hid]
    constructor
    · intro h
      split at h
      · rename_i s heq
        cases s
        simp only [Option.some.injEq, Prod.mk.injEq] at h
        obtain ⟨rfl, rfl, rfl⟩ := h
        exact ⟨hid, heq⟩
      · simp at h
    · rintro ⟨-, h⟩
      rw [h]

theorem Faded.window {id array : Int} {start len : ℕ} (h : Faded r r')
    (hw : r'.sliceWindow? id = some (array, start, len)) :
    r.sliceWindow? id = some (array, start, len) := by
  obtain ⟨hid, hl⟩ := sliceWindow?_eq_some.mp hw
  have hfade := h id
  rw [hl] at hfade
  generalize hlr : r.lookup id = entry at hfade
  cases hfade
  exact sliceWindow?_eq_some.mpr ⟨hid, hlr⟩

theorem faded_string (text : String) : Faded r (r.insert (.string text)).1 := by
  intro id
  rw [lookup_insert]
  split
  · exact .string _ text
  · exact .same _

theorem faded_setElements (id : Int) (f : List Int → List Int) : Faded r (r.setElements id f) := by
  intro k
  rw [setElements, lookup_modify]
  split
  · cases r.lookup k with
    | none => exact .same _
    | some hd =>
      cases hd with
      | array a => exact .array a _
      | _ => exact .same _
  · exact .same _

theorem faded_takeString (x : Int) : Faded r (r.takeString x).1 := by
  intro k
  rw [lookup_takeString]
  split
  · exact .gone _
  · exact .same _

theorem faded_takeStrings (es : List Int) : Faded r (r.takeStrings es) := by
  unfold takeStrings
  induction es generalizing r with
  | nil => exact .refl
  | cons e es ih => exact (faded_takeString e).trans ih

theorem faded_remove (id : Int) : Faded r (r.remove id).1 := by
  intro k
  unfold remove
  split
  · exact .same _
  cases hl : r.lookup id with
  | none => exact .same _
  | some hd =>
    change Fades _ ((r.discard id).lookup k)
    rw [lookup_discard]
    split
    · exact .gone _
    · exact .same _

theorem faded_arrayDrop (id : Int) : Faded r (r.arrayDrop id) := by
  unfold arrayDrop
  split
  · exact .refl
  split
  · dsimp only
    split
    · exact (faded_remove id).trans (faded_takeStrings _)
    · exact faded_remove id
  · exact .refl

theorem faded_arrayPop (id : Int) : Faded r (r.arrayPop id).1 := by
  unfold arrayPop
  split
  · exact .refl
  split
  · split
    · exact faded_setElements id _
    · exact .refl
  · exact .refl

theorem faded_adoptElement {a : ArrayData} {elem value : Int} (h : r.adoptElement a elem = some (r', value)) :
    Faded r r' := by
  unfold adoptElement at h
  split at h
  · split at h
    · obtain ⟨rfl, -⟩ := Prod.mk.inj (Option.some.inj h)
      exact faded_string _
    · simp at h
  · obtain ⟨rfl, -⟩ := Prod.mk.inj (Option.some.inj h)
    exact .refl

theorem faded_arrayPush (id elem : Int) : Faded r (r.arrayPush id elem).1 := by
  rcases arrayPush_cases r id elem with heq | ⟨a, r₁, value, -, ha, heq | ⟨-, heq⟩⟩
  · rw [heq]
    exact .refl
  · rw [heq]
    exact faded_adoptElement ha
  · rw [heq]
    exact (faded_adoptElement ha).trans (faded_setElements id _)

theorem faded_arraySet (id index elem : Int) : Faded r (r.arraySet id index elem).1 := by
  rcases arraySet_cases r id index elem with heq | ⟨a, r₁, value, -, ha, heq | ⟨hlt, -, heq⟩⟩
  · rw [heq]
    exact .refl
  · rw [heq]
    exact faded_adoptElement ha
  · rw [heq]
    have hset : Faded r _ := (faded_adoptElement ha).trans (faded_setElements id (·.set index.toNat value))
    split
    · exact hset.trans (faded_takeString _)
    · exact hset

/-! ### What a successful write reaches -/

theorem array?_setElements {id k : Int} {a b : ArrayData} {f : List Int → List Int}
    (ha : r.array? id = some a) (hb : (r.setElements id f).array? k = some b) :
    (k = id ∧ b = { a with elements := f a.elements }) ∨ (k ≠ id ∧ r.array? k = some b) := by
  obtain ⟨hk, hl⟩ := array?_eq_some.mp hb
  rw [lookup_setElements (lookup_of_array? ha)] at hl
  by_cases hkid : k = id
  · rw [if_pos hkid] at hl
    exact .inl ⟨hkid, (Handle.array.inj (Option.some.inj hl)).symm⟩
  · rw [if_neg hkid] at hl
    exact .inr ⟨hkid, array?_eq_some.mpr ⟨hk, hl⟩⟩

theorem array?_setElements_self {id : Int} {a : ArrayData} (ha : r.array? id = some a)
    (f : List Int → List Int) :
    (r.setElements id f).array? id = some { a with elements := f a.elements } := by
  obtain ⟨hid, hl⟩ := array?_eq_some.mp ha
  refine array?_eq_some.mpr ⟨hid, ?_⟩
  rw [lookup_setElements hl, if_pos rfl]

theorem array?_takeString (x k : Int) : (r.takeString x).1.array? k = r.array? k := by
  have hiff : ∀ a, (r.takeString x).1.array? k = some a ↔ r.array? k = some a := by
    intro a
    rw [array?_eq_some, array?_eq_some, lookup_takeString]
    by_cases htake : k = x ∧ x ≠ null ∧ (r.text? x).isSome
    · obtain ⟨rfl, -, htext⟩ := htake
      obtain ⟨text, htext⟩ := Option.isSome_iff_exists.mp htext
      have hl := text?_eq_some.mp htext
      simp [hl]
    · rw [if_neg htake]
  exact Option.ext hiff

theorem array?_insert_string {k : Int} {text : String} {a : ArrayData}
    (h : (r.insert (.string text)).1.array? k = some a) : r.array? k = some a := by
  obtain ⟨hk, hl⟩ := array?_eq_some.mp h
  rw [lookup_insert] at hl
  split at hl
  · simp at hl
  · exact array?_eq_some.mpr ⟨hk, hl⟩

/-- A successful write replaces one element of a live array and no element of another. -/
theorem arraySet_reaches {id elem : Int} {i : ℕ} (h : (r.arraySet id i elem).2 = true) :
    ∃ a, r.array? id = some a ∧ i < a.elements.length ∧
      (∃ w, (r.arraySet id i elem).1.array? id = some { a with elements := a.elements.set i w }) ∧
      ∀ k b, k ≠ id → (r.arraySet id i elem).1.array? k = some b → r.array? k = some b := by
  cases ha : r.array? id with
  | none =>
    rw [arraySet_noArray ha] at h
    cases h
  | some a =>
    refine ⟨a, rfl, ?_⟩
    by_cases hs : a.stringElements = true
    · cases htext : r.text? elem with
      | none =>
        rw [arraySet_noText ha hs htext] at h
        cases h
      | some text =>
        rw [arraySet_text ha hs htext] at h ⊢
        split at h
        · rename_i hfits
          rw [if_pos hfits]
          have hcopy : (r.insert (.string text)).1.array? id = some a := by
            obtain ⟨hid, hl⟩ := array?_eq_some.mp ha
            refine array?_eq_some.mpr ⟨hid, ?_⟩
            rw [lookup_insert, if_neg hfits.1, hl]
          refine ⟨hfits.2, ⟨drawn r.issued, ?_⟩, fun k b hk hb => ?_⟩
          · rw [replaceText, array?_takeString]
            exact array?_setElements_self hcopy _
          · rw [replaceText, array?_takeString] at hb
            rcases array?_setElements hcopy hb with ⟨heq, -⟩ | ⟨-, hold⟩
            · exact absurd heq hk
            · exact array?_insert_string hold
        · cases h
    · rw [arraySet_raw ha (by simpa using hs)] at h ⊢
      split at h
      · rename_i hi
        rw [if_pos hi]
        have hwritten := array?_setElements_self ha (·.set i elem)
        refine ⟨hi, ⟨elem, hwritten⟩, fun k b hk hb => ?_⟩
        change (r.setElements id (·.set i elem)).array? k = some b at hb
        rcases array?_setElements ha hb with ⟨heq, -⟩ | ⟨-, hold⟩
        · exact absurd heq hk
        · exact hold
      · cases h

end Neutron.Registry

namespace Neutron
open Registry Execution

attribute [local irreducible] drawn

/-! ### Chains of slices -/

/-- Operations on arrays, any of them, and a narrower slice of the last one. -/
inductive ChainOp where
  | push (id elem : Int)
  | pop (id : Int)
  | set (id index elem : Int)
  | drop (id : Int)
  | sub (start stop : Int)

/-- `window` is the last window as the requested bounds describe it, in indices of the array, and
`outer` are those before. `alive` says that the array has been in the registry ever since. -/
structure SliceChain where
  reg : Registry
  array : Int
  slice : Int
  window : Int × Int
  outer : List (Int × Int)
  alive : Bool

namespace SliceChain

/-- The chain after a successful `slice_of`. -/
def first (reg : Registry) (array slice start stop : Int) : SliceChain :=
  ⟨reg, array, slice, (start, stop), [], (reg.array? array).isSome⟩

variable (t : SliceChain)

def after (reg : Registry) : SliceChain :=
  { t with reg := reg, alive := t.alive && (reg.array? t.array).isSome }

def step (t : SliceChain) : ChainOp → SliceChain
  | .push id elem => t.after (t.reg.arrayPush id elem).1
  | .pop id => t.after (t.reg.arrayPop id).1
  | .set id index elem => t.after (t.reg.arraySet id index elem).1
  | .drop id => t.after (t.reg.arrayDrop id)
  | .sub start stop =>
    match t.reg.sliceSub t.slice start stop with
    | (reg, some id) =>
      { t.after reg with
        slice := id
        window := (t.window.1 + start, t.window.1 + stop)
        outer := t.window :: t.outer }
    | (reg, none) => t.after reg

/-- The last slice names the last window, or no window at all; windows are nested and representable;
the array is the one the chain began with, or none. -/
structure Sound (t : SliceChain) : Prop where
  named : ∀ array start len, t.reg.sliceWindow? t.slice = some (array, start, len) →
    array = t.array ∧ (start : Int) = t.window.1 ∧ (start + len : Int) = t.window.2
  bounds : 0 ≤ t.window.1 ∧ t.window.2 ≤ maxI64
  nested : ∀ w ∈ t.outer, w.1 ≤ t.window.1 ∧ t.window.2 ≤ w.2
  alive : ∀ a, t.reg.array? t.array = some a → t.alive = true

variable {t}

theorem Sound.after {reg : Registry} (h : t.Sound) (hfaded : Faded t.reg reg) :
    (t.after reg).Sound := by
  refine ⟨fun array start len hw => h.named array start len (hfaded.window hw), h.bounds, h.nested,
    fun a ha => ?_⟩
  obtain ⟨b, hb⟩ := hfaded.array ha
  have halive := h.alive b hb
  have hsome : reg.array? t.array = some a := ha
  simp [SliceChain.after, halive, hsome]

/-- What a successful `slice_sub` registers. -/
theorem sliceSub_eq_some {r reg : Registry} {slice start stop id : Int}
    (h : r.sliceSub slice start stop = (reg, some id)) :
    ∃ array base len, r.sliceWindow? slice = some (array, base, len) ∧ 0 ≤ start ∧ start ≤ stop ∧
      stop ≤ len ∧ id = drawn r.issued ∧
      reg = (r.insert (.slice ⟨array, base + start.toNat, stop.toNat - start.toNat⟩)).1 := by
  unfold sliceSub at h
  split at h
  · simp at h
  rename_i hbounds
  split at h
  · rename_i array base len hw
    split at h
    · simp at h
    rename_i hlen
    obtain ⟨hreg, hid⟩ := Prod.mk.inj h
    refine ⟨array, base, len, hw, by omega, by omega, by omega, (Option.some.inj hid).symm, hreg.symm⟩
  · simp at h

theorem sliceSub_none {r reg : Registry} {slice start stop : Int}
    (h : r.sliceSub slice start stop = (reg, none)) : reg = r := by
  unfold sliceSub at h
  split at h
  · exact (Prod.mk.inj h).1.symm
  split at h
  · split at h
    · exact (Prod.mk.inj h).1.symm
    · simp at h
  · exact (Prod.mk.inj h).1.symm

/-- The entry of a fresh slice makes no handle an array. -/
theorem array?_insert_slice {r : Registry} {s : SliceData} {k : Int} {a : ArrayData}
    (h : (r.insert (.slice s)).1.array? k = some a) : r.array? k = some a := by
  obtain ⟨hk, hl⟩ := array?_eq_some.mp h
  rw [lookup_insert] at hl
  split at hl
  · simp at hl
  · exact array?_eq_some.mpr ⟨hk, hl⟩

theorem Sound.sub {reg : Registry} {start stop id : Int} (h : t.Sound)
    (hsub : t.reg.sliceSub t.slice start stop = (reg, some id)) :
    (SliceChain.Sound { t.after reg with
      slice := id
      window := (t.window.1 + start, t.window.1 + stop)
      outer := t.window :: t.outer }) := by
  obtain ⟨array, base, len, hw, hstart, hstop, hlen, rfl, rfl⟩ := sliceSub_eq_some hsub
  obtain ⟨rfl, hbase, htop⟩ := h.named array base len hw
  have hbounds := h.bounds
  refine ⟨fun array' start' len' hnew => ?_, ?_, fun w hmem => ?_, fun a ha => ?_⟩
  · obtain ⟨-, hl⟩ := sliceWindow?_eq_some.mp hnew
    change (t.reg.insert _).1.lookup (drawn t.reg.issued) = _ at hl
    rw [lookup_insert, if_pos rfl] at hl
    simp only [Option.some.injEq, Handle.slice.injEq, SliceData.mk.injEq] at hl
    obtain ⟨rfl, rfl, rfl⟩ := hl
    refine ⟨rfl, ?_, ?_⟩
    · push_cast
      omega
    · push_cast
      omega
  · change 0 ≤ t.window.1 + start ∧ t.window.1 + stop ≤ maxI64
    omega
  · change w.1 ≤ t.window.1 + start ∧ t.window.1 + stop ≤ w.2
    rcases List.mem_cons.mp hmem with rfl | hmem
    · omega
    · have := h.nested w hmem
      omega
  · have hold := h.alive a (array?_insert_slice ha)
    have hsome : (t.reg.insert (.slice ⟨t.array, base + start.toNat, stop.toNat - start.toNat⟩)).1.array?
        t.array = some a := ha
    simp [SliceChain.after, hold, hsome]

theorem step_sound (op : ChainOp) (h : t.Sound) : (t.step op).Sound := by
  cases op with
  | push id elem => exact h.after (faded_arrayPush id elem)
  | pop id => exact h.after (faded_arrayPop id)
  | set id index elem => exact h.after (faded_arraySet id index elem)
  | drop id => exact h.after (faded_arrayDrop id)
  | sub start stop =>
    cases hsub : t.reg.sliceSub t.slice start stop with
    | mk reg made =>
      cases made with
      | none =>
        have hstep : t.step (.sub start stop) = t.after reg := by rw [step, hsub]
        rw [hstep, sliceSub_none hsub]
        exact h.after .refl
      | some id =>
        rw [step, hsub]
        exact h.sub hsub

theorem step_array (op : ChainOp) : (t.step op).array = t.array := by
  cases op with
  | sub start stop =>
    rw [step]
    split <;> rfl
  | _ => rfl

/-- What `slice_of` registers is sound: the bounds were checked against the array's length. -/
theorem first_sound {r reg : Registry} {array start stop id : Int} (hstop : stop ≤ maxI64)
    (h : r.sliceOf array start stop = (reg, some id)) : (first reg array id start stop).Sound := by
  unfold sliceOf at h
  split at h
  · simp at h
  rename_i hbounds
  split at h
  · rename_i a ha
    split at h
    · simp at h
    obtain ⟨rfl, hid⟩ := Prod.mk.inj h
    obtain rfl := Option.some.inj hid
    refine ⟨fun array' start' len' hw => ?_, ⟨?_, hstop⟩, fun w hw => absurd hw (by simp [first]), ?_⟩
    · obtain ⟨-, hl⟩ := sliceWindow?_eq_some.mp hw
      change (r.insert _).1.lookup (drawn r.issued) = _ at hl
      rw [lookup_insert, if_pos rfl] at hl
      simp only [Option.some.injEq, Handle.slice.injEq, SliceData.mk.injEq] at hl
      obtain ⟨rfl, rfl, rfl⟩ := hl
      change array = array ∧ ((start.toNat : ℕ) : Int) = start ∧
        ((start.toNat : ℕ) + (stop.toNat - start.toNat : ℕ) : Int) = stop
      omega
    · change 0 ≤ start
      omega
    · intro b hb
      exact Option.isSome_iff_exists.mpr ⟨b, hb⟩
  · simp at h

theorem run_sound (ops : List ChainOp) (h : t.Sound) :
    (execute step t ops).Sound ∧ (execute step t ops).array = t.array := by
  induction ops generalizing t with
  | nil => exact ⟨h, rfl⟩
  | cons op ops ih =>
    obtain ⟨hsound, harray⟩ := ih (step_sound op h)
    exact ⟨hsound, harray.trans (step_array op)⟩

/-- Index `i` of the array is `index` of the last window, inside every window of the chain and the
current length of the array, which was never dropped in between. -/
def Inside (t : SliceChain) (index : Int) (i : ℕ) (a : ArrayData) : Prop :=
  (i : Int) = t.window.1 + index ∧ (i : Int) ≤ maxI64 ∧
    (∀ w ∈ t.window :: t.outer, w.1 ≤ i ∧ i < w.2) ∧
    t.alive = true ∧ t.reg.array? t.array = some a ∧ i < a.elements.length

theorem Sound.inside {index : Int} {start len : ℕ} {a : ArrayData} (h : t.Sound)
    (hw : t.reg.sliceWindow? t.slice = some (t.array, start, len)) (hindex : 0 ≤ index)
    (hlen : index.toNat < len) (ha : t.reg.array? t.array = some a)
    (hlive : start + index.toNat < a.elements.length) : t.Inside index (start + index.toNat) a := by
  obtain ⟨-, hstart, hstop⟩ := h.named t.array start len hw
  have hbounds := h.bounds
  refine ⟨by push_cast; omega, by push_cast; omega, fun w hmem => ?_, h.alive a ha, ha, hlive⟩
  rcases List.mem_cons.mp hmem with rfl | hmem
  · push_cast
    omega
  · have hnested := h.nested w hmem
    push_cast
    omega

theorem Sound.get {index v : Int} (h : t.Sound) (hget : t.reg.sliceGet t.slice index = some v) :
    ∃ i a, t.Inside index i a ∧ a.elements[i]? = some v := by
  unfold sliceGet at hget
  split at hget
  · simp at hget
  rename_i hindex
  split at hget
  · rename_i array start len hw
    split at hget
    · simp at hget
    rename_i hlen
    obtain ⟨rfl, -, -⟩ := h.named array start len hw
    unfold Registry.arrayGet at hget
    split at hget
    · simp at hget
    obtain ⟨a, ha, hv⟩ := Option.bind_eq_some_iff.mp hget
    have htoNat : ((start : Int) + (index.toNat : Int)).toNat = start + index.toNat := by omega
    rw [htoNat] at hv
    obtain ⟨hlive, -⟩ := List.getElem?_eq_some_iff.mp hv
    exact ⟨_, a, h.inside hw (by omega) (by omega) ha hlive, hv⟩
  · simp at hget

theorem Sound.set {index v : Int} (h : t.Sound) (hset : (t.reg.sliceSet t.slice index v).2 = true) :
    ∃ i a, t.Inside index i a ∧
      (∃ w, (t.reg.sliceSet t.slice index v).1.array? t.array =
        some { a with elements := a.elements.set i w }) ∧
      ∀ k b, k ≠ t.array → (t.reg.sliceSet t.slice index v).1.array? k = some b →
        t.reg.array? k = some b := by
  unfold sliceSet at hset ⊢
  split at hset
  · simp at hset
  rename_i hindex
  split at hset
  · rename_i array start len hw
    split at hset
    · simp at hset
    rename_i hlen
    obtain ⟨rfl, -, -⟩ := h.named array start len hw
    have hcast : ((start : Int) + (index.toNat : Int)) = ((start + index.toNat : ℕ) : Int) := by
      push_cast
      rfl
    rw [hcast] at hset
    obtain ⟨a, ha, hlive, hwritten, hothers⟩ := arraySet_reaches hset
    rw [if_neg hindex, if_neg hlen, hcast]
    exact ⟨_, a, h.inside hw (by omega) (by omega) ha hlive, hwritten, hothers⟩
  · simp at hset

end SliceChain

open SliceChain

/-- Whatever is pushed, popped, written, dropped or narrowed after `slice_of`, an access through the
last slice that succeeds is to an element of the first array inside all windows, and the indices of
the last window are representable. -/
theorem access_inside {r reg : Registry} {array start stop id : Int} (hstop : stop ≤ maxI64)
    (hof : r.sliceOf array start stop = (reg, some id)) (ops : List ChainOp) :
    let t := execute SliceChain.step (first reg array id start stop) ops
    t.array = array ∧
    (∀ index v, t.reg.sliceGet t.slice index = some v →
      ∃ i a, t.Inside index i a ∧ a.elements[i]? = some v) ∧
    (∀ index v, (t.reg.sliceSet t.slice index v).2 = true → ∃ i a, t.Inside index i a ∧
      (∃ w, (t.reg.sliceSet t.slice index v).1.array? array =
        some { a with elements := a.elements.set i w }) ∧
      ∀ k b, k ≠ array → (t.reg.sliceSet t.slice index v).1.array? k = some b →
        t.reg.array? k = some b) ∧
    ∀ source base len, t.reg.sliceWindow? t.slice = some (source, base, len) →
      ((base + len : ℕ) : Int) ≤ maxI64 := by
  intro t
  obtain ⟨hsound, harray⟩ := run_sound ops (first_sound hstop hof)
  change t.Sound at hsound
  change t.array = array at harray
  refine ⟨harray, fun index v => hsound.get, fun index v hset => ?_, fun source base len hw => ?_⟩
  · have hreach := hsound.set hset
    rw [harray] at hreach
    exact hreach
  · obtain ⟨-, -, htop⟩ := hsound.named source base len hw
    have hbounds := hsound.bounds
    push_cast
    omega

/-- An array of four elements. -/
def fourElements : Registry :=
  [10, 20, 30, 40].foldl (fun r e => (r.arrayPush 1 e).1) (Registry.empty.arrayNew 8 false).1

theorem access_inside_popped :
    let t := execute SliceChain.step (first (fourElements.sliceOf 1 1 4).1 1 2 1 4) [.sub 1 3, .pop 1]
    t.reg.sliceGet t.slice 0 = some 30 ∧ ∃ i a, t.Inside 0 i a ∧ a.elements[i]? = some 30 := by
  intro t
  have hof : fourElements.sliceOf 1 1 4 = ((fourElements.sliceOf 1 1 4).1, some 2) :=
    Prod.ext rfl (by decide +kernel)
  have hget : t.reg.sliceGet t.slice 0 = some 30 := by decide +kernel
  exact ⟨hget, (access_inside (by decide) hof [.sub 1 3, .pop 1]).2.1 0 30 hget⟩

end Neutron
