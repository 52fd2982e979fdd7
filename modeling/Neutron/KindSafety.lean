import Neutron.AbiCalls
import Neutron.RegistryRun

/-!
# Handle kinds

A call resolves its handle before it does anything. Given a handle that is null, unknown,
consumed or of another kind, it leaves the table alone: silently, or by throwing. Calls
that go through `task_core` accept any wrapper of a scheduler core, and are harmless only
because a core belongs to one table.
-/

namespace Neutron

open Execution Registry

-- comparing draws by evaluation would unfold the two's complement reading
attribute [local irreducible] Registry.drawn

namespace Handle

def isString : Handle → Bool
  | .string _ => true
  | _ => false

def isArray : Handle → Bool
  | .array _ => true
  | _ => false

def isShared : Handle → Bool
  | .shared _ => true
  | _ => false

def isAsyncSleep : Handle → Bool
  | .asyncSleep .. => true
  | _ => false

def isChan : Handle → Bool
  | .chan .. => true
  | _ => false

def isSlice : Handle → Bool
  | .slice _ => true
  | _ => false

def isMemory : Handle → Bool
  | .memory _ => true
  | _ => false

def isOpaque (type : ℕ) : Handle → Bool
  | .opaqueValue t _ => t = type
  | _ => false

end Handle

namespace Registry

variable {r r' : Registry} {id : Int}

/-- The handle names no live entry of the kind. -/
def Lacks (r : Registry) (kind : Handle → Bool) (id : Int) : Prop :=
  ∀ hd, r.lookup id = some hd → kind hd = false

/-! ## Refusals of the registry -/

theorem takeString_of_lacks (h : r.Lacks Handle.isString id) : r.takeString id = (r, none) := by
  unfold takeString
  split
  · rfl
  cases hl : r.lookup id with
  | none => rfl
  | some hd =>
    cases hd with
    | string s => exact absurd (h _ hl) (by simp [Handle.isString])
    | _ => rfl

theorem asyncSleepDrop_of_lacks (h : r.Lacks Handle.isAsyncSleep id) : r.asyncSleepDrop id = r := by
  unfold asyncSleepDrop
  split
  · rfl
  cases hl : r.lookup id with
  | none => rfl
  | some hd =>
    cases hd with
    | asyncSleep state ms deadline => exact absurd (h _ hl) (by simp [Handle.isAsyncSleep])
    | _ => rfl

theorem takeOpaque_of_lacks {type : ℕ} (h : r.Lacks (Handle.isOpaque type) id) :
    r.takeOpaque type id = (r, none) := by
  unfold takeOpaque
  split
  · rfl
  cases hl : r.lookup id with
  | none => rfl
  | some hd =>
    cases hd with
    | opaqueValue t payload =>
      have hne : t ≠ type := by simpa [Handle.isOpaque] using h _ hl
      exact if_neg hne
    | _ => rfl

theorem removeKind_of_lacks {kind : Handle → Bool} (h : r.Lacks kind id) : r.removeKind id kind = (r, none) := by
  unfold removeKind
  cases hb : r.borrow id with
  | none => rfl
  | some hd => exact if_neg (by simp [h hd (lookup_of_borrow hb)])

theorem sharedRetain_of_lacks (h : r.Lacks Handle.isShared id) : r.sharedRetain id = (r, id) := by
  unfold sharedRetain
  cases hb : r.borrow id with
  | none => rfl
  | some hd =>
    cases hd with
    | shared s => exact absurd (h _ (lookup_of_borrow hb)) (by simp [Handle.isShared])
    | _ => rfl

theorem sharedRelease_of_lacks (h : r.Lacks Handle.isShared id) : r.sharedRelease id = (r, null) := by
  unfold sharedRelease
  split
  · rfl
  cases hl : r.lookup id with
  | none => rfl
  | some hd =>
    cases hd with
    | shared s => exact absurd (h _ hl) (by simp [Handle.isShared])
    | _ => rfl

theorem chanRetain_of_lacks (h : r.Lacks Handle.isChan id) : r.chanRetain id = (r, id) := by
  unfold chanRetain
  cases hb : r.borrow id with
  | none => rfl
  | some hd =>
    cases hd with
    | chan core count => exact absurd (h _ (lookup_of_borrow hb)) (by simp [Handle.isChan])
    | _ => rfl

theorem array?_of_lacks (h : r.Lacks Handle.isArray id) : r.array? id = none := by
  unfold array?
  cases hb : r.borrow id with
  | none => rfl
  | some hd =>
    cases hd with
    | array a => exact absurd (h _ (lookup_of_borrow hb)) (by simp [Handle.isArray])
    | _ => rfl

theorem arrayPush_of_lacks (h : r.Lacks Handle.isArray id) (elem : Int) : r.arrayPush id elem = (r, false) := by
  unfold arrayPush
  cases hl : r.lookup id with
  | none => rfl
  | some hd =>
    cases hd with
    | array a => exact absurd (h _ hl) (by simp [Handle.isArray])
    | _ => rfl

theorem arrayPop_of_lacks (h : r.Lacks Handle.isArray id) : r.arrayPop id = (r, none) := by
  unfold arrayPop
  split
  · rfl
  cases hl : r.lookup id with
  | none => rfl
  | some hd =>
    cases hd with
    | array a => exact absurd (h _ hl) (by simp [Handle.isArray])
    | _ => rfl

theorem arrayDrop_of_lacks (h : r.Lacks Handle.isArray id) : r.arrayDrop id = r := by
  unfold arrayDrop
  split
  · rfl
  cases hl : r.lookup id with
  | none => rfl
  | some hd =>
    cases hd with
    | array a => exact absurd (h _ hl) (by simp [Handle.isArray])
    | _ => rfl

theorem sliceDrop_of_lacks (h : r.Lacks Handle.isSlice id) : r.sliceDrop id = r := by
  unfold sliceDrop
  split
  · rfl
  cases hl : r.lookup id with
  | none => rfl
  | some hd =>
    cases hd with
    | slice s => exact absurd (h _ hl) (by simp [Handle.isSlice])
    | _ => rfl

theorem memoryDrop_of_lacks (h : r.Lacks Handle.isMemory id) : r.memoryDrop id = r := by
  unfold memoryDrop
  split
  · rfl
  cases hl : r.lookup id with
  | none => rfl
  | some hd =>
    cases hd with
    | memory m => exact absurd (h _ hl) (by simp [Handle.isMemory])
    | _ => rfl

theorem sliceWindow?_of_lacks (h : r.Lacks Handle.isSlice id) : r.sliceWindow? id = none := by
  unfold sliceWindow?
  cases hb : r.borrow id with
  | none => rfl
  | some hd =>
    cases hd with
    | slice s => exact absurd (h _ (lookup_of_borrow hb)) (by simp [Handle.isSlice])
    | _ => rfl

theorem memory?_of_lacks (h : r.Lacks Handle.isMemory id) : r.memory? id = none := by
  unfold memory?
  cases hb : r.borrow id with
  | none => rfl
  | some hd =>
    cases hd with
    | memory m => exact absurd (h _ (lookup_of_borrow hb)) (by simp [Handle.isMemory])
    | _ => rfl

theorem sliceOf_of_lacks (h : r.Lacks Handle.isArray id) (start stop : Int) :
    r.sliceOf id start stop = (r, none) := by
  unfold sliceOf
  split
  · rfl
  · rw [array?_of_lacks h]

theorem sliceSub_of_lacks (h : r.Lacks Handle.isSlice id) (start stop : Int) :
    r.sliceSub id start stop = (r, none) := by
  unfold sliceSub
  split
  · rfl
  · rw [sliceWindow?_of_lacks h]

theorem sliceGet_of_lacks (h : r.Lacks Handle.isSlice id) (index : Int) : r.sliceGet id index = none := by
  unfold sliceGet
  split
  · rfl
  · rw [sliceWindow?_of_lacks h]

theorem sliceSet_of_lacks (h : r.Lacks Handle.isSlice id) (index value : Int) :
    r.sliceSet id index value = (r, false) := by
  unfold sliceSet
  split
  · rfl
  · rw [sliceWindow?_of_lacks h]

theorem sliceCopyFrom_of_lacks {dst src : Int}
    (h : r.Lacks Handle.isSlice dst ∨ r.Lacks Handle.isSlice src) : r.sliceCopyFrom dst src = (r, false) := by
  unfold sliceCopyFrom
  rcases h with h | h
  · rw [sliceWindow?_of_lacks h]
  · rw [sliceWindow?_of_lacks h]
    cases r.sliceWindow? dst with
    | none => rfl
    | some window => rfl

theorem sliceEqual_of_lacks {a b : Int} (h : r.Lacks Handle.isSlice a ∨ r.Lacks Handle.isSlice b) :
    r.sliceEqual a b = none := by
  unfold sliceEqual
  rcases h with h | h
  · rw [sliceWindow?_of_lacks h]
  · rw [sliceWindow?_of_lacks h]
    cases r.sliceWindow? a with
    | none => rfl
    | some window => rfl

/-- A cached capability of the current generation names a live capability. -/
def Cached (r : Registry) (cache : Option CachedRegion) : Prop :=
  ∀ e, cache = some e → e.generation ≤ r.generation ∧
    (e.generation = r.generation → ∃ m, r.lookup e.id = some (.memory m))

theorem memoryRegion_of_lacks {cache : Option CachedRegion} (hc : r.Cached cache)
    (h : r.Lacks Handle.isMemory id) : r.memoryRegion cache id = (cache, none) := by
  unfold memoryRegion
  rw [memory?_of_lacks h]
  cases hcache : cache with
  | none => rfl
  | some e =>
    refine if_neg ?_
    rintro ⟨rfl, hg⟩
    obtain ⟨m, hm⟩ := (hc e hcache).2 hg
    exact absurd (h _ hm) (by simp [Handle.isMemory])

theorem taskCore_eq : r.taskCore id = (r.borrow id).bind Handle.core? := by
  unfold taskCore
  cases r.borrow id with
  | none => rfl
  | some hd => cases hd <;> rfl

end Registry

namespace Runtime

variable {s : Runtime} {id : Int}

theorem goroutineDrop_of_lacks (h : s.reg.Lacks Handle.isGoroutine id) : s.goroutineDrop id = s := by
  unfold goroutineDrop dropWrapper
  rw [removeKind_of_lacks h]
  rfl

theorem chanDrop_of_lacks (h : s.reg.Lacks Handle.isChan id) : s.chanDrop id = s := by
  unfold chanDrop
  split
  · rfl
  cases hl : s.reg.lookup id with
  | none => rfl
  | some hd =>
    cases hd with
    | chan core count => exact absurd (h _ hl) (by simp [Handle.isChan])
    | _ => rfl

/-- A wrapper that is not a channel has the core of another table. -/
def CoresApart (s : Runtime) : Prop :=
  ∀ id hd core, s.reg.lookup id = some hd → hd.core? = some core → hd.isChan = false →
    s.g.chans.lookup core = none

theorem chanClose_of_apart {core : Int} (h : s.CoresApart) (hk : s.reg.Lacks Handle.isChan id)
    (hc : s.reg.taskCore id = some core) : s.chanClose core = s := by
  rw [taskCore_eq] at hc
  obtain ⟨hd, hb, hcore⟩ := Option.bind_eq_some_iff.mp hc
  have hl := lookup_of_borrow hb
  have hnone := h id hd core hl hcore (hk hd hl)
  unfold chanClose
  rw [hnone]

end Runtime

/-! ## Refusals of the ABI -/

namespace AbiCall

/-- What a call that refuses its handle throws. -/
def fault : AbiCall → Option String
  | .slicesOf .. => some "slices.of: range is out of bounds"
  | .slicesSub .. => some "slices.sub: range is out of bounds"
  | .slicesLength _ => some "slices.length: not a slice"
  | .slicesGet .. => some "slices.get: index out of bounds"
  | .slicesSet .. => some "slices.set: index out of bounds"
  | .slicesToArray _ => some "slices.to_array: not a slice"
  | .slicesFill .. => some "slices.fill: not a slice"
  | .slicesCopyFrom .. => some "slices.copy_from: lengths differ or not a slice"
  | .slicesEqual .. => some "slices.equal: not a slice"
  | .memoryOffset .. => some "memory.offset: out of bounds or invalid pointer"
  | .memoryClone _ => some "memory.clone: invalid pointer"
  | .memoryLoad8 _ => some "memory.load8: out of bounds or invalid pointer"
  | .memoryLoad64 _ => some "memory.load64: out of bounds or invalid pointer"
  | .memoryStore8 _ value =>
      some (if value < 0 ∨ 255 < value then "memory.store8: value must be between 0 and 255"
        else "memory.store8: out of bounds or invalid pointer")
  | .memoryStore64 .. => some "memory.store64: out of bounds or invalid pointer"
  | _ => none

/-- What a call that refuses its handle returns. -/
def failure : AbiCall → Option Int
  | .stringDrop _ | .arrayDrop _ | .asyncSleepDrop _ | .goroutineDrop _ | .chanDrop _ | .chanClose _
  | .slicesDrop _ | .memoryDrop _ | .takeOpaque .. => none
  | .sharedRetain id | .chanRetain id => some id
  | .chanSend .. | .chanRecv _ => some 1
  | _ => some null

end AbiCall

namespace World

variable {w : World} {t : ℕ}

/-- The handle of the call names no live entry of the kind the call expects. -/
def Refuses (w : World) : AbiCall → Prop
  | .stringDrop id => w.rt.reg.Lacks Handle.isString id
  | .arrayPush id _ | .arraySet id _ _ | .arrayPop id | .arrayDrop id | .slicesOf id _ _ =>
      w.rt.reg.Lacks Handle.isArray id
  | .sharedRetain id | .sharedRelease id => w.rt.reg.Lacks Handle.isShared id
  | .asyncSleepDrop id => w.rt.reg.Lacks Handle.isAsyncSleep id
  | .goroutineDrop id => w.rt.reg.Lacks Handle.isGoroutine id
  | .chanRetain id | .chanDrop id | .chanClose id | .chanSend id _ | .chanRecv id =>
      w.rt.reg.Lacks Handle.isChan id
  | .slicesSub id _ _ | .slicesLength id | .slicesGet id _ | .slicesSet id _ _ | .slicesToArray id
  | .slicesFill id _ | .slicesDrop id => w.rt.reg.Lacks Handle.isSlice id
  | .slicesCopyFrom a b | .slicesEqual a b =>
      w.rt.reg.Lacks Handle.isSlice a ∨ w.rt.reg.Lacks Handle.isSlice b
  | .memoryOffset id _ | .memoryClone id | .memoryDrop id | .memoryLoad8 id | .memoryLoad64 id
  | .memoryStore8 id _ | .memoryStore64 id _ => w.rt.reg.Lacks Handle.isMemory id
  | .takeOpaque type id => w.rt.reg.Lacks (Handle.isOpaque type) id

/-- A send or a receive whose handle names some scheduler core parks on that core. -/
def Parks (w : World) : AbiCall → Prop
  | .chanSend id _ | .chanRecv id => w.rt.reg.taskCore id ≠ none
  | _ => False

/-- The call threw: one new string, pending on the calling thread, and nothing else. -/
structure Throws (w : World) (t : ℕ) (message : String) (out : World × Option Int) : Prop where
  reply : out.2 = some null
  pending : ∃ k, w.rt.reg.lookup k = none ∧ out.1.rt.reg.lookup k = some (.string message) ∧
    (∀ id, id ≠ k → out.1.rt.reg.lookup id = w.rt.reg.lookup id) ∧
    out.1.thread = Function.update w.thread t { w.thread t with pending := some k }
  live : out.1.rt.reg.live = w.rt.reg.live + 1
  permanent : out.1.rt.reg.permanent = w.rt.reg.permanent
  scheduler : out.1.rt.g = w.rt.g ∧ out.1.rt.interests = w.rt.interests

theorem withReg_self : w.withReg w.rt.reg = w := rfl

theorem onThread_cache_self : w.onThread t (fun th => { th with cache := (w.thread t).cache }) = w := by
  unfold onThread
  rw [Function.update_eq_self]

theorem orThrow_none (message : String) : w.orThrow t w.rt.reg none message =
    ((w.throwString t message).1, some (w.throwString t message).2) := rfl

theorem throws_throwString (hb : w.rt.reg.Balanced) (hi : w.rt.reg.issued + 1 < 2 ^ 64) (message : String) :
    Throws w t message ((w.throwString t message).1, some (w.throwString t message).2) := by
  have hne : (w.rt.reg.putString message).2 ≠ null := drawn_ne_null (n := w.rt.reg.issued) (by omega)
  have heq : w.throwString t message = ((w.withReg (w.rt.reg.putString message).1).onThread t
      (fun th => { th with pending := some (w.rt.reg.putString message).2 }), null) := by
    unfold throwString throw
    dsimp only
    rw [if_neg hne]
  have hlookup (k : Int) : (w.rt.reg.putString message).1.lookup k =
      if k = drawn w.rt.reg.issued then some (.string message) else w.rt.reg.lookup k := by
    rw [Registry.putString, lookup_congr (shards_insert _), lookup_store]
  rw [heq]
  refine ⟨rfl, ⟨drawn w.rt.reg.issued, hb.fresh (by omega), ?_, fun id hid => ?_, rfl⟩, rfl, rfl, rfl, rfl⟩
  · exact (hlookup _).trans (if_pos rfl)
  · exact (hlookup id).trans (if_neg hid)

/-- A refused call that does not throw returns its safe failure and changes nothing. -/
theorem call_of_refuses {c : AbiCall} (hcores : w.rt.CoresApart) (h : w.Refuses c) (hf : c.fault = none)
    (hp : ¬w.Parks c) : w.call t c = (w, c.failure) := by
  cases c with
  | stringDrop id =>
    rw [call, stringDrop, takeString_of_lacks h]
    rfl
  | arrayPush id elem =>
    rw [call, arrayPush, arrayPush_of_lacks h]
    rfl
  | arraySet id index elem =>
    have hno : w.rt.reg.isArray id = false := by rw [isArray, array?_of_lacks h, Option.isSome_none]
    rw [call, arraySet, if_neg (by simp [hno])]
    rfl
  | arrayPop id =>
    rw [call, arrayPop, arrayPop_of_lacks h]
    rfl
  | arrayDrop id =>
    rw [call, arrayDrop, arrayDrop_of_lacks h]
    rfl
  | sharedRetain id =>
    rw [call, sharedRetain_of_lacks h]
    rfl
  | sharedRelease id =>
    rw [call, sharedRelease_of_lacks h]
    rfl
  | asyncSleepDrop id =>
    rw [call, asyncSleepDrop_of_lacks h]
    rfl
  | goroutineDrop id =>
    rw [call, Runtime.goroutineDrop_of_lacks h]
    rfl
  | chanRetain id =>
    rw [call, chanRetain_of_lacks h]
    rfl
  | chanDrop id =>
    rw [call, Runtime.chanDrop_of_lacks h]
    rfl
  | chanClose id =>
    rw [call, chanClose]
    cases hc : w.rt.reg.taskCore id with
    | none => rfl
    | some core =>
      dsimp only
      rw [Runtime.chanClose_of_apart hcores h hc]
      rfl
  | chanSend id value =>
    have hnone : w.rt.reg.taskCore id = none := by simpa [Parks] using hp
    rw [call, chanSend, hnone]
    rfl
  | chanRecv id =>
    have hnone : w.rt.reg.taskCore id = none := by simpa [Parks] using hp
    rw [call, chanRecv, hnone]
    rfl
  | slicesDrop id =>
    rw [call, sliceDrop_of_lacks h]
    rfl
  | memoryDrop id =>
    rw [call, memoryDrop_of_lacks h]
    rfl
  | takeOpaque type id =>
    rw [call, takeOpaque_of_lacks h]
    rfl
  | _ => cases hf

/-- A send or a receive leaves the registry and the scheduler to the end of the poll. -/
theorem rt_call_of_parks {c : AbiCall} (hp : w.Parks c) : (w.call t c).1.rt = w.rt := by
  cases c with
  | chanSend id value =>
    rw [call, chanSend]
    cases w.rt.reg.taskCore id with
    | none => rfl
    | some core =>
      dsimp only [parkChanSend]
      split
      · rfl
      · rfl
  | chanRecv id =>
    rw [call, chanRecv]
    cases w.rt.reg.taskCore id with
    | none => rfl
    | some core =>
      dsimp only [parkChanRecv]
      split
      · rfl
      · rfl
  | _ => cases hp

theorem memoryLoad_of_lacks {id : Int} (hc : w.rt.reg.Cached (w.thread t).cache)
    (h : w.rt.reg.Lacks Handle.isMemory id) (width : ℕ) : w.memoryLoad t id width = (w, none) := by
  unfold memoryLoad Registry.memoryLoad
  rw [memoryRegion_of_lacks hc h]
  dsimp only
  rw [onThread_cache_self]

theorem memoryStore_of_lacks {id : Int} (hc : w.rt.reg.Cached (w.thread t).cache)
    (h : w.rt.reg.Lacks Handle.isMemory id) (width : ℕ) (value : Int) :
    w.memoryStore t id width value = (w, false) := by
  unfold memoryStore Registry.memoryStore
  rw [memoryRegion_of_lacks hc h]
  dsimp only
  rw [withReg_self, onThread_cache_self]

/-- A refused call of the `slices` and `memory` modules throws its message. -/
theorem call_of_fault {c : AbiCall} {message : String} (hc : w.rt.reg.Cached (w.thread t).cache)
    (h : w.Refuses c) (hf : c.fault = some message) :
    w.call t c = ((w.throwString t message).1, some (w.throwString t message).2) := by
  rw [← orThrow_none]
  cases c with
  | slicesOf array start stop =>
    obtain rfl := Option.some_inj.mp hf
    rw [call, sliceOf_of_lacks h]
  | slicesSub id start stop =>
    obtain rfl := Option.some_inj.mp hf
    rw [call, sliceSub_of_lacks h]
  | slicesLength id =>
    obtain rfl := Option.some_inj.mp hf
    rw [call, sliceLen, sliceWindow?_of_lacks h]
    rfl
  | slicesGet id index =>
    obtain rfl := Option.some_inj.mp hf
    rw [call, sliceGet_of_lacks h]
  | slicesSet id index value =>
    obtain rfl := Option.some_inj.mp hf
    rw [call, sliceSet_of_lacks h]
    rfl
  | slicesToArray id =>
    obtain rfl := Option.some_inj.mp hf
    rw [call, sliceToArray, sliceWindow?_of_lacks h]
  | slicesFill id value =>
    obtain rfl := Option.some_inj.mp hf
    rw [call, sliceFill, sliceWindow?_of_lacks h]
    rfl
  | slicesCopyFrom dst src =>
    obtain rfl := Option.some_inj.mp hf
    rw [call, sliceCopyFrom_of_lacks h]
    rfl
  | slicesEqual a b =>
    obtain rfl := Option.some_inj.mp hf
    rw [call, sliceEqual_of_lacks h]
    rfl
  | memoryOffset id delta =>
    obtain rfl := Option.some_inj.mp hf
    rw [call, memoryOffset, memory?_of_lacks h]
  | memoryClone id =>
    obtain rfl := Option.some_inj.mp hf
    rw [call, memoryClone, memory?_of_lacks h]
  | memoryLoad8 id =>
    obtain rfl := Option.some_inj.mp hf
    rw [call, loadOrThrow, memoryLoad_of_lacks hc h]
    rfl
  | memoryLoad64 id =>
    obtain rfl := Option.some_inj.mp hf
    rw [call, loadOrThrow, memoryLoad_of_lacks hc h]
    rfl
  | memoryStore8 id value =>
    obtain rfl := Option.some_inj.mp hf
    rw [call]
    split
    · rfl
    · rw [storeOrThrow, memoryStore_of_lacks hc h]
      rfl
  | memoryStore64 id value =>
    obtain rfl := Option.some_inj.mp hf
    rw [call, storeOrThrow, memoryStore_of_lacks hc h]
    rfl
  | _ => cases hf

end World
end Neutron
