import Neutron.ArrayOwnership
import Neutron.RegistryRun

/-!
# The capability cache

A thread that loads and stores through capabilities looks the last one up in its own cache. The entry is
used as long as the generation counter stands where it stood, and an operation on the registry leaves
the counter alone only if it removes no capability. So a run with the cache answers like a run
without, and every byte read is the one last stored at its place.
-/

namespace Neutron.Registry

/-- Once around, the counter returns the first handle again. -/
theorem drawn_first_again : ∃ n, drawn (1 + n) = 1 := ⟨2 ^ 64 - 1, by decide⟩

attribute [local irreducible] drawn

variable {P : Int → Prop} {r r' : Registry} {id : Int} {m : MemoryData} {cache : Option CachedRegion}

theorem memory?_eq_some : r.memory? id = some m ↔ id ≠ null ∧ r.lookup id = some (.memory m) := by
  unfold memory? borrow
  by_cases hid : id = null
  · simp [hid]
  · rw [if_neg hid]
    constructor
    · intro h
      split at h
      · rename_i heq
        rw [heq, Option.some.inj h]
        exact ⟨hid, rfl⟩
      · simp at h
    · rintro ⟨-, h⟩
      rw [h]

theorem Reaches.generation_le (h : Reaches P r r') : r.generation ≤ r'.generation := by
  induction h with
  | refl => exact le_rfl
  | retire _ _ _ g hg ih =>
    change r.generation ≤ g
    omega
  | _ => assumption

/-- As long as the generation counter stands still a capability stays what it is. -/
theorem Reaches.memory? (h : Reaches P r r') (hb : r.Balanced) (hi : r'.issued < 2 ^ 64)
    (hg : r'.generation = r.generation) (hm : r.memory? id = some m) : r'.memory? id = some m := by
  obtain ⟨hid, hl⟩ := memory?_eq_some.mp hm
  refine memory?_eq_some.mpr ⟨hid, ?_⟩
  induction h with
  | refl => exact hl
  | draw h ih => exact ih (lt_trans (Nat.lt_succ_self _) hi) hg
  | @insert r'' h hd _ ih =>
    have hissued : r''.issued + 1 < 2 ^ 64 := hi
    have hold := ih (by omega) hg
    have hfresh := (h.balanced hb (by omega)).fresh (by omega)
    rw [lookup_insert]
    by_cases hnew : id = drawn r''.issued
    · rw [hnew, hfresh] at hold
      cases hold
    · rw [if_neg hnew, hold]
  | @retire r'' k hd h _ hk g hkind ih =>
    change g = r.generation at hg
    have hle := h.generation_le
    obtain ⟨hsame, hplain⟩ : g = r''.generation ∧ ∀ m, hd ≠ .memory m := by
      rcases hkind with hbump | hplain
      · omega
      · exact hplain
    have hold := ih hi (by omega)
    change (r''.discard k).lookup id = _
    rw [lookup_discard]
    by_cases heq : id = k
    · rw [← heq, hold] at hk
      exact absurd (Option.some.inj hk).symm (hplain m)
    · rw [if_neg heq, hold]
  | @modify r'' k hd h hk f hf ih =>
    have hold := ih hi hg
    rw [lookup_modify]
    by_cases heq : id = k
    · rw [← heq, hold] at hk
      obtain rfl := Option.some.inj hk
      cases hf
    · rw [if_neg heq, hold]
  | @exchange r'' k t payload h hk value ih =>
    have hold := ih hi hg
    rw [lookup_store]
    by_cases heq : id = k
    · rw [← heq, hold] at hk
      cases hk
    · rw [if_neg heq, lookup_discard, if_neg heq, hold]
  | frame h sites regions ih => exact ih hi hg

/-- An id that was drawn and names nothing names nothing from then on. -/
theorem Reaches.stays_gone (h : Reaches P r r') (hi : r'.issued < 2 ^ 64)
    (hdrawn : ∃ n < r.issued, id = drawn n) (hl : r.lookup id = none) : r'.lookup id = none := by
  obtain ⟨n, hn, rfl⟩ := hdrawn
  induction h with
  | refl => exact hl
  | draw h ih => exact ih (lt_trans (Nat.lt_succ_self _) hi)
  | @insert r'' h hd _ ih =>
    have hissued : r''.issued + 1 < 2 ^ 64 := hi
    have hle := h.issued_le
    rw [lookup_insert]
    by_cases hnew : drawn n = drawn r''.issued
    · have := drawn_injective (by omega) (by omega) hnew
      omega
    · rw [if_neg hnew, ih (by omega)]
  | @retire r'' k hd h _ hk g _ ih =>
    change (r''.discard k).lookup (drawn n) = none
    rw [lookup_discard]
    by_cases heq : drawn n = k
    · rw [if_pos heq]
    · rw [if_neg heq, ih hi]
  | @modify r'' k hd h hk f _ ih =>
    rw [lookup_modify, ih hi]
    exact ite_self _
  | @exchange r'' k t payload h hk value ih =>
    have hold := ih hi
    rw [lookup_store]
    by_cases heq : drawn n = k
    · rw [← heq, hold] at hk
      cases hk
    · rw [if_neg heq, lookup_discard, if_neg heq, hold]
  | frame h sites regions ih => exact ih hi

/-- A cached capability is registered as it was cached, for as long as the generation is the same. -/
def CacheValid (r : Registry) (cache : Option CachedRegion) : Prop :=
  ∀ e, cache = some e → e.generation ≤ r.generation ∧
    (e.generation = r.generation → r.memory? e.id = some ⟨e.region, e.offset⟩)

theorem cacheValid_none : r.CacheValid none := fun _ h => by cases h

theorem CacheValid.reaches (hv : r.CacheValid cache) (h : Reaches P r r') (hb : r.Balanced)
    (hi : r'.issued < 2 ^ 64) : r'.CacheValid cache := by
  intro e he
  obtain ⟨hle, hfound⟩ := hv e he
  have hstep := h.generation_le
  refine ⟨hle.trans hstep, fun hsame => ?_⟩
  exact h.memory? hb hi (by omega) (hfound (by omega))

/-- Resolving a capability through a valid cache finds what the registry holds. -/
theorem CacheValid.memoryRegion (hv : r.CacheValid cache) (id : Int) :
    (r.memoryRegion cache id).2 = (r.memory? id).map (fun m => (m.region, m.offset)) ∧
      r.CacheValid (r.memoryRegion cache id).1 := by
  obtain ⟨entry, hentry, hid, hgen, h⟩ | ⟨m, hm, h⟩ | ⟨hm, h⟩ := r.memoryRegion_cases cache id <;> rw [h]
  · have hfound := (hv entry hentry).2 hgen
    rw [hid] at hfound
    exact ⟨by rw [hfound]; rfl, hv⟩
  · refine ⟨by rw [hm]; rfl, fun e he => ?_⟩
    obtain rfl := Option.some.inj he
    exact ⟨le_rfl, fun _ => hm⟩
  · exact ⟨by rw [hm]; rfl, hv⟩

theorem CacheValid.memoryLoad (hv : r.CacheValid cache) (id : Int) (width : ℕ) :
    (r.memoryLoad cache id width).2 = (r.memoryLoad none id width).2 ∧
      r.CacheValid (r.memoryLoad cache id width).1 := by
  obtain ⟨hfound, hnext⟩ := hv.memoryRegion id
  obtain ⟨hplain, -⟩ := (cacheValid_none (r := r)).memoryRegion id
  unfold Registry.memoryLoad
  rw [← hplain] at hfound
  rcases hc : r.memoryRegion cache id with ⟨cache', found⟩
  rcases hn : r.memoryRegion none id with ⟨cache'', found'⟩
  rw [hc] at hfound hnext
  rw [hn] at hfound
  obtain rfl : found = found' := hfound
  cases found with
  | none => exact ⟨rfl, hnext⟩
  | some place =>
    dsimp only
    split
    · exact ⟨rfl, hnext⟩
    · exact ⟨rfl, hnext⟩

theorem CacheValid.memoryStore (hv : r.CacheValid cache) (id : Int) (width : ℕ) (value : Int) :
    (r.memoryStore cache id width value).1 = (r.memoryStore none id width value).1 ∧
      (r.memoryStore cache id width value).2.2 = (r.memoryStore none id width value).2.2 ∧
      r.CacheValid (r.memoryStore cache id width value).2.1 := by
  obtain ⟨hfound, hnext⟩ := hv.memoryRegion id
  obtain ⟨hplain, -⟩ := (cacheValid_none (r := r)).memoryRegion id
  unfold Registry.memoryStore
  rw [← hplain] at hfound
  rcases hc : r.memoryRegion cache id with ⟨cache', found⟩
  rcases hn : r.memoryRegion none id with ⟨cache'', found'⟩
  rw [hc] at hfound hnext
  rw [hn] at hfound
  obtain rfl : found = found' := hfound
  cases found with
  | none => exact ⟨rfl, rfl, hnext⟩
  | some place =>
    dsimp only
    split
    · exact ⟨rfl, rfl, hnext⟩
    · exact ⟨rfl, rfl, hnext⟩

end Neutron.Registry

/-! ### Byte regions -/

namespace Neutron

/-- What happened to the byte regions, latest event first. -/
inductive MemoryEvent where
  | allocated (region size : ℕ)
  | stored (region offset width : ℕ) (value : Int)

/-- The byte last stored at a place: zero in a fresh allocation, none outside of it. -/
def lastStored (initial : List (List UInt8)) : List MemoryEvent → ℕ → ℕ → Option UInt8
  | [], n, p => (initial.getD n [])[p]?
  | .allocated m size :: events, n, p =>
      if n = m then (if p < size then some 0 else none) else lastStored initial events n p
  | .stored m offset width value :: events, n, p =>
      if n = m ∧ offset ≤ p ∧ p < offset + width then (Registry.leBytes width value)[p - offset]?
      else lastStored initial events n p

namespace Registry

attribute [local irreducible] drawn

variable {r : Registry} {id : Int} {m : MemoryData}

theorem length_leBytes (width : ℕ) (value : Int) : (leBytes width value).length = width := by
  rw [leBytes, List.length_map, List.length_range]

theorem region_memoryAlloc (size n p : ℕ) :
    ((r.memoryAlloc size).1.region n)[p]? =
      if n = r.regions.length then (if p < size then some 0 else none) else (r.region n)[p]? := by
  change ((r.regions ++ [List.replicate size 0]).getD n [])[p]? = _
  rw [List.getD_eq_getElem?_getD]
  by_cases hn : n = r.regions.length
  · rw [if_pos hn, hn, List.getElem?_concat_length, Option.getD_some, List.getElem?_replicate]
  · rw [if_neg hn, region, List.getD_eq_getElem?_getD]
    by_cases hlt : n < r.regions.length
    · rw [List.getElem?_append_left hlt]
    · have hpast : (r.regions ++ [List.replicate size 0])[n]? = none := by
        rw [List.getElem?_eq_none_iff, List.length_append, List.length_singleton]
        omega
      have hpast' : r.regions[n]? = none := List.getElem?_eq_none_iff.mpr (by omega)
      rw [hpast, hpast']

/-- A splice of the same length, slot by slot. -/
theorem getElem?_splice {α : Type} (l new : List α) (offset p : ℕ) (h : offset + new.length ≤ l.length) :
    (l.take offset ++ new ++ l.drop (offset + new.length))[p]? =
      if offset ≤ p ∧ p < offset + new.length then new[p - offset]? else l[p]? := by
  have hlen : (l.take offset).length = offset := by
    rw [List.length_take]
    omega
  by_cases hbefore : p < offset
  · rw [if_neg (by omega), List.append_assoc, List.getElem?_append_left (by omega),
      List.getElem?_take_of_lt hbefore]
  · by_cases hin : p < offset + new.length
    · rw [if_pos (by omega), List.append_assoc, List.getElem?_append_right (by omega), hlen,
        List.getElem?_append_left (by omega)]
    · rw [if_neg (by omega), List.getElem?_append_right (by rw [List.length_append]; omega),
        List.length_append, hlen, List.getElem?_drop]
      congr 1
      omega

theorem memoryRegion_none (id : Int) :
    (r.memoryRegion none id).2 = (r.memory? id).map (fun m => (m.region, m.offset)) :=
  (cacheValid_none.memoryRegion id).1

/-- A load the registry resolves reads the bytes of the region at the capability's offset. -/
theorem memoryLoad_none (id : Int) (width : ℕ) :
    (r.memoryLoad none id width).2 = (r.memory? id).bind (fun m =>
      if m.offset + width ≤ (r.region m.region).length then
        some (toI64 (fromLeBytes (((r.region m.region).drop m.offset).take width)))
      else none) := by
  have hfound := memoryRegion_none (r := r) id
  unfold memoryLoad
  rcases hn : r.memoryRegion none id with ⟨cache, found⟩
  rw [hn] at hfound
  dsimp only at hfound
  subst hfound
  cases r.memory? id with
  | none => rfl
  | some m =>
    dsimp only [Option.map_some, Option.bind_some]
    split
    · rfl
    · rfl

theorem memoryStore_none (id : Int) (width : ℕ) (value : Int) :
    (r.memoryStore none id width value).1 = (match r.memory? id with
      | some m =>
          if m.offset + width ≤ (r.region m.region).length then
            { r with regions := r.regions.set m.region ((r.region m.region).take m.offset ++
              leBytes width value ++ (r.region m.region).drop (m.offset + width)) }
          else r
      | none => r) ∧
    (r.memoryStore none id width value).2.2 =
      (r.memory? id).any (fun m => m.offset + width ≤ (r.region m.region).length) := by
  have hfound := memoryRegion_none (r := r) id
  unfold memoryStore
  rcases hn : r.memoryRegion none id with ⟨cache, found⟩
  rw [hn] at hfound
  dsimp only at hfound
  subst hfound
  cases r.memory? id with
  | none => exact ⟨rfl, rfl⟩
  | some m =>
    dsimp only [Option.map_some, Option.any_some]
    by_cases hfits : m.offset + width ≤ (r.region m.region).length
    · rw [if_pos hfits, if_pos hfits]
      exact ⟨rfl, (decide_eq_true hfits).symm⟩
    · rw [if_neg hfits, if_neg hfits]
      exact ⟨rfl, (decide_eq_false hfits).symm⟩

/-- What a store does to the bytes of every region. -/
theorem region_memoryStore {width : ℕ} (value : Int) (hm : r.memory? id = some m)
    (hfits : m.offset + width ≤ (r.region m.region).length) (n p : ℕ) :
    ((r.memoryStore none id width value).1.region n)[p]? =
      if n = m.region ∧ m.offset ≤ p ∧ p < m.offset + width then (leBytes width value)[p - m.offset]?
      else (r.region n)[p]? := by
  rw [(memoryStore_none id width value).1, hm]
  dsimp only
  rw [if_pos hfits]
  change ((r.regions.set m.region _).getD n [])[p]? = _
  have hlen := length_leBytes width value
  rw [List.getD_eq_getElem?_getD]
  by_cases hn : n = m.region
  · subst hn
    have hsplice := getElem?_splice (r.region m.region) (leBytes width value) m.offset p
      (by rw [hlen]; exact hfits)
    rw [hlen] at hsplice
    by_cases hin : m.region < r.regions.length
    · rw [List.getElem?_set_self hin, Option.getD_some, hsplice]
      simp only [true_and]
    · have hempty : r.region m.region = [] := by
        rw [region, List.getD_eq_getElem?_getD, List.getElem?_eq_none_iff.mpr (by omega)]
        rfl
      rw [List.set_eq_of_length_le (by omega), ← List.getD_eq_getElem?_getD]
      change (r.region m.region)[p]? = _
      rw [hempty] at hfits ⊢
      have hwidth : width = 0 := by
        rw [List.length_nil] at hfits
        omega
      rw [if_neg (by omega)]
  · rw [List.getElem?_set_ne (fun heq => hn heq.symm), ← List.getD_eq_getElem?_getD,
      if_neg (fun hall => hn hall.1)]
    rfl

end Registry
end Neutron

/-! ### Removals and the byte regions -/

namespace Neutron

namespace Registry

variable {r : Registry}

theorem regions_remove (id : Int) : (r.remove id).1.regions = r.regions := by
  unfold remove
  split
  · rfl
  · cases r.lookup id with
    | none => rfl
    | some hd => rfl

theorem regions_removeAll (ids : List Int) : (r.removeAll ids).regions = r.regions := by
  unfold removeAll
  induction ids generalizing r with
  | nil => rfl
  | cons id ids ih => exact ih.trans (regions_remove id)

theorem regions_removeKind (id : Int) (kind : Handle → Bool) :
    (r.removeKind id kind).1.regions = r.regions := by
  unfold removeKind
  cases r.borrow id with
  | none => rfl
  | some hd =>
    dsimp only
    split
    · exact regions_remove id
    · rfl

theorem regions_takeString (id : Int) : (r.takeString id).1.regions = r.regions := by
  unfold takeString
  split
  · rfl
  · cases r.lookup id with
    | none => rfl
    | some hd => cases hd <;> rfl

theorem regions_takeStrings (ids : List Int) : (r.takeStrings ids).regions = r.regions := by
  unfold takeStrings
  induction ids generalizing r with
  | nil => rfl
  | cons id ids ih => exact ih.trans (regions_takeString id)

theorem regions_takeOpaque (type : ℕ) (id : Int) : (r.takeOpaque type id).1.regions = r.regions := by
  unfold takeOpaque
  split
  · rfl
  · split
    · split
      · rfl
      · rfl
    · rfl

theorem regions_arrayDrop (id : Int) : (r.arrayDrop id).regions = r.regions := by
  unfold arrayDrop
  split
  · rfl
  · split
    · dsimp only
      split
      · exact (regions_takeStrings _).trans (regions_remove id)
      · exact regions_remove id
    · rfl

theorem regions_sharedRelease (id : Int) : (r.sharedRelease id).1.regions = r.regions := by
  unfold sharedRelease
  split
  · rfl
  · split
    · split
      · rfl
      · rfl
    · rfl

theorem regions_sliceDrop (id : Int) : (r.sliceDrop id).regions = r.regions := by
  unfold sliceDrop
  split
  · rfl
  · split <;> rfl

theorem regions_asyncSleepDrop (id : Int) : (r.asyncSleepDrop id).regions = r.regions := by
  unfold asyncSleepDrop
  split
  · rfl
  · split <;> rfl

theorem regions_removeGoroutineHandle (id : Int) : (r.removeGoroutineHandle id).regions = r.regions := by
  unfold removeGoroutineHandle
  split
  · rfl
  · split <;> rfl

theorem regions_memoryDrop (id : Int) : (r.memoryDrop id).regions = r.regions := by
  unfold memoryDrop
  split
  · rfl
  · split <;> rfl

theorem regions_memoryOffset (id delta : Int) : (r.memoryOffset id delta).1.regions = r.regions := by
  unfold memoryOffset
  cases r.memory? id with
  | none => rfl
  | some m =>
    dsimp only
    split
    · rfl
    · rfl

theorem regions_memoryClone (id : Int) : (r.memoryClone id).1.regions = r.regions := by
  unfold memoryClone
  cases r.memory? id <;> rfl

end Registry

namespace Runtime
open Registry

variable {s : Runtime}

theorem regions_dropChan (core : Int) : (s.dropChan core).reg.regions = s.reg.regions := by
  unfold dropChan
  cases s.g.chans.lookup core with
  | none => rfl
  | some chan =>
    dsimp only
    split
    · exact regions_removeAll _
    · rfl

theorem regions_dropGoroutine (core : Int) : (s.dropGoroutine core).1.reg.regions = s.reg.regions := by
  unfold dropGoroutine
  cases s.g.goroutines.lookup core with
  | none => rfl
  | some gr => exact regions_removeAll _

theorem regions_dropOp (core : Int) : (s.dropOp core).reg.regions = s.reg.regions := by
  unfold dropOp
  cases s.g.ops.lookup core with
  | none => rfl
  | some op =>
    dsimp only
    split
    · exact regions_remove _
    · rfl

theorem regions_dropWrapper (kind : Handle → Bool) (id : Int) {release : Runtime → Int → Runtime}
    (hrelease : ∀ s core, (release s core).reg.regions = s.reg.regions) :
    (s.dropWrapper kind id release).reg.regions = s.reg.regions := by
  have h := regions_removeKind (r := s.reg) id kind
  unfold dropWrapper
  dsimp only
  cases (s.reg.removeKind id kind).2.bind Handle.core? with
  | none => exact h
  | some core => exact (hrelease _ core).trans h

theorem regions_chanDrop (id : Int) : (s.chanDrop id).reg.regions = s.reg.regions := by
  unfold chanDrop
  split
  · rfl
  · split
    · split
      · rfl
      · exact regions_dropChan _
    · rfl

theorem regions_asyncOpDrop (id : Int) : (s.asyncOpDrop id).reg.regions = s.reg.regions := by
  unfold asyncOpDrop
  split
  · rfl
  dsimp only
  cases s.pendingOp id with
  | none => exact regions_removeKind id _
  | some op => exact (regions_removeKind id _).trans (regions_dropOp op)

end Runtime

end Neutron

/-! ### One thread -/

namespace Neutron
open Execution Registry

attribute [local irreducible] drawn

/-- The widths of loads and stores. -/
inductive Width where
  | byte
  | word

def Width.bytes : Width → ℕ
  | .byte => 1
  | .word => 8

/-- The operations that remove entries, of strings, arrays, opaque values, boxes and task handles. -/
def RegistryOp.Removes : RegistryOp → Prop
  | .remove _ | .takeString _ | .takeOpaque .. | .arrayDrop _ | .sharedRelease _ | .chanDrop _
  | .sliceDrop _ | .asyncSleepDrop _ | .asyncOpDrop _ | .goroutineDrop _ | .removeGoroutineHandle _
  | .reactorRegDrop _ | .asyncIoDrop _ => True
  | _ => False

inductive CapabilityOp where
  | alloc (size : ℕ)
  | offset (id delta : Int)
  | clone (id : Int)
  | drop (id : Int)
  | load (id : Int) (width : Width)
  | store (id : Int) (width : Width) (value : Int)
  | removal (op : RegistryOp)

def CapabilityOp.Permitted : CapabilityOp → Prop
  | .removal op => op.Removes
  | _ => True

/-- What an operation returns to the program. -/
inductive Answer where
  | handle (id : Option Int)
  | value (v : Option Int)
  | stored (ok : Bool)
  | done
  deriving DecidableEq

/-- A thread with its cache. `events` is the history of the regions as the registry sees it: a store
counts at the region and offset its capability is registered with. -/
structure CapabilityThread where
  rt : Runtime
  cache : Option CachedRegion
  answers : List Answer
  events : List MemoryEvent

namespace CapabilityThread

def start (rt : Runtime) : CapabilityThread := ⟨rt, none, [], []⟩

variable (t : CapabilityThread)

/-- Without the cache every lookup goes to the registry. -/
def view (cached : Bool) : Option CachedRegion := if cached then t.cache else none

def register (reg : Registry) (answer : Answer) : CapabilityThread :=
  { t with rt := { t.rt with reg := reg }, answers := t.answers ++ [answer] }

def stored (id : Int) (width : Width) (value : Int) (ok : Bool) : List MemoryEvent :=
  match t.rt.reg.memory? id with
  | some m => if ok then .stored m.region m.offset width.bytes value :: t.events else t.events
  | none => t.events

def step (cached : Bool) (t : CapabilityThread) : CapabilityOp → CapabilityThread
  | .alloc size =>
      let out := t.rt.reg.memoryAlloc size
      { t.register out.1 (.handle (some out.2)) with
        events := .allocated t.rt.reg.regions.length size :: t.events }
  | .offset id delta =>
      let out := t.rt.reg.memoryOffset id delta
      t.register out.1 (.handle out.2)
  | .clone id =>
      let out := t.rt.reg.memoryClone id
      t.register out.1 (.handle out.2)
  | .drop id => t.register (t.rt.reg.memoryDrop id) .done
  | .load id width =>
      let out := t.rt.reg.memoryLoad (t.view cached) id width.bytes
      { t.register t.rt.reg (.value out.2) with cache := out.1 }
  | .store id width value =>
      let out := t.rt.reg.memoryStore (t.view cached) id width.bytes value
      { t.register out.1 (.stored out.2.2) with
        cache := out.2.1
        events := t.stored id width value out.2.2 }
  | .removal op => { t with rt := (t.rt.registryStep op).1, answers := t.answers ++ [.done] }

/-- Two threads with the same registry, answers and history; their caches may differ. -/
structure Alike (t u : CapabilityThread) : Prop where
  rt : t.rt = u.rt
  answers : t.answers = u.answers
  events : t.events = u.events

/-- The cache is valid, and every byte is the one last stored at its place. -/
structure Coherent (initial : List (List UInt8)) (t : CapabilityThread) : Prop where
  balanced : t.rt.reg.Balanced
  cache : t.rt.reg.CacheValid t.cache
  bytes : ∀ n p, (t.rt.reg.region n)[p]? = lastStored initial t.events n p

variable {t}
variable {u : CapabilityThread} {op : CapabilityOp} {initial : List (List UInt8)}

/-- A step with the cache and a step without it. -/
theorem step_alike (hcache : t.rt.reg.CacheValid t.cache) (h : Alike t u) :
    Alike (t.step true op) (u.step false op) := by
  obtain ⟨hrt, hanswers, hevents⟩ := h
  cases op with
  | load id width =>
    obtain ⟨hsame, -⟩ := hcache.memoryLoad id width.bytes
    refine ⟨hrt, ?_, hevents⟩
    change t.answers ++ [.value (t.rt.reg.memoryLoad t.cache id width.bytes).2] =
      u.answers ++ [.value (u.rt.reg.memoryLoad none id width.bytes).2]
    rw [hanswers, hsame, hrt]
  | store id width value =>
    obtain ⟨hreg, hok, -⟩ := hcache.memoryStore id width.bytes value
    refine ⟨?_, ?_, ?_⟩
    · change { t.rt with reg := (t.rt.reg.memoryStore t.cache id width.bytes value).1 } =
        { u.rt with reg := (u.rt.reg.memoryStore none id width.bytes value).1 }
      rw [hreg, hrt]
    · change t.answers ++ [.stored (t.rt.reg.memoryStore t.cache id width.bytes value).2.2] =
        u.answers ++ [.stored (u.rt.reg.memoryStore none id width.bytes value).2.2]
      rw [hanswers, hok, hrt]
    · change t.stored id width value (t.rt.reg.memoryStore t.cache id width.bytes value).2.2 =
        u.stored id width value (u.rt.reg.memoryStore none id width.bytes value).2.2
      rw [hok, stored, stored, hrt, hevents]
  | removal op =>
    refine ⟨?_, ?_, hevents⟩
    · change (t.rt.registryStep op).1 = (u.rt.registryStep op).1
      rw [hrt]
    · change t.answers ++ [.done] = u.answers ++ [.done]
      rw [hanswers]
  | _ =>
    obtain ⟨trt, tcache, tanswers, tevents⟩ := t
    obtain ⟨urt, ucache, uanswers, uevents⟩ := u
    obtain rfl : trt = urt := hrt
    obtain rfl : tanswers = uanswers := hanswers
    obtain rfl : tevents = uevents := hevents
    exact ⟨rfl, rfl, rfl⟩

/-- No removal touches a byte. -/
theorem regions_removal {s : Runtime} {op : RegistryOp} (h : op.Removes) :
    (s.registryStep op).1.reg.regions = s.reg.regions := by
  cases op with
  | remove id => exact regions_remove id
  | takeString id => exact regions_takeString id
  | takeOpaque type id => exact regions_takeOpaque type id
  | arrayDrop id => exact regions_arrayDrop id
  | sharedRelease id => exact regions_sharedRelease id
  | chanDrop id => exact Runtime.regions_chanDrop id
  | sliceDrop id => exact regions_sliceDrop id
  | asyncSleepDrop id => exact regions_asyncSleepDrop id
  | asyncOpDrop id => exact Runtime.regions_asyncOpDrop id
  | goroutineDrop id => exact Runtime.regions_dropWrapper _ id fun s core => Runtime.regions_dropGoroutine core
  | removeGoroutineHandle id => exact regions_removeGoroutineHandle id
  | reactorRegDrop id => exact Runtime.regions_dropWrapper _ id fun s core => rfl
  | asyncIoDrop id => exact Runtime.regions_dropWrapper _ id fun s core => rfl
  | _ => exact h.elim

/-- What a step does to the registry. -/
theorem step_reaches (cached : Bool) (hop : op.Permitted) :
    Reaches (fun _ => True) t.rt.reg (t.step cached op).rt.reg := by
  cases op with
  | alloc size => exact (Allocates.insert (Reaches.refl.frame t.rt.reg.leakSites _) _ rfl).reaches
  | offset id delta => exact (mayAllocate_memoryOffset id delta).reaches
  | clone id => exact (mayAllocate_memoryClone id).reaches
  | drop id => exact reaches_memoryDrop trivial
  | load id width => exact .refl
  | store id width value => exact reaches_memoryStore _ id _ value
  | removal op =>
    have hplain : op.Removes := hop
    have hstep : t.rt.Step (fun _ => False) (t.rt.registryStep op) := by
      refine Runtime.step_registryStep ?_ ?_
      · rintro id hd rfl
        exact hplain.elim
      · intro hd hinserted
        cases op <;> first | exact hplain.elim | cases hinserted
    exact hstep.effect.reaches_of_plain

theorem stored_false (id : Int) (width : Width) (value : Int) : t.stored id width value false = t.events := by
  unfold stored
  cases t.rt.reg.memory? id <;> rfl

theorem Coherent.step (h : Coherent initial t) (hop : op.Permitted)
    (hi : (t.step true op).rt.reg.issued < 2 ^ 64) : Coherent initial (t.step true op) := by
  have hreach := step_reaches (t := t) true hop
  have hcache : (t.step true op).rt.reg.CacheValid t.cache := h.cache.reaches hreach h.balanced hi
  have hbalanced := hreach.balanced h.balanced hi
  have hsame : ∀ reg : Registry, reg.regions = t.rt.reg.regions →
      ∀ n p, (reg.region n)[p]? = lastStored initial t.events n p := by
    intro reg hreg n p
    rw [← h.bytes n p, region, region, hreg]
  cases op with
  | alloc size =>
    refine ⟨hbalanced, hcache, fun n p => ?_⟩
    have hnew := region_memoryAlloc (r := t.rt.reg) size n p
    rw [h.bytes n p] at hnew
    exact hnew
  | offset id delta => exact ⟨hbalanced, hcache, hsame _ (regions_memoryOffset id delta)⟩
  | clone id => exact ⟨hbalanced, hcache, hsame _ (regions_memoryClone id)⟩
  | drop id => exact ⟨hbalanced, hcache, hsame _ (regions_memoryDrop id)⟩
  | load id width => exact ⟨hbalanced, (h.cache.memoryLoad id width.bytes).2, h.bytes⟩
  | removal op => exact ⟨hbalanced, hcache, hsame _ (regions_removal hop)⟩
  | store id width value =>
    obtain ⟨hreg, hok, hnext⟩ := h.cache.memoryStore id width.bytes value
    refine ⟨hbalanced, ?_, fun n p => ?_⟩
    · exact hnext.reaches hreach h.balanced hi
    · change ((t.rt.reg.memoryStore t.cache id width.bytes value).1.region n)[p]? =
        lastStored initial
          (t.stored id width value (t.rt.reg.memoryStore t.cache id width.bytes value).2.2) n p
      rw [hreg, hok, (memoryStore_none id width.bytes value).2]
      cases hm : t.rt.reg.memory? id with
      | none =>
        rw [(memoryStore_none id width.bytes value).1, hm, Option.any_none, stored_false]
        exact h.bytes n p
      | some m =>
        rw [Option.any_some]
        by_cases hfits : m.offset + width.bytes ≤ (t.rt.reg.region m.region).length
        · rw [region_memoryStore value hm hfits, decide_eq_true hfits, stored, hm, h.bytes n p]
          rfl
        · rw [(memoryStore_none id width.bytes value).1, hm, decide_eq_false hfits, stored_false]
          dsimp only
          rw [if_neg hfits]
          exact h.bytes n p

theorem Width.bytes_pos (width : Width) : 0 < width.bytes := by cases width <;> decide

/-- A load returns the little-endian value of the bytes last stored where its capability points. -/
theorem Coherent.load_iff (h : Coherent initial t) (id : Int) (width : Width) (v : Int) :
    (t.rt.reg.memoryLoad t.cache id width.bytes).2 = some v ↔
      ∃ m bytes, t.rt.reg.memory? id = some m ∧ bytes.length = width.bytes ∧
        (∀ i < width.bytes, lastStored initial t.events m.region (m.offset + i) = bytes[i]?) ∧
        v = toI64 (fromLeBytes bytes) := by
  rw [(h.cache.memoryLoad id width.bytes).1, memoryLoad_none]
  have hpos := Width.bytes_pos width
  constructor
  · intro hv
    obtain ⟨m, hm, hv⟩ := Option.bind_eq_some_iff.mp hv
    split at hv
    · rename_i hfits
      refine ⟨m, _, hm, ?_, fun i hi => ?_, (Option.some.inj hv).symm⟩
      · rw [List.length_take, List.length_drop]
        omega
      · rw [← h.bytes, List.getElem?_take_of_lt hi, List.getElem?_drop]
    · cases hv
  · rintro ⟨m, bytes, hm, hlen, hbytes, hv⟩
    rw [hm, Option.bind_some, hv]
    have hlast := hbytes (width.bytes - 1) (by omega)
    have hend : width.bytes - 1 < bytes.length := by omega
    rw [← h.bytes, List.getElem?_eq_getElem hend] at hlast
    obtain ⟨hin, -⟩ := List.getElem?_eq_some_iff.mp hlast
    rw [if_pos (by omega)]
    have hread : ((t.rt.reg.region m.region).drop m.offset).take width.bytes = bytes := by
      apply List.ext_getElem?
      intro i
      by_cases hi : i < width.bytes
      · rw [List.getElem?_take_of_lt hi, List.getElem?_drop, h.bytes, hbytes i hi]
      · have hpast : bytes[i]? = none := List.getElem?_eq_none_iff.mpr (by omega)
        rw [hpast, List.getElem?_eq_none_iff, List.length_take]
        omega
    rw [hread]

/-- A store succeeds exactly when a load of the same width would. -/
theorem Coherent.store_iff (h : Coherent initial t) (id : Int) (width : Width) (value : Int) :
    (t.rt.reg.memoryStore t.cache id width.bytes value).2.2 = true ↔
      ∃ v, (t.rt.reg.memoryLoad t.cache id width.bytes).2 = some v := by
  rw [(h.cache.memoryStore id width.bytes value).2.1, (memoryStore_none id width.bytes value).2,
    (h.cache.memoryLoad id width.bytes).1, memoryLoad_none]
  cases t.rt.reg.memory? id with
  | none => simp
  | some m =>
    rw [Option.any_some, Option.bind_some]
    by_cases hfits : m.offset + width.bytes ≤ (t.rt.reg.region m.region).length
    · simp [hfits]
    · simp [hfits]

theorem issued_le_run (cached : Bool) (ops : List CapabilityOp) (hops : ∀ op ∈ ops, op.Permitted) :
    t.rt.reg.issued ≤ (execute (step cached) t ops).rt.reg.issued := by
  induction ops generalizing t with
  | nil => exact le_rfl
  | cons op ops ih =>
    have hfirst := (step_reaches (t := t) cached (hops op (List.mem_cons_self ..))).issued_le
    exact hfirst.trans (ih fun o ho => hops o (List.mem_cons_of_mem _ ho))

/-- Runs that begin alike stay alike, and coherent, until the id counter wraps. -/
theorem run_alike (ops : List CapabilityOp) (hops : ∀ op ∈ ops, op.Permitted)
    (hi : (execute (step true) t ops).rt.reg.issued < 2 ^ 64) (h : Coherent initial t) (halike : Alike t u) :
    Coherent initial (execute (step true) t ops) ∧
      Alike (execute (step true) t ops) (execute (step false) u ops) ∧
      Reaches (fun _ => True) t.rt.reg (execute (step true) t ops).rt.reg := by
  induction ops generalizing t u with
  | nil => exact ⟨h, halike, .refl⟩
  | cons op ops ih =>
    have hop := hops op (List.mem_cons_self ..)
    have hrest : ∀ op ∈ ops, op.Permitted := fun o ho => hops o (List.mem_cons_of_mem _ ho)
    have hreach := step_reaches (t := t) true hop
    have hstep : (t.step true op).rt.reg.issued < 2 ^ 64 := (issued_le_run true ops hrest).trans_lt hi
    obtain ⟨hcoherent, hsame, hreaches⟩ := ih hrest hi (h.step hop hstep) (step_alike h.cache halike)
    exact ⟨hcoherent, hsame, hreach.trans hreaches⟩

theorem start_coherent {rt : Runtime} (hb : rt.reg.Balanced) : Coherent rt.reg.regions (start rt) :=
  ⟨hb, cacheValid_none, fun _ _ => rfl⟩

theorem memory?_memoryDrop {r : Registry} {id : Int} {m : MemoryData} (hm : r.memory? id = some m) :
    (r.memoryDrop id).lookup id = none := by
  obtain ⟨hid, hl⟩ := memory?_eq_some.mp hm
  have hdrop : r.memoryDrop id = r.retireBumping id := by
    unfold memoryDrop
    rw [if_neg hid, hl]
  rw [hdrop]
  change (r.discard id).lookup id = none
  rw [lookup_discard, if_pos rfl]

/-- Once a capability is dropped its handle answers no more. -/
theorem Coherent.dropped {id : Int} {m : MemoryData} (h : Coherent initial t)
    (hm : t.rt.reg.memory? id = some m) (ops : List CapabilityOp) (hops : ∀ op ∈ ops, op.Permitted)
    (hi : (execute (CapabilityThread.step true) (t.step true (.drop id)) ops).rt.reg.issued < 2 ^ 64) :
    (execute (CapabilityThread.step true) (t.step true (.drop id)) ops).rt.reg.memory? id = none := by
  obtain ⟨hid, hl⟩ := memory?_eq_some.mp hm
  have hdrawn := h.balanced.issued id (by rw [hl]; simp)
  have hdrop : Reaches (fun _ => True) t.rt.reg (t.step true (.drop id)).rt.reg := step_reaches true trivial
  have hgone : (t.step true (.drop id)).rt.reg.lookup id = none := memory?_memoryDrop hm
  have hbound := (issued_le_run true ops hops).trans_lt hi
  obtain ⟨-, -, hreach⟩ := run_alike ops hops hi (h.step trivial hbound) ⟨rfl, rfl, rfl⟩
  have hstill := hreach.stays_gone hi
    (hdrawn.imp fun n hn => ⟨hn.1.trans_le hdrop.issued_le, hn.2⟩) hgone
  cases hlast : (execute (CapabilityThread.step true) (t.step true (.drop id)) ops).rt.reg.memory? id with
  | none => rfl
  | some m =>
    obtain ⟨-, hfound⟩ := memory?_eq_some.mp hlast
    rw [hstill] at hfound
    cases hfound

end CapabilityThread

open CapabilityThread

/-- Until the id counter wraps: a run with the cache answers like one without, a load returns the bytes
last stored where its capability points, a store succeeds when a load does, and a dropped capability
serves neither. -/
theorem capability_cache_invisible (rt : Runtime) (hb : rt.reg.Balanced) (ops : List CapabilityOp)
    (hops : ∀ op ∈ ops, op.Permitted) :
    let t := execute (CapabilityThread.step true) (start rt) ops
    let u := execute (CapabilityThread.step false) (start rt) ops
    t.rt.reg.issued < 2 ^ 64 →
    t.answers = u.answers ∧ t.rt = u.rt ∧
    (∀ (id : Int) (width : Width) (v : Int), (t.rt.reg.memoryLoad t.cache id width.bytes).2 = some v ↔
      ∃ m bytes, t.rt.reg.memory? id = some m ∧ bytes.length = width.bytes ∧
        (∀ i < width.bytes, lastStored rt.reg.regions t.events m.region (m.offset + i) = bytes[i]?) ∧
        v = toI64 (fromLeBytes bytes)) ∧
    (∀ (id : Int) (width : Width) (value : Int),
      (t.rt.reg.memoryStore t.cache id width.bytes value).2.2 = true ↔
        ∃ v, (t.rt.reg.memoryLoad t.cache id width.bytes).2 = some v) ∧
    ∀ id m, t.rt.reg.memory? id = some m → ∀ later, (∀ op ∈ later, op.Permitted) →
      let d := execute (CapabilityThread.step true) (t.step true (.drop id)) later
      d.rt.reg.issued < 2 ^ 64 → ∀ (width : Width) (value : Int),
        (d.rt.reg.memoryLoad d.cache id width.bytes).2 = none ∧
        (d.rt.reg.memoryStore d.cache id width.bytes value).2.2 = false := by
  intro t u hi
  obtain ⟨hcoherent, halike, -⟩ := run_alike ops hops hi (start_coherent hb) ⟨rfl, rfl, rfl⟩
  refine ⟨halike.answers, halike.rt, fun id width v => hcoherent.load_iff id width v,
    fun id width value => hcoherent.store_iff id width value, ?_⟩
  intro id m hm later hlater d hd width value
  have hgone : d.rt.reg.memory? id = none := hcoherent.dropped hm later hlater hd
  have hbound := (issued_le_run true later hlater).trans_lt hd
  obtain ⟨hlast, -, -⟩ := run_alike later hlater hd (hcoherent.step trivial hbound) ⟨rfl, rfl, rfl⟩
  have hload : ¬ ∃ v, (d.rt.reg.memoryLoad d.cache id width.bytes).2 = some v := by
    rintro ⟨v, hv⟩
    obtain ⟨m', -, hm', -⟩ := (hlast.load_iff id width v).mp hv
    rw [hgone] at hm'
    cases hm'
  constructor
  · rw [← Option.not_isSome_iff_eq_none]
    intro hsome
    exact hload (Option.isSome_iff_exists.mp hsome)
  · rw [← Bool.not_eq_true, hlast.store_iff id width value]
    exact hload

/-- Two capabilities over one allocation, overlapping stores, and a drop. -/
theorem capability_cache_invisible_of_overlap :
    let ops : List CapabilityOp := [.alloc 16, .offset 1 1, .store 1 .word 0, .store 2 .byte 3, .load 1 .word,
      .drop 2, .load 2 .byte]
    let t := execute (CapabilityThread.step true) (start ⟨Registry.empty, Global.empty, ∅⟩) ops
    t.answers = (execute (CapabilityThread.step false) (start ⟨Registry.empty, Global.empty, ∅⟩) ops).answers ∧
      t.answers = [.handle (some 1), .handle (some 2), .stored true, .stored true, .value (some 768), .done,
        .value none] := by
  intro ops t
  have hops : ∀ op ∈ ops, op.Permitted := by
    intro op hop
    simp only [ops, List.mem_cons, List.not_mem_nil, or_false] at hop
    rcases hop with rfl | rfl | rfl | rfl | rfl | rfl | rfl <;> trivial
  exact ⟨(capability_cache_invisible _ balanced_empty ops hops (by decide +kernel)).1, by decide +kernel⟩

/-! ### After the counter has wrapped -/

namespace CapabilityThread

theorem execute_append (cached : Bool) (t : CapabilityThread) (ops more : List CapabilityOp) :
    execute (step cached) t (ops ++ more) = execute (step cached) (execute (step cached) t ops) more :=
  List.foldl_append

/-- Allocations leave the cache and the generation alone. -/
theorem run_allocs (cached : Bool) (n : ℕ) (t : CapabilityThread) :
    let s := execute (step cached) t (List.replicate n (.alloc 0))
    s.cache = t.cache ∧ s.rt.reg.generation = t.rt.reg.generation ∧
      s.rt.reg.issued = t.rt.reg.issued + n ∧
      s.rt.reg.regions = t.rt.reg.regions ++ List.replicate n [] := by
  induction n generalizing t with
  | zero => exact ⟨rfl, rfl, rfl, (List.append_nil _).symm⟩
  | succ n ih =>
    obtain ⟨hcache, hgeneration, hissued, hregions⟩ := ih (t.step cached (.alloc 0))
    refine ⟨hcache, hgeneration, hissued.trans ?_, hregions.trans ?_⟩
    · change t.rt.reg.issued + 1 + n = _
      omega
    · change (t.rt.reg.regions ++ [[]]) ++ List.replicate n [] = _
      rw [List.append_assoc, List.replicate_succ]
      rfl

/-- One byte stored through the first capability. -/
def storedOnce (cached : Bool) : CapabilityThread :=
  execute (step cached) (start ⟨Registry.empty, Global.empty, ∅⟩) [.alloc 1, .store 1 .byte 7]

theorem storedOnce_reg (cached : Bool) :
    (storedOnce cached).rt.reg.issued = 1 ∧ (storedOnce cached).rt.reg.regions = [[7]] ∧
      (storedOnce cached).rt.reg.generation = 0 := by
  cases cached <;> decide +kernel

/-- An allocation that draws the first handle again takes its place. -/
theorem reissued (cached : Bool) {n : ℕ} (hn : drawn (1 + n) = 1) :
    let s := execute (step cached) (storedOnce cached) (List.replicate (n + 1) (.alloc 0))
    s.rt.reg.memory? 1 = some ⟨1 + n, 0⟩ ∧ s.rt.reg.region (1 + n) = [] ∧ s.rt.reg.region 0 = [7] := by
  intro s
  obtain ⟨hissued₀, hregions₀, -⟩ := storedOnce_reg cached
  obtain ⟨-, -, hissued, hregions⟩ := run_allocs cached n (storedOnce cached)
  rw [hissued₀] at hissued
  rw [hregions₀] at hregions
  generalize hmid : execute (step cached) (storedOnce cached) (List.replicate n (.alloc 0)) = mid
    at hissued hregions
  have hs : s = mid.step cached (.alloc 0) := by
    change execute _ _ (List.replicate (n + 1) (CapabilityOp.alloc 0)) = _
    rw [List.replicate_succ', execute_append, hmid]
    rfl
  have hlength : mid.rt.reg.regions.length = 1 + n := by
    rw [hregions, List.length_append, List.length_replicate]
    rfl
  have hlast : s.rt.reg.regions = ([7] :: List.replicate n []) ++ [[]] := by
    rw [hs]
    change mid.rt.reg.regions ++ [[]] = _
    rw [hregions]
    rfl
  refine ⟨memory?_eq_some.mpr ⟨by decide, ?_⟩, ?_, ?_⟩
  · rw [hs]
    change (Registry.insert { mid.rt.reg with regions := _ } (.memory ⟨mid.rt.reg.regions.length, 0⟩)).1.lookup
      1 = _
    rw [lookup_insert, hlength]
    change (if (1 : Int) = drawn mid.rt.reg.issued then _ else _) = _
    rw [hissued, hn, if_pos rfl]
  · have hend : ([7] :: List.replicate n ([] : List UInt8)).length = 1 + n := by
      rw [List.length_cons, List.length_replicate, Nat.add_comm]
    rw [region, hlast, List.getD_eq_getElem?_getD, ← hend, List.getElem?_concat_length]
    rfl
  · rw [region, hlast]
    rfl

end CapabilityThread

/-- After `2 ^ 64` draws without a removal the cache still holds the capability that had the handle
before. -/
theorem capability_cache_outlives_handle :
    ¬ ∀ (rt : Runtime), rt.reg.Balanced → ∀ ops : List CapabilityOp, (∀ op ∈ ops, op.Permitted) →
      (execute (CapabilityThread.step true) (start rt) ops).answers =
        (execute (CapabilityThread.step false) (start rt) ops).answers := by
  intro h
  obtain ⟨n, haround⟩ := drawn_first_again
  have hsame := h ⟨Registry.empty, Global.empty, ∅⟩ balanced_empty
    ([.alloc 1, .store 1 .byte 7] ++ (List.replicate (n + 1) (.alloc 0) ++ [.load 1 .byte])) (by
      intro op hop
      simp only [List.cons_append, List.nil_append, List.mem_cons, List.mem_append, List.mem_replicate,
        List.not_mem_nil, or_false] at hop
      rcases hop with rfl | rfl | ⟨-, rfl⟩ | rfl <;> trivial)
  rw [execute_append, execute_append, execute_append, execute_append] at hsame
  change (CapabilityThread.step true (execute (CapabilityThread.step true) (storedOnce true) _)
      (.load 1 .byte)).answers = (CapabilityThread.step false
      (execute (CapabilityThread.step false) (storedOnce false) _) (.load 1 .byte)).answers at hsame
  have hcached := run_allocs true (n + 1) (storedOnce true)
  obtain ⟨-, -, hold⟩ := reissued true haround
  obtain ⟨hfound, hregion, -⟩ := reissued false haround
  generalize execute (CapabilityThread.step true) (storedOnce true) _ = t at hsame hcached hold
  generalize execute (CapabilityThread.step false) (storedOnce false) _ = u at hsame hfound hregion
  obtain ⟨hcache, hgeneration, -, -⟩ := hcached
  have hlast := (List.append_inj' hsame rfl).2
  have hentry : t.cache = some ⟨1, 0, 0, 0⟩ := hcache.trans (by decide +kernel)
  have hnow : t.rt.reg.generation = 0 := hgeneration.trans (storedOnce_reg true).2.2
  have hleft : (t.rt.reg.memoryLoad t.cache 1 1).2 = some 7 := by
    have hregion' : t.rt.reg.memoryRegion (some ⟨1, 0, 0, 0⟩) 1 = (some ⟨1, 0, 0, 0⟩, some (0, 0)) := by
      rw [memoryRegion, hnow]
      rfl
    rw [hentry, memoryLoad, hregion']
    dsimp only
    rw [hold]
    decide
  have hright : (u.rt.reg.memoryLoad none 1 1).2 = none := by
    rw [memoryLoad_none, hfound, Option.bind_some]
    dsimp only
    rw [hregion, if_neg (by simp)]
  have hvalue : Answer.value (t.rt.reg.memoryLoad t.cache 1 1).2 =
      Answer.value (u.rt.reg.memoryLoad none 1 1).2 := List.singleton_inj.mp hlast
  rw [hleft, hright] at hvalue
  cases hvalue

end Neutron
