import Neutron.Execution
import Neutron.RegistryEffects
import Neutron.TaskHandles

/-!
# Runs of registry operations

Every operation that creates, updates or removes registry entries, in any order and with
any scheduler activity in between, keeps the counters equal to the number of entries and
returns handles that were never returned before, until the 64-bit id counter has gone
once around.
-/

namespace Neutron

open Execution Registry

-- comparing draws by evaluation would unfold the two's complement reading
attribute [local irreducible] Registry.drawn

namespace Runtime

variable {P : Int → Prop} {s : Runtime}

/-! ## Effects of the operations that reach into the scheduler -/

theorem reaches_dropChan (hP : ∀ x, P x) (core : Int) : Reaches P s.reg (s.dropChan core).reg := by
  unfold dropChan
  cases s.g.chans.lookup core with
  | none => exact .refl
  | some chan =>
    dsimp only
    split
    · exact reaches_removeAll _ (fun x _ => hP x)
    · exact .refl

theorem reaches_dropGoroutine (hP : ∀ x, P x) (core : Int) :
    Reaches P s.reg (s.dropGoroutine core).1.reg := by
  unfold dropGoroutine
  cases s.g.goroutines.lookup core with
  | none => exact .refl
  | some gr => exact reaches_removeAll _ (fun x _ => hP x)

theorem reaches_dropOp (hP : ∀ x, P x) (core : Int) : Reaches P s.reg (s.dropOp core).reg := by
  unfold dropOp
  cases s.g.ops.lookup core with
  | none => exact .refl
  | some op =>
    dsimp only
    split
    · exact reaches_remove (hP _)
    · exact .refl

theorem reaches_dropWrapper (hP : ∀ x, P x) (kind : Handle → Bool) (id : Int)
    {release : Runtime → Int → Runtime} (hr : ∀ s core, Reaches P s.reg (release s core).reg) :
    Reaches P s.reg (s.dropWrapper kind id release).reg := by
  have h := reaches_removeKind (r := s.reg) kind (hP id)
  unfold dropWrapper
  dsimp only
  cases (s.reg.removeKind id kind).2.bind Handle.core? with
  | none => exact h
  | some core => exact h.trans (hr { s with reg := (s.reg.removeKind id kind).1 } core)

theorem reaches_chanDrop (hP : ∀ x, P x) (id : Int) : Reaches P s.reg (s.chanDrop id).reg := by
  unfold chanDrop
  split
  · exact .refl
  cases hl : s.reg.lookup id with
  | none => exact .refl
  | some hd =>
    cases hd with
    | chan core count =>
      dsimp only
      split
      · exact Reaches.refl.modify hl _ (.chan core _ _)
      · exact (Reaches.retirePlain (hP id) hl (by simp)).trans
          (reaches_dropChan (s := { s with reg := s.reg.retire id }) hP core)
    | _ => exact .refl

theorem reaches_asyncOpDrop (hP : ∀ x, P x) (id : Int) : Reaches P s.reg (s.asyncOpDrop id).reg := by
  unfold asyncOpDrop
  split
  · exact .refl
  dsimp only
  cases s.pendingOp id with
  | none => exact reaches_removeKind _ (hP id)
  | some op => exact (reaches_dropOp hP op).trans (reaches_removeKind _ (hP id))

end Runtime

/-- The operations on registry entries. `schedule` stands for whatever the scheduler does
to its own tables between two of them. -/
inductive RegistryOp where
  | insert (h : Handle)
  | insertPermanent (h : Handle)
  | reserveId
  | insertReserved (id : Int) (h : Handle)
  | remove (id : Int)
  | takeString (id : Int)
  | cloneString (id : Int)
  | takeOpaque (type : ℕ) (id : Int)
  | withOpaqueIo (type : ℕ) (id : Int) (f : Int → Int)
  | arrayNew (elemSize : Int) (stringElements : Bool)
  | arraySetStringElements (id : Int) (stringElements : Bool)
  | arrayPush (id elem : Int)
  | arraySet (id index elem : Int)
  | arrayPop (id : Int)
  | arrayDrop (id : Int)
  | arrayClone (levels : ℕ) (id : Int)
  | arrayFill (val count elemSize : Int) (stringElements : Bool)
  | arrayRange (start stop : Int)
  | arraySlice (id start stop : Int)
  | arrayReverse (id : Int)
  | arrayClear (id : Int)
  | arrayRemoveAt (id index : Int)
  | arrayShuffle (bytes : List UInt8) (id : Int)
  | arraySort (id mode : Int)
  | sortBy (id : Int) (cmp : Int → Int → Int)
  | sharedNew (inner : Int)
  | sharedRetain (id : Int)
  | sharedRelease (id : Int)
  | chanNew (capacity : Int) (ownsElements : Bool)
  | chanRetain (id : Int)
  | chanDrop (id : Int)
  | sliceOf (array start stop : Int)
  | sliceSub (id start stop : Int)
  | sliceToArray (id : Int)
  | sliceSet (id index value : Int)
  | sliceFill (id value : Int)
  | sliceCopyFrom (dst src : Int)
  | sliceDrop (id : Int)
  | memoryAlloc (size : ℕ)
  | memoryOffset (id delta : Int)
  | memoryClone (id : Int)
  | memoryStore (cache : Option CachedRegion) (id : Int) (width : ℕ) (value : Int)
  | memoryDrop (id : Int)
  | asyncSleepNew (ms : Int)
  | asyncSleepDrop (id : Int)
  | asyncOpNew (work : ℕ)
  | asyncOpDrop (id : Int)
  | goroutineDrop (id : Int)
  | removeGoroutineHandle (id : Int)
  | reactorRegDrop (id : Int)
  | asyncIoDrop (id : Int)
  | schedule (g : Global)

namespace Runtime

variable (s : Runtime)

/-- An operation of the registry alone that returns a handle. -/
def handing (out : Registry × Int) : Runtime × Option Int := ({ s with reg := out.1 }, some out.2)

def mayHand (out : Registry × Option Int) : Runtime × Option Int := ({ s with reg := out.1 }, out.2)

/-- An operation of the registry alone that returns no handle. -/
def updating (reg : Registry) : Runtime × Option Int := ({ s with reg := reg }, none)

/-- The state after an operation, with the handle a constructor returns. -/
def registryStep : RegistryOp → Runtime × Option Int
  | .insert h => s.handing (s.reg.insert h)
  | .insertPermanent h => s.handing (s.reg.insertPermanent h)
  | .reserveId => s.handing s.reg.reserveId
  | .insertReserved id h => s.updating (s.reg.insertReserved id h)
  | .remove id => s.updating (s.reg.remove id).1
  | .takeString id => s.updating (s.reg.takeString id).1
  | .cloneString id => s.mayHand (s.reg.cloneString id)
  | .takeOpaque type id => s.updating (s.reg.takeOpaque type id).1
  | .withOpaqueIo type id f => s.updating (s.reg.withOpaqueIo type id (fun v => (f v, ()))).1
  | .arrayNew elemSize strings => s.handing (s.reg.arrayNew elemSize strings)
  | .arraySetStringElements id strings => s.updating (s.reg.arraySetStringElements id strings)
  | .arrayPush id elem => s.updating (s.reg.arrayPush id elem).1
  | .arraySet id index elem => s.updating (s.reg.arraySet id index elem).1
  | .arrayPop id => s.updating (s.reg.arrayPop id).1
  | .arrayDrop id => s.updating (s.reg.arrayDrop id)
  | .arrayClone levels id => s.handing (arrayClone levels s.reg id)
  | .arrayFill val count elemSize strings => s.handing (s.reg.arrayFill val count elemSize strings)
  | .arrayRange start stop => s.handing (s.reg.arrayRange start stop)
  | .arraySlice id start stop => s.handing (s.reg.arraySlice id start stop)
  | .arrayReverse id => s.handing (s.reg.arrayReverse id)
  | .arrayClear id => s.handing (s.reg.arrayClear id)
  | .arrayRemoveAt id index => s.handing (s.reg.arrayRemoveAt id index)
  | .arrayShuffle bytes id => s.handing (s.reg.arrayShuffle bytes id)
  | .arraySort id mode => s.handing (s.reg.arraySort id mode)
  | .sortBy id cmp => s.mayHand (s.reg.sortBy id cmp)
  | .sharedNew inner => s.handing (s.reg.sharedNew inner)
  | .sharedRetain id => s.updating (s.reg.sharedRetain id).1
  | .sharedRelease id => s.updating (s.reg.sharedRelease id).1
  | .chanNew capacity owns => ((s.chanNew capacity owns).1, some (s.chanNew capacity owns).2)
  | .chanRetain id => s.updating (s.reg.chanRetain id).1
  | .chanDrop id => (s.chanDrop id, none)
  | .sliceOf array start stop => s.mayHand (s.reg.sliceOf array start stop)
  | .sliceSub id start stop => s.mayHand (s.reg.sliceSub id start stop)
  | .sliceToArray id => s.mayHand (s.reg.sliceToArray id)
  | .sliceSet id index value => s.updating (s.reg.sliceSet id index value).1
  | .sliceFill id value => s.updating (s.reg.sliceFill id value).1
  | .sliceCopyFrom dst src => s.updating (s.reg.sliceCopyFrom dst src).1
  | .sliceDrop id => s.updating (s.reg.sliceDrop id)
  | .memoryAlloc size => s.handing (s.reg.memoryAlloc size)
  | .memoryOffset id delta => s.mayHand (s.reg.memoryOffset id delta)
  | .memoryClone id => s.mayHand (s.reg.memoryClone id)
  | .memoryStore cache id width value => s.updating (s.reg.memoryStore cache id width value).1
  | .memoryDrop id => s.updating (s.reg.memoryDrop id)
  | .asyncSleepNew ms => s.handing (s.reg.asyncSleepNew ms)
  | .asyncSleepDrop id => s.updating (s.reg.asyncSleepDrop id)
  | .asyncOpNew work => s.handing (s.reg.asyncOpNew work)
  | .asyncOpDrop id => (s.asyncOpDrop id, none)
  | .goroutineDrop id => (s.goroutineDrop id, none)
  | .removeGoroutineHandle id => s.updating (s.reg.removeGoroutineHandle id)
  | .reactorRegDrop id => (s.reactorRegDrop id, none)
  | .asyncIoDrop id => (s.asyncIoDrop id, none)
  | .schedule g => ({ s with g := g }, none)

variable {s}

/-- The handle of the new entry, for the operations that can register a wrapper. -/
def inserted (s : Runtime) : RegistryOp → Option Handle
  | .insert h | .insertPermanent h | .insertReserved _ h => some h
  | .chanNew .. => some (.chan s.g.nextCore 1)
  | _ => none

/-- What an operation does to the registry: the effects of `Reaches`, or one new entry whose
handle `K` describes. -/
inductive Effect (K : Handle → Prop) (r : Registry) : Registry → Prop
  | reaches {r' : Registry} (h : Reaches (fun _ => True) r r') : Effect K r r'
  | inserted {hd : Handle} (hk : K hd) : Effect K r (r.insert hd).1
  | permanent {hd : Handle} (hk : K hd) : Effect K r (r.insertPermanent hd).1
  | reserved {hd : Handle} {id : Int} (hid : ∃ n < r.issued, id = drawn n) (hk : K hd) :
      Effect K r (r.insertReserved id hd)

theorem Effect.issued_le {K : Handle → Prop} {r r' : Registry} (h : Effect K r r') :
    r.issued ≤ r'.issued := by
  cases h with
  | reaches h => exact h.issued_le
  | inserted hk => exact Nat.le_succ _
  | permanent hk => exact Nat.le_succ _
  | reserved hid hk => exact (issued_insertReserved _ _).ge

theorem Effect.balanced {K : Handle → Prop} {r r' : Registry} (h : Effect K r r') (hb : r.Balanced)
    (hi : r'.issued < 2 ^ 64) : r'.Balanced := by
  cases h with
  | reaches h => exact h.balanced hb hi
  | inserted hk => exact hb.insert hi _
  | permanent hk => exact hb.insertPermanent hi _
  | reserved hid hk => exact hb.insertReserved hid _

theorem Effect.reaches_of_plain {r r' : Registry} (h : Effect (fun _ => False) r r') :
    Reaches (fun _ => True) r r' := by
  cases h with
  | reaches h => exact h
  | inserted hk => exact hk.elim
  | permanent hk => exact hk.elim
  | reserved hid hk => exact hk.elim

/-- What every operation does to the registry, and that a handle it returns after drawing
from the counter was drawn while it ran. -/
structure Step (K : Handle → Prop) (s : Runtime) (out : Runtime × Option Int) : Prop where
  effect : Effect K s.reg out.1.reg
  fresh : s.reg.lookup null = none → ∀ id, out.2 = some id →
    out.1.reg.issued = s.reg.issued ∨ Fresh s.reg out.1.reg id

variable {K : Handle → Prop}

theorem Step.of_reaches {out : Runtime × Option Int} (h : Reaches (fun _ => True) s.reg out.1.reg)
    (hf : s.reg.lookup null = none → ∀ id, out.2 = some id →
      out.1.reg.issued = s.reg.issued ∨ Fresh s.reg out.1.reg id) : s.Step K out :=
  ⟨.reaches h, hf⟩

theorem step_updating {reg : Registry} (h : Reaches (fun _ => True) s.reg reg) : s.Step K (s.updating reg) :=
  .of_reaches h (fun _ _ hid => by cases hid)

theorem step_reaching {t : Runtime} (h : Reaches (fun _ => True) s.reg t.reg) : s.Step K (t, none) :=
  .of_reaches h (fun _ _ hid => by cases hid)

/-- A new entry of any kind. -/
theorem step_insert {h : Handle} (hk : K h) (g : Global) :
    s.Step K ({ s with reg := (s.reg.insert h).1, g := g }, some (s.reg.insert h).2) :=
  ⟨.inserted hk, fun _ _ hid => .inr
    ⟨s.reg.issued, le_rfl, Nat.lt_succ_self _, (Option.some_inj.mp hid).symm⟩⟩

theorem step_mayHand {out : Registry × Option Int} (h : MayAllocate (fun _ => True) s.reg out) :
    s.Step K (s.mayHand out) :=
  .of_reaches h.reaches (fun _ => h.fresh)

theorem step_handing {out : Registry × Int} (h : Allocates (fun _ => True) s.reg out) :
    s.Step K (s.handing out) := by
  refine .of_reaches h.reaches (fun _ id hid => ?_)
  obtain rfl : out.2 = id := Option.some_inj.mp hid
  rcases h.fresh with heq | hf
  · left
    change out.1.issued = _
    rw [heq]
  · exact .inr hf

theorem step_registryStep {op : RegistryOp}
    (hres : ∀ id h, op = .insertReserved id h → ∃ n < s.reg.issued, id = drawn n)
    (hk : ∀ h, s.inserted op = some h → K h) : s.Step K (s.registryStep op) := by
  have hP : ∀ x : Int, (fun _ : Int => True) x := fun _ => trivial
  cases op with
  | insert h => exact step_insert (hk h rfl) s.g
  | insertPermanent h =>
    exact ⟨.permanent (hk h rfl), fun _ id hid => .inr
      ⟨s.reg.issued, le_rfl, Nat.lt_succ_self _, (Option.some_inj.mp hid).symm⟩⟩
  | reserveId => exact .of_reaches Reaches.refl.draw (fun _ id hid => .inr
      ⟨s.reg.issued, le_rfl, Nat.lt_succ_self _, (Option.some_inj.mp hid).symm⟩)
  | insertReserved id h => exact ⟨.reserved (hres id h rfl) (hk h rfl), fun _ k hk => by cases hk⟩
  | remove id => exact step_updating (reaches_remove trivial)
  | takeString id => exact step_updating (reaches_takeString (fun _ _ => trivial))
  | cloneString id => exact step_mayHand (mayAllocate_cloneString id)
  | takeOpaque type id => exact step_updating (reaches_takeOpaque type trivial)
  | withOpaqueIo type id f => exact step_updating (reaches_withOpaqueIo type id _)
  | arrayNew elemSize strings => exact step_handing (allocates_arrayNew elemSize strings)
  | arraySetStringElements id strings => exact step_updating (reaches_arraySetStringElements id strings)
  | arrayPush id elem => exact step_updating (reaches_arrayPush id elem)
  | arraySet id index elem => exact step_updating (reaches_arraySet id index elem (fun x _ => trivial))
  | arrayPop id => exact step_updating (reaches_arrayPop id)
  | arrayDrop id => exact step_updating (reaches_arrayDrop (fun _ _ => trivial) (fun _ _ => trivial))
  | arrayClone levels id => exact step_handing (allocates_arrayClone levels s.reg id)
  | arrayFill val count elemSize strings => exact step_handing (allocates_arrayFill val count elemSize strings)
  | arrayRange start stop => exact step_handing (.insert .refl _ rfl)
  | arraySlice id start stop => exact step_handing (allocates_copyArray reaches_keepRaw _ id)
  | arrayReverse id => exact step_handing (allocates_copyArray reaches_keepRaw _ id)
  | arrayClear id => exact step_handing (allocates_copyArray reaches_keepRaw _ id)
  | arrayRemoveAt id index => exact step_handing (allocates_copyArray reaches_keepRaw _ id)
  | arrayShuffle bytes id => exact step_handing (allocates_arrayShuffle bytes id)
  | arraySort id mode => exact step_handing (allocates_arraySort id mode)
  | sortBy id cmp => exact .of_reaches (reaches_sortBy id cmp) (fun _ k hk => .inr (fresh_sortBy hk))
  | sharedNew inner => exact step_handing (.insert .refl _ rfl)
  | sharedRetain id => exact step_updating (reaches_sharedRetain id)
  | sharedRelease id => exact step_updating (reaches_sharedRelease (fun _ _ => trivial))
  | chanNew capacity owns =>
    exact step_insert (hk _ rfl) (s.g.registerChan (max capacity 0).toNat owns).1
  | chanRetain id => exact step_updating (reaches_chanRetain id)
  | chanDrop id => exact step_reaching (reaches_chanDrop hP id)
  | sliceOf array start stop => exact step_mayHand (mayAllocate_sliceOf array start stop)
  | sliceSub id start stop => exact step_mayHand (mayAllocate_sliceSub id start stop)
  | sliceToArray id =>
    exact .of_reaches (reaches_sliceToArray id) (fun hnull k hk => fresh_sliceToArray hnull hk)
  | sliceSet id index value => exact step_updating (reaches_sliceSet hP id index value)
  | sliceFill id value => exact step_updating (reaches_sliceFill hP id value)
  | sliceCopyFrom dst src => exact step_updating (reaches_sliceCopyFrom hP dst src)
  | sliceDrop id => exact step_updating (reaches_sliceDrop trivial)
  | memoryAlloc size => exact step_handing (.insert (Reaches.refl.frame s.reg.leakSites _) _ rfl)
  | memoryOffset id delta => exact step_mayHand (mayAllocate_memoryOffset id delta)
  | memoryClone id => exact step_mayHand (mayAllocate_memoryClone id)
  | memoryStore cache id width value => exact step_updating (reaches_memoryStore cache id width value)
  | memoryDrop id => exact step_updating (reaches_memoryDrop trivial)
  | asyncSleepNew ms => exact step_handing (.insert .refl _ rfl)
  | asyncSleepDrop id => exact step_updating (reaches_asyncSleepDrop trivial)
  | asyncOpNew work => exact step_handing (.insert .refl _ rfl)
  | asyncOpDrop id => exact step_reaching (reaches_asyncOpDrop hP id)
  | goroutineDrop id =>
    exact step_reaching (reaches_dropWrapper hP _ id (fun s core => reaches_dropGoroutine hP core))
  | removeGoroutineHandle id => exact step_updating (reaches_removeGoroutineHandle trivial)
  | reactorRegDrop id => exact step_reaching (reaches_dropWrapper hP _ id (fun s core => .refl))
  | asyncIoDrop id => exact step_reaching (reaches_dropWrapper hP _ id (fun s core => .refl))
  | schedule g => exact step_reaching .refl

theorem issued_le_registryStep (op : RegistryOp) : s.reg.issued ≤ (s.registryStep op).1.reg.issued := by
  by_cases hop : ∃ id h, op = .insertReserved id h
  · obtain ⟨id, h, rfl⟩ := hop
    exact (issued_insertReserved id h).ge
  · have hstep : s.Step (fun _ => True) (s.registryStep op) :=
      step_registryStep (fun id h heq => absurd ⟨id, h, heq⟩ hop) (fun _ _ => trivial)
    exact hstep.effect.issued_le

end Runtime

/-! ## Runs -/

/-- The state of a run with the handles returned so far. -/
structure Logged where
  rt : Runtime
  returned : List Int

namespace Logged

variable (t : Logged)

/-- An operation that drew from the id counter and returns a handle has allocated it. -/
def step (op : RegistryOp) : Logged where
  rt := (t.rt.registryStep op).1
  returned := t.returned ++
    if (t.rt.registryStep op).1.reg.issued = t.rt.reg.issued then [] else (t.rt.registryStep op).2.toList

/-- A reserved insertion uses an id that was handed out before. -/
def Enabled : RegistryOp → Prop
  | .insertReserved id _ => id ∈ t.returned
  | _ => True

/-- The handles returned so far, by the number of the draw each came from. -/
structure Recorded (t : Logged) : Prop where
  balanced : t.rt.reg.Balanced
  draws : ∃ ns : List ℕ, t.returned = ns.map drawn ∧ ns.Pairwise (· < ·) ∧ ∀ n ∈ ns, n < t.rt.reg.issued

variable {t}

theorem Recorded.reserved {id : Int} (h : t.Recorded) (hid : id ∈ t.returned) :
    ∃ n < t.rt.reg.issued, id = drawn n := by
  obtain ⟨ns, hns, -, hlt⟩ := h.draws
  rw [hns] at hid
  obtain ⟨n, hn, rfl⟩ := List.mem_map.mp hid
  exact ⟨n, hlt n hn, rfl⟩

theorem issued_le_step (op : RegistryOp) : t.rt.reg.issued ≤ (t.step op).rt.reg.issued :=
  Runtime.issued_le_registryStep op

theorem step_recorded (op : RegistryOp) (h : t.Recorded) (hop : t.Enabled op)
    (hi : (t.step op).rt.reg.issued < 2 ^ 64) : (t.step op).Recorded := by
  have hstep : t.rt.Step (fun _ => True) (t.rt.registryStep op) := by
    refine Runtime.step_registryStep ?_ (fun _ _ => trivial)
    rintro id hd rfl
    exact h.reserved hop
  have hnull := h.balanced.lookup_null ((issued_le_step op).trans_lt hi)
  refine ⟨hstep.effect.balanced h.balanced hi, ?_⟩
  obtain ⟨ns, hns, hpair, hlt⟩ := h.draws
  have hle := hstep.effect.issued_le
  unfold step
  dsimp only
  split
  · rename_i heq
    exact ⟨ns, by simp [hns], hpair, fun n hn => heq ▸ hlt n hn⟩
  · rename_i hne
    cases hout : (t.rt.registryStep op).2 with
    | none => exact ⟨ns, by simp [hns], hpair, fun n hn => (hlt n hn).trans_le hle⟩
    | some id =>
      obtain ⟨n, h₁, h₂, rfl⟩ := (hstep.fresh hnull id hout).resolve_left hne
      refine ⟨ns ++ [n], by simp [hns], ?_, fun m hm => ?_⟩
      · rw [List.pairwise_append]
        refine ⟨hpair, List.pairwise_singleton _ _, fun m hm k hk => ?_⟩
        obtain rfl : k = n := by simpa using hk
        exact (hlt m hm).trans_le h₁
      · rcases List.mem_append.mp hm with hm | hm
        · exact (hlt m hm).trans_le hle
        · obtain rfl : m = n := by simpa using hm
          exact h₂

theorem Recorded.returned_new (h : t.Recorded) (hi : t.rt.reg.issued < 2 ^ 64) :
    t.returned.Nodup ∧ null ∉ t.returned := by
  obtain ⟨ns, hns, hpair, hlt⟩ := h.draws
  rw [hns]
  constructor
  · rw [List.Nodup, List.pairwise_map]
    refine hpair.imp_of_mem (fun {m n} hm hn hmn heq => ?_)
    have h₁ := hlt m hm
    have h₂ := hlt n hn
    have := drawn_injective (by omega) (by omega) heq
    omega
  · intro hmem
    obtain ⟨n, hn, heq⟩ := List.mem_map.mp hmem
    have := hlt n hn
    exact drawn_ne_null (n := n) (by omega) heq

/-- A run starts from an empty registry, next to any scheduler. -/
def start (g : Global) (interests : IdMap (Int × Bool)) : Logged := ⟨⟨Registry.empty, g, interests⟩, []⟩

theorem start_recorded (g : Global) (interests : IdMap (Int × Bool)) : (start g interests).Recorded :=
  ⟨balanced_empty, [], rfl, List.Pairwise.nil, by simp⟩

end Logged

/-- After every run of registry operations in which the id counter was drawn fewer than
`2 ^ 64` times, the counters agree with the table, every entry sits in the shard of its
id, and the handles returned by allocations are non-null and pairwise different. -/
theorem registry_counters_agree (g : Global) (interests : IdMap (Int × Bool)) (ops : List RegistryOp)
    (hrun : Allowed Logged.step Logged.Enabled (Logged.start g interests) ops) :
    let t := execute Logged.step (Logged.start g interests) ops
    t.rt.reg.issued < 2 ^ 64 →
    t.rt.reg.live + t.rt.reg.permanent = t.rt.reg.entryCount ∧
      (∀ i id, id ∈ t.rt.reg.shards i → id.natAbs % 64 = i) ∧
      t.returned.Nodup ∧ null ∉ t.returned := by
  intro t hi
  have h : t.rt.reg.issued < 2 ^ 64 → t.Recorded :=
    hrun.invariant (I := fun t => t.rt.reg.issued < 2 ^ 64 → t.Recorded)
      (fun t op ht hop hi => Logged.step_recorded op (ht ((Logged.issued_le_step op).trans_lt hi)) hop hi)
      (fun _ => Logged.start_recorded g interests)
  have ht := h hi
  refine ⟨ht.balanced.counters, fun i id hid => ?_, ht.returned_new hi⟩
  exact congrArg Fin.val (ht.balanced.placed i id hid)

/-- A literal, a string array with one element, and the drop of that array. -/
theorem registry_counters_agree_of_array :
    let ops := [.insertPermanent (.string "x"), .arrayNew 8 true, .arrayPush 2 1, .arrayDrop 2]
    let t := execute Logged.step (Logged.start Global.empty ∅) ops
    t.returned = [1, 2] ∧ t.rt.reg.live + t.rt.reg.permanent = t.rt.reg.entryCount := by
  intro ops t
  have hrun : Allowed Logged.step Logged.Enabled (Logged.start Global.empty ∅) ops :=
    ⟨trivial, trivial, trivial, trivial, trivial⟩
  exact ⟨by decide +kernel, (registry_counters_agree Global.empty ∅ ops hrun (by decide +kernel)).1⟩

theorem allowed_reserveIds (t : Logged) (n : ℕ) :
    Allowed Logged.step Logged.Enabled t (List.replicate n .reserveId) := by
  induction n generalizing t with
  | zero => trivial
  | succ n ih => exact ⟨trivial, ih _⟩

theorem returned_reserveIds (t : Logged) (n : ℕ) :
    (execute Logged.step t (List.replicate n .reserveId)).returned =
      t.returned ++ (List.range' t.rt.reg.issued n).map drawn := by
  induction n generalizing t with
  | zero => simp
  | succ n ih =>
    have hstep : (t.step .reserveId).returned = t.returned ++ [drawn t.rt.reg.issued] := by
      have hne : t.rt.reg.issued + 1 ≠ t.rt.reg.issued := by omega
      exact congrArg (t.returned ++ ·) (if_neg hne)
    have hissued : (t.step .reserveId).rt.reg.issued = t.rt.reg.issued + 1 := rfl
    rw [List.replicate_succ, execute_cons, ih, hstep, hissued, List.range'_succ]
    simp

/-- The counter wraps: the handle returned by draw number `2 ^ 64` is the null handle. -/
theorem registry_returns_null :
    ¬ ∀ (g : Global) (interests : IdMap (Int × Bool)) (ops : List RegistryOp),
      Allowed Logged.step Logged.Enabled (Logged.start g interests) ops →
      let t := execute Logged.step (Logged.start g interests) ops
      t.rt.reg.live + t.rt.reg.permanent = t.rt.reg.entryCount ∧
        (∀ i id, id ∈ t.rt.reg.shards i → id.natAbs % 64 = i) ∧
        t.returned.Nodup ∧ null ∉ t.returned := by
  intro hall
  have h := (hall Global.empty ∅ (List.replicate (2 ^ 64) .reserveId) (allowed_reserveIds _ _)).2.2.2
  rw [returned_reserveIds] at h
  apply h
  refine List.mem_append_right _ (List.mem_map.mpr ⟨2 ^ 64 - 1, ?_, drawn_wraps⟩)
  rw [List.mem_range'_1]
  exact ⟨Nat.zero_le _, by decide⟩

end Neutron
