import Neutron.FiniteTable
import Mathlib.Algebra.BigOperators.Fin
import Mathlib.Data.Fintype.BigOperators

/-!
# Handles and the sharded handle table

Every owned heap value of a compiled program lives in the registry under an
`i64` handle. The table is split into 64 shards by the magnitude of the id, and
ids come from one 64-bit counter that wraps. The operations below are the raw
accesses made under one shard lock; everything above them goes through `lookup`,
`store`, `discard` and `modify` and never sees the shards again.
-/

namespace Neutron

abbrev IdMap (V : Type) := AList (fun _ : Int => V)

/-- The null handle: no value. -/
abbrev null : Int := 0

/-- The byte size of a pointer slot. -/
def ptrSize : ℕ := 8

def registryShards : ℕ := 64

/-- Two's complement reading of a 64-bit word. -/
def toI64 (n : Int) : Int := n.bmod (2 ^ 64)

/-- The largest value of an `i64`. -/
def maxI64 : Int := 2 ^ 63 - 1

structure ArrayData where
  elemSize : ℕ
  stringElements : Bool
  elements : List Int
  deriving Repr, DecidableEq

structure SharedData where
  inner : Int
  count : ℕ
  deriving Repr, DecidableEq

structure SliceData where
  array : Int
  start : ℕ
  len : ℕ
  deriving Repr, DecidableEq

/-- A capability: an offset into one of the shared byte regions. -/
structure MemoryData where
  region : ℕ
  offset : ℕ
  deriving Repr, DecidableEq

/-- An owned value stored in the registry. `opaqueValue` carries the tag of the
Rust type behind the `dyn Any`, since takes and borrows compare it. -/
inductive Handle where
  | string (s : String)
  | array (a : ArrayData)
  | shared (s : SharedData)
  | asyncSleep (state ms deadline : Int)
  | goroutine (core : Int)
  | chan (core : Int) (count : ℕ)
  | reactorReg (core : Int)
  | asyncIo (core : Int)
  | asyncOp (state : Int) (work : Option ℕ) (op result : Int)
  | opaqueValue (type : ℕ) (payload : Int)
  | memory (m : MemoryData)
  | slice (s : SliceData)
  deriving Repr, DecidableEq

/-- The scheduler core behind a wrapper that names one. -/
def Handle.core? : Handle → Option Int
  | .goroutine core => some core
  | .chan core _ => some core
  | .reactorReg core => some core
  | .asyncIo core => some core
  | _ => none

/-- The statics of the registry. `issued` counts the `fetch_add`s made on
`NEXT_ID`, which starts at one, so the counter itself reads `toI64 (issued + 1)`. -/
structure Registry where
  shards : Fin registryShards → IdMap Handle
  issued : ℕ
  live : Int
  permanent : Int
  permanentIds : List Int
  leakSites : IdMap (Int × Int)
  generation : ℕ
  regions : List (List UInt8)

namespace Registry

def empty : Registry where
  shards _ := ∅
  issued := 0
  live := 0
  permanent := 0
  permanentIds := []
  leakSites := ∅
  generation := 0
  regions := []

/-- The handle returned by draw number `n` of the id counter. -/
def drawn (n : ℕ) : Int := toI64 (n + 1)

def shardOf (id : Int) : Fin registryShards := ⟨id.natAbs % registryShards, Nat.mod_lt _ (by decide)⟩

variable (r : Registry)

def lookup (id : Int) : Option Handle := (r.shards (shardOf id)).lookup id

def setShard (i : Fin registryShards) (m : IdMap Handle) : Registry :=
  { r with shards := Function.update r.shards i m }

def store (id : Int) (h : Handle) : Registry :=
  r.setShard (shardOf id) ((r.shards (shardOf id)).insert id h)

def discard (id : Int) : Registry :=
  r.setShard (shardOf id) ((r.shards (shardOf id)).erase id)

def modify (id : Int) (f : Handle → Handle) : Registry :=
  r.setShard (shardOf id) ((r.shards (shardOf id)).modify id f)

def total (f : Int → Handle → ℕ) : ℕ := ∑ i, (r.shards i).total f

/-- The number of entries over all shards. -/
def entryCount : ℕ := ∑ i, (r.shards i).size

/-- Every entry sits in the shard its own id selects. -/
def Placed : Prop := ∀ i id, id ∈ r.shards i → shardOf id = i

variable {r}

theorem entryCount_eq_total : r.entryCount = r.total (fun _ _ => 1) := by
  simp only [entryCount, total, AList.size_eq_total]

theorem sum_setShard (f : Int → Handle → ℕ) (i : Fin registryShards) (m : IdMap Handle) :
    (r.setShard i m).total f + (r.shards i).total f = r.total f + m.total f := by
  have hu := Finset.sum_update_of_mem (Finset.mem_univ i) (fun j => (r.shards j).total f) (m.total f)
  have hs := Finset.add_sum_erase Finset.univ (fun j => (r.shards j).total f) (Finset.mem_univ i)
  have he : (r.setShard i m).total f =
      ∑ j, Function.update (fun j => (r.shards j).total f) i (m.total f) j := by
    apply Finset.sum_congr rfl
    intro j _
    by_cases hj : j = i
    · subst hj
      simp [setShard]
    · simp [setShard, hj]
  rw [he, hu, ← Finset.erase_eq]
  unfold total
  omega

variable {id : Int}

theorem lookup_setShard_self {m : IdMap Handle} : (r.setShard (shardOf id) m).lookup id = m.lookup id := by
  simp [setShard, lookup]

theorem lookup_setShard_of_eq {id k : Int} {m : IdMap Handle}
    (h : m.lookup k = (r.shards (shardOf id)).lookup k) :
    (r.setShard (shardOf id) m).lookup k = r.lookup k := by
  by_cases hs : shardOf k = shardOf id
  · simp [setShard, lookup, hs, h]
  · simp [setShard, lookup, hs]

theorem lookup_store (id k : Int) (h : Handle) :
    (r.store id h).lookup k = if k = id then some h else r.lookup k := by
  by_cases hk : k = id
  · subst hk
    rw [if_pos rfl, store, lookup_setShard_self, AList.lookup_insert]
  · rw [if_neg hk]
    exact lookup_setShard_of_eq (AList.lookup_insert_ne hk)

theorem lookup_discard (id k : Int) :
    (r.discard id).lookup k = if k = id then none else r.lookup k := by
  by_cases hk : k = id
  · subst hk
    rw [if_pos rfl, discard, lookup_setShard_self, AList.lookup_erase]
  · rw [if_neg hk]
    exact lookup_setShard_of_eq (AList.lookup_erase_ne hk)

theorem lookup_modify (id k : Int) (f : Handle → Handle) :
    (r.modify id f).lookup k = if k = id then (r.lookup k).map f else r.lookup k := by
  by_cases hk : k = id
  · subst hk
    rw [if_pos rfl, modify, lookup_setShard_self, AList.lookup_modify_self]
    rfl
  · rw [if_neg hk]
    exact lookup_setShard_of_eq (AList.lookup_modify_ne hk f _)

variable {f : Int → Handle → ℕ}

theorem total_store (h : Handle) (hn : r.lookup id = none) : (r.store id h).total f = r.total f + f id h := by
  have hs := sum_setShard (r := r) f (shardOf id) ((r.shards (shardOf id)).insert id h)
  rw [AList.total_insert h hn] at hs
  unfold store
  omega

theorem total_store_replace {old : Handle} (h : Handle)
    (ho : r.lookup id = some old) : (r.store id h).total f + f id old = r.total f + f id h := by
  have hs := sum_setShard (r := r) f (shardOf id) ((r.shards (shardOf id)).insert id h)
  have hr := AList.total_insert_replace (f := f) h ho
  unfold store
  omega

theorem total_discard {h : Handle} (ho : r.lookup id = some h) :
    (r.discard id).total f + f id h = r.total f := by
  have hs := sum_setShard (r := r) f (shardOf id) ((r.shards (shardOf id)).erase id)
  have hr := AList.total_erase (f := f) ho
  unfold discard
  omega

theorem total_modify {h : Handle} (g : Handle → Handle)
    (ho : r.lookup id = some h) : (r.modify id g).total f + f id h = r.total f + f id (g h) := by
  have hs := sum_setShard (r := r) f (shardOf id) ((r.shards (shardOf id)).modify id g)
  have hr := AList.total_modify (f := f) g ho
  unfold modify
  omega

theorem setShard_self (i : Fin registryShards) : r.setShard i (r.shards i) = r := by
  simp [setShard]

theorem modify_of_lookup_none (f : Handle → Handle) (h : r.lookup id = none) : r.modify id f = r := by
  rw [modify, AList.modify_of_lookup_none f h, setShard_self]

theorem Placed.setShard (hp : r.Placed) {i : Fin registryShards} {m : IdMap Handle}
    (hm : ∀ id ∈ m, shardOf id = i) : (r.setShard i m).Placed := by
  intro j id hid
  by_cases hj : j = i
  · subst hj
    exact hm id (by simpa [Registry.setShard] using hid)
  · exact hp j id (by simpa [Registry.setShard, hj] using hid)

theorem Placed.store (hp : r.Placed) (id : Int) (h : Handle) : (r.store id h).Placed := by
  apply hp.setShard
  intro k hk
  rcases (AList.mem_insert _).mp hk with rfl | hk
  · rfl
  · exact hp _ k hk

theorem Placed.discard (hp : r.Placed) (id : Int) : (r.discard id).Placed := by
  apply hp.setShard
  intro k hk
  exact hp _ k (AList.mem_erase.mp hk).2

theorem Placed.modify (hp : r.Placed) (id : Int) (f : Handle → Handle) : (r.modify id f).Placed := by
  apply hp.setShard
  intro k hk
  rw [AList.mem_keys, AList.modify, AList.keys_mapWithKey] at hk
  exact hp _ k hk

theorem placed_empty : Registry.empty.Placed := by
  intro i id hid
  exact absurd hid (AList.notMem_empty id)

theorem entryCount_empty : Registry.empty.entryCount = 0 := by
  rw [entryCount_eq_total]
  exact Finset.sum_eq_zero (fun i _ => rfl)

theorem drawn_emod (n : ℕ) : drawn n % ((2 ^ 64 : ℕ) : Int) = (n + 1) % ((2 ^ 64 : ℕ) : Int) := by
  rw [drawn, toI64, Int.bmod_emod]

/-- Until the counter has gone once around, every draw is new. -/
theorem drawn_injective {m n : ℕ} (hm : m < 2 ^ 64 - 1) (hn : n < 2 ^ 64 - 1)
    (h : drawn m = drawn n) : m = n := by
  have hm' := drawn_emod m
  have hn' := drawn_emod n
  rw [h] at hm'
  omega

/-- The draw after that is the null handle. -/
theorem drawn_wraps : drawn (2 ^ 64 - 1) = null := by decide

theorem drawn_ne_null {n : ℕ} (hn : n < 2 ^ 64 - 1) : drawn n ≠ null := by
  intro h
  have hn' := drawn_emod n
  rw [h, null] at hn'
  omega

end Registry
end Neutron
