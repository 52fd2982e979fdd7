import Neutron.RegistryArrays

/-!
# Slices and memory capabilities

A slice stores the source handle and a window, never a pointer. A memory
capability names a shared byte region and an offset; resolving one goes through a
per-thread cache keyed by the generation counter of the registry.
-/

namespace Neutron

/-- The last capability resolved on this thread. -/
structure CachedRegion where
  id : Int
  generation : ℕ
  region : ℕ
  offset : ℕ
  deriving Repr, DecidableEq

namespace Registry

variable (r : Registry)

def sliceWindow? (id : Int) : Option (Int × ℕ × ℕ) :=
  match r.borrow id with
  | some (.slice s) => some (s.array, s.start, s.len)
  | _ => none

def sliceOf (array start stop : Int) : Registry × Option Int :=
  if start < 0 ∨ stop < start then (r, none) else
    match r.array? array with
    | some a =>
        if a.elements.length < stop.toNat then (r, none) else
          let put := r.insert (.slice ⟨array, start.toNat, stop.toNat - start.toNat⟩)
          (put.1, some put.2)
    | none => (r, none)

def sliceSub (id start stop : Int) : Registry × Option Int :=
  if start < 0 ∨ stop < start then (r, none) else
    match r.sliceWindow? id with
    | some (array, base, len) =>
        if len < stop.toNat then (r, none) else
          let put := r.insert (.slice ⟨array, base + start.toNat, stop.toNat - start.toNat⟩)
          (put.1, some put.2)
    | none => (r, none)

def sliceLen (id : Int) : Option Int := (r.sliceWindow? id).map (fun w => (w.2.2 : Int))

def sliceGet (id index : Int) : Option Int :=
  if index < 0 then none else
    match r.sliceWindow? id with
    | some (array, start, len) =>
        if len ≤ index.toNat then none else r.arrayGet array (start + index.toNat)
    | none => none

def sliceSet (id index value : Int) : Registry × Bool :=
  if index < 0 then (r, false) else
    match r.sliceWindow? id with
    | some (array, start, len) =>
        if len ≤ index.toNat then (r, false) else r.arraySet array (start + index.toNat) value
    | none => (r, false)

/-- Push the window's elements one by one; stops at the first failure. -/
def pushWindow (out array : Int) : List ℕ → Registry → Registry × Bool
  | [], r => (r, true)
  | i :: is, r =>
      match r.arrayGet array i with
      | none => (r, false)
      | some element =>
          let pushed := r.arrayPush out element
          if pushed.2 then pushWindow out array is pushed.1 else (pushed.1, false)

def sliceToArray (id : Int) : Registry × Option Int :=
  match r.sliceWindow? id with
  | none => (r, none)
  | some (array, start, len) =>
      match r.array? array with
      | none => (r, none)
      | some a =>
          let out := r.arrayNew a.elemSize a.stringElements
          let done := pushWindow out.2 array (List.range' start len) out.1
          (done.1, if done.2 then some out.2 else none)

/-- Write the given values at the given slots; stops at the first failure. -/
def writeSlots (array : Int) (value : Registry → ℕ → Option Int) : List (ℕ × ℕ) → Registry → Registry × Bool
  | [], r => (r, true)
  | (src, dst) :: rest, r =>
      match value r src with
      | none => (r, false)
      | some element =>
          let written := r.arraySet array dst element
          if written.2 then writeSlots array value rest written.1 else (written.1, false)

def sliceFill (id value : Int) : Registry × Bool :=
  match r.sliceWindow? id with
  | none => (r, false)
  | some (array, start, len) =>
      writeSlots array (fun _ _ => some value) ((List.range' start len).map (fun i => (i, i))) r

def sliceCopyFrom (dst src : Int) : Registry × Bool :=
  match r.sliceWindow? dst, r.sliceWindow? src with
  | some (dstArray, dstStart, dstLen), some (srcArray, srcStart, srcLen) =>
      if dstLen ≠ srcLen then (r, false) else
        writeSlots dstArray (fun r i => r.arrayGet srcArray i)
          ((List.range dstLen).map (fun o => (srcStart + o, dstStart + o))) r
  | _, _ => (r, false)

/-- Element-wise comparison of two windows; a missing element ends it. -/
def compareWindows (a b : Int) : List (ℕ × ℕ) → Option Bool
  | [] => some true
  | (i, j) :: rest =>
      match r.arrayGet a i, r.arrayGet b j with
      | some left, some right => if left ≠ right then some false else compareWindows a b rest
      | _, _ => none

def sliceEqual (a b : Int) : Option Bool :=
  match r.sliceWindow? a, r.sliceWindow? b with
  | some (aArray, aStart, aLen), some (bArray, bStart, bLen) =>
      if aLen ≠ bLen then some false else
        r.compareWindows aArray bArray ((List.range aLen).map (fun o => (aStart + o, bStart + o)))
  | _, _ => none

def sliceDrop (id : Int) : Registry :=
  if id = null then r else
    match r.lookup id with
    | some (.slice _) => r.retireBumping id
    | _ => r

/-! ## Memory capabilities -/

def memory? (id : Int) : Option MemoryData :=
  match r.borrow id with
  | some (.memory m) => some m
  | _ => none

def region (n : ℕ) : List UInt8 := r.regions.getD n []

def memoryAlloc (size : ℕ) : Registry × Int :=
  { r with regions := r.regions ++ [List.replicate size 0] }.insert (.memory ⟨r.regions.length, 0⟩)

def memoryOffset (id delta : Int) : Registry × Option Int :=
  match r.memory? id with
  | none => (r, none)
  | some m =>
      let target : Int := m.offset + delta
      if target < 0 ∨ 2 ^ 64 ≤ target ∨ ((r.region m.region).length : Int) < target then (r, none)
      else
        let put := r.insert (.memory { m with offset := target.toNat })
        (put.1, some put.2)

def memoryClone (id : Int) : Registry × Option Int :=
  match r.memory? id with
  | none => (r, none)
  | some m => ((r.insert (.memory m)).1, some (r.insert (.memory m)).2)

def memoryDrop (id : Int) : Registry :=
  if id = null then r else
    match r.lookup id with
    | some (.memory _) => r.retireBumping id
    | _ => r

/-- Resolve a capability, through the cache when it is still valid. -/
def memoryRegion (cache : Option CachedRegion) (id : Int) :
    Option CachedRegion × Option (ℕ × ℕ) :=
  let lookUp := match r.memory? id with
    | some m => (some ⟨id, r.generation, m.region, m.offset⟩, some (m.region, m.offset))
    | none => (cache, none)
  match cache with
  | some entry =>
      if entry.id = id ∧ entry.generation = r.generation then (cache, some (entry.region, entry.offset))
      else lookUp
  | none => lookUp

/-- A capability is resolved from the cache, or from its handle, or not at all. -/
theorem memoryRegion_cases (cache : Option CachedRegion) (id : Int) :
    (∃ e, cache = some e ∧ e.id = id ∧ e.generation = r.generation ∧
      r.memoryRegion cache id = (cache, some (e.region, e.offset))) ∨
    (∃ m, r.memory? id = some m ∧ r.memoryRegion cache id =
      (some ⟨id, r.generation, m.region, m.offset⟩, some (m.region, m.offset))) ∨
    (r.memory? id = none ∧ r.memoryRegion cache id = (cache, none)) := by
  unfold memoryRegion
  cases hm : r.memory? id with
  | none =>
    cases cache with
    | none => exact .inr (.inr ⟨rfl, rfl⟩)
    | some e =>
      by_cases hhit : e.id = id ∧ e.generation = r.generation
      · exact .inl ⟨e, rfl, hhit.1, hhit.2, if_pos hhit⟩
      · exact .inr (.inr ⟨rfl, if_neg hhit⟩)
  | some m =>
    cases cache with
    | none => exact .inr (.inl ⟨m, rfl, rfl⟩)
    | some e =>
      by_cases hhit : e.id = id ∧ e.generation = r.generation
      · exact .inl ⟨e, rfl, hhit.1, hhit.2, if_pos hhit⟩
      · exact .inr (.inl ⟨m, rfl, if_neg hhit⟩)

def leBytes (width : ℕ) (value : Int) : List UInt8 :=
  (List.range width).map (fun i => UInt8.ofNat ((value / 2 ^ (8 * i)) % 256).toNat)

def fromLeBytes : List UInt8 → ℕ
  | [] => 0
  | b :: bs => b.toNat + 256 * fromLeBytes bs

def memoryLoad (cache : Option CachedRegion) (id : Int) (width : ℕ) :
    Option CachedRegion × Option Int :=
  let (cache, found) := r.memoryRegion cache id
  match found with
  | none => (cache, none)
  | some (n, offset) =>
      if offset + width ≤ (r.region n).length then
        (cache, some (toI64 (fromLeBytes (((r.region n).drop offset).take width))))
      else (cache, none)

def memoryStore (cache : Option CachedRegion) (id : Int) (width : ℕ) (value : Int) :
    Registry × Option CachedRegion × Bool :=
  let (cache, found) := r.memoryRegion cache id
  match found with
  | none => (r, cache, false)
  | some (n, offset) =>
      let bytes := r.region n
      if offset + width ≤ bytes.length then
        let written := bytes.take offset ++ leBytes width value ++ bytes.drop (offset + width)
        ({ r with regions := r.regions.set n written }, cache, true)
      else (r, cache, false)

end Registry
end Neutron
