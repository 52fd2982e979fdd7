import Neutron.Registry

/-!
# Registry operations on arrays

Arrays with `stringElements` own their element strings: pushes and writes store a
fresh copy, and every array-producing operation copies each element. Loops over
elements thread the registry, because every copied string is a new entry.
-/

namespace Neutron

/-- Exchange two slots of a vector. -/
def swapAt (l : List Int) (i j : ℕ) : List Int := (l.set i (l.getD j 0)).set j (l.getD i 0)

/-- The inner loop of both insertion sorts: slot `j` moves left while `out` says
the pair at `j - 1`, `j` is out of order. The test also receives `j`, because the
string comparison of `array_sort` looks texts up by position. -/
def sinkLeft (out : ℕ → Int → Int → Bool) : ℕ → List Int → List Int
  | 0, l => l
  | j + 1, l =>
      if out (j + 1) (l.getD j 0) (l.getD (j + 1) 0) then sinkLeft out j (swapAt l j (j + 1)) else l

def insertionSort (out : ℕ → Int → Int → Bool) (l : List Int) : List Int :=
  (List.range' 1 (l.length - 1)).foldl (fun l i => sinkLeft out i l) l

/-- The bits of a slot read as an `f64`: sign and magnitude. -/
def f64Magnitude (a : Int) : ℕ := (a % 2 ^ 63).toNat

def f64IsNan (a : Int) : Bool := 0x7FF0000000000000 < f64Magnitude a

def f64Rank (a : Int) : Int := if a % 2 ^ 64 < 2 ^ 63 then f64Magnitude a else -(f64Magnitude a : Int)

/-- `f64::from_bits(a) > f64::from_bits(b)`; false when either is a NaN. -/
def f64Gt (a b : Int) : Bool := !f64IsNan a && !f64IsNan b && f64Rank b < f64Rank a

namespace Registry

variable (r : Registry)

def array? (id : Int) : Option ArrayData :=
  match r.borrow id with
  | some (.array a) => some a
  | _ => none

def setElements (id : Int) (f : List Int → List Int) : Registry :=
  r.modify id (fun h => match h with
    | .array a => .array { a with elements := f a.elements }
    | h => h)

def arrayNew (elemSize : Int) (stringElements : Bool) : Registry × Int :=
  if elemSize ≤ 0 then (r, null) else r.insert (.array ⟨elemSize.toNat, stringElements, []⟩)

def arraySetStringElements (id : Int) (stringElements : Bool) : Registry :=
  match r.array? id with
  | some a => r.modify id (fun _ => .array { a with stringElements := stringElements })
  | none => r

def arrayLen (id : Int) : Int := ((r.array? id).map (fun a => (a.elements.length : Int))).getD 0

def arrayGet (id index : Int) : Option Int :=
  if index < 0 then none else (r.array? id).bind (fun a => a.elements[index.toNat]?)

def isArray (id : Int) : Bool := (r.array? id).isSome

def arrayToVec (id : Int) : List Int := ((r.array? id).map ArrayData.elements).getD []

/-- The slot value an insertion stores: a fresh copy for a string array, the raw
bits otherwise, and nothing when a string array is given a non-string. -/
def adoptElement (a : ArrayData) (elem : Int) : Option (Registry × Int) :=
  if a.stringElements then
    match r.lookup elem with
    | some (.string text) => some (r.insert (.string text))
    | _ => none
  else some (r, elem)

def arrayPush (id elem : Int) : Registry × Bool :=
  match r.lookup id with
  | some (.array a) =>
      match r.adoptElement a elem with
      | some (r, value) =>
          match r.lookup id with
          | some (.array _) => (r.setElements id (· ++ [value]), true)
          | _ => (r, false)
      | none => (r, false)
  | _ => (r, false)

def arraySet (id index elem : Int) : Registry × Bool :=
  if id = null ∨ index < 0 then (r, false) else
    match r.lookup id with
    | some (.array a) =>
        match r.adoptElement a elem with
        | some (r, value) =>
            match r.lookup id with
            | some (.array b) =>
                if h : index.toNat < b.elements.length then
                  let old := b.elements[index.toNat]
                  let r := r.setElements id (·.set index.toNat value)
                  (if a.stringElements then (r.takeString old).1 else r, true)
                else (r, false)
            | _ => (r, false)
        | none => (r, false)
    | _ => (r, false)

def arrayDrop (id : Int) : Registry :=
  if id = null then r else
    match r.lookup id with
    | some (.array a) =>
        let r := (r.remove id).1
        if a.stringElements then r.takeStrings a.elements else r
    | _ => r

def arrayPop (id : Int) : Registry × Option Int :=
  if id = null then (r, none) else
    match r.lookup id with
    | some (.array a) =>
        match a.elements.getLast? with
        | some e => (r.setElements id List.dropLast, some e)
        | none => (r, none)
    | _ => (r, none)

def arrayWriteElements (id : Int) (elements : List Int) : Registry × Bool :=
  match r.array? id with
  | some _ => (r.setElements id (fun _ => elements), true)
  | none => (r, false)

def putArray (a : ArrayData) : Registry × Int := r.insert (.array a)

/-- A loop over elements that builds the new slots while registering entries. -/
def mapElements (f : Registry → Int → Registry × Int) : List Int → Registry → Registry × List Int
  | [], r => (r, [])
  | e :: es, r =>
      let step := f r e
      let rest := mapElements f es step.1
      (rest.1, step.2 :: rest.2)

def cloneOrNull (elem : Int) : Registry × Int :=
  ((r.cloneString elem).1, (r.cloneString elem).2.getD null)

/-- Copy the selected elements of the array behind `id` into a fresh array; `raw`
treats an element that is not an owned string. -/
def copyArray (raw : ArrayData → Registry → Int → Registry × Int) (select : List Int → List Int)
    (id : Int) : Registry × Int :=
  if id = null then (r, null) else
    match r.lookup id with
    | some (.array a) =>
        let copied := mapElements
          (fun r e => if a.stringElements then r.cloneOrNull e else raw a r e) (select a.elements) r
        copied.1.putArray { a with elements := copied.2 }
    | _ => (r, null)

def keepRaw : ArrayData → Registry → Int → Registry × Int := fun _ r e => (r, e)

def arrayClone : ℕ → Registry → Int → Registry × Int
  | 0, r, id => r.copyArray keepRaw (fun l => l) id
  | levels + 1, r, id =>
      r.copyArray (fun a r e =>
        if a.elemSize = ptrSize ∧ r.isArray e then arrayClone levels r e else (r, e)) (fun l => l) id

def arrayFill (val count elemSize : Int) (stringElements : Bool) : Registry × Int :=
  if count < 0 ∨ elemSize ≤ 0 then (r, null) else
    let filled := mapElements
      (fun r e => if stringElements then r.cloneOrNull e else (r, e)) (List.replicate count.toNat val) r
    filled.1.putArray ⟨elemSize.toNat, stringElements, filled.2⟩

def arrayRange (start stop : Int) : Registry × Int :=
  r.putArray ⟨ptrSize, false, (List.range (stop - start).toNat).map (fun i => start + i)⟩

/-- The clamped window selected by `array_slice`; a negative `stop` means the end. -/
def sliceWindow (start stop : Int) (l : List Int) : List Int :=
  let s := (min (max start 0) l.length).toNat
  let e := if stop < 0 then l.length else (max (min stop l.length) 0).toNat
  (l.take e).drop (min s e)

def arraySlice (id start stop : Int) : Registry × Int := r.copyArray keepRaw (sliceWindow start stop) id

def arrayReverse (id : Int) : Registry × Int := r.copyArray keepRaw List.reverse id

def arrayClear (id : Int) : Registry × Int := r.copyArray keepRaw (fun _ => []) id

def arrayRemoveAt (id index : Int) : Registry × Int :=
  r.copyArray keepRaw (fun l =>
    let idx := if index < 0 then l.length + index else index
    if 0 ≤ idx then l.eraseIdx idx.toNat else l) id

/-- One Fisher-Yates pass, `i` counting down, driven by the bytes read from the
random device. -/
def shuffleLoop (bytes : List UInt8) : ℕ → List Int → List Int
  | 0, l => l
  | i + 1, l =>
      let j := if (i + 1) * 4 < bytes.length then (bytes.getD ((i + 1) * 4) 0).toNat % (i + 2)
        else (i + 1) / 2
      shuffleLoop bytes i (if i + 1 ≠ j then swapAt l (i + 1) j else l)

def arrayShuffle (bytes : List UInt8) (id : Int) : Registry × Int :=
  let cloned := arrayClone 0 r id
  if cloned.2 = null then (cloned.1, null) else
    match cloned.1.lookup cloned.2 with
    | some (.array a) =>
        if a.elements.length ≤ 1 then cloned
        else (cloned.1.setElements cloned.2 (shuffleLoop bytes (a.elements.length - 1)), cloned.2)
    | _ => (cloned.1, null)

/-- The comparison of `array_sort`. The texts are read once before the loop and
stay where they are while the elements move. -/
def sortOut (mode : Int) (strings : Option (List String)) (j : ℕ) (a b : Int) : Bool :=
  if mode = 1 then f64Gt a b
  else if mode = 2 then
    match strings with
    | some texts => texts.getD j "" < texts.getD (j - 1) ""
    | none => b < a
  else b < a

def arraySort (id mode : Int) : Registry × Int :=
  let cloned := arrayClone 0 r id
  if cloned.2 = null then (cloned.1, null) else
    match cloned.1.lookup cloned.2 with
    | some (.array a) =>
        let strings := if a.stringElements then some (a.elements.map cloned.1.textOrEmpty) else none
        (cloned.1.setElements cloned.2 (insertionSort (sortOut mode strings)), cloned.2)
    | _ => (cloned.1, null)

/-- `sort.sort_by`: the elements compared and written back are those of the source
array `handle`, not those of the clone. -/
def sortBy (handle : Int) (cmp : Int → Int → Int) : Registry × Option Int :=
  let cloned := arrayClone 0 r handle
  if cloned.2 = null then (cloned.1, none) else
    let elements := insertionSort (fun _ a b => cmp a b = 0) (cloned.1.arrayToVec handle)
    let written := cloned.1.arrayWriteElements cloned.2 elements
    (written.1, if written.2 then some cloned.2 else none)

end Registry
end Neutron
