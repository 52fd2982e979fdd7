import Neutron.Handle

/-!
# Registry operations on strings, shared boxes and opaque values

Each operation takes the registry as it is when the lock is acquired and returns
the registry as it is when the lock is released, together with the source's
result. A removal made outside `remove` carries its own counter update, exactly
as in the source, so that the agreement of the counters with the table is
something to prove.
-/

namespace Neutron.Registry

variable (r : Registry)

def nextId : Registry × Int := ({ r with issued := r.issued + 1 }, drawn r.issued)

def insertLocked (id : Int) (h : Handle) : Registry :=
  { r.store id h with live := r.live + 1 }

def insert (h : Handle) : Registry × Int :=
  (r.nextId.1.insertLocked r.nextId.2 h, r.nextId.2)

def reserveId : Registry × Int := r.nextId

def insertReserved (id : Int) (h : Handle) : Registry :=
  if r.lookup id = none then { r.store id h with live := r.live + 1 } else r.store id h

def insertPermanent (h : Handle) : Registry × Int :=
  let id := r.nextId.2
  ({ r.nextId.1.store id h with
      permanent := r.permanent + 1
      permanentIds := id :: r.permanentIds.filter (· ≠ id) }, id)

/-- A removal that leaves the capability generation alone. -/
def retire (id : Int) : Registry := { r.discard id with live := r.live - 1 }

/-- A removal that invalidates every cached capability. -/
def retireBumping (id : Int) : Registry :=
  { r.discard id with live := r.live - 1, generation := r.generation + 1 }

def remove (id : Int) : Registry × Option Handle :=
  if id = null then (r, none) else
    match r.lookup id with
    | some h => (r.retireBumping id, some h)
    | none => (r, none)

def removeAll (ids : List Int) : Registry := ids.foldl (fun r id => (r.remove id).1) r

def borrow (id : Int) : Option Handle := if id = null then none else r.lookup id

def removeKind (id : Int) (kind : Handle → Bool) : Registry × Option Handle :=
  match r.borrow id with
  | some h => if kind h then r.remove id else (r, none)
  | none => (r, none)

def liveCount : Int := r.live

def markLeakSite (id line column : Int) : Registry :=
  if id = null ∨ r.lookup id = none then r
  else { r with leakSites := r.leakSites.insert id (line, column) }

end Registry

/-- The label the leak reporter prints for a handle. -/
def Handle.kindName : Handle → String
  | .string _ => "string"
  | .array _ => "array"
  | .shared _ => "shared"
  | .asyncSleep .. => "async future"
  | .goroutine _ => "goroutine"
  | .chan .. => "channel"
  | .reactorReg _ => "reactor registration"
  | .asyncIo _ => "async io future"
  | .asyncOp .. => "offloaded future"
  | .opaqueValue .. => "opaque"
  | .memory _ => "pointer capability"
  | .slice _ => "slice"

structure LeakEntry where
  id : Int
  kind : String
  detail : Option String
  site : Option (Int × Int)

/-- The quoted preview of a leaked string; `escapeDebug` is the standard
library's `str::escape_debug`. -/
def Handle.preview (escapeDebug : String → List Char) : Handle → Option String
  | .string s =>
      let shown := String.ofList ((escapeDebug s).take 80)
      some (if 80 < (escapeDebug s).length then shown ++ "..." else shown)
  | _ => none

namespace Registry

variable (r : Registry)

def rows : List (Int × Handle) :=
  (List.finRange registryShards).flatMap (fun i => (r.shards i).entries.map (fun e => (e.1, e.2)))

def liveEntries (escapeDebug : String → List Char) : List LeakEntry :=
  let kept := r.rows.filter (fun e => e.1 ∉ r.permanentIds)
  (kept.map (fun e => ⟨e.1, e.2.kindName, e.2.preview escapeDebug, r.leakSites.lookup e.1⟩)).mergeSort
    (fun a b => a.id ≤ b.id)

/-! ## Strings -/

def putString (s : String) : Registry × Int := r.insert (.string s)

def putStringPermanent (s : String) : Registry × Int := r.insertPermanent (.string s)

def takeString (id : Int) : Registry × Option String :=
  if id = null then (r, none) else
    match r.lookup id with
    | some (.string s) => (r.retire id, some s)
    | _ => (r, none)

def takeStrings (ids : List Int) : Registry := ids.foldl (fun r id => (r.takeString id).1) r

def getString (id : Int) : Option String :=
  if id = null then none else
    match r.lookup id with
    | some (.string s) => some s
    | _ => none

def cloneString (id : Int) : Registry × Option Int :=
  match r.getString id with
  | some text => ((r.putString text).1, some (r.putString text).2)
  | none => (r, none)

/-- The text read by `string_concat`: anything but a string reads as empty. -/
def textOrEmpty (id : Int) : String :=
  match r.lookup id with
  | some (.string s) => s
  | _ => ""

def stringConcat (a b : Int) : Registry × Option Int :=
  let put := r.putString (r.textOrEmpty a ++ r.textOrEmpty b)
  (put.1, some put.2)

def stringEquals (a b : Int) : Bool :=
  if a = null ∨ b = null then false else
    match r.lookup a, r.lookup b with
    | some (.string sa), some (.string sb) => sa == sb
    | _, _ => false

/-! ## Shared boxes -/

def sharedNew (inner : Int) : Registry × Int := r.insert (.shared ⟨inner, 1⟩)

def sharedRetain (id : Int) : Registry × Int :=
  match r.borrow id with
  | some (.shared s) => (r.modify id (fun _ => .shared { s with count := (s.count + 1) % 2 ^ 64 }), id)
  | _ => (r, id)

def sharedRelease (id : Int) : Registry × Int :=
  if id = null then (r, null) else
    match r.lookup id with
    | some (.shared s) =>
        if 0 < s.count - 1 then (r.modify id (fun _ => .shared { s with count := s.count - 1 }), null)
        else (r.retire id, s.inner)
    | _ => (r, null)

def sharedInner (id : Int) : Int :=
  match r.borrow id with
  | some (.shared s) => s.inner
  | _ => null

/-! ## Async futures without scheduler state -/

def asyncSleepNew (ms : Int) : Registry × Int := r.insert (.asyncSleep 0 ms 0)

def asyncSleepDrop (id : Int) : Registry :=
  if id = null then r else
    match r.lookup id with
    | some (.asyncSleep ..) => r.retire id
    | _ => r

def asyncOpNew (work : ℕ) : Registry × Int := r.insert (.asyncOp 0 (some work) 0 null)

def asyncOpResult (id : Int) : Int :=
  if id = null then null else
    match r.lookup id with
    | some (.asyncOp 2 _ _ result) => result
    | _ => null

/-! ## Task handle wrappers -/

def removeGoroutineHandle (id : Int) : Registry :=
  if id = null then r else
    match r.lookup id with
    | some (.goroutine _) => r.retire id
    | _ => r

def chanRetain (id : Int) : Registry × Int :=
  match r.borrow id with
  | some (.chan core count) => (r.modify id (fun _ => .chan core (min (count + 1) (2 ^ 64 - 1))), id)
  | _ => (r, id)

/-- The scheduler core behind any of the four task-like handles. -/
def taskCore (id : Int) : Option Int :=
  match r.borrow id with
  | some (.goroutine core) => some core
  | some (.chan core _) => some core
  | some (.reactorReg core) => some core
  | some (.asyncIo core) => some core
  | _ => none

/-! ## Opaque module values -/

def putOpaque (type : ℕ) (payload : Int) : Registry × Int := r.insert (.opaqueValue type payload)

def takeOpaque (type : ℕ) (id : Int) : Registry × Option Int :=
  if id = null then (r, none) else
    match r.lookup id with
    | some (.opaqueValue t payload) => if t = type then (r.retire id, some payload) else (r, none)
    | _ => (r, none)

/-- The value leaves the table while `f` runs and returns under the same id, with
no counter update on either side. -/
def withOpaqueIo {α : Type} (type : ℕ) (id : Int) (f : Int → Int × α) : Registry × Option α :=
  if id = null then (r, none) else
    match r.lookup id with
    | some (.opaqueValue t payload) =>
        if t = type then
          ((r.discard id).store id (.opaqueValue type (f payload).1), some (f payload).2)
        else (r, none)
    | _ => (r, none)

end Neutron.Registry
