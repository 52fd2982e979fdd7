import Neutron.TaskHandles
import Neutron.RegistryWindows

/-!
# The runtime ABI

The entry points of the runtime as generated code calls them. A call runs on one thread:
its pending exception, its capability cache and the state of the goroutine it drives are
thread-local, everything else is shared. A refused call returns the documented safe
failure of its result type; some calls throw instead.
-/

namespace Neutron

/-- The thread-local part of the runtime. -/
structure Thread where
  pending : Option Int
  cache : Option CachedRegion
  gid : Option Int
  state : TaskState

structure World where
  rt : Runtime
  thread : ℕ → Thread

def World.start : World := ⟨Runtime.empty, fun _ => ⟨none, none, none, TaskState.idle⟩⟩

/-- The upper bound for the output of the word decoder, in bytes. -/
def maxBuiltinOutput : ℕ := 2 ^ 24

/-- The bytes spelled by an array of 64-bit words. -/
def Registry.wordBytes (r : Registry) (words byteCount : Int) : List UInt8 :=
  let count := min (max byteCount 0).toNat maxBuiltinOutput
  let wordCount := count / 8 + if 0 < count then 1 else 0
  ((List.range wordCount).flatMap (fun i => leBytes 8 ((r.arrayGet words i).getD 0))).take count

namespace World

variable (w : World) (t : ℕ)

def onThread (f : Thread → Thread) : World :=
  { w with thread := Function.update w.thread t (f (w.thread t)) }

def withReg (reg : Registry) : World := { w with rt := { w.rt with reg := reg } }

/-! ## Exceptions -/

/-- Arm the message on the thread; the null handle stands for an empty message. -/
def throw (msg : Int) : World × Int :=
  if msg = null then
    let put := w.rt.reg.putString ""
    ((w.withReg put.1).onThread t (fun th => { th with pending := some put.2 }), null)
  else (w.onThread t (fun th => { th with pending := some msg }), null)

def throwString (message : String) : World × Int :=
  let put := w.rt.reg.putString message
  (w.withReg put.1).throw t put.2

def exceptionTakeMessage : World × Int :=
  (w.onThread t (fun th => { th with pending := none }), (w.thread t).pending.getD null)

def exceptionClear : World :=
  let taken := w.exceptionTakeMessage t
  taken.1.withReg (taken.1.rt.reg.takeString taken.2).1

/-! ## Strings -/

def stringDrop (id : Int) : World := w.withReg (w.rt.reg.takeString id).1

/-- The message is consumed either way; a false condition aborts the process afterwards. -/
def assert (msg : Int) : World := w.withReg (w.rt.reg.takeString msg).1

/-- Reassemble a string from its words, consuming the word array. `fromUtf8Lossy` is the
standard library's decoder. -/
def stringFromWords (fromUtf8Lossy : List UInt8 → String) (words byteCount : Int) (permanent : Bool) :
    World × Int :=
  let bytes := if words = null then [] else w.rt.reg.wordBytes words byteCount
  let reg := if words = null then w.rt.reg else w.rt.reg.arrayDrop words
  let put := if permanent then reg.putStringPermanent (fromUtf8Lossy bytes)
    else reg.putString (fromUtf8Lossy bytes)
  (w.withReg put.1, put.2)

/-! ## Arrays -/

def arrayGet (id index : Int) : World × Int :=
  match w.rt.reg.arrayGet id index with
  | some value => (w, value)
  | none => w.throwString t "array index out of bounds"

def arrayPush (id elem : Int) : World × Int :=
  let pushed := w.rt.reg.arrayPush id elem
  (w.withReg pushed.1, if pushed.2 then id else null)

def arraySet (id index elem : Int) : World × Int :=
  if w.rt.reg.isArray id then
    if index < 0 ∨ w.rt.reg.arrayLen id ≤ index then w.throwString t "array index out of bounds"
    else
      let written := w.rt.reg.arraySet id index elem
      (w.withReg written.1, if written.2 then id else null)
  else (w, null)

def arrayPop (id : Int) : World × Int :=
  let popped := w.rt.reg.arrayPop id
  (w.withReg popped.1, popped.2.getD null)

def arrayDrop (id : Int) : World := w.withReg (w.rt.reg.arrayDrop id)

end World
end Neutron
