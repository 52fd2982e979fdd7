import Neutron.Abi

/-!
# Destructive and mutating ABI calls

The entry points that consume or change what a handle names, as one type of calls. A
reply is the value the call returns, if it returns one. The `slices` and `memory` modules
throw when they refuse; every other call refuses silently.
-/

namespace Neutron

namespace World

variable (w : World) (t : ℕ)

def withRt (rt : Runtime) : World := { w with rt := rt }

/-- Throw the message unless the operation produced a result. -/
def orThrow (reg : Registry) (result : Option Int) (message : String) : World × Option Int :=
  match result with
  | some value => (w.withReg reg, some value)
  | none => (((w.withReg reg).throwString t message).1, some ((w.withReg reg).throwString t message).2)

/-! ## Channels -/

def parkChanSend (core value : Int) : World :=
  if (w.thread t).gid = none then w else
    w.onThread t (fun th =>
      { th with state := { th.state with pendingSend := value, pendingSendOwned := false, park := .chan core .send } })

def parkChanRecv (core : Int) : World :=
  if (w.thread t).gid = none then w else
    w.onThread t (fun th =>
      { th with
        state :=
          { th.state with
            recvResult := null, recvResultOwned := false, recvOk := false, park := .chan core .recv } })

def chanSend (id value : Int) : World × Option Int :=
  match w.rt.reg.taskCore id with
  | some core => (w.parkChanSend t core value, some 0)
  | none => (w, some 1)

def chanRecv (id : Int) : World × Option Int :=
  match w.rt.reg.taskCore id with
  | some core => (w.parkChanRecv t core, some 0)
  | none => (w, some 1)

def chanClose (id : Int) : World :=
  match w.rt.reg.taskCore id with
  | some core => w.withRt (w.rt.chanClose core)
  | none => w

/-! ## Memory capabilities -/

def memoryLoad (id : Int) (width : ℕ) : World × Option Int :=
  let loaded := w.rt.reg.memoryLoad (w.thread t).cache id width
  (w.onThread t (fun th => { th with cache := loaded.1 }), loaded.2)

def memoryStore (id : Int) (width : ℕ) (value : Int) : World × Bool :=
  let stored := w.rt.reg.memoryStore (w.thread t).cache id width value
  ((w.withReg stored.1).onThread t (fun th => { th with cache := stored.2.1 }), stored.2.2)

/-- `memory.load8` and `memory.load64`. -/
def loadOrThrow (id : Int) (width : ℕ) (mask : Int → Int) (message : String) : World × Option Int :=
  let loaded := w.memoryLoad t id width
  loaded.1.orThrow t loaded.1.rt.reg (loaded.2.map mask) message

def storeOrThrow (id : Int) (width : ℕ) (value : Int) (message : String) : World × Option Int :=
  let stored := w.memoryStore t id width value
  stored.1.orThrow t stored.1.rt.reg (if stored.2 then some 1 else none) message

end World

inductive AbiCall
  | stringDrop (id : Int)
  | arrayPush (id elem : Int)
  | arraySet (id index elem : Int)
  | arrayPop (id : Int)
  | arrayDrop (id : Int)
  | sharedRetain (id : Int)
  | sharedRelease (id : Int)
  | asyncSleepDrop (id : Int)
  | goroutineDrop (id : Int)
  | chanRetain (id : Int)
  | chanDrop (id : Int)
  | chanClose (id : Int)
  | chanSend (id value : Int)
  | chanRecv (id : Int)
  | slicesOf (array start stop : Int)
  | slicesSub (id start stop : Int)
  | slicesLength (id : Int)
  | slicesGet (id index : Int)
  | slicesSet (id index value : Int)
  | slicesToArray (id : Int)
  | slicesFill (id value : Int)
  | slicesCopyFrom (dst src : Int)
  | slicesEqual (a b : Int)
  | slicesDrop (id : Int)
  | memoryOffset (id delta : Int)
  | memoryClone (id : Int)
  | memoryDrop (id : Int)
  | memoryLoad8 (id : Int)
  | memoryLoad64 (id : Int)
  | memoryStore8 (id value : Int)
  | memoryStore64 (id value : Int)
  | takeOpaque (type : ℕ) (id : Int)

/-- A boolean of the ABI. -/
def okFlag (ok : Bool) : Option Int := if ok then some 1 else none

namespace World

variable (w : World) (t : ℕ)

/-- Make a call on a thread. -/
def call : AbiCall → World × Option Int
  | .stringDrop id => (w.stringDrop id, none)
  | .arrayPush id elem => ((w.arrayPush id elem).1, some (w.arrayPush id elem).2)
  | .arraySet id index elem => ((w.arraySet t id index elem).1, some (w.arraySet t id index elem).2)
  | .arrayPop id => ((w.arrayPop id).1, some (w.arrayPop id).2)
  | .arrayDrop id => (w.arrayDrop id, none)
  | .sharedRetain id => (w.withReg (w.rt.reg.sharedRetain id).1, some (w.rt.reg.sharedRetain id).2)
  | .sharedRelease id => (w.withReg (w.rt.reg.sharedRelease id).1, some (w.rt.reg.sharedRelease id).2)
  | .asyncSleepDrop id => (w.withReg (w.rt.reg.asyncSleepDrop id), none)
  | .goroutineDrop id => (w.withRt (w.rt.goroutineDrop id), none)
  | .chanRetain id => (w.withReg (w.rt.reg.chanRetain id).1, some (w.rt.reg.chanRetain id).2)
  | .chanDrop id => (w.withRt (w.rt.chanDrop id), none)
  | .chanClose id => (w.chanClose id, none)
  | .chanSend id value => w.chanSend t id value
  | .chanRecv id => w.chanRecv t id
  | .slicesOf array start stop =>
      w.orThrow t (w.rt.reg.sliceOf array start stop).1 (w.rt.reg.sliceOf array start stop).2
        "slices.of: range is out of bounds"
  | .slicesSub id start stop =>
      w.orThrow t (w.rt.reg.sliceSub id start stop).1 (w.rt.reg.sliceSub id start stop).2
        "slices.sub: range is out of bounds"
  | .slicesLength id => w.orThrow t w.rt.reg (w.rt.reg.sliceLen id) "slices.length: not a slice"
  | .slicesGet id index => w.orThrow t w.rt.reg (w.rt.reg.sliceGet id index) "slices.get: index out of bounds"
  | .slicesSet id index value =>
      w.orThrow t (w.rt.reg.sliceSet id index value).1 (okFlag (w.rt.reg.sliceSet id index value).2)
        "slices.set: index out of bounds"
  | .slicesToArray id =>
      w.orThrow t (w.rt.reg.sliceToArray id).1 (w.rt.reg.sliceToArray id).2 "slices.to_array: not a slice"
  | .slicesFill id value =>
      w.orThrow t (w.rt.reg.sliceFill id value).1 (okFlag (w.rt.reg.sliceFill id value).2)
        "slices.fill: not a slice"
  | .slicesCopyFrom dst src =>
      w.orThrow t (w.rt.reg.sliceCopyFrom dst src).1 (okFlag (w.rt.reg.sliceCopyFrom dst src).2)
        "slices.copy_from: lengths differ or not a slice"
  | .slicesEqual a b =>
      w.orThrow t w.rt.reg ((w.rt.reg.sliceEqual a b).map (fun same => if same then 1 else 0))
        "slices.equal: not a slice"
  | .slicesDrop id => (w.withReg (w.rt.reg.sliceDrop id), none)
  | .memoryOffset id delta =>
      w.orThrow t (w.rt.reg.memoryOffset id delta).1 (w.rt.reg.memoryOffset id delta).2
        "memory.offset: out of bounds or invalid pointer"
  | .memoryClone id =>
      w.orThrow t (w.rt.reg.memoryClone id).1 (w.rt.reg.memoryClone id).2 "memory.clone: invalid pointer"
  | .memoryDrop id => (w.withReg (w.rt.reg.memoryDrop id), none)
  | .memoryLoad8 id => w.loadOrThrow t id 1 (· % 256) "memory.load8: out of bounds or invalid pointer"
  | .memoryLoad64 id => w.loadOrThrow t id 8 (fun v => v) "memory.load64: out of bounds or invalid pointer"
  | .memoryStore8 id value =>
      if value < 0 ∨ 255 < value then
        w.orThrow t w.rt.reg none "memory.store8: value must be between 0 and 255"
      else w.storeOrThrow t id 1 value "memory.store8: out of bounds or invalid pointer"
  | .memoryStore64 id value => w.storeOrThrow t id 8 value "memory.store64: out of bounds or invalid pointer"
  | .takeOpaque type id => (w.withReg (w.rt.reg.takeOpaque type id).1, (w.rt.reg.takeOpaque type id).2)

end World
end Neutron
