import Neutron.RegistryArrays

/-!
# Scheduler core state

Goroutines, channels, reactor interests and offloaded jobs live in one table each
under the global lock, all keyed by ids from one counter. `readyLen` and
`timerPending` are the lock-free mirrors kept beside the guarded record. The
functions here are the critical sections of `ntask/core.rs`.
-/

namespace Neutron

/-- Poll functions and cleanup functions are code pointers of the compiled
program; the scheduler only passes them around. -/
abbrev PollFn := ℕ

abbrev CleanupFn := ℕ

inductive ChanOp where
  | send
  | recv
  deriving Repr, DecidableEq

/-- What a goroutine waits for when its poll returns pending. -/
inductive Park where
  | none
  | chan (core : Int) (op : ChanOp)
  | timer (deadline : Int)
  | fd (io : Int) (read : Bool)
  | join (target : Int)
  | job (core : Int)
  deriving Repr, DecidableEq

structure Goroutine where
  tasks : List (PollFn × Int)
  handle : Int
  cleanup : Option (CleanupFn × Int)
  pendingSend : Int
  pendingSendOwned : Bool
  recvResult : Int
  recvResultOwned : Bool
  recvOk : Bool
  done : Bool
  result : Int
  pendingException : Int
  joiners : List Int
  deriving Repr, DecidableEq

/-- The running goroutine's suspension state, held on its worker during a poll. -/
structure TaskState where
  park : Park
  pendingSend : Int
  pendingSendOwned : Bool
  recvResult : Int
  recvResultOwned : Bool
  recvOk : Bool
  deriving Repr, DecidableEq

structure Chan where
  buf : List Int
  cap : ℕ
  ownsElements : Bool
  closed : Bool
  senders : List Int
  receivers : List Int
  deriving Repr, DecidableEq

structure AsyncIo where
  fd : Int
  ready : Bool
  parked : Bool
  waiters : List Int
  deriving Repr, DecidableEq

structure AsyncOp where
  waiter : Option Int
  result : Int
  done : Bool
  deriving Repr, DecidableEq

/-- The guarded scheduling state with its two mirrors. -/
structure Global where
  nextCore : Int
  ready : List Int
  goroutines : IdMap Goroutine
  chans : IdMap Chan
  ios : IdMap AsyncIo
  ops : IdMap AsyncOp
  timers : IdMap (List Int)
  readyLen : ℕ
  timerPending : Int

/-- The shared part of the runtime: handle registry, scheduler state and the
reactor's interest table. -/
structure Runtime where
  reg : Registry
  g : Global
  interests : IdMap (Int × Bool)

def TaskState.idle : TaskState := ⟨.none, null, false, null, false, false⟩

def Chan.new (cap : ℕ) (ownsElements : Bool) : Chan := ⟨[], cap, ownsElements, false, [], []⟩

namespace Goroutine

def new (poll : PollFn) (future : Int) (cleanup : Option CleanupFn) (handle : Int) : Goroutine where
  tasks := [(poll, future)]
  handle := handle
  cleanup := cleanup.map (fun f => (f, future))
  pendingSend := null
  pendingSendOwned := false
  recvResult := null
  recvResultOwned := false
  recvOk := false
  done := false
  result := null
  pendingException := null
  joiners := []

/-- Load the suspension state onto the worker. -/
def taskState (gr : Goroutine) : TaskState where
  park := .none
  pendingSend := gr.pendingSend
  pendingSendOwned := gr.pendingSendOwned
  recvResult := gr.recvResult
  recvResultOwned := gr.recvResultOwned
  recvOk := gr.recvOk

/-- Flush the suspension state the poll produced. -/
def flush (st : TaskState) (gr : Goroutine) : Goroutine :=
  { gr with
    pendingSend := st.pendingSend
    pendingSendOwned := st.pendingSendOwned
    recvResult := st.recvResult
    recvResultOwned := st.recvResultOwned
    recvOk := st.recvOk }

/-- The sender's value has left it. -/
def clearSend (gr : Goroutine) : Goroutine := { gr with pendingSend := null, pendingSendOwned := false }

/-- Record the outcome of a receive. -/
def receive (value : Int) (owned ok : Bool) (gr : Goroutine) : Goroutine :=
  { gr with recvResult := value, recvResultOwned := owned, recvOk := ok }

/-- The handles released with the record of a dropped goroutine. -/
def abandoned (gr : Goroutine) : List Int :=
  (if gr.pendingSendOwned ∧ gr.pendingSend ≠ null then [gr.pendingSend] else []) ++
  (if gr.recvResultOwned ∧ gr.recvResult ≠ null then [gr.recvResult] else []) ++
  (if gr.pendingException ≠ null then [gr.pendingException] else []) ++
  (if gr.done ∧ gr.result ≠ null then [gr.result] else [])

end Goroutine

namespace Global

def empty : Global := ⟨1, [], ∅, ∅, ∅, ∅, ∅, 0, 0⟩

variable (g : Global)

def onGoroutine (gid : Int) (f : Goroutine → Goroutine) : Global :=
  { g with goroutines := g.goroutines.modify gid f }

def onChan (core : Int) (f : Chan → Chan) : Global := { g with chans := g.chans.modify core f }

def onIo (core : Int) (f : AsyncIo → AsyncIo) : Global := { g with ios := g.ios.modify core f }

def onOp (core : Int) (f : AsyncOp → AsyncOp) : Global := { g with ops := g.ops.modify core f }

def pushReady (gid : Int) : Global := { g with ready := g.ready ++ [gid] }

def syncReadyLen : Global := { g with readyLen := g.ready.length }

def pushReadyBatch (ids : List Int) : Global :=
  if ids = [] then g else { g with ready := g.ready ++ ids }.syncReadyLen

def timersPendingOffset (delta : Int) : Global := { g with timerPending := g.timerPending + delta }

/-- The core id counter saturates, as `saturating_add` does. -/
def bumpCore (count : ℕ) : Global := { g with nextCore := min (g.nextCore + count) maxI64 }

@[simp] theorem goroutines_pushReady (gid : Int) : (g.pushReady gid).goroutines = g.goroutines := rfl

@[simp] theorem goroutines_syncReadyLen : g.syncReadyLen.goroutines = g.goroutines := rfl

@[simp] theorem goroutines_onChan (core : Int) (f : Chan → Chan) :
    (g.onChan core f).goroutines = g.goroutines := rfl

@[simp] theorem goroutines_onGoroutine (gid : Int) (f : Goroutine → Goroutine) :
    (g.onGoroutine gid f).goroutines = g.goroutines.modify gid f := rfl

@[simp] theorem chans_pushReady (gid : Int) : (g.pushReady gid).chans = g.chans := rfl

@[simp] theorem chans_syncReadyLen : g.syncReadyLen.chans = g.chans := rfl

@[simp] theorem chans_onGoroutine (gid : Int) (f : Goroutine → Goroutine) :
    (g.onGoroutine gid f).chans = g.chans := rfl

@[simp] theorem chans_onChan (core : Int) (f : Chan → Chan) :
    (g.onChan core f).chans = g.chans.modify core f := rfl

def registerGoroutine (gr : Goroutine) : Global × Int :=
  ({ g.bumpCore 1 with goroutines := g.goroutines.insert g.nextCore gr }, g.nextCore)

def registerGoroutineRunnable (gr : Goroutine) : Global × Int :=
  (((g.registerGoroutine gr).1.pushReady g.nextCore).syncReadyLen, g.nextCore)

def reserveCoreIds (count : ℕ) : Global × Int := (g.bumpCore (max count 1), g.nextCore)

def registerChan (cap : ℕ) (ownsElements : Bool) : Global × Int :=
  ({ g.bumpCore 1 with chans := g.chans.insert g.nextCore (Chan.new cap ownsElements) }, g.nextCore)

def registerIo : Global × Int :=
  ({ g.bumpCore 1 with ios := g.ios.insert g.nextCore ⟨0, false, false, []⟩ }, g.nextCore)

def registerOp : Global × Int :=
  ({ g.bumpCore 1 with ops := g.ops.insert g.nextCore ⟨none, null, false⟩ }, g.nextCore)

/-- Take `gid` out of every timer bucket; emptied buckets disappear. -/
def clearTimers (gid : Int) : Global :=
  let kept := g.timers.mapWithKey (fun _ gids => gids.filter (· ≠ gid))
  let removed := g.timers.total (fun _ gids => gids.count gid)
  { g with
    timers := kept.filterVals (fun gids => gids ≠ [])
    timerPending := if 0 < removed then g.timerPending - removed else g.timerPending }

def clearChans (gid : Int) : Global :=
  { g with chans := g.chans.mapWithKey (fun _ c =>
      { c with senders := c.senders.filter (· ≠ gid), receivers := c.receivers.filter (· ≠ gid) }) }

def clearIos (gid : Int) : Global :=
  { g with ios := g.ios.mapWithKey (fun _ io =>
      let waiters := io.waiters.filter (· ≠ gid)
      { io with waiters := waiters, parked := if waiters = [] then false else io.parked }) }

def clearOps (gid : Int) : Global :=
  { g with ops := g.ops.mapWithKey (fun _ op =>
      if op.waiter = some gid then { op with waiter := none } else op) }

def ioReady (core : Int) : Global × Bool :=
  match g.ios.lookup core with
  | none => (g, false)
  | some io => (g.onIo core (fun io => { io with ready := false }), io.ready)

def completeOp (core result : Int) : Global :=
  match g.ops.lookup core with
  | none => g
  | some op =>
      let g := g.onOp core (fun op => { op with result := result, done := true, waiter := none })
      match op.waiter with
      | some gid => (g.pushReady gid).syncReadyLen
      | none => g

def opDone (core : Int) : Bool := ((g.ops.lookup core).map AsyncOp.done).getD false

def opResult (core : Int) : Global × Int :=
  match g.ops.lookup core with
  | none => (g, null)
  | some op => ({ g with ops := g.ops.erase core }, op.result)

end Global

namespace Runtime

def empty : Runtime := ⟨Registry.empty, Global.empty, ∅⟩

variable (s : Runtime)

def onGlobal (f : Global → Global) : Runtime := { s with g := f s.g }

/-- Drop a goroutine core and take it off every wait queue that `drop_goroutine`
looks at. The cleanup of an unfinished root future is returned to be run. -/
def dropGoroutine (core : Int) : Runtime × Option (CleanupFn × Int) :=
  match s.g.goroutines.lookup core with
  | none => (s, none)
  | some removed =>
      let g := { s.g with goroutines := s.g.goroutines.erase core }
      let g := (((g.clearTimers core).clearChans core).clearIos core).clearOps core
      ({ s with reg := s.reg.removeAll removed.abandoned, g := g },
        if removed.done then none else removed.cleanup)

def dropChan (core : Int) : Runtime :=
  match s.g.chans.lookup core with
  | none => s
  | some chan =>
      { s with
        reg := if chan.ownsElements then s.reg.removeAll chan.buf else s.reg
        g := { s.g with chans := s.g.chans.erase core } }

def dropIo (core : Int) : Runtime := s.onGlobal (fun g => { g with ios := g.ios.erase core })

def dropOp (core : Int) : Runtime :=
  match s.g.ops.lookup core with
  | none => s
  | some op =>
      { s with
        reg := if op.done ∧ op.result ≠ null then (s.reg.remove op.result).1 else s.reg
        g := { s.g with ops := s.g.ops.erase core } }

end Runtime
end Neutron
