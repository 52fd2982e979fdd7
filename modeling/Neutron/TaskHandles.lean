import Neutron.Drive

/-!
# Handles of scheduler objects

Goroutines, channels, reactor registrations and offloaded futures are registry entries
that name a core in the scheduler's tables. The operations here touch both sides: they
take the wrapper out of the registry first and the core out of the scheduler afterwards.
-/

namespace Neutron

namespace Handle

def isGoroutine : Handle → Bool
  | .goroutine _ => true
  | _ => false

def isReactorReg : Handle → Bool
  | .reactorReg _ => true
  | _ => false

def isAsyncIo : Handle → Bool
  | .asyncIo _ => true
  | _ => false

def isAsyncOp : Handle → Bool
  | .asyncOp .. => true
  | _ => false

end Handle

namespace Runtime

variable (s : Runtime)

def insert (h : Handle) : Runtime × Int := ({ s with reg := (s.reg.insert h).1 }, (s.reg.insert h).2)

def chanNew (capacity : Int) (ownsElements : Bool) : Runtime × Int :=
  let registered := s.g.registerChan (max capacity 0).toNat ownsElements
  { s with g := registered.1 }.insert (.chan registered.2 1)

def timerNew : Runtime × Int := { s with g := s.g.registerIo.1 }.insert (.reactorReg s.g.registerIo.2)

def ioNew : Runtime × Int := { s with g := s.g.registerIo.1 }.insert (.asyncIo s.g.registerIo.2)

/-- Take a wrapper of the given kind out of the registry, then its core out of the
scheduler. -/
def dropWrapper (kind : Handle → Bool) (id : Int) (release : Runtime → Int → Runtime) : Runtime :=
  let taken := s.reg.removeKind id kind
  match taken.2.bind Handle.core? with
  | some core => release { s with reg := taken.1 } core
  | none => { s with reg := taken.1 }

def goroutineDrop (id : Int) : Runtime :=
  s.dropWrapper Handle.isGoroutine id (fun s core => (s.dropGoroutine core).1)

def reactorRegDrop (id : Int) : Runtime :=
  s.dropWrapper Handle.isReactorReg id (fun s core => (s.detachFd core).dropIo core)

def asyncIoDrop (id : Int) : Runtime :=
  s.dropWrapper Handle.isAsyncIo id (fun s core => (s.detachFd core).dropIo core)

/-- The channel core goes with the last handle; the drop does not close the channel. -/
def chanDrop (id : Int) : Runtime :=
  if id = null then s else
    match s.reg.lookup id with
    | some (.chan core count) =>
        if 0 < count - 1 then { s with reg := s.reg.modify id (fun _ => .chan core (count - 1)) }
        else { s with reg := s.reg.retire id }.dropChan core
    | _ => s

/-- The pending job of an offloaded future that has started and not been reaped. -/
def pendingOp (id : Int) : Option Int :=
  match s.reg.lookup id with
  | some (.asyncOp state _ op _) => if state = 1 ∧ op ≠ 0 then some op else none
  | _ => none

def asyncOpDrop (id : Int) : Runtime :=
  if id = null then s else
    let s := match s.pendingOp id with
      | some op => s.dropOp op
      | none => s
    { s with reg := (s.reg.removeKind id Handle.isAsyncOp).1 }

end Runtime
end Neutron
