import Neutron.Channels
import Neutron.RunQueue

/-!
# Driving goroutines

The worker loop cut at the points where it gives up the global lock: an id is
popped, the goroutine's record is loaded onto the worker, its poll makes runtime
calls, and the exit of the poll finishes, parks or requeues it. Between those points
any other thread may run. `System.step` is the interleaved transition function of
the whole pool.
-/

namespace Neutron

/-- The largest number of ids one refill takes from the shared queue. -/
def readyBatchCap : ℕ := 128

/-- The number of detached spawns published at once. -/
def detachedBatchCap : ℕ := 64

namespace Goroutine

/-- The record of a goroutine whose future completed, with the exception it left. -/
def finished (thrown : Int) (gr : Goroutine) : Goroutine :=
  { gr with
    tasks := []
    done := true
    cleanup := none
    pendingException := if thrown ≠ null then thrown else gr.pendingException
    joiners := [] }

/-- A finished goroutine that nothing can address any more. -/
def Reclaimed (thrown : Int) (gr : Goroutine) : Prop :=
  gr.handle = null ∧ (gr.finished thrown).pendingException = null ∧ gr.joiners = []

instance (thrown : Int) (gr : Goroutine) : Decidable (gr.Reclaimed thrown) :=
  inferInstanceAs (Decidable (_ ∧ _ ∧ _))

end Goroutine

namespace Global

variable (g : Global)

def popReady : Global × Option Int :=
  if g.readyLen = 0 then (g, none)
  else ({ g with ready := g.ready.tail }.syncReadyLen, g.ready.head?)

def popReadyBatch (workers : ℕ) : Global × List Int :=
  if g.readyLen = 0 then (g, []) else
    let share := g.ready.length / max workers 1 + 1
    let take := min (min share g.ready.length) readyBatchCap
    ({ g with ready := g.ready.drop take }.syncReadyLen, g.ready.take take)

/-- `timers.entry(at).or_default().push(gid)`. -/
def parkTimer (gid deadline : Int) : Global :=
  let timers := match g.timers.lookup deadline with
    | none => g.timers.insert deadline [gid]
    | some _ => g.timers.modify deadline (· ++ [gid])
  { g with timers := timers }.timersPendingOffset 1

def joinPark (gid target : Int) : Global :=
  match g.goroutines.lookup target with
  | none => g.pushReady gid
  | some t =>
      if t.done then (g.onGoroutine gid (fun gr => { gr with result := t.result })).pushReady gid
      else g.onGoroutine target (fun gr => { gr with joiners := gr.joiners ++ [gid] })

/-- Park on an offloaded job; the flag asks the worker to requeue the goroutine. -/
def parkJob (gid core : Int) : Global × Bool :=
  match g.ops.lookup core with
  | none => (g, true)
  | some op => if op.done then (g, true) else (g.onOp core (fun op => { op with waiter := some gid }), false)

/-- Completion of a goroutine: its joiners become runnable, and a detached goroutine
that nothing can address any more is reclaimed. -/
def finish (gid thrown : Int) : Global :=
  match g.goroutines.lookup gid with
  | none => g
  | some gr =>
      let done := { g.onGoroutine gid (Goroutine.finished thrown) with ready := g.ready ++ gr.joiners }
      if gr.Reclaimed thrown
      then { done.syncReadyLen with goroutines := done.goroutines.erase gid } else done.syncReadyLen

/-- Due timers, earliest deadline first. -/
def dueTimers (now : Int) : List Int :=
  ((g.timers.entries.filter (fun e => e.1 ≤ now)).mergeSort (fun a b => a.1 ≤ b.1)).flatMap (·.2)

/-- The locked part of `fire_timers_and_next`; each due goroutine is pushed afterwards in a
section of its own. -/
def fireTimersLocked (now : Int) : Global :=
  { g with timers := g.timers.filterKeys (fun k => now < k) }.timersPendingOffset (-(g.dueTimers now).length)

def wakeReadyIo (core : Int) : Global :=
  match g.ios.lookup core with
  | none => g
  | some io =>
      { g.onIo core (fun io => { io with ready := true, parked := false, waiters := [] }) with
        ready := g.ready ++ io.waiters }.syncReadyLen

def wakeReadyIos (ios : List Int) : Global := ios.foldl wakeReadyIo g

/-- The finished goroutine's exception leaves its record with the joining thread. -/
def takeException (gid : Int) : Global × Int :=
  match g.goroutines.lookup gid with
  | none => (g, null)
  | some gr =>
      if gr.done then (g.onGoroutine gid (fun gr => { gr with pendingException := null }), gr.pendingException)
      else (g, null)

end Global

namespace Runtime

variable (s : Runtime)

def registerFd (io fd : Int) (read : Bool) : Runtime :=
  if fd ≤ 0 then s else { s with interests := s.interests.insert io (fd, read) }

def attachFd (io fd : Int) (read : Bool) : Runtime :=
  { s with
    g := s.g.onIo io (fun slot => { slot with fd := fd })
    interests := if fd ≤ 0 then s.interests.erase io else s.interests.insert io (fd, read) }

def detachFd (io : Int) : Runtime := { s with interests := s.interests.erase io }

/-- Act on the wait target of a poll that returned pending; the flag asks the worker
to requeue the goroutine itself. -/
def parkOn (gid : Int) : Park → Runtime × Bool
  | .none => (s, true)
  | .chan core op => ((s.chanOp gid core op).1.onGlobal Global.syncReadyLen, false)
  | .timer deadline => (s.onGlobal (·.parkTimer gid deadline), false)
  | .fd io read =>
      match s.g.ios.lookup io with
      | none => (s.registerFd io 0 read, false)
      | some slot =>
          ((s.onGlobal (·.onIo io (fun slot =>
            { slot with parked := true, waiters := slot.waiters ++ [gid] }))).registerFd io slot.fd read, false)
  | .join target => (s.onGlobal (fun g => (g.joinPark gid target).syncReadyLen), false)
  | .job core => (s.onGlobal (fun g => (g.parkJob gid core).1.syncReadyLen), (s.g.parkJob gid core).2)

end Runtime
end Neutron
