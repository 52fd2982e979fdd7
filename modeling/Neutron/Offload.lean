import Neutron.Drive
import Neutron.Execution
import Neutron.TaskHandles

/-!
# Offloaded jobs

`async_op_poll` hands the work of a future to the offload pool, parks on the job and reaps
its result once the pool has completed it. The future's record is kept under the lock of
its registry shard and the job's record under the lock of the scheduler, so a poll, a drop
and the pool thread interleave between any two locked sections. One step here is one
locked section; what a thread remembers between two of them is kept with the future.
-/

namespace Neutron

open Execution

inductive PollStage where
  | idle
  | started
  | taken (work : ℕ)
  | registered (work : ℕ) (op : Int)
  | submitted (op : Int)
  | sawOp (op : Int)
  | sawDone (op : Int)
  | reaped (value : Int)
  deriving DecidableEq

inductive DropStage where
  | idle
  | releasing (op : Int)
  | removing
  deriving DecidableEq

/-- The pool's side: a job in its queue, or a result on its way to `complete_op`. -/
inductive JobStage where
  | idle
  | queued (op : Int) (work : ℕ)
  | finished (op value : Int)
  deriving DecidableEq

/-- What the threads hold of one future, and the history of its result: the handle the job
produced, whether `async_op_result` has returned it and whether a drop has removed it. -/
structure OffloadTask where
  poll : PollStage
  drop : DropStage
  job : JobStage
  op : Option Int
  value : Option Int
  returned : Bool
  released : Bool
  deriving DecidableEq

def OffloadTask.new : OffloadTask := ⟨.idle, .idle, .idle, none, none, false, false⟩

structure Offload where
  rt : Runtime
  tasks : IdMap OffloadTask

inductive OffloadAct where
  | new (work : ℕ)
  | poll (future : Int)
  | pollNext (future : Int)
  | produce (future : Int) (result : Option Handle)
  | complete (future : Int)
  | result (future : Int)
  | consume (future : Int)
  | drop (future : Int)
  | dropNext (future : Int)
  | spawn (poll : PollFn) (future : Int) (cleanup : Option CleanupFn)
  | park (gid core : Int)
  | dropGoroutine (gid : Int)

/-- `*state = 1; *op = op_id` on an offloaded future. -/
def Handle.launch (op : Int) : Handle → Handle
  | .asyncOp _ work _ result => .asyncOp 1 work op result
  | h => h

/-- `*state = 2; *result = value` on an offloaded future. -/
def Handle.settle (value : Int) : Handle → Handle
  | .asyncOp _ work op _ => .asyncOp 2 work op value
  | h => h

namespace Offload

def start : Offload := ⟨.empty, ∅⟩

variable (s : Offload)

def onReg (f : Registry → Registry) : Offload := { s with rt := { s.rt with reg := f s.rt.reg } }

def onGlobal (f : Global → Global) : Offload := { s with rt := s.rt.onGlobal f }

def setTask (future : Int) (t : OffloadTask) : Offload := { s with tasks := s.tasks.insert future t }

/-- The handle produced by the job is still in the registry. -/
def registered (t : OffloadTask) : Bool := t.value.any (fun v => (s.rt.reg.lookup v).isSome)

/-- The first section of `async_op_poll`. -/
def beginPoll (future : Int) (t : OffloadTask) : Offload :=
  match s.rt.reg.lookup future with
  | some (.asyncOp 0 (some work) op result) =>
      (s.onReg (·.modify future (fun _ => .asyncOp 0 none op result))).setTask future
        { t with poll := .taken work }
  | _ => s.setTask future { t with poll := .started }

/-- The later sections of `async_op_poll`. -/
def pollNext (future : Int) (t : OffloadTask) : Offload :=
  match t.poll with
  | .idle => s
  | .taken work =>
      (s.onGlobal (fun g => g.registerOp.1)).setTask future
        { t with poll := .registered work s.rt.g.registerOp.2, op := some s.rt.g.registerOp.2 }
  | .registered work op => s.setTask future { t with poll := .submitted op, job := .queued op work }
  | .submitted op => (s.onReg (·.modify future (Handle.launch op))).setTask future { t with poll := .idle }
  | .started =>
      match s.rt.reg.lookup future with
      | some (.asyncOp 1 _ op _) => s.setTask future { t with poll := .sawOp op }
      | _ => s.setTask future { t with poll := .idle }
  | .sawOp op => s.setTask future { t with poll := if s.rt.g.opDone op then .sawDone op else .idle }
  | .sawDone op =>
      (s.onGlobal (fun g => (g.opResult op).1)).setTask future
        { t with poll := .reaped (s.rt.g.opResult op).2 }
  | .reaped value => (s.onReg (·.modify future (Handle.settle value))).setTask future { t with poll := .idle }

/-- The job runs: whatever it returns is a fresh handle or `NULL`. -/
def produce (future : Int) (result : Option Handle) (t : OffloadTask) : Offload :=
  match t.job, result with
  | .queued op _, some h =>
      (s.onReg (fun r => (r.insert h).1)).setTask future
        { t with job := .finished op (s.rt.reg.insert h).2, value := some (s.rt.reg.insert h).2 }
  | .queued op _, none => s.setTask future { t with job := .finished op null }
  | _, _ => s

def complete (future : Int) (t : OffloadTask) : Offload :=
  match t.job with
  | .finished op value => (s.onGlobal (·.completeOp op value)).setTask future { t with job := .idle }
  | _ => s

/-- The caller now owns what `async_op_result` returned. -/
def result (future : Int) (t : OffloadTask) : Offload :=
  s.setTask future { t with returned := t.returned || s.rt.reg.asyncOpResult future ≠ null }

/-- The program disposes of a handle that was returned to it. -/
def consume (t : OffloadTask) : Offload :=
  match t.returned, t.value with
  | true, some v => s.onReg (fun r => (r.remove v).1)
  | _, _ => s

/-- The first section of `async_op_drop`. -/
def beginDrop (future : Int) (t : OffloadTask) : Offload :=
  s.setTask future { t with drop := ((s.rt.pendingOp future).map DropStage.releasing).getD .removing }

/-- The later sections of `async_op_drop`. -/
def dropNext (future : Int) (t : OffloadTask) : Offload :=
  match t.drop with
  | .idle => s
  | .releasing op =>
      let s' := { s with rt := s.rt.dropOp op }
      s'.setTask future
        { t with drop := .removing, released := t.released || s.registered t && !s'.registered t }
  | .removing => (s.onReg (fun r => (r.removeKind future Handle.isAsyncOp).1)).setTask future
      { t with drop := .idle }

/-- A section of a call on the future, if the handle is one. -/
def onTask (future : Int) (f : OffloadTask → Offload) : Offload := (s.tasks.lookup future).elim s f

def step : OffloadAct → Offload
  | .new work =>
      (s.onReg (fun r => (r.asyncOpNew work).1)).setTask (s.rt.reg.asyncOpNew work).2 .new
  | .poll future => s.onTask future (fun t => if t.poll = .idle then s.beginPoll future t else s)
  | .pollNext future => s.onTask future (s.pollNext future)
  | .produce future result => s.onTask future (s.produce future result)
  | .complete future => s.onTask future (s.complete future)
  | .result future => s.onTask future (s.result future)
  | .consume future => s.onTask future s.consume
  | .drop future => s.onTask future (fun t => if t.drop = .idle then s.beginDrop future t else s)
  | .dropNext future => s.onTask future (s.dropNext future)
  | .spawn poll future cleanup =>
      s.onGlobal (fun g => (g.registerGoroutineRunnable (Goroutine.new poll future cleanup null)).1)
  | .park gid core => s.onGlobal (fun g => (g.parkJob gid core).1)
  | .dropGoroutine gid => { s with rt := (s.rt.dropGoroutine gid).1 }

/-- The states in which dropping the future leaves nothing behind. -/
def droppable (future : Int) (t : OffloadTask) : Bool :=
  match s.rt.reg.lookup future with
  | some (.asyncOp 1 _ op _) => s.rt.g.opDone op
  | some (.asyncOp 2 _ _ value) => value = null || t.returned
  | _ => true

/-- The counters have room, and a drop neither meets a poll of its future nor comes between
the start of the job and its completion, or between the reaping poll and
`async_op_result`. -/
def Permitted (s : Offload) : OffloadAct → Prop
  | .new _ | .produce _ _ => s.rt.reg.issued + 1 < 2 ^ 64
  | .spawn _ _ _ => s.rt.g.nextCore < maxI64
  | .poll future => ∀ t ∈ s.tasks.lookup future, t.drop = .idle
  | .pollNext _ => s.rt.g.nextCore < maxI64
  | .drop future => ∀ t ∈ s.tasks.lookup future, t.poll = .idle ∧ s.droppable future t = true
  | _ => True

instance Permitted.decidable (s : Offload) : ∀ a, Decidable (s.Permitted a)
  | .new _ | .produce _ _ => inferInstanceAs (Decidable (s.rt.reg.issued + 1 < 2 ^ 64))
  | .spawn _ _ _ | .pollNext _ => inferInstanceAs (Decidable (s.rt.g.nextCore < maxI64))
  | .poll future => inferInstanceAs (Decidable (∀ t ∈ s.tasks.lookup future, t.drop = .idle))
  | .drop future =>
      inferInstanceAs (Decidable (∀ t ∈ s.tasks.lookup future, t.poll = .idle ∧ s.droppable future t = true))
  | .complete _ | .result _ | .consume _ | .dropNext _ | .park _ _ | .dropGoroutine _ => .isTrue trivial

/-- Somebody is going to deliver or release the result `v` of the job: the pool thread, the
job record as long as the future will look at it, a poll of the future, or the future. -/
def Owned (future : Int) (t : OffloadTask) (v : Int) : Prop :=
  (∃ op, t.job = .finished op v ∧ s.rt.g.ops.lookup op ≠ none) ∨
  (∃ op e, s.rt.g.ops.lookup op = some e ∧ e.done = true ∧ e.result = v ∧
    ((∃ work result, s.rt.reg.lookup future = some (.asyncOp 1 work op result)) ∨
      (t.poll = .submitted op ∧ s.rt.reg.lookup future ≠ none))) ∨
  (t.poll = .reaped v ∧ s.rt.reg.lookup future ≠ none) ∨
  ∃ work op, s.rt.reg.lookup future = some (.asyncOp 2 work op v)

/-- Every result handle is on its way to the program, has been returned to it, or has been
removed from the registry, and only one of these. -/
def Delivered : Prop :=
  ∀ future t v, s.tasks.lookup future = some t → t.value = some v →
    (t.returned = false ∧ t.released = false ∧ s.registered t = true ∧ s.Owned future t v) ∨
    (t.returned = true ∧ t.released = false) ∨
    (t.returned = false ∧ t.released = true ∧ s.registered t = false)

end Offload
end Neutron
