import Neutron.Drive

/-!
# The worker pool

Each worker owns a run queue and the thread-local state of the goroutine it drives.
`System.step` interleaves the worker loop, the runtime calls made by polls, spawns,
the reactor, the offload pool and the drop operations. A step is at most one critical
section of the scheduler lock or one operation on a run queue, so ids that a thread has
taken from one place and not yet put into the next are part of the state. What a poll
computes is left open: any sequence of runtime calls is a poll.
-/

namespace Neutron

/-- Where a worker is in its loop: between goroutines, holding an id it popped, or
driving a goroutine. -/
inductive Phase where
  | idle
  | popped (gid : Int)
  | polling (gid : Int)
  deriving Repr, DecidableEq

namespace Phase

def taken : Phase → List Int
  | .popped gid => [gid]
  | .idle | .polling _ => []

def driven : Phase → List Int
  | .polling gid => [gid]
  | .idle | .popped _ => []

end Phase

/-- What a worker is doing with ids it has taken and not yet put down. -/
inductive Carry where
  /-- To be made runnable, one after the other. -/
  | offer (gids : List Int)
  /-- Out of the LIFO slot, for the ring. -/
  | displaced (gid : Int) (gids : List Int)
  /-- The ring had no room for it, so half of the ring goes with it. -/
  | refused (gid : Int) (gids : List Int)
  /-- For the shared queue. -/
  | overflow (batch gids : List Int)
  /-- From a refill or a steal, for the ring. -/
  | fill (gids : List Int)
  /-- The ring had no room for it, so it goes to the shared queue. -/
  | spill (gid : Int) (gids : List Int)
  deriving Repr, DecidableEq

def Carry.ids : Carry → List Int
  | .offer gids | .fill gids => gids
  | .displaced gid gids | .refused gid gids | .spill gid gids => gid :: gids
  | .overflow batch gids => batch ++ gids

/-- The thread-local state of a worker with its run queue. -/
structure Worker where
  queue : RunQueue
  phase : Phase
  carry : Carry
  state : TaskState
  tasks : List (PollFn × Int)
  batch : List (Int × Goroutine)
  range : Int × ℕ
  exception : Int
  deriving Repr, DecidableEq

namespace Worker

def new : Worker := ⟨.empty, .idle, .offer [], .idle, [], [], (0, 0), null⟩

/-- A worker that carries ids puts them down first, and one whose batch is full
publishes it. -/
def Free (wk : Worker) : Prop := wk.carry.ids = [] ∧ wk.batch.length < detachedBatchCap

instance (wk : Worker) : Decidable wk.Free := inferInstanceAs (Decidable (_ ∧ _))

/-- A worker takes an id to drive, and ids for its ring with it. -/
def take (gid : Int) (gids : List Int) (wk : Worker) : Worker :=
  { wk with phase := .popped gid, carry := .fill gids }

/-- A worker leaves the goroutine it drove. -/
def leave (requeued : List Int) (wk : Worker) : Worker :=
  { wk with phase := .idle, carry := .offer requeued, state := .idle, tasks := [] }

/-- A detached goroutine joins the unpublished batch under a reserved id. -/
def draw (id : Int) (left : ℕ) (gr : Goroutine) (wk : Worker) : Worker :=
  { wk with batch := wk.batch ++ [(id, gr)], range := (id + 1, left) }

/-- The next operation of a worker on the ids it carries, with those it pushes onto the
shared queue. -/
def carryOn (wk : Worker) : Worker × List Int :=
  match wk.carry with
  | .offer [] | .fill [] => (wk, [])
  | .offer (gid :: gids) =>
      ({ wk with
        queue := (wk.queue.pushNext gid).1
        carry := match (wk.queue.pushNext gid).2 with
          | none => .offer gids
          | some displaced => .displaced displaced gids }, [])
  | .displaced gid gids =>
      ({ wk with
        queue := (wk.queue.push gid).1
        carry := if (wk.queue.push gid).2 then .offer gids else .refused gid gids }, [])
  | .refused gid gids =>
      ({ wk with
        queue := wk.queue.takeHalf.1
        carry := .overflow (wk.queue.takeHalf.2 ++ [gid]) gids }, [])
  | .overflow batch gids => ({ wk with carry := .offer gids }, batch)
  | .fill (gid :: gids) =>
      ({ wk with
        queue := (wk.queue.push gid).1
        carry := if (wk.queue.push gid).2 then .fill gids else .spill gid gids }, [])
  | .spill gid gids => ({ wk with carry := .fill gids }, [gid])

end Worker

/-- The runtime with its workers. `outside` holds the ids that threads outside the pool
have registered or taken from the timers and not yet pushed onto the shared queue. -/
structure System where
  rt : Runtime
  workers : AList (fun _ : ℕ => Worker)
  outside : List Int

/-- Publish detached goroutines under the ids reserved for them. -/
def Global.publish (g : Global) (batch : List (Int × Goroutine)) : Global :=
  { g with goroutines := batch.foldl (fun m e => m.insert e.1 e.2) g.goroutines }

/-- The scheduler state once the pool has stopped. -/
def Global.cleared (g : Global) : Global :=
  { g with goroutines := ∅, ready := [], readyLen := 0, timers := ∅, ops := ∅, timerPending := 0 }

/-- The handles `shutdown` releases for one goroutine. -/
def Registry.releaseGoroutine (r : Registry) (gr : Goroutine) : Registry :=
  let r := r.removeGoroutineHandle gr.handle
  let r := if gr.pendingException ≠ null then (r.remove gr.pendingException).1 else r
  if gr.done ∧ gr.result ≠ null then (r.remove gr.result).1 else r

namespace System

variable (σ : System)

/-- A pool of idle workers over an empty runtime. -/
def start (count : ℕ) : System :=
  ⟨Runtime.empty, (List.range count).foldl (fun m w => m.insert w Worker.new) ∅, []⟩

def onGlobal (f : Global → Global) : System := { σ with rt := σ.rt.onGlobal f }

def onWorker (w : ℕ) (f : Worker → Worker) : System := { σ with workers := σ.workers.modify w f }

def free? (w : ℕ) : Option Worker := (σ.workers.lookup w).filter (fun wk => wk.Free)

def polling? (w : ℕ) : Option (Worker × Int) :=
  match σ.free? w with
  | some wk => match wk.phase with
    | .polling gid => some (wk, gid)
    | .idle | .popped _ => none
  | none => none

def idle? (w : ℕ) : Option Worker := (σ.free? w).filter (fun wk => wk.phase = .idle)

/-- A runtime call that only touches the state of the running poll. -/
def onPolling (w : ℕ) (f : Worker → Worker) : System :=
  match σ.polling? w with
  | some _ => σ.onWorker w f
  | none => σ

/-! ## Run queues -/

def carryOn (w : ℕ) : System :=
  match σ.workers.lookup w with
  | some wk => (σ.onWorker w (fun wk => wk.carryOn.1)).onGlobal (·.pushReadyBatch wk.carryOn.2)
  | none => σ

/-- A thread outside the pool pushes one of the ids it holds. -/
def pushOutside (gid : Int) : System :=
  if gid ∈ σ.outside then
    { σ with outside := σ.outside.erase gid }.onGlobal (fun g => (g.pushReady gid).syncReadyLen)
  else σ

def popShared (w : ℕ) : System :=
  match σ.idle? w, σ.rt.g.popReady with
  | some _, (g, some gid) => { σ with rt := { σ.rt with g := g } }.onWorker w (.take gid [])
  | _, _ => σ

def popLocal (w : ℕ) : System :=
  match σ.idle? w with
  | some wk =>
      match wk.queue.pop with
      | (q, some gid) => σ.onWorker w (fun wk => { wk with queue := q }.take gid [])
      | (_, none) => σ
  | none => σ

/-- The last id of the batch is to run at once, the others are for the ring. -/
def refill (w : ℕ) : System :=
  match σ.idle? w with
  | some _ =>
      let (g, batch) := σ.rt.g.popReadyBatch σ.workers.size
      match batch.getLast? with
      | some gid => { σ with rt := { σ.rt with g := g } }.onWorker w (.take gid batch.dropLast)
      | none => σ
  | none => σ

def steal (w victim : ℕ) : System :=
  match σ.idle? w, σ.workers.lookup victim with
  | some _, some other =>
      if victim = w then σ else
        match other.queue.grab with
        | (left, batch, some gid) =>
            (σ.onWorker victim (fun wk => { wk with queue := left })).onWorker w (.take gid batch)
        | (_, _, none) => σ
  | _, _ => σ

/-! ## Spawns -/

/-- The locked part of `flush_detached_batch`; the ids are made runnable afterwards. -/
def flushBatch (w : ℕ) : System :=
  match σ.workers.lookup w with
  | some wk =>
      if wk.carry.ids = [] then
        (σ.onWorker w (fun wk => { wk with batch := [], carry := .offer (wk.batch.map Prod.fst) })).onGlobal
          (·.publish wk.batch)
      else σ
  | none => σ

/-- Take the next reserved id of the worker, reserving a new range when it is used up, and
add the goroutine to the unpublished batch. -/
def drawDetached (w : ℕ) (wk : Worker) (gr : Goroutine) : System :=
  let drawn := if 0 < wk.range.2 then (σ.rt.g, wk.range.1) else σ.rt.g.reserveCoreIds detachedBatchCap
  let left := if 0 < wk.range.2 then wk.range.2 - 1 else detachedBatchCap - 1
  { σ with rt := { σ.rt with g := drawn.1 } }.onWorker w (Worker.draw drawn.2 left gr)

def goDetached (site : Option ℕ) (poll : PollFn) (future : Int) (cleanup : CleanupFn) : System :=
  let gr := Goroutine.new poll future (some cleanup) null
  match site with
  | some w =>
      match σ.free? w with
      | some wk => σ.drawDetached w wk gr
      | none => σ
  | none => σ.onGlobal (fun g => (g.registerGoroutineRunnable gr).1)

/-- Register a joinable goroutine. Its wrapper, whose id is reserved before the goroutine
is registered, is in the registry before any other thread can name it. -/
def registerWrapped (poll : PollFn) (future : Int) (cleanup : Option CleanupFn) : System :=
  let reserved := σ.rt.reg.reserveId
  let registered := σ.rt.g.registerGoroutine (Goroutine.new poll future cleanup reserved.2)
  { σ with rt := { σ.rt with
    reg := reserved.1.insertReserved reserved.2 (.goroutine registered.2), g := registered.1 } }

/-- The spawning thread makes the new goroutine runnable afterwards. -/
def go (site : Option ℕ) (poll : PollFn) (future : Int) (cleanup : Option CleanupFn) : System :=
  match site with
  | some w =>
      match σ.free? w with
      | some _ => (σ.registerWrapped poll future cleanup).onWorker w (fun wk =>
          { wk with carry := .offer [σ.rt.g.nextCore] })
      | none => σ
  | none => { σ.registerWrapped poll future cleanup with outside := σ.rt.g.nextCore :: σ.outside }

/-! ## Timers -/

/-- The locked part of `fire_timers_and_next`; the reactor pushes the due ids afterwards. -/
def fireTimers (now : Int) : System :=
  if σ.rt.g.timerPending ≤ 0 then σ else
    { σ.onGlobal (·.fireTimersLocked now) with outside := σ.rt.g.dueTimers now ++ σ.outside }

/-! ## Driving -/

def beginPoll (w : ℕ) : System :=
  match σ.free? w with
  | some wk =>
      match wk.phase with
      | .popped gid =>
          match σ.rt.g.goroutines.lookup gid with
          | some gr =>
              (σ.onGlobal (·.onGoroutine gid (fun gr => { gr with tasks := [] }))).onWorker w (fun wk =>
                { wk with phase := .polling gid, state := gr.taskState, tasks := gr.tasks })
          | none => σ.onWorker w (fun wk => { wk with phase := .idle })
      | .idle | .polling _ => σ
  | none => σ

/-- What `drive` does under the lock once the poll has returned and its detached spawns
are published. A goroutine to be requeued is made runnable afterwards. -/
def endPoll (w : ℕ) : System :=
  match σ.polling? w with
  | none => σ
  | some (wk, gid) =>
      if wk.batch ≠ [] then σ else
      match σ.rt.g.goroutines.lookup gid with
      | none => σ.onWorker w (Worker.leave [])
      | some _ =>
          if wk.tasks = [] then
            (σ.onGlobal (·.finish gid wk.exception)).onWorker w (fun wk =>
              { wk.leave [] with exception := null })
          else
            let flushed := σ.rt.onGlobal (·.onGoroutine gid (fun gr =>
              { gr.flush wk.state with tasks := wk.tasks }))
            let parked := flushed.parkOn gid wk.state.park
            { σ with rt := parked.1 }.onWorker w (Worker.leave (if parked.2 then [gid] else []))

/-- Stop the pool; the guard of the step says that every worker has left its loop. -/
def shutdown : System where
  rt :=
    { reg := (σ.rt.g.goroutines.entries.map (·.2)).foldl Registry.releaseGoroutine σ.rt.reg
      g := σ.rt.g.cleared
      interests := ∅ }
  workers := σ.workers.mapWithKey (fun _ wk => { wk with queue := .empty })
  outside := σ.outside

end System

/-- The steps of the pool and of the threads around it. -/
inductive Act where
  | go (site : Option ℕ) (poll : PollFn) (future : Int) (cleanup : Option CleanupFn)
  | goDetached (site : Option ℕ) (poll : PollFn) (future : Int) (cleanup : CleanupFn)
  | popShared (w : ℕ)
  | popLocal (w : ℕ)
  | refill (w : ℕ)
  | steal (w victim : ℕ)
  | beginPoll (w : ℕ)
  | parkChanSend (w : ℕ) (core value : Int)
  | parkChanRecv (w : ℕ) (core : Int)
  | parkTimer (w : ℕ) (deadline : Int)
  | parkFd (w : ℕ) (io : Int) (read : Bool)
  | parkJoin (w : ℕ) (target : Int)
  | parkOp (w : ℕ) (core : Int)
  | recvResult (w : ℕ)
  | setTasks (w : ℕ) (tasks : List (PollFn × Int))
  | throw (w : ℕ) (msg : Int)
  | flushBatch (w : ℕ)
  | endPoll (w : ℕ)
  | carryOn (w : ℕ)
  | pushOutside (gid : Int)
  | registerChan (cap : ℕ) (ownsElements : Bool)
  | registerIo
  | registerOp
  | chanClose (core : Int)
  | dropChan (core : Int)
  | dropGoroutine (core : Int)
  | dropIo (core : Int)
  | dropOp (core : Int)
  | attachFd (io fd : Int) (read : Bool)
  | ioReady (core : Int)
  | opResult (core : Int)
  | completeOp (core result : Int)
  | fireTimers (now : Int)
  | wakeReadyIos (ios : List Int)
  | join (site : Option ℕ) (gid : Int)
  | alloc (h : Handle)
  | free (id : Int)
  | shutdown

namespace System

variable (σ : System)

/-- The pending exception of the caller after a join. -/
def rearm (site : Option ℕ) (exception : Int) : System :=
  match site with
  | some w => if exception = null then σ else σ.onWorker w (fun wk => { wk with exception := exception })
  | none => σ

def parkSelf (w : ℕ) (park : Park) : System :=
  σ.onPolling w (fun wk => { wk with state := { wk.state with park := park } })

def step : Act → System
  | .go site poll future cleanup => σ.go site poll future cleanup
  | .goDetached site poll future cleanup => σ.goDetached site poll future cleanup
  | .popShared w => σ.popShared w
  | .popLocal w => σ.popLocal w
  | .refill w => σ.refill w
  | .steal w victim => σ.steal w victim
  | .beginPoll w => σ.beginPoll w
  | .parkChanSend w core value => σ.onPolling w (fun wk => { wk with state :=
      { wk.state with pendingSend := value, pendingSendOwned := false, park := .chan core .send } })
  | .parkChanRecv w core => σ.onPolling w (fun wk => { wk with state :=
      { wk.state with
        recvResult := null, recvResultOwned := false, recvOk := false, park := .chan core .recv } })
  | .parkTimer w deadline => σ.parkSelf w (.timer deadline)
  | .parkFd w io read => σ.parkSelf w (.fd io read)
  | .parkJoin w target => σ.parkSelf w (.join target)
  | .parkOp w core => σ.parkSelf w (.job core)
  | .recvResult w => σ.onPolling w (fun wk => { wk with state :=
      { wk.state with recvResult := null, recvResultOwned := false } })
  | .setTasks w tasks => σ.onPolling w (fun wk => { wk with tasks := tasks })
  | .throw w msg => σ.onPolling w (fun wk => { wk with exception := msg })
  | .flushBatch w => σ.flushBatch w
  | .endPoll w => σ.endPoll w
  | .carryOn w => σ.carryOn w
  | .pushOutside gid => σ.pushOutside gid
  | .registerChan cap owns => σ.onGlobal (fun g => (g.registerChan cap owns).1)
  | .registerIo => σ.onGlobal (fun g => g.registerIo.1)
  | .registerOp => σ.onGlobal (fun g => g.registerOp.1)
  | .chanClose core => { σ with rt := σ.rt.chanClose core }
  | .dropChan core => { σ with rt := σ.rt.dropChan core }
  | .dropGoroutine core => { σ with rt := (σ.rt.dropGoroutine core).1 }
  | .dropIo core => { σ with rt := (σ.rt.detachFd core).dropIo core }
  | .dropOp core => { σ with rt := σ.rt.dropOp core }
  | .attachFd io fd read => { σ with rt := σ.rt.attachFd io fd read }
  | .ioReady core => σ.onGlobal (fun g => (g.ioReady core).1)
  | .opResult core => σ.onGlobal (fun g => (g.opResult core).1)
  | .completeOp core result => σ.onGlobal (·.completeOp core result)
  | .fireTimers now => σ.fireTimers now
  | .wakeReadyIos ios => σ.onGlobal (·.wakeReadyIos ios)
  | .join site gid =>
      (σ.onGlobal (fun g => (g.takeException gid).1)).rearm site (σ.rt.g.takeException gid).2
  | .alloc h => { σ with rt := { σ.rt with reg := (σ.rt.reg.insert h).1 } }
  | .free id => { σ with rt := { σ.rt with reg := (σ.rt.reg.remove id).1 } }
  | .shutdown => σ.shutdown

end System
end Neutron
