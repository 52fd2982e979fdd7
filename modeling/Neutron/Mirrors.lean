import Neutron.Execution
import Neutron.PlacementSteps
import Neutron.Workers

/-!
# Mirrors of the guarded state

`READY_LEN` and `TIMER_PENDING` are published outside the lock over the scheduler state.
The steps here are the critical sections of that lock, each from the acquisition to the
release, in any order and with any arguments: a check made before the lock was taken may
be out of date by then, so no section depends on one.
-/

namespace Neutron

open Execution

namespace Global

variable (g : Global)

/-- Goroutines in all the buckets. -/
def timersLen : ℕ := g.timers.total (fun _ gids => gids.length)

structure Mirrored (g : Global) : Prop where
  ready : g.readyLen = g.ready.length
  pending : g.timerPending = g.timersLen
  buckets : ∀ deadline gids, g.timers.lookup deadline = some gids → gids ≠ []

/-! ## Critical sections -/

def popReadyLocked : Global := { g with ready := g.ready.tail }.syncReadyLen

def popReadyBatchLocked (workers : ℕ) : Global :=
  let share := g.ready.length / max workers 1 + 1
  { g with ready := g.ready.drop (min (min share g.ready.length) readyBatchCap) }.syncReadyLen

end Global

/-- The critical sections of the scheduler lock. -/
inductive LockedSection
  | pushReady (gid : Int)
  | pushReadyBatch (ids : List Int)
  | popReady
  | popReadyBatch (workers : ℕ)
  | registerGoroutine (gr : Goroutine)
  | registerGoroutineRunnable (gr : Goroutine)
  | reserveCoreIds (count : ℕ)
  | registerChan (cap : ℕ) (ownsElements : Bool)
  | registerIo
  | registerOp
  | flushDetached (batch : List (Int × Goroutine))
  | driveTake (gid : Int)
  | driveYield (gid : Int) (state : TaskState) (tasks : List (PollFn × Int))
  | driveDone (gid thrown : Int)
  | drivePark (gid : Int) (state : TaskState) (tasks : List (PollFn × Int))
  | chanClose (core : Int)
  | dropGoroutine (core : Int)
  | dropChan (core : Int)
  | dropIo (core : Int)
  | dropOp (core : Int)
  | ioReady (core : Int)
  | attachFd (io fd : Int) (read : Bool)
  | completeOp (core result : Int)
  | opResult (core : Int)
  | joinBlocking (gid : Int)
  | fireTimers (now : Int)
  | wakeReadyIos (ios : List Int)
  | shutdown

namespace Runtime

variable (s : Runtime)

/-- The flush of a suspended poll into its goroutine's record. -/
def flushTask (gid : Int) (state : TaskState) (tasks : List (PollFn × Int)) : Runtime :=
  s.onGlobal (·.onGoroutine gid (fun gr => { gr.flush state with tasks := tasks }))

def locked : LockedSection → Runtime
  | .pushReady gid => s.onGlobal (fun g => (g.pushReady gid).syncReadyLen)
  | .pushReadyBatch ids => s.onGlobal (·.pushReadyBatch ids)
  | .popReady => s.onGlobal Global.popReadyLocked
  | .popReadyBatch workers => s.onGlobal (·.popReadyBatchLocked workers)
  | .registerGoroutine gr => s.onGlobal (fun g => (g.registerGoroutine gr).1)
  | .registerGoroutineRunnable gr => s.onGlobal (fun g => (g.registerGoroutineRunnable gr).1)
  | .reserveCoreIds count => s.onGlobal (fun g => (g.reserveCoreIds count).1)
  | .registerChan cap owns => s.onGlobal (fun g => (g.registerChan cap owns).1)
  | .registerIo => s.onGlobal (fun g => g.registerIo.1)
  | .registerOp => s.onGlobal (fun g => g.registerOp.1)
  | .flushDetached batch => s.onGlobal (·.publish batch)
  | .driveTake gid => s.onGlobal (·.onGoroutine gid (fun gr => { gr with tasks := [] }))
  | .driveYield gid state tasks => s.flushTask gid state tasks
  | .driveDone gid thrown => s.onGlobal (·.finish gid thrown)
  | .drivePark gid state tasks =>
      match s.g.goroutines.lookup gid with
      | none => s
      | some _ => ((s.flushTask gid state tasks).parkOn gid state.park).1
  | .chanClose core => s.chanClose core
  | .dropGoroutine core => (s.dropGoroutine core).1
  | .dropChan core => s.dropChan core
  | .dropIo core => s.dropIo core
  | .dropOp core => s.dropOp core
  | .ioReady core => s.onGlobal (fun g => (g.ioReady core).1)
  | .attachFd io fd read => s.attachFd io fd read
  | .completeOp core result => s.onGlobal (·.completeOp core result)
  | .opResult core => s.onGlobal (fun g => (g.opResult core).1)
  | .joinBlocking gid => s.onGlobal (fun g => (g.takeException gid).1)
  | .fireTimers now => s.onGlobal (·.fireTimersLocked now)
  | .wakeReadyIos ios => s.onGlobal (·.wakeReadyIos ios)
  | .shutdown => s.onGlobal Global.cleared

end Runtime

/-! ## Sections that leave the timers alone -/

namespace Global

variable {g g' g'' : Global}

structure SameTimers (g g' : Global) : Prop where
  timers : g'.timers = g.timers
  pending : g'.timerPending = g.timerPending

theorem SameTimers.refl (g : Global) : g.SameTimers g := ⟨rfl, rfl⟩

/-- A section that keeps the timers only has to publish the length of the ready queue. -/
theorem Mirrored.keep (h : g.Mirrored) (ht : g.SameTimers g') (hr : g'.readyLen = g'.ready.length) :
    g'.Mirrored := by
  refine ⟨hr, ?_, fun deadline gids hl => ?_⟩
  · rw [ht.pending, h.pending, timersLen, timersLen, ht.timers]
  · rw [ht.timers] at hl
    exact h.buckets deadline gids hl

theorem Mirrored.of_eq (h : g.Mirrored) (ht : g.SameTimers g') (hready : g'.ready = g.ready)
    (hlen : g'.readyLen = g.readyLen) : g'.Mirrored :=
  h.keep ht (by rw [hready, hlen, h.ready])

theorem Mirrored.synced (h : g.Mirrored) (ht : g.SameTimers g') : g'.syncReadyLen.Mirrored :=
  h.keep ⟨ht.timers, ht.pending⟩ rfl

theorem Mirrored.pushReadyBatch (h : g.Mirrored) (ids : List Int) : (g.pushReadyBatch ids).Mirrored := by
  unfold Global.pushReadyBatch
  split
  · exact h
  · exact h.keep ⟨rfl, rfl⟩ rfl

theorem Mirrored.finish (h : g.Mirrored) (gid thrown : Int) : (g.finish gid thrown).Mirrored := by
  unfold Global.finish
  cases g.goroutines.lookup gid with
  | none => exact h
  | some gr =>
    dsimp only
    split
    · exact h.keep ⟨rfl, rfl⟩ rfl
    · exact h.keep ⟨rfl, rfl⟩ rfl

theorem Mirrored.completeOp (h : g.Mirrored) (core result : Int) : (g.completeOp core result).Mirrored := by
  unfold Global.completeOp
  cases g.ops.lookup core with
  | none => exact h
  | some op =>
    dsimp only
    cases op.waiter with
    | none => exact h.of_eq ⟨rfl, rfl⟩ rfl rfl
    | some gid => exact h.keep ⟨rfl, rfl⟩ rfl

theorem Mirrored.wakeReadyIos (h : g.Mirrored) (ios : List Int) : (g.wakeReadyIos ios).Mirrored := by
  induction ios generalizing g with
  | nil => exact h
  | cons io ios ih =>
    refine ih ?_
    unfold wakeReadyIo
    cases g.ios.lookup io with
    | none => exact h
    | some slot => exact h.keep ⟨rfl, rfl⟩ rfl

theorem sameTimers_chanRecv (gid core : Int) : g.SameTimers (g.chanRecv gid core).1 := by
  apply chanRecv_cases g (P := fun out => g.SameTimers out.1)
  case gone => exact fun _ => ⟨rfl, rfl⟩
  case refill => exact fun _ _ _ _ _ _ _ _ => ⟨rfl, rfl⟩
  case buffered => exact fun _ _ _ _ _ _ => ⟨rfl, rfl⟩
  case taken => exact fun _ _ _ _ _ _ => ⟨rfl, rfl⟩
  case closed => exact fun _ _ _ _ _ => ⟨rfl, rfl⟩
  case parked => exact fun _ _ _ _ _ => ⟨rfl, rfl⟩

theorem sameTimers_joinPark (gid target : Int) : g.SameTimers (g.joinPark gid target) := by
  unfold joinPark
  split
  · exact ⟨rfl, rfl⟩
  · split
    · exact ⟨rfl, rfl⟩
    · exact ⟨rfl, rfl⟩

theorem sameTimers_parkJob (gid core : Int) : g.SameTimers (g.parkJob gid core).1 := by
  unfold parkJob
  split
  · exact .refl g
  · split
    · exact .refl g
    · exact ⟨rfl, rfl⟩

/-! ## Timers -/

theorem Mirrored.parkTimer (h : g.Mirrored) (gid deadline : Int) : (g.parkTimer gid deadline).Mirrored := by
  have hp := h.pending
  cases hl : g.timers.lookup deadline with
  | none =>
    have heq : g.parkTimer gid deadline =
        { g with timers := g.timers.insert deadline [gid], timerPending := g.timerPending + 1 } := by
      simp only [Global.parkTimer, hl, timersPendingOffset]
    rw [heq]
    refine ⟨h.ready, ?_, fun k gids hk => ?_⟩
    · change g.timerPending + 1 = (AList.total _ (g.timers.insert deadline [gid]) : ℕ)
      rw [AList.total_insert _ hl, hp, timersLen, List.length_singleton]
      push_cast
      omega
    · rw [AList.lookup_insert_ite] at hk
      split at hk
      · obtain rfl := Option.some_inj.mp hk
        simp
      · exact h.buckets k gids hk
  | some old =>
    have heq : g.parkTimer gid deadline =
        { g with timers := g.timers.modify deadline (· ++ [gid]), timerPending := g.timerPending + 1 } := by
      simp only [Global.parkTimer, hl, timersPendingOffset]
    rw [heq]
    refine ⟨h.ready, ?_, fun k gids hk => ?_⟩
    · have ht := AList.total_modify (f := fun _ (gids : List Int) => gids.length) (· ++ [gid]) hl
      simp only [List.length_append, List.length_singleton] at ht
      change g.timerPending + 1 = (AList.total _ (g.timers.modify deadline (· ++ [gid])) : ℕ)
      rw [hp, timersLen]
      omega
    · rw [AList.lookup_modify] at hk
      split at hk
      · obtain ⟨prior, -, rfl⟩ := Option.map_eq_some_iff.mp hk
        simp
      · exact h.buckets k gids hk

theorem length_dueTimers (now : Int) :
    (g.dueTimers now).length + AList.total (fun _ gids => gids.length)
      (g.timers.filterKeys (fun k => now < k)) = g.timersLen := by
  have hperm : (g.dueTimers now).Perm ((g.timers.entries.filter (fun e => e.1 ≤ now)).flatMap (·.2)) :=
    (List.mergeSort_perm _ _).flatMap_right _
  rw [hperm.length_eq]
  unfold timersLen AList.total AList.filterKeys
  dsimp only
  induction g.timers.entries with
  | nil => rfl
  | cons e l ih =>
    by_cases hle : e.1 ≤ now
    · have hlt : ¬now < e.1 := by omega
      simp only [List.filter_cons, hle, hlt, decide_true, decide_false, if_true, if_false,
        Bool.false_eq_true, List.flatMap_cons, List.length_append, List.map_cons, List.sum_cons]
      omega
    · have hlt : now < e.1 := by omega
      simp only [List.filter_cons, hle, hlt, decide_true, decide_false, if_true, if_false,
        Bool.false_eq_true, List.map_cons, List.sum_cons]
      omega

theorem Mirrored.fireTimersLocked (h : g.Mirrored) (now : Int) : (g.fireTimersLocked now).Mirrored := by
  have hlen := g.length_dueTimers now
  refine ⟨h.ready, ?_, fun deadline gids hl => ?_⟩
  · change g.timerPending + -((g.dueTimers now).length : Int) =
      (AList.total _ (g.timers.filterKeys (fun k => now < k)) : ℕ)
    rw [h.pending]
    omega
  · have hmem := List.mem_of_mem_filter (AList.mem_lookup_iff.mp hl)
    exact h.buckets deadline gids (AList.mem_lookup_iff.mpr hmem)

theorem length_filter_add_count (gids : List Int) (gid : Int) :
    (gids.filter (· ≠ gid)).length + gids.count gid = gids.length := by
  induction gids with
  | nil => rfl
  | cons a l ih =>
    by_cases ha : a = gid
    · simp [ha] at ih ⊢
      omega
    · simp [ha] at ih ⊢
      omega

/-- What is taken out of the buckets is taken off the count. -/
theorem Mirrored.clearTimers (h : g.Mirrored) (gid : Int) : (g.clearTimers gid).Mirrored := by
  have hsplit : AList.total (fun _ gids => gids.length) (g.clearTimers gid).timers +
      g.timers.total (fun _ gids => gids.count gid) = g.timersLen := by
    have hkept : AList.total (fun _ gids => gids.length) (g.clearTimers gid).timers =
        g.timers.total (fun _ gids => (gids.filter (· ≠ gid)).length) := by
      rw [Global.clearTimers, AList.total_filterVals, AList.total_mapWithKey]
      intro a v hv
      have hnil : v = [] := by simpa using hv
      rw [hnil, List.length_nil]
    rw [hkept, timersLen]
    unfold AList.total
    dsimp only
    induction g.timers.entries with
    | nil => rfl
    | cons e l ih =>
      have := length_filter_add_count e.2 gid
      simp only [List.map_cons, List.sum_cons]
      omega
  refine ⟨h.ready, ?_, fun deadline gids hl => ?_⟩
  · have hp := h.pending
    change (if 0 < g.timers.total (fun _ gids => gids.count gid)
      then g.timerPending - (g.timers.total (fun _ gids => gids.count gid) : ℕ) else g.timerPending) =
      (AList.total (fun _ gids => gids.length) (g.clearTimers gid).timers : ℕ)
    split
    · omega
    · omega
  · change (AList.filterVals _ _).lookup deadline = some gids at hl
    rw [AList.lookup_filterVals, Option.filter_eq_some_iff] at hl
    simpa using hl.2

end Global

namespace Runtime

variable {s : Runtime}

open Global

theorem sameTimers_chanSend (gid core : Int) : s.g.SameTimers (s.chanSend gid core).1.g := by
  apply chanSend_cases s (P := fun out => s.g.SameTimers out.1.g)
  case gone => exact fun _ => ⟨rfl, rfl⟩
  case closed => exact fun _ _ _ => ⟨rfl, rfl⟩
  case handed => exact fun _ _ _ _ _ _ => ⟨rfl, rfl⟩
  case buffered => exact fun _ _ _ _ _ _ => ⟨rfl, rfl⟩
  case parked => exact fun _ _ _ _ _ => ⟨rfl, rfl⟩

theorem registerFd_g (io fd : Int) (read : Bool) : (s.registerFd io fd read).g = s.g := by
  unfold registerFd
  split
  · rfl
  · rfl

theorem mirrored_parkOn (h : s.g.Mirrored) (gid : Int) (park : Park) : (s.parkOn gid park).1.g.Mirrored := by
  cases park with
  | none => exact h
  | chan core op =>
    cases op with
    | send => exact h.synced (sameTimers_chanSend gid core)
    | recv => exact h.synced (sameTimers_chanRecv gid core)
  | timer deadline => exact h.parkTimer gid deadline
  | fd io read =>
    unfold parkOn
    dsimp only
    split
    · rw [registerFd_g]
      exact h
    · rw [registerFd_g]
      exact h.of_eq ⟨rfl, rfl⟩ rfl rfl
  | join target => exact h.synced (sameTimers_joinPark gid target)
  | job core => exact h.synced (sameTimers_parkJob gid core)

theorem sameTimers_closeRelease (core : Int) (c : Chan) :
    s.g.SameTimers (s.closeRelease core c).1 := by
  have hr := List.foldlRecOn (drainTo c.receivers c.buf) (closeReceiver c.ownsElements)
    (motive := fun st => s.g.SameTimers st.1) (b := (s.closeQueues core, [])) ⟨rfl, rfl⟩ (fun st hst p _ => by
      unfold closeReceiver
      split <;> exact ⟨hst.timers, hst.pending⟩)
  exact List.foldlRecOn c.senders closeSender (motive := fun st => s.g.SameTimers st.1) hr (fun st hst x _ => by
    unfold closeSender
    split <;> exact ⟨hst.timers, hst.pending⟩)

theorem mirrored_chanClose (h : s.g.Mirrored) (core : Int) : (s.chanClose core).g.Mirrored := by
  apply chanClose_cases (P := fun s' => s'.g.Mirrored)
  case gone => exact fun _ => h
  case again => exact fun _ _ _ => h
  case closing => exact fun c _ _ => h.synced (sameTimers_closeRelease core c)

theorem mirrored_dropGoroutine (h : s.g.Mirrored) (core : Int) : (s.dropGoroutine core).1.g.Mirrored := by
  unfold dropGoroutine
  cases s.g.goroutines.lookup core with
  | none => exact h
  | some gr =>
    have herase : { s.g with goroutines := s.g.goroutines.erase core }.Mirrored := h.of_eq ⟨rfl, rfl⟩ rfl rfl
    exact (herase.clearTimers core).of_eq ⟨rfl, rfl⟩ rfl rfl

/-- Every critical section leaves the mirrors in step. -/
theorem mirrored_locked (h : s.g.Mirrored) (a : LockedSection) : (s.locked a).g.Mirrored := by
  cases a with
  | pushReady gid => exact h.keep ⟨rfl, rfl⟩ rfl
  | pushReadyBatch ids => exact h.pushReadyBatch ids
  | popReady => exact h.keep ⟨rfl, rfl⟩ rfl
  | popReadyBatch workers => exact h.keep ⟨rfl, rfl⟩ rfl
  | registerGoroutineRunnable gr => exact h.keep ⟨rfl, rfl⟩ rfl
  | driveDone gid thrown => exact h.finish gid thrown
  | drivePark gid state tasks =>
    unfold locked
    dsimp only
    cases s.g.goroutines.lookup gid with
    | none => exact h
    | some gr =>
      have hflush : (s.flushTask gid state tasks).g.Mirrored := h.of_eq ⟨rfl, rfl⟩ rfl rfl
      exact mirrored_parkOn hflush gid state.park
  | chanClose core => exact mirrored_chanClose h core
  | dropGoroutine core => exact mirrored_dropGoroutine h core
  | dropChan core =>
    unfold locked dropChan
    dsimp only
    split
    · exact h
    · exact h.of_eq ⟨rfl, rfl⟩ rfl rfl
  | dropOp core =>
    unfold locked dropOp
    dsimp only
    split
    · exact h
    · exact h.of_eq ⟨rfl, rfl⟩ rfl rfl
  | ioReady core =>
    change (s.g.ioReady core).1.Mirrored
    unfold ioReady
    split
    · exact h
    · exact h.of_eq ⟨rfl, rfl⟩ rfl rfl
  | completeOp core result => exact h.completeOp core result
  | opResult core =>
    change (s.g.opResult core).1.Mirrored
    unfold opResult
    split
    · exact h
    · exact h.of_eq ⟨rfl, rfl⟩ rfl rfl
  | joinBlocking gid =>
    change (s.g.takeException gid).1.Mirrored
    unfold takeException
    split
    · exact h
    · split
      · exact h.of_eq ⟨rfl, rfl⟩ rfl rfl
      · exact h
  | fireTimers now => exact h.fireTimersLocked now
  | wakeReadyIos ios => exact h.wakeReadyIos ios
  | shutdown => exact ⟨rfl, rfl, fun deadline gids hl => by cases hl⟩
  | _ => exact h.of_eq ⟨rfl, rfl⟩ rfl rfl

end Runtime

/-- Whenever the scheduler lock is free, `READY_LEN` is the length of the ready queue and
`TIMER_PENDING` the number of goroutines in all buckets, none of which is empty. -/
theorem mirrors_agree (sections : List LockedSection) :
    let g := (execute Runtime.locked Runtime.empty sections).g
    g.readyLen = g.ready.length ∧ g.timerPending = g.timersLen ∧
      ∀ deadline gids, g.timers.lookup deadline = some gids → gids ≠ [] := by
  intro g
  have h : g.Mirrored := by
    refine List.foldlRecOn sections Runtime.locked (motive := fun s => s.g.Mirrored) ?_
      (fun s hs a _ => Runtime.mirrored_locked hs a)
    exact ⟨rfl, rfl, fun deadline gids hl => by cases hl⟩
  exact ⟨h.ready, h.pending, h.buckets⟩

end Neutron
