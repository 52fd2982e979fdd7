import Neutron.Mirrors
import Neutron.SchedulingInvariant

/-!
# Every interleaving of the pool keeps the goroutines accounted for

The step lemma takes the actions one by one; a run then keeps a list of the goroutines
that earlier steps have stranded, and every other unfinished goroutine occurs exactly
once over the queues, the wait targets and the hands of the threads.
-/

namespace Neutron

open Execution

namespace Global

variable (g : Global)

def chanWaiters (core : Int) : List Int :=
  ((g.chans.lookup core).map Chan.senders).getD [] ++ ((g.chans.lookup core).map Chan.receivers).getD []

def ioWaiters (core : Int) : List Int := ((g.ios.lookup core).map AsyncIo.waiters).getD []

def opWaiters (core : Int) : List Int := ((g.ops.lookup core).bind AsyncOp.waiter).toList

def otherJoiners (core : Int) : List Int :=
  (((g.goroutines.lookup core).map Goroutine.joiners).getD []).filter (· ≠ core)

end Global

namespace System

open Global

variable {σ σ' : System} {gone : List Int}

/-- The waiters a step leaves in no queue: those of a table entry it removes or
overwrites, the joiners of a goroutine it drops, and a goroutine whose park finds no
entry to wait on. -/
def strands (σ : System) : Act → List Int
  | .registerChan .. => σ.rt.g.chanWaiters σ.rt.g.nextCore
  | .registerIo => σ.rt.g.ioWaiters σ.rt.g.nextCore
  | .registerOp => σ.rt.g.opWaiters σ.rt.g.nextCore
  | .dropChan core => σ.rt.g.chanWaiters core
  | .dropIo core => σ.rt.g.ioWaiters core
  | .dropOp core | .opResult core => σ.rt.g.opWaiters core
  | .dropGoroutine core => σ.rt.g.otherJoiners core
  | .endPoll w =>
      match σ.polling? w with
      | some (wk, gid) =>
          if wk.batch ≠ [] ∨ wk.tasks = [] ∨ σ.rt.g.status gid = none then []
          else σ.rt.parkStrands gid wk.state.park
      | none => []
  | _ => []

/-- A spawn finds room in the id counter, and the pool stops once its workers have left
their loops. -/
def Enabled (σ : System) : Act → Prop
  | .go .. | .goDetached .. => σ.rt.g.nextCore + detachedBatchCap ≤ maxI64
  | .shutdown => ∀ e ∈ σ.workers.entries, e.2.phase = .idle ∧ e.2.carry.ids = []
  | _ => True

instance (σ : System) : ∀ a, Decidable (σ.Enabled a)
  | .go .. | .goDetached .. => inferInstanceAs (Decidable (_ ≤ _))
  | .shutdown => inferInstanceAs (Decidable (∀ e ∈ σ.workers.entries, _))
  | .popShared _ | .popLocal _ | .refill _ | .steal .. | .beginPoll _ | .parkChanSend .. | .parkChanRecv ..
  | .parkTimer .. | .parkFd .. | .parkJoin .. | .parkOp .. | .recvResult _ | .setTasks .. | .throw ..
  | .flushBatch _ | .endPoll _ | .carryOn _ | .pushOutside _ | .registerChan .. | .registerIo | .registerOp
  | .chanClose _ | .dropChan _ | .dropGoroutine _ | .dropIo _ | .dropOp _ | .attachFd .. | .ioReady _ | .opResult _
  | .completeOp .. | .fireTimers _ | .wakeReadyIos _ | .join .. | .alloc _ | .free _ => .isTrue trivial

/-- The scheduler state after one critical section at most. -/
def OneSection (σ : System) (g : Global) : Prop := g = σ.rt.g ∨ ∃ sec, g = (σ.rt.locked sec).g

/-- A step holds the scheduler lock for one critical section at most. -/
theorem step_oneSection (a : Act) : σ.OneSection (σ.step a).rt.g := by
  have hpoll (w : ℕ) (f : Worker → Worker) : σ.OneSection (σ.onPolling w f).rt.g := by
    unfold onPolling
    split <;> exact .inl rfl
  cases a with
  | go site poll future cleanup =>
    change σ.OneSection (σ.go site poll future cleanup).rt.g
    unfold go
    split
    · split
      · exact .inr ⟨.registerGoroutine (.new poll future cleanup σ.rt.reg.reserveId.2), rfl⟩
      · exact .inl rfl
    · exact .inr ⟨.registerGoroutine (.new poll future cleanup σ.rt.reg.reserveId.2), rfl⟩
  | goDetached site poll future cleanup =>
    change σ.OneSection (σ.goDetached site poll future cleanup).rt.g
    unfold goDetached
    dsimp only
    split
    · split
      · rename_i wk _
        by_cases hleft : 0 < wk.range.2
        · refine .inl ?_
          change (if 0 < wk.range.2 then _ else _ : Global × Int).1 = _
          rw [if_pos hleft]
        · refine .inr ⟨.reserveCoreIds detachedBatchCap, ?_⟩
          change (if 0 < wk.range.2 then _ else _ : Global × Int).1 = _
          rw [if_neg hleft]
          rfl
      · exact .inl rfl
    · exact .inr ⟨.registerGoroutineRunnable (.new poll future (some cleanup) null), rfl⟩
  | popShared w =>
    change σ.OneSection (σ.popShared w).rt.g
    unfold popShared
    split
    · rename_i g gid _ hpop
      have hg : g = σ.rt.g.popReady.1 := by rw [hpop]
      change σ.OneSection g
      rw [hg]
      unfold popReady
      split
      · exact .inl rfl
      · exact .inr ⟨.popReady, rfl⟩
    · exact .inl rfl
  | popLocal w =>
    change σ.OneSection (σ.popLocal w).rt.g
    unfold popLocal
    split
    · split
      · exact .inl rfl
      · exact .inl rfl
    · exact .inl rfl
  | refill w =>
    change σ.OneSection (σ.refill w).rt.g
    unfold refill
    split
    · dsimp only
      split
      · change σ.OneSection (σ.rt.g.popReadyBatch σ.workers.size).1
        unfold popReadyBatch
        split
        · exact .inl rfl
        · exact .inr ⟨.popReadyBatch σ.workers.size, rfl⟩
      · exact .inl rfl
    · exact .inl rfl
  | steal w victim =>
    change σ.OneSection (σ.steal w victim).rt.g
    unfold steal
    split
    · split
      · exact .inl rfl
      · split
        · exact .inl rfl
        · exact .inl rfl
    · exact .inl rfl
  | carryOn w =>
    change σ.OneSection (σ.carryOn w).rt.g
    unfold carryOn
    split
    · rename_i wk _
      exact .inr ⟨.pushReadyBatch wk.carryOn.2, rfl⟩
    · exact .inl rfl
  | pushOutside gid =>
    change σ.OneSection (σ.pushOutside gid).rt.g
    unfold pushOutside
    split
    · exact .inr ⟨.pushReady gid, rfl⟩
    · exact .inl rfl
  | beginPoll w =>
    change σ.OneSection (σ.beginPoll w).rt.g
    unfold beginPoll
    split
    · split
      · rename_i gid _
        split
        · exact .inr ⟨.driveTake gid, rfl⟩
        · exact .inl rfl
      · exact .inl rfl
      · exact .inl rfl
    · exact .inl rfl
  | flushBatch w =>
    change σ.OneSection (σ.flushBatch w).rt.g
    unfold flushBatch
    split
    · rename_i wk _
      split
      · exact .inr ⟨.flushDetached wk.batch, rfl⟩
      · exact .inl rfl
    · exact .inl rfl
  | endPoll w =>
    change σ.OneSection (σ.endPoll w).rt.g
    unfold endPoll
    split
    · exact .inl rfl
    · rename_i wk gid _
      split
      · exact .inl rfl
      · split
        · exact .inl rfl
        · rename_i gr hgr
          split
          · exact .inr ⟨.driveDone gid wk.exception, rfl⟩
          · exact .inr ⟨.drivePark gid wk.state wk.tasks, by simp only [Runtime.locked, hgr]; rfl⟩
  | fireTimers now =>
    change σ.OneSection (σ.fireTimers now).rt.g
    unfold fireTimers
    split
    · exact .inl rfl
    · exact .inr ⟨.fireTimers now, rfl⟩
  | join site gid =>
    change σ.OneSection ((σ.onGlobal (fun g => (g.takeException gid).1)).rearm site
      (σ.rt.g.takeException gid).2).rt.g
    unfold rearm
    split
    · split <;> exact .inr ⟨.joinBlocking gid, rfl⟩
    · exact .inr ⟨.joinBlocking gid, rfl⟩
  | registerChan cap owns => exact .inr ⟨.registerChan cap owns, rfl⟩
  | registerIo => exact .inr ⟨.registerIo, rfl⟩
  | registerOp => exact .inr ⟨.registerOp, rfl⟩
  | chanClose core => exact .inr ⟨.chanClose core, rfl⟩
  | dropChan core => exact .inr ⟨.dropChan core, rfl⟩
  | dropGoroutine core => exact .inr ⟨.dropGoroutine core, rfl⟩
  | dropIo core => exact .inr ⟨.dropIo core, rfl⟩
  | dropOp core => exact .inr ⟨.dropOp core, rfl⟩
  | attachFd io fd read => exact .inr ⟨.attachFd io fd read, rfl⟩
  | ioReady core => exact .inr ⟨.ioReady core, rfl⟩
  | opResult core => exact .inr ⟨.opResult core, rfl⟩
  | completeOp core result => exact .inr ⟨.completeOp core result, rfl⟩
  | wakeReadyIos ios => exact .inr ⟨.wakeReadyIos ios, rfl⟩
  | shutdown => exact .inr ⟨.shutdown, rfl⟩
  | alloc hd => exact .inl rfl
  | free id => exact .inl rfl
  | parkChanSend w core value => exact hpoll w _
  | parkChanRecv w core => exact hpoll w _
  | parkTimer w deadline => exact hpoll w _
  | parkFd w io read => exact hpoll w _
  | parkJoin w target => exact hpoll w _
  | parkOp w core => exact hpoll w _
  | recvResult w => exact hpoll w _
  | setTasks w tasks => exact hpoll w _
  | throw w msg => exact hpoll w _

/-! ## Registrations and drops -/

/-- A registration takes the next id and overwrites what stood under it. -/
theorem Shifts.register {f : Global → Global} {lost : List Int} (hle : σ.rt.g.nextCore ≤ maxI64)
    (hp : ∀ x, (f σ.rt.g).places x + lost.count x = σ.rt.g.places x)
    (hg : (f σ.rt.g).goroutines = σ.rt.g.goroutines)
    (hn : (f σ.rt.g).nextCore = min (σ.rt.g.nextCore + 1) maxI64) : Shifts σ (σ.onGlobal f) [] lost := by
  refine ⟨fun x => ?_, fun x => rfl, fun x => ?_, ?_, fun _ => ?_, id⟩
  · have h := hp x
    simp only [System.scheduled, System.onGlobal, Runtime.onGlobal, List.count_nil]
    omega
  · change ((f σ.rt.g).goroutines.lookup x).map _ = _
    rw [hg]
    rfl
  · change _ ≤ (f σ.rt.g).nextCore
    omega
  · change (f σ.rt.g).nextCore ≤ _
    omega

theorem registerChan_shifts (hle : σ.rt.g.nextCore ≤ maxI64) (cap : ℕ) (owns : Bool) :
    Shifts σ (σ.onGlobal (fun g => (g.registerChan cap owns).1)) []
      (σ.rt.g.chanWaiters σ.rt.g.nextCore) := by
  refine Shifts.register hle (fun x => ?_) rfl rfl
  have h := AList.total_insert_zero (f := fun _ c => Chan.waiting x c) σ.rt.g.chans
    (a := σ.rt.g.nextCore) (v := Chan.new cap owns) rfl
  have hw : (σ.rt.g.chanWaiters σ.rt.g.nextCore).count x =
      ((σ.rt.g.chans.lookup σ.rt.g.nextCore).map (fun c => c.waiting x)).getD 0 := by
    cases hc : σ.rt.g.chans.lookup σ.rt.g.nextCore with
    | none => simp [chanWaiters, hc]
    | some c => simp [chanWaiters, hc, Chan.waiting]
  rw [hw]
  change σ.rt.g.ready.count x + (AList.total _ (σ.rt.g.chans.insert _ _) + σ.rt.g.timed x +
    σ.rt.g.ioWaits x + σ.rt.g.opWaits x + σ.rt.g.joins x) + _ = _
  simp only [places, Global.parked, waits]
  omega

theorem registerIo_shifts (hle : σ.rt.g.nextCore ≤ maxI64) :
    Shifts σ (σ.onGlobal (fun g => g.registerIo.1)) [] (σ.rt.g.ioWaiters σ.rt.g.nextCore) := by
  refine Shifts.register hle (fun x => ?_) rfl rfl
  have h := AList.total_insert_zero (f := fun _ (io : AsyncIo) => io.waiters.count x) σ.rt.g.ios
    (a := σ.rt.g.nextCore) (v := ⟨0, false, false, []⟩) rfl
  have hw : (σ.rt.g.ioWaiters σ.rt.g.nextCore).count x =
      ((σ.rt.g.ios.lookup σ.rt.g.nextCore).map (fun io => io.waiters.count x)).getD 0 := by
    cases hc : σ.rt.g.ios.lookup σ.rt.g.nextCore with
    | none => simp [ioWaiters, hc]
    | some io => simp [ioWaiters, hc]
  rw [hw]
  change σ.rt.g.ready.count x + (σ.rt.g.waits x + σ.rt.g.timed x +
    AList.total _ (σ.rt.g.ios.insert _ _) + σ.rt.g.opWaits x + σ.rt.g.joins x) + _ = _
  simp only [places, Global.parked, ioWaits]
  omega

theorem registerOp_shifts (hle : σ.rt.g.nextCore ≤ maxI64) :
    Shifts σ (σ.onGlobal (fun g => g.registerOp.1)) [] (σ.rt.g.opWaiters σ.rt.g.nextCore) := by
  refine Shifts.register hle (fun x => ?_) rfl rfl
  have h := AList.total_insert_zero (f := fun _ (op : AsyncOp) => op.waiter.toList.count x) σ.rt.g.ops
    (a := σ.rt.g.nextCore) (v := ⟨none, null, false⟩) rfl
  have hw : (σ.rt.g.opWaiters σ.rt.g.nextCore).count x =
      ((σ.rt.g.ops.lookup σ.rt.g.nextCore).map (fun op => op.waiter.toList.count x)).getD 0 := by
    cases hc : σ.rt.g.ops.lookup σ.rt.g.nextCore with
    | none => simp [opWaiters, hc]
    | some op => simp [opWaiters, hc]
  rw [hw]
  change σ.rt.g.ready.count x + (σ.rt.g.waits x + σ.rt.g.timed x + σ.rt.g.ioWaits x +
    AList.total _ (σ.rt.g.ops.insert _ _) + σ.rt.g.joins x) + _ = _
  simp only [places, Global.parked, opWaits]
  omega

/-- Dropping a goroutine takes it off the queues and strands those that joined it. -/
theorem dropGoroutine_loses (core : Int) :
    Loses σ { σ with rt := (σ.rt.dropGoroutine core).1 } (σ.rt.g.otherJoiners core) := by
  have hle (x : Int) := Runtime.places_dropGoroutine_le (s := σ.rt) core x
  have hst (x : Int) := Runtime.status_dropGoroutine (s := σ.rt) core x
  have hn := Runtime.nextCore_dropGoroutine (s := σ.rt) core
  have heq (x : Int) (hx : x ≠ core) : (σ.rt.dropGoroutine core).1.g.places x +
      (((σ.rt.g.goroutines.lookup core).map Goroutine.joiners).getD []).count x = σ.rt.g.places x := by
    cases hgr : σ.rt.g.goroutines.lookup core with
    | none => simp [Runtime.dropGoroutine, hgr]
    | some gr => exact Runtime.places_dropGoroutine hgr hx
  refine ⟨fun x => ?_, fun x => rfl, fun x hx => ?_, fun x hx => ?_, fun x hx => ?_, fun x hx hmem => ?_,
    hn.ge, fun h => hn.le.trans h, id⟩
  · exact Nat.add_le_add_right (Nat.add_le_add_right (hle x) _) _
  · rw [hst] at hx
    split at hx
    · exact absurd rfl hx
    · exact hx
  · rw [hst] at hx
    split at hx
    · cases hx
    · exact .inl hx
  · obtain ⟨hj, hne⟩ := List.mem_filter.mp hx
    have h₁ := heq x (by simpa using hne)
    have h₂ := List.count_pos_iff.mpr hj
    simp only [System.scheduled]
    omega
  · rw [hst] at hx
    split at hx
    · cases hx
    · rename_i hne
      have h₁ := heq x hne
      have h₂ := List.count_eq_zero.mpr (fun hj => hmem (List.mem_filter.mpr ⟨hj, by simpa using hne⟩))
      simp only [System.scheduled]
      exact ⟨hx, by omega⟩

/-! ## The exit of a poll -/

theorem load_polling {wk : Worker} {gid : Int} (hfree : wk.carry.ids = []) (hp : wk.phase = .polling gid)
    (x : Int) : wk.load x = wk.queue.count x + [gid].count x := by
  rw [Worker.load, hp, hfree]
  rfl

/-- The goroutine leaves its worker and, if it finished, its joiners wake up. -/
theorem finish_loses {w : ℕ} {wk : Worker} {gid thrown : Int} {f : Worker → Worker}
    (hw : σ.workers.lookup w = some wk) (hfree : wk.carry.ids = []) (hp : wk.phase = .polling gid)
    (hf : ∀ wk, (∀ x, (f wk).load x = wk.queue.count x) ∧ (f wk).batch = wk.batch ∧ (f wk).range = wk.range)
    (hreg : σ.rt.g.status gid ≠ none) (hc : σ.Counted) :
    Loses σ ((σ.onGlobal (·.finish gid thrown)).onWorker w f) [] := by
  have hsched (x : Int) : ((σ.onGlobal (·.finish gid thrown)).onWorker w f).scheduled x + [gid].count x =
      σ.scheduled x := by
    have h₁ := scheduled_onWorker (σ := σ.onGlobal (·.finish gid thrown)) hw f x
    have h₂ : (σ.onGlobal (·.finish gid thrown)).scheduled x = σ.scheduled x :=
      congrArg (· + σ.outside.count x + σ.workers.total _) (places_finish gid thrown)
    have h₃ := load_polling hfree hp x
    have h₄ := (hf wk).1 x
    omega
  have hst {x : Int} (hx : x ≠ gid) := status_finish (g := σ.rt.g) thrown hx
  have hgid : ((σ.onGlobal (·.finish gid thrown)).onWorker w f).scheduled gid = 0 := by
    have h₁ := hsched gid
    have h₂ := hc.once gid
    have h₃ : [gid].count gid = 1 := by simp
    omega
  refine ⟨fun x => ?_, fun x => ?_, fun x hx => ?_, fun x hx => ?_, by simp, fun x hx _ => ?_, ?_, ?_, ?_⟩
  · have := hsched x
    omega
  · have h₁ := reserved_onWorker (σ := σ.onGlobal (·.finish gid thrown)) hw f x
    have h₂ : (f wk).spare x = wk.spare x := by simp only [Worker.spare, hf]
    have h₃ : (σ.onGlobal (·.finish gid thrown)).reserved x = σ.reserved x := rfl
    omega
  · by_cases hxg : x = gid
    · exact hxg ▸ hreg
    · exact hst hxg ▸ hx
  · by_cases hxg : x = gid
    · exact .inr (hxg ▸ hgid)
    · exact .inl (hst hxg ▸ hx)
  · have hxg : x ≠ gid := by
      rintro rfl
      exact status_finish_self x thrown hx
    have h₁ := hsched x
    have h₂ : [gid].count x = 0 := by simp [Ne.symm hxg]
    exact ⟨hst hxg ▸ hx, by omega⟩
  · exact (nextCore_finish gid thrown).ge
  · exact (nextCore_finish gid thrown).le.trans
  · exact fun hb => BatchNew.onWorker (σ := σ.onGlobal (·.finish gid thrown)) hb
      (fun wk e he => (hf wk).2.1 ▸ he)

/-- A poll that returned pending: its goroutine goes to its wait target or back to the
worker, except for the ids in `parkStrands`. -/
theorem park_shifts {w : ℕ} {wk : Worker} {gid : Int} (hw : σ.workers.lookup w = some wk)
    (hfree : wk.carry.ids = []) (hp : wk.phase = .polling gid) (st : TaskState) (tasks : List (PollFn × Int)) :
    let flushed := σ.rt.onGlobal (·.onGoroutine gid (fun gr => { gr.flush st with tasks := tasks }))
    let parked := flushed.parkOn gid st.park
    Shifts σ (System.onWorker { σ with rt := parked.1 } w
      (Worker.leave (if parked.2 then [gid] else []))) [] (σ.rt.parkStrands gid st.park) := by
  intro flushed parked
  have h₁ := (Shifts.refl σ).onRuntime (u := flushed) ((Moves.refl _).onGoroutine gid
    (f := fun gr => { gr.flush st with tasks := tasks }) (fun _ => rfl) (fun _ => rfl))
  have h₂ := h₁.onRuntime (u := parked.1) (Runtime.parkOn_moves (s := flushed) gid st.park)
  have h₃ := h₂.onWorker (f := Worker.leave (if parked.2 then [gid] else []))
    (i := if parked.2 then [gid] else []) (o := [gid]) hw
    (fun x => by
      rw [load_polling hfree hp x]
      change wk.queue.count x + 0 + (0 + (if parked.2 then [gid] else []).count x) + _ = _
      omega) (fun _ => rfl) (fun _ => rfl)
  refine h₃.cancel (fun x => ?_)
  have hc := Runtime.count_parkStrands (s := flushed) gid st.park x
  have hstrands : flushed.parkStrands gid st.park = σ.rt.parkStrands gid st.park := rfl
  rw [hstrands] at hc
  simp only [List.count_append, List.count_nil]
  change _ + ([gid].count x + ((flushed.parkLost st.park).count x + 0)) =
    (if parked.2 then [gid] else []).count x + ((flushed.parkEnter gid st.park).count x + 0) + _
  have hflag : (if parked.2 then [gid] else []).count x +
      (if (flushed.parkOn gid st.park).2 then [] else [gid]).count x = [gid].count x := by
    change (if parked.2 then [gid] else []).count x + (if parked.2 then [] else [gid]).count x = _
    split
    · simp
    · simp
  omega

theorem endPoll_accounted (h : σ.Accounted gone) (w : ℕ) :
    (σ.endPoll w).Accounted (gone ++ σ.strands (.endPoll w)) := by
  unfold endPoll
  cases hpoll : σ.polling? w with
  | none => simpa [strands, hpoll] using h
  | some p =>
    obtain ⟨wk, gid⟩ := p
    obtain ⟨hw, hfree, hp⟩ := polling?_eq_some hpoll
    have hstrands : σ.strands (.endPoll w) = if wk.batch ≠ [] ∨ wk.tasks = [] ∨ σ.rt.g.status gid = none
        then [] else σ.rt.parkStrands gid wk.state.park := by
      simp only [strands, hpoll]
    rw [hstrands]
    dsimp only
    by_cases hbatch : wk.batch ≠ []
    · rw [if_pos hbatch, if_pos (.inl hbatch)]
      simpa using h
    rw [if_neg hbatch]
    cases hgr : σ.rt.g.goroutines.lookup gid with
    | none =>
      have hnone : σ.rt.g.status gid = none := by simp [status, hgr]
      have hgone : wk.batch ≠ [] ∨ wk.tasks = [] ∨ σ.rt.g.status gid = none := .inr (.inr hnone)
      rw [if_pos hgone]
      have hs : Shifts σ (σ.onWorker w (Worker.leave [])) [] [gid] :=
        (Shifts.refl _).onWorker (i := []) (o := [gid]) hw
          (fun x => by
            rw [load_polling hfree.1 hp x]
            rfl)
          (fun _ => rfl) (fun _ => rfl)
      refine h.lose (hs.loses (by simp) ?_)
      intro x hx hsome
      obtain rfl : x = gid := by simpa using hx
      rw [hnone] at hsome
      cases hsome
    | some gr =>
      have hsome : σ.rt.g.status gid ≠ none := by simp [status, hgr]
      dsimp only
      by_cases htasks : wk.tasks = []
      · rw [if_pos htasks, if_pos (.inr (.inl htasks))]
        exact h.lose (finish_loses hw hfree.1 hp (fun wk' => ⟨fun x => rfl, rfl, rfl⟩) hsome h.counted)
      · rw [if_neg htasks, if_neg (not_or.mpr ⟨hbatch, not_or.mpr ⟨htasks, hsome⟩⟩)]
        exact h.shift (park_shifts hw hfree.1 hp wk.state wk.tasks)

/-! ## The remaining steps -/

theorem goDetached_accounted (h : σ.Accounted gone) (site : Option ℕ) (poll : PollFn) (future : Int)
    (cleanup : CleanupFn) (hroom : σ.rt.g.nextCore + detachedBatchCap ≤ maxI64) :
    (σ.goDetached site poll future cleanup).Accounted gone := by
  unfold goDetached
  cases site with
  | none =>
    have hcap : detachedBatchCap = 64 := rfl
    exact h.spawned (registerGoroutineRunnable_spawned h.counted rfl rfl (by omega))
  | some w =>
    dsimp only
    cases hf : σ.free? w with
    | none => exact h
    | some wk =>
      exact drawDetached_accounted (Goroutine.new poll future (some cleanup) null) h (free?_eq_some hf).1
        rfl rfl hroom

theorem shutdown_loses : Loses σ σ.shutdown [] := by
  have hnone (x : Int) : σ.shutdown.rt.g.status x = none := rfl
  refine ⟨fun x => ?_, fun x => ?_, fun x hx => ?_, fun x hx => ?_, by simp, fun x hx _ => ?_, le_rfl, id, ?_⟩
  · have h₁ : σ.shutdown.workers.total (fun _ wk => wk.load x) ≤ σ.workers.total (fun _ wk => wk.load x) := by
      rw [shutdown, AList.total_mapWithKey]
      apply AList.total_le_total
      intro w wk _
      have hq : RunQueue.empty.count x = 0 := by simp [RunQueue.count, RunQueue.empty, RunQueue.slot]
      simp only [Worker.load, hq]
      omega
    have h₂ : σ.shutdown.rt.g.places x ≤ σ.rt.g.places x := by
      change 0 + (σ.rt.g.waits x + 0 + σ.rt.g.ioWaits x + 0 + 0) ≤ σ.rt.g.places x
      simp only [places, Global.parked]
      omega
    exact Nat.add_le_add (Nat.add_le_add_right h₂ _) h₁
  · change AList.total (fun _ wk => Worker.spare x wk) (σ.workers.mapWithKey _) = _
    rw [AList.total_mapWithKey]
    rfl
  · exact absurd (hnone x) hx
  · rw [hnone] at hx
    cases hx
  · rw [hnone] at hx
    cases hx
  · intro hb w wk hwk e he
    change (σ.workers.mapWithKey _).lookup w = some wk at hwk
    rw [AList.lookup_mapWithKey] at hwk
    obtain ⟨wk', hwk', rfl⟩ := Option.map_eq_some_iff.mp hwk
    exact hb w wk' hwk' e he

theorem Shifts.rearm (site : Option ℕ) (exception : Int) : Shifts σ (σ.rearm site exception) [] [] := by
  unfold System.rearm
  cases site with
  | none => exact Shifts.refl σ
  | some w =>
    dsimp only
    split
    · exact Shifts.refl σ
    · cases hw : σ.workers.lookup w with
      | none =>
        have he : σ.onWorker w (fun wk => { wk with exception := exception }) = σ := by
          simp only [System.onWorker, AList.modify_of_lookup_none _ hw]
        rw [he]
        exact Shifts.refl σ
      | some wk =>
        exact (Shifts.refl σ).onWorker (i := []) (o := []) hw (fun x => rfl) (fun _ => rfl) (fun _ => rfl)

/-- One step of the pool keeps the goroutines accounted for. -/
theorem step_accounted (a : Act) (h : σ.Accounted gone) (ha : σ.Enabled a) :
    (σ.step a).Accounted (gone ++ σ.strands a) := by
  have hcap : detachedBatchCap = 64 := rfl
  have hle := h.counted.core_le
  have hsame {σ' : System} (h' : σ'.Accounted gone) : σ'.Accounted (gone ++ []) := by
    simpa using h'
  have hkeep {σ' : System} (hs : Shifts σ σ' [] []) : σ'.Accounted (gone ++ []) := h.shift hs
  have hown {w : ℕ} {f : Worker → Worker} (hf : ∀ wk, (f wk).queue = wk.queue ∧ (f wk).phase = wk.phase ∧
      (f wk).carry = wk.carry ∧ (f wk).batch = wk.batch ∧ (f wk).range = wk.range) :
      (σ.onPolling w f).Accounted (gone ++ []) := hkeep (Shifts.onPolling hf)
  have hglobal {f : Global → Global} (hm : Moves σ.rt.g (f σ.rt.g) [] []) :
      (σ.onGlobal f).Accounted (gone ++ []) := hkeep ((Shifts.refl σ).onGlobal hm)
  cases a with
  | go site poll future cleanup =>
    have hroom : σ.rt.g.nextCore + detachedBatchCap ≤ maxI64 := ha
    exact hsame (go_accounted h site poll future cleanup (by omega))
  | goDetached site poll future cleanup =>
    exact hsame (goDetached_accounted h site poll future cleanup ha)
  | popShared w => exact hkeep (popShared_shifts w)
  | popLocal w => exact hkeep (popLocal_shifts w)
  | refill w => exact hkeep (refill_shifts w)
  | steal w victim => exact hkeep (steal_shifts w victim)
  | beginPoll w =>
    obtain ⟨stale, hs, hstale⟩ := beginPoll_shifts (σ := σ) w
    have hnone : ∀ x ∈ ([] : List Int), x ∈ stale := by simp
    refine h.lose (hs.loses hnone ?_)
    intro x hx hsome
    rw [hstale x hx] at hsome
    cases hsome
  | parkChanSend w core value => exact hown (fun _ => ⟨rfl, rfl, rfl, rfl, rfl⟩)
  | parkChanRecv w core => exact hown (fun _ => ⟨rfl, rfl, rfl, rfl, rfl⟩)
  | parkTimer w deadline => exact hown (fun _ => ⟨rfl, rfl, rfl, rfl, rfl⟩)
  | parkFd w io read => exact hown (fun _ => ⟨rfl, rfl, rfl, rfl, rfl⟩)
  | parkJoin w target => exact hown (fun _ => ⟨rfl, rfl, rfl, rfl, rfl⟩)
  | parkOp w core => exact hown (fun _ => ⟨rfl, rfl, rfl, rfl, rfl⟩)
  | recvResult w => exact hown (fun _ => ⟨rfl, rfl, rfl, rfl, rfl⟩)
  | setTasks w tasks => exact hown (fun _ => ⟨rfl, rfl, rfl, rfl, rfl⟩)
  | throw w msg => exact hown (fun _ => ⟨rfl, rfl, rfl, rfl, rfl⟩)
  | flushBatch w => exact hsame (flushBatch_accounted h w)
  | endPoll w => exact endPoll_accounted h w
  | carryOn w =>
    refine hkeep (carryOn_shifts w (fun wk hw gid hgid => h.counted.null_notMem ?_))
    have h₁ := AList.le_total (f := fun _ wk => Worker.load gid wk) hw
    have h₂ := List.count_pos_iff.mpr hgid
    simp only [System.scheduled, Worker.load] at h₁ ⊢
    omega
  | pushOutside gid => exact hkeep (pushOutside_shifts gid)
  | registerChan cap owns => exact h.shift (registerChan_shifts hle cap owns)
  | registerIo => exact h.shift (registerIo_shifts hle)
  | registerOp => exact h.shift (registerOp_shifts hle)
  | chanClose core => exact hkeep ((Shifts.refl σ).onRuntime (Runtime.chanClose_moves core))
  | dropChan core =>
    exact h.shift (((Shifts.refl σ).onRuntime (Runtime.dropChan_moves core)).cancel
      (fun x => by simp [strands, chanWaiters]))
  | dropGoroutine core => exact h.lose (dropGoroutine_loses core)
  | dropIo core =>
    exact h.shift (((Shifts.refl σ).onRuntime (Runtime.dropIo_moves (s := σ.rt.detachFd core) core)).cancel
      (fun x => by simp [strands, ioWaiters, Runtime.detachFd]))
  | dropOp core =>
    exact h.shift (((Shifts.refl σ).onRuntime (Runtime.dropOp_moves core)).cancel
      (fun x => by simp [strands, opWaiters]))
  | attachFd io fd read => exact hkeep ((Shifts.refl σ).onRuntime (Runtime.attachFd_moves io fd read))
  | ioReady core => exact hglobal (ioReady_moves core)
  | opResult core =>
    exact h.shift (((Shifts.refl σ).onGlobal (f := fun g => (g.opResult core).1) (opResult_moves core)).cancel
      (fun x => by simp [strands, opWaiters]))
  | completeOp core result => exact hglobal (completeOp_moves core result)
  | fireTimers now => exact hkeep (fireTimers_shifts now)
  | wakeReadyIos ios => exact hglobal (wakeReadyIos_moves ios)
  | join site gid =>
    have h₁ := hglobal (f := fun g => (g.takeException gid).1) (takeException_moves gid)
    exact h₁.keep (Shifts.rearm site (σ.rt.g.takeException gid).2)
  | alloc hd =>
    exact hkeep ((Shifts.refl σ).onRuntime (u := { σ.rt with reg := (σ.rt.reg.insert hd).1 }) (Moves.refl _))
  | free id =>
    exact hkeep ((Shifts.refl σ).onRuntime (u := { σ.rt with reg := (σ.rt.reg.remove id).1 }) (Moves.refl _))
  | shutdown => exact h.lose shutdown_loses

theorem lookup_start {n w : ℕ} {wk : Worker} (h : (start n).workers.lookup w = some wk) :
    wk = Worker.new := by
  have hfold (l : List ℕ) (m : AList (fun _ : ℕ => Worker))
      (hm : ∀ w wk, m.lookup w = some wk → wk = Worker.new) :
      ∀ w wk, (l.foldl (fun m w => m.insert w Worker.new) m).lookup w = some wk → wk = Worker.new := by
    induction l generalizing m with
    | nil => exact hm
    | cons v l ih =>
      apply ih
      intro w wk hw
      rw [AList.lookup_insert_ite] at hw
      split at hw
      · exact (Option.some_inj.mp hw).symm
      · exact hm w wk hw
  exact hfold (List.range n) ∅ (by simp) w wk h

theorem start_accounted (n : ℕ) : (start n).Accounted [] := by
  have hload (x : Int) : (start n).scheduled x = 0 := by
    have h₁ : (start n).workers.total (fun _ wk => wk.load x) = 0 := by
      apply AList.total_eq_zero
      intro w wk hw
      rw [lookup_start hw]
      rfl
    exact (Nat.zero_add _).trans h₁
  have hspare (x : Int) : (start n).reserved x = 0 := by
    apply AList.total_eq_zero
    intro w wk hw
    rw [lookup_start hw]
    have h₁ : ¬((0 : Int) ≤ x ∧ x < 0 + ((0 : ℕ) : Int)) := by omega
    exact (Nat.zero_add _).trans (if_neg h₁)
  have hcore : (1 : Int) ≤ maxI64 := by decide
  refine ⟨⟨le_rfl, hcore, fun x => ?_, fun x hx => ?_, fun x hx => ?_, fun x hx => hload x, ?_⟩,
    by simp, fun x hx => ?_⟩
  · rw [hload, hspare]
    omega
  · rw [hload, hspare] at hx
    exact absurd rfl hx
  · exact absurd rfl hx
  · intro w wk hw e he
    rw [lookup_start hw] at he
    cases he
  · cases hx

/-- A step together with the goroutines it strands. -/
def recordStep (st : System × List Int) (a : Act) : System × List Int :=
  (st.1.step a, st.2 ++ st.1.strands a)

def RecordEnabled (st : System × List Int) (a : Act) : Prop := st.1.Enabled a

instance (st : System × List Int) (a : Act) : Decidable (RecordEnabled st a) :=
  inferInstanceAs (Decidable (st.1.Enabled a))

end System

/-- In every state reached by any interleaving of the pool, a registered goroutine that
is neither done nor driven occurs at most once over the run queues, the shared queue, the
wait targets and the ids in transit, and exactly once unless an earlier step took away
what it waited on. -/
theorem goroutine_scheduled_once (workers : ℕ) (actions : List Act)
    (hrun : Allowed System.recordStep System.RecordEnabled (System.start workers, []) actions) :
    let st := execute System.recordStep (System.start workers, []) actions
    ∀ x gr, st.1.rt.g.goroutines.lookup x = some gr → gr.done = false → st.1.driven x = 0 →
      st.1.queued x + st.1.rt.g.parked x + st.1.inTransit x ≤ 1 ∧
        (x ∉ st.2 → st.1.queued x + st.1.rt.g.parked x + st.1.inTransit x = 1) := by
  intro st x gr hgr hdone hidle
  have h : st.1.Accounted st.2 :=
    hrun.invariant (I := fun st => st.1.Accounted st.2) (fun st a hst ha => System.step_accounted a hst ha)
      (System.start_accounted workers)
  have heq := System.scheduled_eq (σ := st.1) x
  have honce := h.counted.once x
  refine ⟨by omega, fun hx => ?_⟩
  have h₁ := h.present x (by simp [Global.status, hgr, hdone]) hx
  omega

/-- A worker drives a goroutine up to its poll. -/
def pollFirst : List Act := [.go none 0 0 none, .pushOutside 2, .popShared 0, .beginPoll 0]

/-- One worker drives a goroutine that parks on an empty channel. -/
def parkReceiver : List Act := .registerChan 0 false :: pollFirst ++ [.parkChanRecv 0 1, .endPoll 0]

/-- One worker drives a goroutine that sleeps, and the reactor takes it off its timer. -/
def fireSleeper : List Act :=
  .registerChan 0 false :: pollFirst ++ [.parkTimer 0 5, .endPoll 0, .fireTimers 9]

/-- A receiver parked on a channel is found there. -/
theorem goroutine_scheduled_once_of_parked :
    let st := execute System.recordStep (System.start 1, []) parkReceiver
    st.1.queued 2 + st.1.rt.g.parked 2 + st.1.inTransit 2 = 1 := by
  intro st
  have hrun : Allowed System.recordStep System.RecordEnabled (System.start 1, []) parkReceiver := by decide
  have hgr : (st.1.rt.g.goroutines.lookup 2).map Goroutine.done = some false := by decide
  obtain ⟨gr, hgr, hdone⟩ := Option.map_eq_some_iff.mp hgr
  exact (goroutine_scheduled_once 1 parkReceiver hrun 2 gr hgr hdone (by decide)).2 (by decide)

/-- Every registered goroutine that is neither done nor driven occurs exactly once over
the run queues, the shared queue and the wait targets. -/
def System.Placed (σ : System) : Prop :=
  ∀ x gr, σ.rt.g.goroutines.lookup x = some gr → gr.done = false → σ.driven x = 0 →
    σ.queued x + σ.rt.g.parked x = 1

/-- A goroutine whose timer has fired is in no place until the reactor pushes it, and the
drop of the last handle of a channel leaves its parked receiver in none at all. -/
theorem fireTimers_and_dropChan_leave_nowhere :
    Allowed System.step System.Enabled (System.start 1) fireSleeper ∧
      ¬(execute System.step (System.start 1) fireSleeper).Placed ∧
    Allowed System.step System.Enabled (System.start 1) (parkReceiver ++ [.dropChan 1]) ∧
      ¬(execute System.step (System.start 1) (parkReceiver ++ [.dropChan 1])).Placed ∧
      (execute System.step (System.start 1) (parkReceiver ++ [.dropChan 1])).inTransit 2 = 0 := by
  refine ⟨by decide, fun hall => ?_, by decide, fun hall => ?_, by decide⟩
  · have hgr : ((execute System.step (System.start 1) fireSleeper).rt.g.goroutines.lookup 2).map
        Goroutine.done = some false := by decide
    obtain ⟨gr, hgr, hdone⟩ := Option.map_eq_some_iff.mp hgr
    exact absurd (hall 2 gr hgr hdone (by decide)) (by decide)
  · have hgr : ((execute System.step (System.start 1) (parkReceiver ++ [.dropChan 1])).rt.g.goroutines.lookup
        2).map Goroutine.done = some false := by decide
    obtain ⟨gr, hgr, hdone⟩ := Option.map_eq_some_iff.mp hgr
    exact absurd (hall 2 gr hgr hdone (by decide)) (by decide)

end Neutron
