import Neutron.Placement
import Neutron.Workers

/-!
# Parking, dropping and registering conserve the places

The conservation law for the critical sections that also touch the registry, for the
exit of a poll with any wait target, and for the operations that change which
goroutines are registered.
-/

namespace Neutron

namespace Runtime

open Global

variable {s : Runtime}

/-- A send puts its goroutine into exactly one queue. -/
theorem chanSend_moves (gid core : Int) : Moves s.g (s.chanSend gid core).1.g [gid] [] := by
  have h₀ := Moves.refl s.g
  apply chanSend_cases (P := fun t => Moves s.g t.1.g [gid] [])
  case gone =>
    intro _
    exact h₀.releaseSender gid
  case closed =>
    intro c _ _
    exact h₀.releaseSender gid
  case handed =>
    intro c receiver rest hc _ hr
    have h₁ := h₀.onChan (i := []) (o := [receiver]) hc (fun c => { c with receivers := rest })
      (fun x => by simp only [Chan.waiting, hr, List.count_cons, List.count_nil]; omega)
    have h₂ := (h₁.receive receiver (s.g.pendingSendOf gid) c.ownsElements true).onGoroutine
      (f := Goroutine.clearSend) gid (fun _ => rfl) (fun _ => rfl)
    refine ((h₂.pushReady receiver).pushReady gid).cancel (fun x => ?_)
    simp only [List.count_cons, List.count_nil, List.count_append]
    omega
  case buffered =>
    intro c hc _ _ _ _
    exact (h₀.onChan (i := []) (o := []) hc _ (fun x => rfl)).releaseSender gid
  case parked =>
    intro c hc _ _ _
    have h₁ := h₀.onGoroutine (f := fun gr => { gr with pendingSendOwned := c.ownsElements }) gid
      (fun _ => rfl) (fun _ => rfl)
    exact h₁.onChan (i := [gid]) (o := []) hc _
      (fun x => by simp only [Chan.waiting, List.count_append, List.count_nil]; omega)

/-- A close moves every waiter of the channel to the shared queue. -/
theorem chanClose_moves (core : Int) : Moves s.g (s.chanClose core).g [] [] := by
  apply chanClose_cases (P := fun t => Moves s.g t.g [] [])
  case gone =>
    intro _
    exact Moves.refl s.g
  case again =>
    intro c _ _
    exact Moves.refl s.g
  case closing =>
    intro c hc _
    have h₁ : Moves s.g (s.closeQueues core, ([] : List Int)).1 ([] ++ []) (c.senders ++ c.receivers ++ []) :=
      (Moves.refl s.g).onChan hc _ (fun x => by simp [Chan.waiting])
    have h₂ := foldl_moves Prod.fst
      (fun st p enter lost h => closeReceiver_moves c.ownsElements p h) (drainTo c.receivers c.buf) h₁
    have h₃ := foldl_moves (fun x => x) (fun st x enter lost h => closeSender_moves x h) c.senders h₂
    refine (h₃.cancel (fun x => ?_)).syncReadyLen
    simp only [map_fst_drainTo, List.map_id', List.count_append, List.count_reverse, List.count_nil]
    omega

theorem dropChan_moves (core : Int) :
    Moves s.g (s.dropChan core).g [] (((s.g.chans.lookup core).map Chan.senders).getD [] ++
      ((s.g.chans.lookup core).map Chan.receivers).getD []) := by
  unfold dropChan
  cases hc : s.g.chans.lookup core with
  | none => exact Moves.refl s.g
  | some c =>
    refine ⟨fun x => ?_, fun x => rfl, rfl⟩
    have h := AList.total_erase (f := fun _ c => Chan.waiting x c) hc
    change s.g.ready.count x + (AList.total (fun _ c => Chan.waiting x c) (s.g.chans.erase core) +
      s.g.timed x + s.g.ioWaits x + s.g.opWaits x + s.g.joins x) + _ = s.g.places x + 0
    simp only [Option.map_some, Option.getD_some, List.count_append, Chan.waiting] at h ⊢
    simp only [places, Global.parked, waits, Chan.waiting]
    omega

theorem dropIo_moves (core : Int) :
    Moves s.g (s.dropIo core).g [] (((s.g.ios.lookup core).map AsyncIo.waiters).getD []) := by
  cases hio : s.g.ios.lookup core with
  | none =>
    have he : (s.dropIo core).g = s.g := by
      simp only [dropIo, onGlobal, AList.erase_of_lookup_none hio]
    rw [he]
    exact Moves.refl s.g
  | some io =>
    refine ⟨fun x => ?_, fun x => rfl, rfl⟩
    have h := AList.total_erase (f := fun _ (io : AsyncIo) => io.waiters.count x) hio
    change s.g.ready.count x + (s.g.waits x + s.g.timed x +
      AList.total (fun _ io => io.waiters.count x) (s.g.ios.erase core) + s.g.opWaits x + s.g.joins x) +
        io.waiters.count x = s.g.places x + 0
    simp only [places, Global.parked, ioWaits]
    omega

theorem dropOp_moves (core : Int) :
    Moves s.g (s.dropOp core).g [] ((s.g.ops.lookup core).bind AsyncOp.waiter).toList := by
  have h := opResult_moves (g := s.g) core
  unfold opResult at h
  unfold dropOp
  cases hop : s.g.ops.lookup core with
  | none => exact Moves.refl s.g
  | some op =>
    rw [hop] at h
    exact h

theorem attachFd_moves (io fd : Int) (read : Bool) : Moves s.g (s.attachFd io fd read).g [] [] := by
  refine ⟨fun x => ?_, fun x => rfl, rfl⟩
  change (s.g.onIo io (fun slot => { slot with fd := fd })).places x + 0 = s.g.places x + 0
  cases hio : s.g.ios.lookup io with
  | none => rw [Global.onIo, AList.modify_of_lookup_none _ hio]
  | some slot =>
    have h := places_onIo (x := x) hio (fun slot => { slot with fd := fd })
    dsimp only at h
    omega

/-- The ids a park puts into a queue. A goroutine that is to be requeued stays with its
worker; one that parks on an interest that is gone ends nowhere. -/
def parkEnter (s : Runtime) (gid : Int) (park : Park) : List Int :=
  match park with
  | .fd io _ => if s.g.ios.lookup io = none then [] else [gid]
  | _ => if (s.parkOn gid park).2 then [] else [gid]

/-- The ids a park takes out of a queue for good: the previous waiter of a job. -/
def parkLost (s : Runtime) (park : Park) : List Int :=
  match park with
  | .job core =>
      if s.g.opDone core then [] else ((s.g.ops.lookup core).bind AsyncOp.waiter).toList
  | _ => []

/-- The ids a park leaves in no queue at all. -/
def parkStrands (s : Runtime) (gid : Int) (park : Park) : List Int :=
  s.parkLost park ++ match park with
    | .fd io _ => if s.g.ios.lookup io = none then [gid] else []
    | _ => []

theorem count_parkStrands (gid : Int) (park : Park) (x : Int) :
    (s.parkEnter gid park).count x + (s.parkStrands gid park).count x =
      (if (s.parkOn gid park).2 then [] else [gid]).count x + (s.parkLost park).count x := by
  have hflag (io : Int) (read : Bool) : (s.parkOn gid (.fd io read)).2 = false := by
    simp only [parkOn]
    split <;> rfl
  unfold parkStrands
  rw [List.count_append]
  cases park with
  | fd io read =>
    rw [hflag]
    simp only [parkEnter]
    split
    · simp only [List.count_nil, Bool.false_eq_true, if_false]
      omega
    · simp only [List.count_nil, Bool.false_eq_true, if_false]
      omega
  | none => simp [parkEnter, parkOn]
  | chan core op => simp [parkEnter, parkOn]
  | timer deadline => simp [parkEnter, parkOn]
  | join target => simp [parkEnter, parkOn]
  | job core =>
    simp only [parkEnter, List.count_nil]
    omega

theorem parkOn_moves (gid : Int) (park : Park) :
    Moves s.g (s.parkOn gid park).1.g (s.parkEnter gid park) (s.parkLost park) := by
  cases park with
  | none => exact Moves.refl s.g
  | chan core op =>
    cases op with
    | send => exact (chanSend_moves gid core).syncReadyLen
    | recv => exact (chanRecv_moves gid core).syncReadyLen
  | timer deadline => exact parkTimer_moves gid deadline
  | fd io read =>
    simp only [parkOn, parkEnter, parkLost]
    cases hio : s.g.ios.lookup io with
    | none => exact Moves.refl s.g
    | some slot =>
      have h₁ : Moves s.g (s.g.onIo io (fun slot =>
          { slot with parked := true, waiters := slot.waiters ++ [gid] })) [gid] [] := by
        refine ⟨fun x => ?_, fun x => rfl, rfl⟩
        have h := places_onIo (x := x) hio (fun slot =>
          { slot with parked := true, waiters := slot.waiters ++ [gid] })
        simp only [List.count_append, List.count_nil] at h ⊢
        omega
      dsimp only [registerFd]
      split
      · exact h₁
      · exact h₁
  | join target => exact (joinPark_moves gid target).syncReadyLen
  | job core =>
    have h := parkJob_moves (g := s.g) gid core
    have hlost : s.parkLost (.job core) = if (s.g.parkJob gid core).2 then [] else
        ((s.g.ops.lookup core).bind AsyncOp.waiter).toList := by
      rcases hop : s.g.ops.lookup core with _ | op
      · simp [parkLost, parkJob, hop]
      · by_cases hd : op.done = true
        · simp [parkLost, opDone, parkJob, hop, hd]
        · simp [parkLost, opDone, parkJob, hop, hd]
    rw [hlost]
    exact h.syncReadyLen

/-- Dropping a goroutine takes it off the queues it may wait in and loses its joiners. -/
theorem places_dropGoroutine {core x : Int} {gr : Goroutine} (hgr : s.g.goroutines.lookup core = some gr)
    (hx : x ≠ core) : (s.dropGoroutine core).1.g.places x + gr.joiners.count x = s.g.places x := by
  have hw : AList.total (fun _ c => Chan.waiting x c) (s.g.clearChans core).chans = s.g.waits x := by
    rw [Global.clearChans, AList.total_mapWithKey]
    apply AList.total_congr
    intro k c _
    simp only [Chan.waiting]
    rw [List.count_filter (by simpa using hx), List.count_filter (by simpa using hx)]
  have ht : AList.total (fun _ gids => gids.count x) (s.g.clearTimers core).timers = s.g.timed x := by
    rw [Global.clearTimers, AList.total_filterVals, AList.total_mapWithKey]
    · apply AList.total_congr
      intro k gids _
      rw [List.count_filter (by simpa using hx)]
    · intro k gids hg
      have : gids = [] := by simpa using hg
      simp [this]
  have hi : AList.total (fun _ io => io.waiters.count x) (s.g.clearIos core).ios = s.g.ioWaits x := by
    rw [Global.clearIos, AList.total_mapWithKey]
    apply AList.total_congr
    intro k io _
    simp only
    rw [List.count_filter (by simpa using hx)]
  have ho : AList.total (fun _ op => op.waiter.toList.count x) (s.g.clearOps core).ops = s.g.opWaits x := by
    rw [Global.clearOps, AList.total_mapWithKey]
    apply AList.total_congr
    intro k op _
    by_cases hop : op.waiter = some core
    · simp [hop, Ne.symm hx]
    · simp [hop]
  have hj := AList.total_erase (f := fun _ (gr : Goroutine) => gr.joiners.count x) hgr
  unfold dropGoroutine
  rw [hgr]
  change s.g.ready.count x + (AList.total _ (s.g.clearChans core).chans +
    AList.total _ (s.g.clearTimers core).timers + AList.total _ (s.g.clearIos core).ios +
    AList.total _ (s.g.clearOps core).ops + AList.total _ (s.g.goroutines.erase core)) + _ = _
  rw [hw, ht, hi, ho]
  simp only [places, Global.parked, joins]
  omega

theorem places_dropGoroutine_le (core x : Int) : (s.dropGoroutine core).1.g.places x ≤ s.g.places x := by
  unfold dropGoroutine
  cases hgr : s.g.goroutines.lookup core with
  | none => exact le_rfl
  | some gr =>
    have hf (l : List Int) : (l.filter (fun gid => gid ≠ core)).count x ≤ l.count x :=
      List.filter_sublist.count_le x
    have hw : AList.total (fun _ c => Chan.waiting x c) (s.g.clearChans core).chans ≤ s.g.waits x := by
      rw [Global.clearChans, AList.total_mapWithKey]
      apply AList.total_le_total
      intro k c _
      exact Nat.add_le_add (hf c.senders) (hf c.receivers)
    have ht : AList.total (fun _ gids => gids.count x) (s.g.clearTimers core).timers ≤ s.g.timed x := by
      rw [Global.clearTimers, AList.total_filterVals, AList.total_mapWithKey]
      · apply AList.total_le_total
        intro k gids _
        exact hf gids
      · intro k gids hg
        have : gids = [] := by simpa using hg
        simp [this]
    have hi : AList.total (fun _ io => io.waiters.count x) (s.g.clearIos core).ios ≤ s.g.ioWaits x := by
      rw [Global.clearIos, AList.total_mapWithKey]
      apply AList.total_le_total
      intro k io _
      exact hf io.waiters
    have ho : AList.total (fun _ op => op.waiter.toList.count x) (s.g.clearOps core).ops ≤
        s.g.opWaits x := by
      rw [Global.clearOps, AList.total_mapWithKey]
      apply AList.total_le_total
      intro k op _
      split
      · exact Nat.zero_le _
      · exact le_rfl
    have hj := AList.total_erase (f := fun _ (gr : Goroutine) => gr.joiners.count x) hgr
    change s.g.ready.count x + (AList.total _ (s.g.clearChans core).chans +
      AList.total _ (s.g.clearTimers core).timers + AList.total _ (s.g.clearIos core).ios +
      AList.total _ (s.g.clearOps core).ops + AList.total _ (s.g.goroutines.erase core)) ≤ _
    simp only [places, Global.parked, joins]
    omega

theorem status_dropGoroutine (core x : Int) :
    (s.dropGoroutine core).1.g.status x = if x = core then none else s.g.status x := by
  unfold dropGoroutine
  cases hgr : s.g.goroutines.lookup core with
  | none =>
    by_cases hx : x = core
    · subst hx
      simp [status, hgr]
    · rw [if_neg hx]
  | some gr =>
    change ((s.g.goroutines.erase core).lookup x).map Goroutine.done = _
    rw [AList.lookup_erase_ite]
    split
    · rfl
    · rfl

theorem nextCore_dropGoroutine (core : Int) : (s.dropGoroutine core).1.g.nextCore = s.g.nextCore := by
  unfold dropGoroutine
  cases s.g.goroutines.lookup core with
  | none => rfl
  | some gr => rfl

end Runtime

namespace Global

variable {g : Global} {x : Int}

theorem nextCore_finish (gid thrown : Int) : (g.finish gid thrown).nextCore = g.nextCore := by
  unfold finish
  cases g.goroutines.lookup gid with
  | none => rfl
  | some gr =>
    dsimp only
    split <;> rfl

theorem popReady_moves {g' : Global} {gid : Int} (h : g.popReady = (g', some gid)) :
    Moves g g' [] [gid] := by
  unfold popReady at h
  split at h
  · simp at h
  · obtain ⟨rfl, hgid⟩ := Prod.mk.inj h
    cases hr : g.ready with
    | nil => simp [hr] at hgid
    | cons y rest =>
      obtain rfl : y = gid := by simpa [hr] using hgid
      refine ⟨fun x => ?_, fun x => rfl, rfl⟩
      change rest.count x + g.parked x + [y].count x = g.places x + 0
      simp only [places, hr, List.count_cons, List.count_nil]
      omega

theorem popReadyBatch_moves (n : ℕ) : Moves g (g.popReadyBatch n).1 [] (g.popReadyBatch n).2 := by
  unfold popReadyBatch
  split
  · exact Moves.refl g
  · refine ⟨fun x => ?_, fun x => rfl, rfl⟩
    have h := congrArg (List.count x) (List.take_append_drop
      (min (min (g.ready.length / max n 1 + 1) g.ready.length) readyBatchCap) g.ready)
    rw [List.count_append] at h
    change (g.ready.drop _).count x + g.parked x + (g.ready.take _).count x = g.places x + 0
    simp only [places]
    omega

/-- A goroutine registered under a fresh id is parked nowhere. -/
theorem places_insert {gid : Int} {gr : Goroutine} (hfresh : g.goroutines.lookup gid = none)
    (hj : gr.joiners = []) :
    Global.places { g with goroutines := g.goroutines.insert gid gr } x = g.places x := by
  have h : AList.total (fun _ gr => gr.joiners.count x) (g.goroutines.insert gid gr) = g.joins x := by
    rw [AList.total_insert gr hfresh, hj]
    simp [joins]
  simp only [places, parked]
  change _ + (_ + AList.total _ _) = _
  rw [h]
  rfl

theorem status_insert {gid : Int} {gr : Goroutine} :
    Global.status { g with goroutines := g.goroutines.insert gid gr } x =
      if x = gid then some gr.done else g.status x := by
  simp only [status, AList.lookup_insert_ite]
  split <;> rfl

/-- Publishing a batch of new goroutines registers their ids and parks none of them. -/
theorem publish_spec (batch : List (Int × Goroutine)) (hnd : (batch.map Prod.fst).Nodup)
    (hnew : ∀ e ∈ batch, e.2.joiners = [] ∧ e.2.done = false)
    (hfresh : ∀ e ∈ batch, g.goroutines.lookup e.1 = none) :
    (∀ x, (g.publish batch).places x = g.places x) ∧
      ∀ x, (g.publish batch).status x = if x ∈ batch.map Prod.fst then some false else g.status x := by
  induction batch generalizing g with
  | nil => exact ⟨fun x => rfl, fun x => rfl⟩
  | cons e batch ih =>
    rw [List.map_cons, List.nodup_cons] at hnd
    have hfresh' : ∀ e' ∈ batch, (g.goroutines.insert e.1 e.2).lookup e'.1 = none := by
      intro e' he'
      rw [AList.lookup_insert_ne]
      · exact hfresh e' (List.mem_cons_of_mem e he')
      · rintro heq
        exact hnd.1 (heq ▸ List.mem_map_of_mem he')
    obtain ⟨hp, hs⟩ := ih (g := { g with goroutines := g.goroutines.insert e.1 e.2 }) hnd.2
      (fun e' he' => hnew e' (List.mem_cons_of_mem e he')) hfresh'
    obtain ⟨hj, hd⟩ := hnew e (by simp)
    refine ⟨fun x => (hp x).trans (places_insert (hfresh e (by simp)) hj), fun x => ?_⟩
    refine (hs x).trans ?_
    rw [status_insert, hd, List.map_cons]
    by_cases hx : x = e.1
    · subst hx
      simp
    · simp only [hx, if_false, List.mem_cons, false_or]

end Global
end Neutron
