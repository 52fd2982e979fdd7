import Neutron.ChannelInvariant

/-!
# Where a goroutine waits

Every wait target of the scheduler keeps its own list of parked goroutines. `places`
counts the occurrences of a goroutine over the shared ready queue and all of these
lists, and each critical section is shown to conserve the count except for the ids
it is given and the ids it loses.
-/

namespace Neutron.Global

/-- Occurrences over the timer buckets. -/
def timed (g : Global) (x : Int) : ℕ := g.timers.total (fun _ gids => gids.count x)

/-- Occurrences over the waiters of the reactor interests. -/
def ioWaits (g : Global) (x : Int) : ℕ := g.ios.total (fun _ io => io.waiters.count x)

/-- Occurrences over the waiter slots of the offloaded jobs. -/
def opWaits (g : Global) (x : Int) : ℕ := g.ops.total (fun _ op => op.waiter.toList.count x)

/-- Occurrences over the joiner lists. -/
def joins (g : Global) (x : Int) : ℕ := g.goroutines.total (fun _ gr => gr.joiners.count x)

/-- Occurrences over the wait queues of all wait targets. -/
def parked (g : Global) (x : Int) : ℕ :=
  g.waits x + g.timed x + g.ioWaits x + g.opWaits x + g.joins x

/-- Occurrences over the shared ready queue and all wait targets. -/
def places (g : Global) (x : Int) : ℕ := g.ready.count x + g.parked x

/-- Registered, and whether finished. -/
def status (g : Global) (x : Int) : Option Bool := (g.goroutines.lookup x).map Goroutine.done

/-- A critical section that neither registers nor finishes a goroutine, with the ids it
puts into a queue and the ids it takes out for good. -/
structure Moves (g g' : Global) (enter lost : List Int) : Prop where
  places : ∀ x, g'.places x + lost.count x = g.places x + enter.count x
  status : ∀ x, g'.status x = g.status x
  nextCore : g'.nextCore = g.nextCore

variable {g g' : Global} {x : Int}

theorem Moves.refl (g : Global) : Moves g g [] [] := ⟨fun _ => rfl, fun _ => rfl, rfl⟩

theorem places_pushReady (gid : Int) : (g.pushReady gid).places x = g.places x + [gid].count x := by
  simp only [places, pushReady, List.count_append]
  change _ + g.parked x = _
  omega

theorem places_append (ids : List Int) :
    Global.places { g with ready := g.ready ++ ids } x = g.places x + ids.count x := by
  simp only [places, List.count_append]
  change _ + g.parked x = _
  omega

theorem places_pushReadyBatch (ids : List Int) :
    (g.pushReadyBatch ids).places x = g.places x + ids.count x := by
  unfold pushReadyBatch
  split
  · rename_i h
    simp [h]
  · exact places_append ids

theorem places_onChan {core : Int} {c : Chan} (hc : g.chans.lookup core = some c) (f : Chan → Chan) :
    (g.onChan core f).places x + c.waiting x = g.places x + (f c).waiting x := by
  have h := waits_onChan hc f x
  simp only [places, parked]
  change g.ready.count x + ((g.onChan core f).waits x + g.timed x + g.ioWaits x + g.opWaits x +
    g.joins x) + _ = _
  omega

theorem places_onIo {core : Int} {io : AsyncIo} (hio : g.ios.lookup core = some io)
    (f : AsyncIo → AsyncIo) :
    (g.onIo core f).places x + io.waiters.count x = g.places x + (f io).waiters.count x := by
  have h : (g.onIo core f).ioWaits x + io.waiters.count x = g.ioWaits x + (f io).waiters.count x :=
    AList.total_modify (f := fun _ io => io.waiters.count x) f hio
  simp only [places, parked]
  change g.ready.count x + (g.waits x + g.timed x + (g.onIo core f).ioWaits x + g.opWaits x +
    g.joins x) + _ = _
  omega

theorem places_onOp {core : Int} {op : AsyncOp} (hop : g.ops.lookup core = some op)
    (f : AsyncOp → AsyncOp) :
    (g.onOp core f).places x + op.waiter.toList.count x =
      g.places x + (f op).waiter.toList.count x := by
  have h : (g.onOp core f).opWaits x + op.waiter.toList.count x =
      g.opWaits x + (f op).waiter.toList.count x :=
    AList.total_modify (f := fun _ op => op.waiter.toList.count x) f hop
  simp only [places, parked]
  change g.ready.count x + (g.waits x + g.timed x + g.ioWaits x + (g.onOp core f).opWaits x +
    g.joins x) + _ = _
  omega

theorem places_onGoroutine {gid : Int} {gr : Goroutine} (hgr : g.goroutines.lookup gid = some gr)
    (f : Goroutine → Goroutine) :
    (g.onGoroutine gid f).places x + gr.joiners.count x = g.places x + (f gr).joiners.count x := by
  have h : (g.onGoroutine gid f).joins x + gr.joiners.count x = g.joins x + (f gr).joiners.count x :=
    AList.total_modify (f := fun _ gr => gr.joiners.count x) f hgr
  simp only [places, parked]
  change g.ready.count x + (g.waits x + g.timed x + g.ioWaits x + g.opWaits x +
    (g.onGoroutine gid f).joins x) + _ = _
  omega

variable {f : Goroutine → Goroutine}

theorem places_onGoroutine_same (gid : Int)
    (hf : ∀ gr, (f gr).joiners = gr.joiners) : (g.onGoroutine gid f).places x = g.places x := by
  cases hgr : g.goroutines.lookup gid with
  | none => rw [onGoroutine, AList.modify_of_lookup_none f hgr]
  | some gr =>
    have h := places_onGoroutine (x := x) hgr f
    rw [hf] at h
    omega

theorem status_onGoroutine (gid : Int) (hf : ∀ gr, (f gr).done = gr.done) :
    (g.onGoroutine gid f).status x = g.status x := by
  rw [status, status, goroutines_onGoroutine, AList.lookup_modify]
  split
  · cases g.goroutines.lookup x with
    | none => rfl
    | some gr => simp [hf]
  · rfl

variable {enter lost : List Int}

theorem Moves.pushReady (h : Moves g g' enter lost) (gid : Int) :
    Moves g (g'.pushReady gid) (gid :: enter) lost := by
  refine ⟨fun x => ?_, h.status, h.nextCore⟩
  have := h.places x
  rw [places_pushReady, List.count_cons (l := enter)]
  simp only [List.count_cons, List.count_nil]
  omega

theorem status_pushReadyBatch (ids : List Int) : (g.pushReadyBatch ids).status x = g.status x := by
  unfold pushReadyBatch
  split <;> rfl

theorem nextCore_pushReadyBatch (ids : List Int) : (g.pushReadyBatch ids).nextCore = g.nextCore := by
  unfold pushReadyBatch
  split <;> rfl

theorem Moves.pushReadyBatch (h : Moves g g' enter lost) (ids : List Int) :
    Moves g (g'.pushReadyBatch ids) (ids ++ enter) lost := by
  refine ⟨fun x => ?_, fun x => (status_pushReadyBatch ids).trans (h.status x),
    (nextCore_pushReadyBatch ids).trans h.nextCore⟩
  have := h.places x
  rw [places_pushReadyBatch, List.count_append]
  omega

theorem Moves.syncReadyLen (h : Moves g g' enter lost) :
    Moves g g'.syncReadyLen enter lost := ⟨h.places, h.status, h.nextCore⟩

theorem Moves.onGoroutine (h : Moves g g' enter lost) (gid : Int) (hj : ∀ gr, (f gr).joiners = gr.joiners)
    (hd : ∀ gr, (f gr).done = gr.done) : Moves g (g'.onGoroutine gid f) enter lost := by
  refine ⟨fun x => ?_, fun x => ?_, h.nextCore⟩
  · rw [places_onGoroutine_same gid hj]
    exact h.places x
  · rw [status_onGoroutine gid hd]
    exact h.status x

theorem Moves.receive (h : Moves g g' enter lost) (gid value : Int)
    (owned ok : Bool) : Moves g (g'.onGoroutine gid (Goroutine.receive value owned ok)) enter lost :=
  h.onGoroutine gid (fun _ => rfl) (fun _ => rfl)

theorem Moves.releaseSender (h : Moves g g' enter lost) (gid : Int) :
    Moves g (g'.releaseSender gid) (gid :: enter) lost :=
  (h.onGoroutine (f := Goroutine.clearSend) gid (fun _ => rfl) (fun _ => rfl)).pushReady gid

theorem Moves.onChan {enter lost i o : List Int} {core : Int} {c : Chan} (h : Moves g g' enter lost)
    (hc : g'.chans.lookup core = some c) (f : Chan → Chan)
    (hw : ∀ x, (f c).waiting x + o.count x = c.waiting x + i.count x) :
    Moves g (g'.onChan core f) (i ++ enter) (o ++ lost) := by
  refine ⟨fun x => ?_, h.status, h.nextCore⟩
  have := places_onChan (x := x) hc f
  have := hw x
  have := h.places x
  simp only [List.count_append]
  omega

/-- The same ids entered and lost cancel. -/
theorem Moves.cancel {enter lost enter' lost' : List Int} (h : Moves g g' enter lost)
    (he : ∀ x, enter'.count x + lost.count x = enter.count x + lost'.count x) :
    Moves g g' enter' lost' := by
  refine ⟨fun x => ?_, h.status, h.nextCore⟩
  have := h.places x
  have := he x
  omega

/-! ## Channels -/

/-- A receive puts its goroutine into exactly one queue. -/
theorem chanRecv_moves (gid core : Int) : Moves g (g.chanRecv gid core).1 [gid] [] := by
  have h₀ := Moves.refl g
  apply chanRecv_cases (P := fun t => Moves g t.1 [gid] [])
  case gone =>
    intro _
    exact (h₀.receive gid _ _ _).pushReady gid
  case refill =>
    intro c v rest s senders hc hb hs g₁ g₂
    have h₁ := (h₀.receive gid v c.ownsElements true).onChan (i := []) (o := [s]) hc
      (fun c => { c with buf := rest ++ [g₁.pendingSendOf s], senders := senders })
      (fun x => by simp only [Chan.waiting, hs, List.count_cons, List.count_nil]; omega)
    refine ((h₁.releaseSender s).pushReady gid).cancel (fun x => ?_)
    simp only [List.count_cons, List.count_nil, List.count_append]
    omega
  case buffered =>
    intro c v rest hc hb hs
    exact ((h₀.receive gid v c.ownsElements true).onChan (i := []) (o := []) hc
      (fun c => { c with buf := rest }) (fun x => rfl)).pushReady gid
  case taken =>
    intro c s senders hc hb hs
    have h₁ := h₀.onChan (i := []) (o := [s]) hc (fun c => { c with senders := senders })
      (fun x => by simp only [Chan.waiting, hs, List.count_cons, List.count_nil]; omega)
    have h₂ := h₁.onGoroutine (f := Goroutine.clearSend) s (fun _ => rfl) (fun _ => rfl)
    refine (((h₂.receive gid _ c.ownsElements true).pushReady s).pushReady gid).cancel (fun x => ?_)
    simp only [List.count_cons, List.count_nil, List.count_append]
    omega
  case closed =>
    intro c _ _ _ _
    exact (h₀.receive gid _ _ _).pushReady gid
  case parked =>
    intro c hc _ _ _
    exact h₀.onChan (i := [gid]) (o := []) hc _
      (fun x => by simp only [Chan.waiting, List.count_append, List.count_nil]; omega)

variable {st : Global × List Int}

theorem closeReceiver_moves (owns : Bool) (p : Int × Option Int) (h : Moves g st.1 enter lost) :
    Moves g (closeReceiver owns st p).1 (p.1 :: enter) lost := by
  unfold closeReceiver
  split
  · exact (h.receive _ _ _ _).pushReady _
  · exact h.pushReady _
  · exact (h.receive _ _ _ _).pushReady _
  · exact h.pushReady _

theorem closeSender_moves (s : Int)
    (h : Moves g st.1 enter lost) : Moves g (closeSender st s).1 (s :: enter) lost := by
  unfold closeSender
  split
  · exact h.releaseSender s
  · exact h.pushReady s

/-- A fold that makes the goroutine of every element runnable. -/
theorem foldl_moves {β : Type} {f : Global × List Int → β → Global × List Int} (gid : β → Int)
    (hf : ∀ st b enter lost, Moves g st.1 enter lost → Moves g (f st b).1 (gid b :: enter) lost)
    (l : List β) (h : Moves g st.1 enter lost) :
    Moves g (l.foldl f st).1 ((l.map gid).reverse ++ enter) lost := by
  induction l generalizing st enter with
  | nil => exact h
  | cons b l ih =>
    have := ih (hf st b enter lost h)
    simpa using this

theorem map_fst_drainTo (rs buf : List Int) : (drainTo rs buf).map Prod.fst = rs := by
  induction rs generalizing buf with
  | nil => rfl
  | cons r rs ih => simp [drainTo, ih]

/-! ## Timers, descriptors, joins and jobs -/

theorem parkTimer_moves (gid deadline : Int) : Moves g (g.parkTimer gid deadline) [gid] [] := by
  have ht : (g.parkTimer gid deadline).timed = fun x => g.timed x + [gid].count x := by
    funext x
    simp only [parkTimer]
    cases hl : g.timers.lookup deadline with
    | none =>
      change AList.total _ (g.timers.insert deadline [gid]) = _
      rw [AList.total_insert _ hl, Nat.add_comm]
      rfl
    | some gids =>
      have h := AList.total_modify (f := fun _ (gids : List Int) => gids.count x) (· ++ [gid]) hl
      change AList.total _ (g.timers.modify deadline (· ++ [gid])) = _
      simp only [List.count_append] at h
      rw [timed]
      omega
  refine ⟨fun x => ?_, fun x => rfl, rfl⟩
  have := congrFun ht x
  simp only [places, parked]
  change g.ready.count x + (g.waits x + (g.parkTimer gid deadline).timed x + g.ioWaits x + g.opWaits x +
    g.joins x) + _ = _
  simp only [List.count_nil]
  omega

theorem joinPark_moves (gid target : Int) : Moves g (g.joinPark gid target) [gid] [] := by
  unfold joinPark
  cases ht : g.goroutines.lookup target with
  | none => exact (Moves.refl g).pushReady gid
  | some t =>
    dsimp only
    split
    · exact ((Moves.refl g).onGoroutine (f := fun gr => { gr with result := t.result }) gid
        (fun _ => rfl) (fun _ => rfl)).pushReady gid
    · refine ⟨fun x => ?_, fun x => status_onGoroutine target (fun _ => rfl), rfl⟩
      have h := places_onGoroutine (x := x) ht (fun gr => { gr with joiners := gr.joiners ++ [gid] })
      simp only [List.count_append] at h
      simp only [List.count_nil]
      omega

/-- The ids a park on a job puts into the waiter slot and pushes out of it. -/
theorem parkJob_moves (gid core : Int) :
    Moves g (g.parkJob gid core).1 (if (g.parkJob gid core).2 then [] else [gid])
      (if (g.parkJob gid core).2 then [] else ((g.ops.lookup core).bind AsyncOp.waiter).toList) := by
  unfold parkJob
  cases hop : g.ops.lookup core with
  | none => exact Moves.refl g
  | some op =>
    dsimp only
    split
    · exact Moves.refl g
    · refine ⟨fun x => ?_, fun x => rfl, rfl⟩
      have h := places_onOp (x := x) hop (fun op => { op with waiter := some gid })
      simpa using h

theorem completeOp_moves (core result : Int) : Moves g (g.completeOp core result) [] [] := by
  unfold completeOp
  cases hop : g.ops.lookup core with
  | none => exact Moves.refl g
  | some op =>
    have h₁ : Moves g (g.onOp core (fun op => { op with result := result, done := true, waiter := none }))
        [] op.waiter.toList := by
      refine ⟨fun x => ?_, fun x => rfl, rfl⟩
      have h := places_onOp (x := x) hop
        (fun op => { op with result := result, done := true, waiter := none })
      simpa using h
    dsimp only
    cases hw : op.waiter with
    | none => simpa [hw] using h₁
    | some gid =>
      rw [hw] at h₁
      exact ((h₁.pushReady gid).cancel (fun x => by simp)).syncReadyLen

theorem wakeReadyIo_moves (core : Int) : Moves g (g.wakeReadyIo core) [] [] := by
  unfold wakeReadyIo
  cases hio : g.ios.lookup core with
  | none => exact Moves.refl g
  | some io =>
    refine ⟨fun x => ?_, fun x => rfl, rfl⟩
    have h := places_onIo (x := x) hio (fun io => { io with ready := true, parked := false, waiters := [] })
    have ha := places_append (g := g.onIo core (fun io =>
      { io with ready := true, parked := false, waiters := [] })) (x := x) io.waiters
    simp only [List.count_nil, Nat.add_zero] at h ⊢
    exact ha.trans h

theorem Moves.trans {g₁ g₂ g₃ : Global} (h : Moves g₁ g₂ [] []) (h' : Moves g₂ g₃ [] []) :
    Moves g₁ g₃ [] [] :=
  ⟨fun x => (h'.places x).trans (h.places x), fun x => (h'.status x).trans (h.status x),
    h'.nextCore.trans h.nextCore⟩

theorem wakeReadyIos_moves (ios : List Int) : Moves g (g.wakeReadyIos ios) [] [] := by
  unfold wakeReadyIos
  induction ios generalizing g with
  | nil => exact Moves.refl g
  | cons io ios ih => exact (wakeReadyIo_moves io).trans ih

theorem ioReady_moves (core : Int) : Moves g (g.ioReady core).1 [] [] := by
  unfold ioReady
  cases hio : g.ios.lookup core with
  | none => exact Moves.refl g
  | some io =>
    refine ⟨fun x => ?_, fun x => rfl, rfl⟩
    have h := places_onIo (x := x) hio (fun io => { io with ready := false })
    simpa using h

theorem takeException_moves (gid : Int) : Moves g (g.takeException gid).1 [] [] := by
  unfold takeException
  cases hgr : g.goroutines.lookup gid with
  | none => exact Moves.refl g
  | some gr =>
    dsimp only
    split
    · exact (Moves.refl g).onGoroutine gid (fun _ => rfl) (fun _ => rfl)
    · exact Moves.refl g

theorem opResult_moves (core : Int) :
    Moves g (g.opResult core).1 [] ((g.ops.lookup core).bind AsyncOp.waiter).toList := by
  unfold opResult
  cases hop : g.ops.lookup core with
  | none => exact Moves.refl g
  | some op =>
    refine ⟨fun x => ?_, fun x => rfl, rfl⟩
    have h := AList.total_erase (f := fun _ (op : AsyncOp) => op.waiter.toList.count x) hop
    change g.ready.count x + (g.waits x + g.timed x + g.ioWaits x +
      AList.total (fun _ op => op.waiter.toList.count x) (g.ops.erase core) + g.joins x) +
        op.waiter.toList.count x = g.places x + 0
    simp only [places, parked, opWaits]
    omega

theorem count_flatMap_filter (now : Int) (l : List (Σ _ : Int, List Int)) :
    ((l.filter (fun e => e.1 ≤ now)).flatMap (·.2)).count x +
      ((l.filter (fun e => now < e.1)).map (fun e => e.2.count x)).sum =
        (l.map (fun e => e.2.count x)).sum := by
  induction l with
  | nil => rfl
  | cons e l ih =>
    by_cases hle : e.1 ≤ now
    · have hlt : ¬now < e.1 := by omega
      simp only [List.filter_cons, hle, hlt, decide_true, decide_false, if_true, if_false,
        Bool.false_eq_true, List.flatMap_cons, List.count_append, List.map_cons, List.sum_cons]
      omega
    · have hlt : now < e.1 := by omega
      simp only [List.filter_cons, hle, hlt, decide_true, decide_false, if_true, if_false,
        Bool.false_eq_true, List.map_cons, List.sum_cons]
      omega

/-- Due goroutines leave their buckets. -/
theorem fireTimersLocked_moves (now : Int) : Moves g (g.fireTimersLocked now) [] (g.dueTimers now) := by
  have hcount (x : Int) : (g.dueTimers now).count x +
      AList.total (fun _ gids => gids.count x) (g.timers.filterKeys (fun k => now < k)) = g.timed x := by
    have hperm : (g.dueTimers now).Perm
        ((g.timers.entries.filter (fun e => e.1 ≤ now)).flatMap (·.2)) :=
      (List.mergeSort_perm _ _).flatMap_right _
    rw [hperm.count_eq]
    exact count_flatMap_filter now g.timers.entries
  refine ⟨fun x => ?_, fun x => rfl, rfl⟩
  have := hcount x
  change g.ready.count x + (g.waits x + AList.total (fun _ gids => gids.count x)
    (g.timers.filterKeys (fun k => now < k)) + g.ioWaits x + g.opWaits x + g.joins x) + _ = _ + 0
  simp only [places, parked]
  omega

/-! ## Finishing, dropping and registering goroutines -/

/-- Completion hands the joiners to the shared queue. -/
theorem places_finish (gid thrown : Int) : (g.finish gid thrown).places x = g.places x := by
  unfold finish
  cases hgr : g.goroutines.lookup gid with
  | none => rfl
  | some gr =>
    have h := places_onGoroutine (x := x) hgr (Goroutine.finished thrown)
    have ha := places_append (g := g.onGoroutine gid (Goroutine.finished thrown)) (x := x) gr.joiners
    have hj : (gr.finished thrown).joiners.count x = 0 := rfl
    dsimp only
    split
    · have hl : (g.goroutines.modify gid (Goroutine.finished thrown)).lookup gid =
          some (gr.finished thrown) := by simp [hgr]
      have he := AList.total_erase (f := fun _ (gr : Goroutine) => gr.joiners.count x) hl
      have hjoin : AList.total (fun _ gr => gr.joiners.count x)
          ((g.goroutines.modify gid (Goroutine.finished thrown)).erase gid) =
            (g.onGoroutine gid (Goroutine.finished thrown)).joins x := he
      have hsame : Global.places { g.onGoroutine gid (Goroutine.finished thrown) with
          ready := g.ready ++ gr.joiners,
          goroutines := (g.goroutines.modify gid (Goroutine.finished thrown)).erase gid } x =
          Global.places { g.onGoroutine gid (Goroutine.finished thrown) with
            ready := g.ready ++ gr.joiners } x := by
        simp only [places, parked]
        change _ + (_ + _ + _ + _ + AList.total _ _) = _
        rw [hjoin]
        rfl
      refine hsame.trans (ha.trans ?_)
      omega
    · exact ha.trans (by omega)

theorem status_finish {gid : Int} (thrown : Int) (hx : x ≠ gid) :
    (g.finish gid thrown).status x = g.status x := by
  unfold finish
  cases hgr : g.goroutines.lookup gid with
  | none => rfl
  | some gr =>
    dsimp only
    split
    · simp [status, AList.lookup_modify, hx]
    · simp [status, AList.lookup_modify, hx]

theorem status_finish_self (gid thrown : Int) : (g.finish gid thrown).status gid ≠ some false := by
  unfold finish
  cases hgr : g.goroutines.lookup gid with
  | none => simp [status, hgr]
  | some gr =>
    dsimp only
    split
    · simp [status]
    · simp [status, hgr, Goroutine.finished]

end Neutron.Global
