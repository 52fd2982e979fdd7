import Neutron.PlacementSteps

/-!
# Occurrences of a goroutine over the whole pool

`scheduled` adds the run queues and the ids in the hands of the threads to the places of
the shared state; `reserved` counts the ids set aside for detached spawns. The moves of
the threads between these places are shown to conserve the count.
-/

namespace Neutron

/-- Occurrences in the run queue and in the hands of a worker. -/
def Worker.load (x : Int) (wk : Worker) : ℕ :=
  wk.queue.count x + wk.phase.driven.count x + (wk.phase.taken.count x + wk.carry.ids.count x)

/-- Occurrences among the unpublished spawns and the reserved ids of a worker. -/
def Worker.spare (x : Int) (wk : Worker) : ℕ :=
  (wk.batch.map Prod.fst).count x + if wk.range.1 ≤ x ∧ x < wk.range.1 + wk.range.2 then 1 else 0

namespace System

open Global

def scheduled (σ : System) (x : Int) : ℕ :=
  σ.rt.g.places x + σ.outside.count x + σ.workers.total (fun _ wk => wk.load x)

def reserved (σ : System) (x : Int) : ℕ := σ.workers.total (fun _ wk => wk.spare x)

/-- Occurrences among the goroutines that are being driven. -/
def driven (σ : System) (x : Int) : ℕ := σ.workers.total (fun _ wk => wk.phase.driven.count x)

/-- Occurrences in the shared queue and the run queues. -/
def queued (σ : System) (x : Int) : ℕ :=
  σ.rt.g.ready.count x + σ.workers.total (fun _ wk => wk.queue.count x)

/-- Occurrences among the ids that a thread has registered or taken from one place and not
yet put into the next. -/
def inTransit (σ : System) (x : Int) : ℕ :=
  σ.outside.count x + σ.workers.total (fun _ wk => wk.phase.taken.count x + wk.carry.ids.count x)

/-- Unpublished spawns are new goroutines. -/
def BatchNew (σ : System) : Prop :=
  ∀ w wk, σ.workers.lookup w = some wk → ∀ e ∈ wk.batch, e.2.joiners = [] ∧ e.2.done = false

/-- A step that neither registers nor finishes a goroutine, with the ids it brings in
and the ids it loses. -/
structure Shifts (σ σ' : System) (enter lost : List Int) : Prop where
  scheduled : ∀ x, σ'.scheduled x + lost.count x = σ.scheduled x + enter.count x
  reserved : ∀ x, σ'.reserved x = σ.reserved x
  status : ∀ x, σ'.rt.g.status x = σ.rt.g.status x
  nextCore : σ.rt.g.nextCore ≤ σ'.rt.g.nextCore
  coreLe : σ.rt.g.nextCore ≤ maxI64 → σ'.rt.g.nextCore ≤ maxI64
  batchNew : σ.BatchNew → σ'.BatchNew

variable {σ σ' : System} {enter lost : List Int}

theorem scheduled_eq (x : Int) :
    σ.scheduled x = σ.queued x + σ.rt.g.parked x + σ.driven x + σ.inTransit x := by
  have h : σ.workers.total (fun _ wk => wk.load x) =
      σ.workers.total (fun _ wk => wk.queue.count x) + σ.workers.total (fun _ wk => wk.phase.driven.count x) +
        σ.workers.total (fun _ wk => wk.phase.taken.count x + wk.carry.ids.count x) := by
    simp only [AList.total, Worker.load, List.sum_map_add]
  simp only [scheduled, queued, driven, inTransit, places, h]
  omega

theorem Shifts.refl (σ : System) : Shifts σ σ [] [] :=
  ⟨fun _ => rfl, fun _ => rfl, fun _ => rfl, le_rfl, id, id⟩

theorem Shifts.cancel {enter' lost' : List Int} (h : Shifts σ σ' enter lost)
    (he : ∀ x, enter'.count x + lost.count x = enter.count x + lost'.count x) :
    Shifts σ σ' enter' lost' := by
  refine ⟨fun x => ?_, h.reserved, h.status, h.nextCore, h.coreLe, h.batchNew⟩
  have := h.scheduled x
  have := he x
  omega

theorem Shifts.onRuntime {i o : List Int} {u : Runtime} (h : Shifts σ σ' enter lost)
    (hm : Moves σ'.rt.g u.g i o) : Shifts σ { σ' with rt := u } (i ++ enter) (o ++ lost) := by
  refine ⟨fun x => ?_, h.reserved, fun x => (hm.status x).trans (h.status x),
    h.nextCore.trans hm.nextCore.ge, fun hle => hm.nextCore.le.trans (h.coreLe hle), h.batchNew⟩
  have h₁ := h.scheduled x
  have h₂ := hm.places x
  simp only [System.scheduled, List.count_append] at h₁ ⊢
  omega

theorem Shifts.onGlobal {i o : List Int} {f : Global → Global} (h : Shifts σ σ' enter lost)
    (hm : Moves σ'.rt.g (f σ'.rt.g) i o) : Shifts σ (σ'.onGlobal f) (i ++ enter) (o ++ lost) :=
  h.onRuntime (u := σ'.rt.onGlobal f) hm

variable {wk : Worker} {w : ℕ}

theorem scheduled_onWorker (hw : σ.workers.lookup w = some wk) (f : Worker → Worker) (x : Int) :
    (σ.onWorker w f).scheduled x + wk.load x = σ.scheduled x + (f wk).load x := by
  have h := AList.total_modify (f := fun _ wk => Worker.load x wk) f hw
  simp only [System.scheduled, System.onWorker]
  omega

theorem reserved_onWorker (hw : σ.workers.lookup w = some wk) (f : Worker → Worker) (x : Int) :
    (σ.onWorker w f).reserved x + wk.spare x = σ.reserved x + (f wk).spare x :=
  AList.total_modify (f := fun _ wk => Worker.spare x wk) f hw

theorem BatchNew.onWorker {f : Worker → Worker} (h : σ.BatchNew)
    (hf : ∀ wk, ∀ e ∈ (f wk).batch, e ∈ wk.batch) : (σ.onWorker w f).BatchNew := by
  intro k wk hk e he
  change (σ.workers.modify w f).lookup k = some wk at hk
  rw [AList.lookup_modify] at hk
  split at hk
  · obtain ⟨wk', hwk', rfl⟩ := Option.map_eq_some_iff.mp hk
    exact h k wk' hwk' e (hf wk' e he)
  · exact h k wk hk e he

theorem Shifts.onWorker {i o : List Int} {f : Worker → Worker}
    (h : Shifts σ σ' enter lost) (hw : σ'.workers.lookup w = some wk)
    (hload : ∀ x, (f wk).load x + o.count x = wk.load x + i.count x)
    (hbatch : ∀ wk, (f wk).batch = wk.batch) (hrange : ∀ wk, (f wk).range = wk.range) :
    Shifts σ (σ'.onWorker w f) (i ++ enter) (o ++ lost) := by
  refine ⟨fun x => ?_, fun x => ?_, h.status, h.nextCore, h.coreLe, fun hb => ?_⟩
  · have h₁ := h.scheduled x
    have h₂ := scheduled_onWorker hw f x
    have h₃ := hload x
    simp only [List.count_append]
    omega
  · have h₁ := reserved_onWorker hw f x
    have h₂ : (f wk).spare x = wk.spare x := by simp only [Worker.spare, hbatch, hrange]
    have h₃ := h.reserved x
    omega
  · exact (h.batchNew hb).onWorker (fun wk e he => hbatch wk ▸ he)

theorem Shifts.onOutside {i o l : List Int} (h : Shifts σ σ' enter lost)
    (hcount : ∀ x, l.count x + o.count x = σ'.outside.count x + i.count x) :
    Shifts σ { σ' with outside := l } (i ++ enter) (o ++ lost) := by
  refine ⟨fun x => ?_, h.reserved, h.status, h.nextCore, h.coreLe, h.batchNew⟩
  have h₁ := h.scheduled x
  have h₂ := hcount x
  simp only [System.scheduled, List.count_append] at h₁ ⊢
  omega

theorem free?_eq_some (h : σ.free? w = some wk) : σ.workers.lookup w = some wk ∧ wk.Free := by
  obtain ⟨hw, hfree⟩ := Option.filter_eq_some_iff.mp h
  exact ⟨hw, of_decide_eq_true hfree⟩

theorem idle?_eq_some (h : σ.idle? w = some wk) :
    σ.workers.lookup w = some wk ∧ wk.Free ∧ wk.phase = .idle := by
  obtain ⟨hfree, hidle⟩ := Option.filter_eq_some_iff.mp h
  obtain ⟨hw, hf⟩ := free?_eq_some hfree
  exact ⟨hw, hf, of_decide_eq_true hidle⟩

theorem polling?_eq_some {gid : Int} (h : σ.polling? w = some (wk, gid)) :
    σ.workers.lookup w = some wk ∧ wk.Free ∧ wk.phase = .polling gid := by
  unfold polling? at h
  cases hf : σ.free? w with
  | none => simp [hf] at h
  | some wk' =>
    obtain ⟨hw, hfree⟩ := free?_eq_some hf
    cases hp : wk'.phase with
    | idle => simp [hf, hp] at h
    | popped y => simp [hf, hp] at h
    | polling y =>
      simp only [hf, hp, Option.some.injEq, Prod.mk.injEq] at h
      obtain ⟨rfl, rfl⟩ := h
      exact ⟨hw, hfree, hp⟩

/-- A change of the running poll's own state. -/
theorem Shifts.onPolling {f : Worker → Worker} (hf : ∀ wk, (f wk).queue = wk.queue ∧
    (f wk).phase = wk.phase ∧ (f wk).carry = wk.carry ∧ (f wk).batch = wk.batch ∧ (f wk).range = wk.range) :
    Shifts σ (σ.onPolling w f) [] [] := by
  unfold System.onPolling
  cases hpoll : σ.polling? w with
  | none => exact Shifts.refl σ
  | some p =>
    obtain ⟨hw, -, -⟩ := polling?_eq_some hpoll
    exact (Shifts.refl σ).onWorker (i := []) (o := []) hw
      (fun x => by simp only [Worker.load, hf]) (fun wk => (hf wk).2.2.2.1) (fun wk => (hf wk).2.2.2.2)

/-! ## The run queues -/

/-- An operation on the ids in the hands of a worker conserves them. -/
theorem count_carryOn (hcarry : ∀ gid ∈ wk.carry.ids, gid ≠ null) (x : Int) :
    wk.carryOn.1.load x + wk.carryOn.2.count x = wk.load x := by
  unfold Worker.carryOn
  rcases hc : wk.carry with gids | ⟨gid, gids⟩ | ⟨gid, gids⟩ | ⟨batch, gids⟩ | gids | ⟨gid, gids⟩
  · cases gids with
    | nil => simp
    | cons gid gids =>
      have hgid : gid ≠ null := hcarry gid (by simp [hc, Carry.ids])
      have hp := RunQueue.count_pushNext (q := wk.queue) hgid x
      cases hd : (wk.queue.pushNext gid).2 with
      | none =>
        simp only [hd, Option.toList_none, List.count_nil] at hp
        simp only [hd, hc, Worker.load, Carry.ids, List.count_cons, List.count_nil] at hp ⊢
        omega
      | some displaced =>
        simp only [hd, Option.toList_some] at hp
        simp only [hd, hc, Worker.load, Carry.ids, List.count_cons, List.count_nil] at hp ⊢
        omega
  · have hp := RunQueue.count_push (q := wk.queue) gid x
    by_cases hb : (wk.queue.push gid).2 = true
    · simp only [hb, hc, if_true, Worker.load, Carry.ids, List.count_cons, List.count_nil] at hp ⊢
      omega
    · simp only [hb, hc, if_false, Bool.false_eq_true, Worker.load, Carry.ids, List.count_nil] at hp ⊢
      omega
  · have ht := RunQueue.count_takeHalf (q := wk.queue) x
    simp only [hc, Worker.load, Carry.ids, List.count_append, List.count_cons, List.count_nil]
    omega
  · simp only [hc, Worker.load, Carry.ids, List.count_append]
    omega
  · cases gids with
    | nil => simp
    | cons gid gids =>
      have hp := RunQueue.count_push (q := wk.queue) gid x
      by_cases hb : (wk.queue.push gid).2 = true
      · simp only [hb, hc, if_true, Worker.load, Carry.ids, List.count_cons, List.count_nil] at hp ⊢
        omega
      · simp only [hb, hc, if_false, Bool.false_eq_true, Worker.load, Carry.ids, List.count_nil] at hp ⊢
        omega
  · simp only [hc, Worker.load, Carry.ids, List.count_cons, List.count_nil]
    omega

theorem carryOn_kept (wk : Worker) : wk.carryOn.1.batch = wk.batch ∧ wk.carryOn.1.range = wk.range := by
  unfold Worker.carryOn
  split <;> exact ⟨rfl, rfl⟩

theorem carryOn_shifts (w : ℕ)
    (hcarry : ∀ wk, σ.workers.lookup w = some wk → ∀ gid ∈ wk.carry.ids, gid ≠ null) :
    Shifts σ (σ.carryOn w) [] [] := by
  unfold System.carryOn
  cases hw : σ.workers.lookup w with
  | none => exact Shifts.refl σ
  | some wk =>
    have hc := count_carryOn (hcarry wk hw)
    have h₁ := (Shifts.refl σ).onWorker (f := fun wk => wk.carryOn.1) (i := []) (o := wk.carryOn.2) hw
      (fun x => (hc x).trans (by simp)) (fun wk => (carryOn_kept wk).1) (fun wk => (carryOn_kept wk).2)
    have h₂ := h₁.onGlobal (f := (·.pushReadyBatch wk.carryOn.2)) ((Moves.refl _).pushReadyBatch _)
    exact h₂.cancel (fun x => by simp)

theorem pushOutside_shifts (gid : Int) : Shifts σ (σ.pushOutside gid) [] [] := by
  unfold System.pushOutside
  split
  · rename_i hmem
    have h₁ := (Shifts.refl σ).onOutside (l := σ.outside.erase gid) (i := []) (o := [gid]) (fun x => by
      have := (List.perm_cons_erase hmem).count_eq x
      simp only [List.count_cons, List.count_nil] at this ⊢
      omega)
    have h₂ := h₁.onGlobal (f := fun g => (g.pushReady gid).syncReadyLen)
      ((Moves.refl _).pushReady gid).syncReadyLen
    exact h₂.cancel (fun x => by simp)
  · exact Shifts.refl σ

theorem load_carry (hfree : wk.carry.ids = []) (carry : Carry) (x : Int) :
    Worker.load x { wk with carry := carry } = wk.load x + carry.ids.count x := by
  simp only [Worker.load, hfree, List.count_nil]
  omega

theorem load_take (hfree : wk.carry.ids = []) (hidle : wk.phase = .idle) (gid : Int)
    (gids : List Int) (x : Int) : (wk.take gid gids).load x = wk.queue.count x + (gid :: gids).count x ∧
      wk.load x = wk.queue.count x := by
  constructor
  · change wk.queue.count x + 0 + ([gid].count x + gids.count x) = _
    simp only [List.count_cons, List.count_nil]
    omega
  · rw [Worker.load, hfree, hidle]
    rfl

/-- A worker that carries nothing takes an id to drive and others for its ring. -/
theorem Shifts.take (h : Shifts σ σ' enter lost)
    (hw : σ'.workers.lookup w = some wk) (hfree : wk.carry.ids = []) (hidle : wk.phase = .idle) (gid : Int)
    (gids : List Int) : Shifts σ (σ'.onWorker w (.take gid gids)) (gid :: gids ++ enter) lost :=
  h.onWorker (f := .take gid gids) (i := gid :: gids) (o := []) hw
    (fun x => by
      obtain ⟨h₁, h₂⟩ := load_take hfree hidle gid gids x
      rw [h₁, h₂, List.count_nil, Nat.add_zero])
    (fun _ => rfl) (fun _ => rfl)

theorem popShared_shifts (w : ℕ) : Shifts σ (σ.popShared w) [] [] := by
  unfold System.popShared
  cases hi : σ.idle? w with
  | none => exact Shifts.refl σ
  | some wk =>
    obtain ⟨hw, hfree, hidle⟩ := idle?_eq_some hi
    rcases hp : σ.rt.g.popReady with ⟨g, _ | gid⟩
    · exact Shifts.refl σ
    · have h₁ := (Shifts.refl σ).onRuntime (u := { σ.rt with g := g }) (popReady_moves hp)
      exact (h₁.take hw hfree.1 hidle gid []).cancel (fun x => by simp)

theorem popLocal_shifts (w : ℕ) : Shifts σ (σ.popLocal w) [] [] := by
  unfold System.popLocal
  cases hi : σ.idle? w with
  | none => exact Shifts.refl σ
  | some wk =>
    obtain ⟨hw, hfree, hidle⟩ := idle?_eq_some hi
    dsimp only
    rcases hp : wk.queue.pop with ⟨q, _ | gid⟩
    · exact Shifts.refl σ
    · have hc (x : Int) : q.count x + [gid].count x = wk.queue.count x := by
        have := RunQueue.count_pop (q := wk.queue) (show wk.queue.pop.2 = some gid by rw [hp]) x
        rwa [hp] at this
      exact (Shifts.refl σ).onWorker (f := fun wk => { wk with queue := q }.take gid []) (i := []) (o := []) hw
        (fun x => by
          obtain ⟨h₁, -⟩ := @load_take { wk with queue := q } hfree.1 hidle gid [] x
          obtain ⟨-, h₂⟩ := load_take hfree.1 hidle gid [] x
          rw [h₁, h₂, ← hc x])
        (fun _ => rfl) (fun _ => rfl)

theorem refill_shifts (w : ℕ) : Shifts σ (σ.refill w) [] [] := by
  unfold System.refill
  cases hi : σ.idle? w with
  | none => exact Shifts.refl σ
  | some wk =>
    obtain ⟨hw, hfree, hidle⟩ := idle?_eq_some hi
    have hm := popReadyBatch_moves (g := σ.rt.g) σ.workers.size
    dsimp only
    cases hl : (σ.rt.g.popReadyBatch σ.workers.size).2.getLast? with
    | none => exact Shifts.refl σ
    | some gid =>
      have hbatch := List.dropLast_append_getLast? gid hl
      have h₁ := (Shifts.refl σ).onRuntime
        (u := { σ.rt with g := (σ.rt.g.popReadyBatch σ.workers.size).1 }) hm
      refine (h₁.take hw hfree.1 hidle gid _).cancel (fun x => ?_)
      have hc := congrArg (List.count x) hbatch
      simp only [List.count_append, List.count_cons, List.count_nil] at hc ⊢
      omega

theorem steal_shifts (w victim : ℕ) : Shifts σ (σ.steal w victim) [] [] := by
  unfold System.steal
  cases hi : σ.idle? w with
  | none => exact Shifts.refl σ
  | some wk =>
    obtain ⟨hw, hfree, hidle⟩ := idle?_eq_some hi
    cases ho : σ.workers.lookup victim with
    | none => exact Shifts.refl σ
    | some other =>
      dsimp only
      split
      · exact Shifts.refl σ
      rename_i hne
      have hg := RunQueue.count_grab (q := other.queue)
      rcases hgr : other.queue.grab with ⟨left, batch, _ | gid⟩
      · exact Shifts.refl σ
      · rw [hgr] at hg
        have h₁ := (Shifts.refl σ).onWorker (f := fun wk => { wk with queue := left }) (i := [])
          (o := batch ++ [gid]) ho
          (fun x => by
            have := hg x
            simp only [Worker.load, List.count_append, List.count_nil, Option.toList_some] at this ⊢
            omega) (fun _ => rfl) (fun _ => rfl)
        have hw' : (σ.onWorker victim (fun wk => { wk with queue := left })).workers.lookup w = some wk := by
          change (σ.workers.modify victim _).lookup w = some wk
          rw [AList.lookup_modify_ne (Ne.symm hne)]
          exact hw
        refine (h₁.take hw' hfree.1 hidle gid batch).cancel (fun x => ?_)
        simp only [List.count_append, List.count_cons, List.count_nil]
        omega

theorem fireTimers_shifts (now : Int) : Shifts σ (σ.fireTimers now) [] [] := by
  unfold System.fireTimers
  split
  · exact Shifts.refl σ
  · have h₁ := (Shifts.refl σ).onGlobal (f := (·.fireTimersLocked now)) (fireTimersLocked_moves now)
    have h₂ := h₁.onOutside (l := σ.rt.g.dueTimers now ++ σ.outside) (i := σ.rt.g.dueTimers now) (o := [])
      (fun x => by
        change _ = σ.outside.count x + _
        simp only [List.count_append, List.count_nil]
        omega)
    exact h₂.cancel (fun x => by simp)

/-- A popped id is driven if its goroutine is still registered. -/
theorem beginPoll_shifts (w : ℕ) : ∃ stale : List Int, Shifts σ (σ.beginPoll w) [] stale ∧
    ∀ x ∈ stale, σ.rt.g.status x = none := by
  unfold System.beginPoll
  cases hf : σ.free? w with
  | none => exact ⟨[], Shifts.refl σ, by simp⟩
  | some wk =>
    obtain ⟨hw, -⟩ := free?_eq_some hf
    dsimp only
    cases hp : wk.phase with
    | idle => exact ⟨[], Shifts.refl σ, by simp⟩
    | polling gid => exact ⟨[], Shifts.refl σ, by simp⟩
    | popped gid =>
      dsimp only
      cases hg : σ.rt.g.goroutines.lookup gid with
      | none =>
        refine ⟨[gid], ?_, by simp [status, hg]⟩
        exact (Shifts.refl σ).onWorker (f := fun wk => { wk with phase := .idle }) (i := []) (o := [gid]) hw
          (fun x => by
            simp only [Worker.load, hp, Phase.driven, Phase.taken, List.count_nil]
            omega)
          (fun _ => rfl) (fun _ => rfl)
      | some gr =>
        refine ⟨[], ?_, by simp⟩
        have h₁ := (Shifts.refl σ).onGlobal (f := (·.onGoroutine gid (fun gr => { gr with tasks := [] })))
          ((Moves.refl _).onGoroutine gid (fun _ => rfl) (fun _ => rfl))
        exact h₁.onWorker (f := fun wk =>
          { wk with phase := .polling gid, state := gr.taskState, tasks := gr.tasks }) (i := []) (o := []) hw
          (fun x => by
            simp only [Worker.load, hp, Phase.driven, Phase.taken, List.count_nil]
            omega)
          (fun _ => rfl) (fun _ => rfl)

end System
end Neutron
