import Neutron.Scheduling

/-!
# No goroutine is scheduled twice, and which steps lose one

`Counted` holds along every run as long as the id counter has room: an id occurs at
most once over all queues, wait targets, threads and reservations. `Accounted` adds
that an unfinished goroutine is missing exactly when an earlier step left it nowhere;
`strands` names the ids a step leaves nowhere.
-/

namespace Neutron.System

open Global

structure Counted (σ : System) : Prop where
  core_pos : 1 ≤ σ.rt.g.nextCore
  core_le : σ.rt.g.nextCore ≤ maxI64
  once : ∀ x, σ.scheduled x + σ.reserved x ≤ 1
  bound : ∀ x, σ.scheduled x + σ.reserved x ≠ 0 → 1 ≤ x ∧ x < σ.rt.g.nextCore
  known : ∀ x, σ.rt.g.status x ≠ none → x < σ.rt.g.nextCore ∧ σ.reserved x = 0
  finished : ∀ x, σ.rt.g.status x = some true → σ.scheduled x = 0
  batchNew : σ.BatchNew

/-- The unfinished goroutines that are nowhere are those already given up for lost. -/
structure Accounted (σ : System) (gone : List Int) : Prop where
  counted : σ.Counted
  absent : ∀ x ∈ gone, x < σ.rt.g.nextCore ∧ σ.scheduled x + σ.reserved x = 0
  present : ∀ x, σ.rt.g.status x = some false → x ∉ gone → σ.scheduled x = 1

variable {σ σ' : System} {lost gone strands : List Int}

/-- A step that registers nothing: occurrences only go away, an unfinished goroutine
loses its occurrence only when it is among the stranded ids, and one that finishes has
no occurrence left. -/
structure Loses (σ σ' : System) (strands : List Int) : Prop where
  scheduled : ∀ x, σ'.scheduled x ≤ σ.scheduled x
  reserved : ∀ x, σ'.reserved x = σ.reserved x
  known : ∀ x, σ'.rt.g.status x ≠ none → σ.rt.g.status x ≠ none
  finished : ∀ x, σ'.rt.g.status x = some true → σ.rt.g.status x = some true ∨ σ'.scheduled x = 0
  stranded : ∀ x ∈ strands, σ'.scheduled x < σ.scheduled x
  kept : ∀ x, σ'.rt.g.status x = some false → x ∉ strands →
    σ.rt.g.status x = some false ∧ σ'.scheduled x = σ.scheduled x
  nextCore : σ.rt.g.nextCore ≤ σ'.rt.g.nextCore
  coreLe : σ.rt.g.nextCore ≤ maxI64 → σ'.rt.g.nextCore ≤ maxI64
  batchNew : σ.BatchNew → σ'.BatchNew

theorem Counted.lose (h : σ.Counted) (hs : Loses σ σ' strands) : σ'.Counted where
  core_pos := h.core_pos.trans hs.nextCore
  core_le := hs.coreLe h.core_le
  once x := by
    have h₁ := hs.scheduled x
    have h₂ := hs.reserved x
    have h₃ := h.once x
    omega
  bound x hx := by
    have h₁ := hs.scheduled x
    have h₂ := hs.reserved x
    have h₃ := h.bound x (by omega)
    have h₄ := hs.nextCore
    omega
  known x hx := by
    obtain ⟨h₁, h₂⟩ := h.known x (hs.known x hx)
    have h₃ := hs.nextCore
    exact ⟨by omega, (hs.reserved x).trans h₂⟩
  finished x hx := by
    rcases hs.finished x hx with h₁ | h₁
    · have h₂ := h.finished x h₁
      have h₃ := hs.scheduled x
      omega
    · exact h₁
  batchNew := hs.batchNew h.batchNew

theorem Accounted.lose (h : σ.Accounted gone) (hs : Loses σ σ' strands) :
    σ'.Accounted (gone ++ strands) := by
  have hcore := hs.nextCore
  refine ⟨h.counted.lose hs, fun x hx => ?_, fun x hx hmem => ?_⟩
  · have h₁ := hs.scheduled x
    have h₂ := hs.reserved x
    rcases List.mem_append.mp hx with hx | hx
    · have h₃ := h.absent x hx
      exact ⟨by omega, by omega⟩
    · have h₃ := hs.stranded x hx
      have h₄ := h.counted.once x
      have h₅ := h.counted.bound x (by omega)
      exact ⟨by omega, by omega⟩
  · rw [List.mem_append, not_or] at hmem
    obtain ⟨h₁, h₂⟩ := hs.kept x hx hmem.2
    exact h₂.trans (h.present x h₁ hmem.1)

/-- A shift may lose more than it strands: ids of goroutines that are gone or finished. -/
theorem Shifts.loses (hs : Shifts σ σ' [] lost) (hsub : ∀ x ∈ strands, x ∈ lost)
    (hall : ∀ x ∈ lost, σ.rt.g.status x = some false → x ∈ strands) : Loses σ σ' strands where
  scheduled x := by
    have := hs.scheduled x
    simp only [List.count_nil] at this
    omega
  reserved := hs.reserved
  known x hx := hs.status x ▸ hx
  finished x hx := .inl (hs.status x ▸ hx)
  stranded x hx := by
    have h₁ := hs.scheduled x
    have h₂ : 0 < lost.count x := List.count_pos_iff.mpr (hsub x hx)
    simp only [List.count_nil] at h₁
    omega
  kept x hx hmem := by
    rw [hs.status] at hx
    have h₁ := hs.scheduled x
    have h₂ : lost.count x = 0 := List.count_eq_zero.mpr (fun hm => hmem (hall x hm hx))
    simp only [List.count_nil] at h₁
    exact ⟨hx, by omega⟩
  nextCore := hs.nextCore
  coreLe := hs.coreLe
  batchNew := hs.batchNew

/-- A step that moves waiters out of an entry it removes. -/
theorem Accounted.shift (h : σ.Accounted gone) (hs : Shifts σ σ' [] lost) :
    σ'.Accounted (gone ++ lost) :=
  h.lose (hs.loses (fun _ hx => hx) (fun _ hx _ => hx))

/-- A step that loses nothing. -/
theorem Accounted.keep (h : σ.Accounted gone) (hs : Shifts σ σ' [] []) : σ'.Accounted gone := by
  simpa using h.shift hs

theorem Counted.null_notMem (h : σ.Counted) {x : Int} (hx : σ.scheduled x + σ.reserved x ≠ 0) :
    x ≠ null := by
  have := (h.bound x hx).1
  rw [null]
  omega

/-- An id from the counter is new everywhere. -/
theorem Counted.fresh (h : σ.Counted) {x : Int} (hx : σ.rt.g.nextCore ≤ x) :
    σ.scheduled x = 0 ∧ σ.reserved x = 0 ∧ σ.rt.g.goroutines.lookup x = none := by
  have h₁ : σ.scheduled x + σ.reserved x = 0 := by
    by_contra hne
    have := (h.bound x hne).2
    omega
  refine ⟨by omega, by omega, ?_⟩
  by_contra hne
  have := (h.known x (by simpa [status] using hne)).1
  omega

/-! ## Spawns -/

/-- A new goroutine registered under the next id and put into one queue. -/
structure Spawned (σ σ' : System) : Prop where
  scheduled : ∀ x, σ'.scheduled x = σ.scheduled x + [σ.rt.g.nextCore].count x
  reserved : ∀ x, σ'.reserved x = σ.reserved x
  status : ∀ x, σ'.rt.g.status x = if x = σ.rt.g.nextCore then some false else σ.rt.g.status x
  nextCore : σ.rt.g.nextCore < σ'.rt.g.nextCore
  coreLe : σ'.rt.g.nextCore ≤ maxI64
  batchNew : σ.BatchNew → σ'.BatchNew

theorem Counted.spawned (h : σ.Counted) (hs : Spawned σ σ') : σ'.Counted := by
  have hnew := h.fresh le_rfl
  have hself : [σ.rt.g.nextCore].count σ.rt.g.nextCore = 1 := by simp
  have hother {x : Int} (hx : x ≠ σ.rt.g.nextCore) : [σ.rt.g.nextCore].count x = 0 := by
    simp [Ne.symm hx]
  have hcore := hs.nextCore
  have hpos := h.core_pos
  refine ⟨by omega, hs.coreLe, ?_, ?_, ?_, ?_, hs.batchNew h.batchNew⟩
  · intro x
    have h₁ := hs.scheduled x
    have h₂ := hs.reserved x
    by_cases hx : x = σ.rt.g.nextCore
    · subst hx
      omega
    · have h₃ := h.once x
      have h₄ := hother hx
      omega
  · intro x hx
    have h₁ := hs.scheduled x
    have h₂ := hs.reserved x
    by_cases hxn : x = σ.rt.g.nextCore
    · omega
    · have h₄ := hother hxn
      have h₃ := h.bound x (by omega)
      omega
  · intro x hx
    have h₂ := hs.reserved x
    rw [hs.status] at hx
    by_cases hxn : x = σ.rt.g.nextCore
    · subst hxn
      exact ⟨by omega, by omega⟩
    · rw [if_neg hxn] at hx
      have h₃ := h.known x hx
      exact ⟨by omega, by omega⟩
  · intro x hx
    have h₁ := hs.scheduled x
    rw [hs.status] at hx
    by_cases hxn : x = σ.rt.g.nextCore
    · simp [hxn] at hx
    · rw [if_neg hxn] at hx
      have h₃ := h.finished x hx
      have h₄ := hother hxn
      omega

theorem Accounted.spawned (h : σ.Accounted gone) (hs : Spawned σ σ') : σ'.Accounted gone := by
  have hcore := hs.nextCore
  have hother {x : Int} (hx : x ≠ σ.rt.g.nextCore) : [σ.rt.g.nextCore].count x = 0 := by
    simp [Ne.symm hx]
  refine ⟨h.counted.spawned hs, fun x hx => ?_, fun x hx hmem => ?_⟩
  · have h₁ := h.absent x hx
    have h₂ := hs.scheduled x
    have h₃ := hs.reserved x
    have h₄ := hother (x := x) (by omega)
    exact ⟨by omega, by omega⟩
  · have h₁ := hs.scheduled x
    rw [hs.status] at hx
    by_cases hxn : x = σ.rt.g.nextCore
    · subst hxn
      have h₂ := (h.counted.fresh le_rfl).1
      have h₃ : [σ.rt.g.nextCore].count σ.rt.g.nextCore = 1 := by simp
      omega
    · rw [if_neg hxn] at hx
      have h₂ := h.present x hx hmem
      have h₃ := hother hxn
      omega

/-- Registration of a new goroutine under the next id. -/
theorem registerGoroutine_spec {g : Global} (gr : Goroutine) (hfresh : g.goroutines.lookup g.nextCore = none)
    (hj : gr.joiners = []) (hd : gr.done = false) (hroom : g.nextCore < maxI64) :
    (∀ x, (g.registerGoroutine gr).1.places x = g.places x) ∧
      (∀ x, (g.registerGoroutine gr).1.status x = if x = g.nextCore then some false else g.status x) ∧
      (g.registerGoroutine gr).1.nextCore = g.nextCore + 1 := by
  refine ⟨fun x => ?_, fun x => ?_, ?_⟩
  · exact places_insert (g := g.bumpCore 1) hfresh hj
  · refine (status_insert (g := g.bumpCore 1)).trans ?_
    rw [hd]
    rfl
  · change min (g.nextCore + ((1 : ℕ) : Int)) maxI64 = g.nextCore + 1
    omega

theorem registerWrapped_spec (h : σ.Counted) (poll : PollFn) (future : Int) (cleanup : Option CleanupFn)
    (hroom : σ.rt.g.nextCore < maxI64) :
    (∀ x, (σ.registerWrapped poll future cleanup).scheduled x = σ.scheduled x) ∧
      (∀ x, (σ.registerWrapped poll future cleanup).rt.g.status x =
        if x = σ.rt.g.nextCore then some false else σ.rt.g.status x) ∧
      (σ.registerWrapped poll future cleanup).rt.g.nextCore = σ.rt.g.nextCore + 1 := by
  obtain ⟨hp, hst, hn⟩ := registerGoroutine_spec (g := σ.rt.g)
    (Goroutine.new poll future cleanup σ.rt.reg.reserveId.2) (h.fresh le_rfl).2.2 rfl rfl hroom
  exact ⟨fun x => congrArg (· + σ.outside.count x + σ.workers.total _) (hp x), hst, hn⟩

theorem go_accounted (h : σ.Accounted gone) (site : Option ℕ) (poll : PollFn) (future : Int)
    (cleanup : Option CleanupFn) (hroom : σ.rt.g.nextCore < maxI64) :
    (σ.go site poll future cleanup).Accounted gone := by
  obtain ⟨hsched, hst, hn⟩ := registerWrapped_spec h.counted poll future cleanup hroom
  unfold go
  cases site with
  | none =>
    refine h.spawned ⟨fun x => ?_, fun x => rfl, hst, ?_, ?_, id⟩
    · have h₁ := hsched x
      simp only [System.scheduled, List.count_cons, List.count_nil] at h₁ ⊢
      change _ + σ.outside.count x + _ = _ at h₁
      omega
    · exact hn ▸ Int.lt_succ σ.rt.g.nextCore
    · change (σ.registerWrapped poll future cleanup).rt.g.nextCore ≤ maxI64
      omega
  | some w =>
    dsimp only
    cases hf : σ.free? w with
    | none => exact h
    | some wk =>
      obtain ⟨hw, hfree, -⟩ := free?_eq_some hf
      have hs := (Shifts.refl (σ.registerWrapped poll future cleanup)).onWorker
        (f := fun wk => { wk with carry := .offer [σ.rt.g.nextCore] }) (i := [σ.rt.g.nextCore]) (o := []) hw
        (fun x => load_carry hfree (.offer [σ.rt.g.nextCore]) x) (fun _ => rfl) (fun _ => rfl)
      refine h.spawned ⟨fun x => ?_, hs.reserved, fun x => (hs.status x).trans (hst x), ?_, ?_, hs.batchNew⟩
      · have h₁ := hs.scheduled x
        rw [List.append_nil, List.append_nil, List.count_nil, Nat.add_zero, hsched x] at h₁
        exact h₁
      · exact hn ▸ Int.lt_succ σ.rt.g.nextCore
      · exact hs.coreLe (by omega)

theorem registerGoroutineRunnable_spawned (h : σ.Counted) {gr : Goroutine} (hj : gr.joiners = [])
    (hd : gr.done = false) (hroom : σ.rt.g.nextCore < maxI64) :
    Spawned σ (σ.onGlobal (fun g => (g.registerGoroutineRunnable gr).1)) := by
  obtain ⟨hp, hst, hn⟩ := registerGoroutine_spec gr (h.fresh le_rfl).2.2 hj hd hroom
  have hcore : (σ.onGlobal (fun g => (g.registerGoroutineRunnable gr).1)).rt.g.nextCore =
    σ.rt.g.nextCore + 1 := hn
  refine ⟨fun x => ?_, fun x => rfl, hst, by omega, by omega, id⟩
  have h₁ := places_pushReady (g := (σ.rt.g.registerGoroutine gr).1) (x := x) σ.rt.g.nextCore
  have h₂ : (σ.onGlobal (fun g => (g.registerGoroutineRunnable gr).1)).rt.g.places x =
      σ.rt.g.places x + [σ.rt.g.nextCore].count x := h₁.trans (by rw [hp x])
  simp only [System.scheduled, h₂]
  change _ + σ.outside.count x + σ.workers.total _ = _
  omega

/-! ## Detached spawns -/

/-- Publication of a batch: reserved ids become registered and queued. -/
structure Published (σ σ' : System) (ids : List Int) : Prop where
  scheduled : ∀ x, σ'.scheduled x = σ.scheduled x + ids.count x
  reserved : ∀ x, σ'.reserved x + ids.count x = σ.reserved x
  status : ∀ x, σ'.rt.g.status x = if x ∈ ids then some false else σ.rt.g.status x
  nextCore : σ'.rt.g.nextCore = σ.rt.g.nextCore
  batchNew : σ'.BatchNew

theorem Counted.published {ids : List Int} (h : σ.Counted) (hs : Published σ σ' ids) : σ'.Counted := by
  have hcore := hs.nextCore
  refine ⟨hcore ▸ h.core_pos, hcore ▸ h.core_le, ?_, ?_, ?_, ?_, hs.batchNew⟩
  · intro x
    have h₁ := hs.scheduled x
    have h₂ := hs.reserved x
    have h₃ := h.once x
    omega
  · intro x hx
    have h₁ := hs.scheduled x
    have h₂ := hs.reserved x
    have h₃ := h.bound x (by omega)
    omega
  · intro x hx
    have h₂ := hs.reserved x
    have h₃ := h.once x
    rw [hs.status] at hx
    by_cases hxi : x ∈ ids
    · have h₄ : 0 < ids.count x := List.count_pos_iff.mpr hxi
      have h₅ := h.bound x (by omega)
      exact ⟨by omega, by omega⟩
    · rw [if_neg hxi] at hx
      have h₄ := h.known x hx
      exact ⟨by omega, by omega⟩
  · intro x hx
    have h₁ := hs.scheduled x
    rw [hs.status] at hx
    by_cases hxi : x ∈ ids
    · simp [hxi] at hx
    · rw [if_neg hxi] at hx
      have h₃ := h.finished x hx
      have h₄ : ids.count x = 0 := List.count_eq_zero.mpr hxi
      omega

theorem Accounted.published {ids : List Int} (h : σ.Accounted gone) (hs : Published σ σ' ids) :
    σ'.Accounted gone := by
  have hcore := hs.nextCore
  refine ⟨h.counted.published hs, fun x hx => ?_, fun x hx hmem => ?_⟩
  · have h₁ := h.absent x hx
    have h₂ := hs.scheduled x
    have h₃ := hs.reserved x
    exact ⟨by omega, by omega⟩
  · have h₁ := hs.scheduled x
    have h₂ := hs.reserved x
    have h₃ := h.counted.once x
    rw [hs.status] at hx
    by_cases hxi : x ∈ ids
    · have h₄ : 0 < ids.count x := List.count_pos_iff.mpr hxi
      omega
    · rw [if_neg hxi] at hx
      have h₄ : ids.count x = 0 := List.count_eq_zero.mpr hxi
      have h₅ := h.present x hx hmem
      omega

theorem flushBatch_published {w : ℕ} {wk : Worker} (h : σ.Counted) (hw : σ.workers.lookup w = some wk)
    (hfree : wk.carry.ids = []) : Published σ (σ.flushBatch w) (wk.batch.map Prod.fst) := by
  have hres (x : Int) : (wk.batch.map Prod.fst).count x ≤ σ.reserved x := by
    have := AList.le_total (f := fun _ wk => Worker.spare x wk) hw
    simp only [Worker.spare] at this
    simp only [System.reserved, Worker.spare]
    omega
  have hnd : (wk.batch.map Prod.fst).Nodup := by
    rw [List.nodup_iff_count_le_one]
    intro x
    have := hres x
    have := h.once x
    omega
  have hfresh : ∀ e ∈ wk.batch, σ.rt.g.goroutines.lookup e.1 = none := by
    intro e he
    by_contra hne
    have h₁ := (h.known e.1 (by simpa [status] using hne)).2
    have h₂ := (List.count_pos_iff.mpr (List.mem_map_of_mem he)).trans_le (hres e.1)
    omega
  obtain ⟨hp, hst⟩ := publish_spec wk.batch hnd (h.batchNew w wk hw) hfresh
  have hflush : σ.flushBatch w = (σ.onWorker w (fun wk =>
      { wk with batch := [], carry := .offer (wk.batch.map Prod.fst) })).onGlobal (·.publish wk.batch) := by
    simp [flushBatch, hw, hfree]
  rw [hflush]
  refine ⟨fun x => ?_, fun x => ?_, hst, rfl, BatchNew.onWorker h.batchNew (by simp)⟩
  · have h₁ := scheduled_onWorker hw (fun wk =>
      { wk with batch := [], carry := .offer (wk.batch.map Prod.fst) }) x
    have h₂ := load_carry hfree (.offer (wk.batch.map Prod.fst)) x
    have h₃ := hp x
    simp only [System.scheduled, System.onGlobal, System.onWorker, Runtime.onGlobal, Worker.load,
      Carry.ids] at h₁ h₂ ⊢
    omega
  · have h₁ := reserved_onWorker hw (fun wk =>
      { wk with batch := [], carry := .offer (wk.batch.map Prod.fst) }) x
    simp only [System.reserved, System.onGlobal, System.onWorker, Worker.spare, List.map_nil,
      List.count_nil] at h₁ ⊢
    omega

theorem flushBatch_accounted (h : σ.Accounted gone) (w : ℕ) : (σ.flushBatch w).Accounted gone := by
  cases hw : σ.workers.lookup w with
  | none =>
    rw [flushBatch, hw]
    exact h
  | some wk =>
    by_cases hfree : wk.carry.ids = []
    · exact h.published (flushBatch_published h.counted hw hfree)
    · simp only [flushBatch, hw, if_neg hfree]
      exact h

theorem BatchNew.draw {w left : ℕ} {gr : Goroutine} {id : Int} {rt : Runtime} (h : σ.BatchNew)
    (hj : gr.joiners = []) (hd : gr.done = false) :
    (System.onWorker { σ with rt := rt } w (Worker.draw id left gr)).BatchNew := by
  intro k wk hk e he
  change (σ.workers.modify w (Worker.draw id left gr)).lookup k = some wk at hk
  rw [AList.lookup_modify] at hk
  split at hk
  · obtain ⟨wk', hwk', rfl⟩ := Option.map_eq_some_iff.mp hk
    rcases List.mem_append.mp he with he | he
    · exact h k wk' hwk' e he
    · obtain rfl : e = (id, gr) := by simpa using he
      exact ⟨hj, hd⟩
  · exact h k wk hk e he

theorem load_draw (id : Int) (left : ℕ) (gr : Goroutine) (wk : Worker) (x : Int) :
    (wk.draw id left gr).load x = wk.load x := rfl

theorem spare_draw (id : Int) (left : ℕ) (gr : Goroutine) (wk : Worker) (x : Int) :
    (wk.draw id left gr).spare x = (wk.batch.map Prod.fst).count x +
      if id ≤ x ∧ x < id + (left + 1 : ℕ) then 1 else 0 := by
  change ((wk.batch ++ [(id, gr)]).map Prod.fst).count x +
    (if id + 1 ≤ x ∧ x < id + 1 + (left : Int) then 1 else 0) = _
  simp only [List.map_append, List.count_append, List.map_cons, List.map_nil]
  by_cases hx : x = id
  · subst hx
    have h₁ : ¬(x + 1 ≤ x ∧ x < x + 1 + left) := by omega
    have h₂ : x ≤ x ∧ x < x + (left + 1 : ℕ) := by omega
    rw [if_neg h₁, if_pos h₂]
    simp
  · have hc : [id].count x = 0 := by simp [Ne.symm hx]
    by_cases hr : id + 1 ≤ x ∧ x < id + 1 + left
    · have h₂ : id ≤ x ∧ x < id + (left + 1 : ℕ) := by omega
      rw [if_pos hr, if_pos h₂]
      omega
    · have h₂ : ¬(id ≤ x ∧ x < id + (left + 1 : ℕ)) := by omega
      rw [if_neg hr, if_neg h₂]
      omega

/-- A block of ids set aside for a worker. -/
structure Reserving (σ σ' : System) : Prop where
  scheduled : ∀ x, σ'.scheduled x = σ.scheduled x
  reserved : ∀ x, σ'.reserved x = σ.reserved x +
    if σ.rt.g.nextCore ≤ x ∧ x < σ'.rt.g.nextCore then 1 else 0
  status : ∀ x, σ'.rt.g.status x = σ.rt.g.status x
  nextCore : σ.rt.g.nextCore ≤ σ'.rt.g.nextCore
  coreLe : σ'.rt.g.nextCore ≤ maxI64
  batchNew : σ'.BatchNew

theorem Counted.reserving (h : σ.Counted) (hs : Reserving σ σ') : σ'.Counted := by
  have hcore := hs.nextCore
  have hpos := h.core_pos
  refine ⟨by omega, hs.coreLe, ?_, ?_, ?_, ?_, hs.batchNew⟩
  · intro x
    have h₁ := hs.scheduled x
    have h₂ := hs.reserved x
    have h₃ := h.once x
    by_cases hx : σ.rt.g.nextCore ≤ x
    · have h₄ := h.fresh hx
      split at h₂ <;> omega
    · rw [if_neg (by omega)] at h₂
      omega
  · intro x hx
    have h₁ := hs.scheduled x
    have h₂ := hs.reserved x
    by_cases hx' : σ.rt.g.nextCore ≤ x ∧ x < σ'.rt.g.nextCore
    · omega
    · rw [if_neg hx'] at h₂
      have h₃ := h.bound x (by omega)
      omega
  · intro x hx
    have h₂ := hs.reserved x
    have h₃ := h.known x (hs.status x ▸ hx)
    rw [if_neg (by omega)] at h₂
    exact ⟨by omega, by omega⟩
  · intro x hx
    exact (hs.scheduled x).trans (h.finished x (hs.status x ▸ hx))

theorem Accounted.reserving (h : σ.Accounted gone) (hs : Reserving σ σ') : σ'.Accounted gone := by
  have hcore := hs.nextCore
  refine ⟨h.counted.reserving hs, fun x hx => ?_, fun x hx hmem => ?_⟩
  · have h₁ := h.absent x hx
    have h₂ := hs.scheduled x
    have h₃ := hs.reserved x
    rw [if_neg (by omega)] at h₃
    exact ⟨by omega, by omega⟩
  · exact (hs.scheduled x).trans (h.present x (hs.status x ▸ hx) hmem)

/-- A draw moves an id from the reserved range into the batch, or reserves a new range. -/
theorem drawDetached_accounted {w : ℕ} {wk : Worker} (gr : Goroutine) (h : σ.Accounted gone)
    (hw : σ.workers.lookup w = some wk) (hj : gr.joiners = []) (hd : gr.done = false)
    (hroom : σ.rt.g.nextCore + detachedBatchCap ≤ maxI64) :
    (σ.drawDetached w wk gr).Accounted gone := by
  unfold drawDetached
  by_cases hr : 0 < wk.range.2
  · simp only [if_pos hr]
    change (σ.onWorker w (Worker.draw wk.range.1 (wk.range.2 - 1) gr)).Accounted gone
    refine h.keep ⟨fun x => ?_, fun x => ?_, fun x => rfl, le_rfl, id, fun hb => BatchNew.draw hb hj hd⟩
    · have h₁ := scheduled_onWorker hw (Worker.draw wk.range.1 (wk.range.2 - 1) gr) x
      rw [load_draw] at h₁
      simp only [List.count_nil]
      omega
    · have h₁ := reserved_onWorker hw (Worker.draw wk.range.1 (wk.range.2 - 1) gr) x
      rw [spare_draw, Nat.sub_add_cancel hr, Worker.spare] at h₁
      omega
  · simp only [if_neg hr]
    have hcap : detachedBatchCap = 64 := rfl
    rw [hcap] at hroom
    have hcore : (σ.rt.g.reserveCoreIds detachedBatchCap).1.nextCore = σ.rt.g.nextCore + 64 := by
      change min (σ.rt.g.nextCore + ((max detachedBatchCap 1 : ℕ) : Int)) maxI64 = _
      rw [hcap]
      omega
    change (System.onWorker { σ with rt := { σ.rt with
      g := (σ.rt.g.reserveCoreIds detachedBatchCap).1 } } w
        (Worker.draw σ.rt.g.nextCore (detachedBatchCap - 1) gr)).Accounted gone
    refine h.reserving ⟨fun x => ?_, fun x => ?_, fun x => rfl, ?_, ?_,
      BatchNew.draw h.counted.batchNew hj hd⟩
    · have h₁ := scheduled_onWorker (σ := { σ with rt := { σ.rt with
        g := (σ.rt.g.reserveCoreIds detachedBatchCap).1 } }) hw
        (Worker.draw σ.rt.g.nextCore (detachedBatchCap - 1) gr) x
      rw [load_draw] at h₁
      exact Nat.add_right_cancel h₁
    · have h₁ := reserved_onWorker (σ := { σ with rt := { σ.rt with
        g := (σ.rt.g.reserveCoreIds detachedBatchCap).1 } }) hw
        (Worker.draw σ.rt.g.nextCore (detachedBatchCap - 1) gr) x
      have h₂ : wk.spare x = (wk.batch.map Prod.fst).count x := by
        rw [Worker.spare, if_neg (by omega)]
        rfl
      have h₃ : ((detachedBatchCap - 1 + 1 : ℕ) : Int) = 64 := rfl
      rw [spare_draw, h₂, h₃] at h₁
      change _ = System.reserved σ x + if _ ∧ x < (σ.rt.g.reserveCoreIds detachedBatchCap).1.nextCore
        then 1 else 0
      change _ + _ = System.reserved σ x + _ at h₁
      dsimp only at h₁
      simp only [hcore]
      omega
    · change σ.rt.g.nextCore ≤ (σ.rt.g.reserveCoreIds detachedBatchCap).1.nextCore
      omega
    · change (σ.rt.g.reserveCoreIds detachedBatchCap).1.nextCore ≤ maxI64
      omega

end Neutron.System
