import Neutron.ArrayOwnership
import Neutron.Offload

/-!
# Results of offloaded jobs are delivered once

The life of a future as one inductive predicate over its own record, the record of its job
and what the threads hold. A step moves one future along its life and leaves the records
of the others alone.
-/

namespace Neutron

open Execution

attribute [local irreducible] Registry.drawn

/-- The value a job is about to deliver is the handle it produced, or `NULL`. -/
def Carries (produced : Option Int) (present : Bool) (value : Int) : Prop :=
  (value = null ∧ produced = none) ∨ (value ≠ null ∧ produced = some value ∧ present = true)

theorem Carries.of_value {produced : Option Int} {present : Bool} {value v : Int}
    (h : Carries produced present value) (hv : produced = some v) : present = true ∧ value = v := by
  rcases h with ⟨-, hnone⟩ | ⟨-, hsome, hpresent⟩
  · simp [hv] at hnone
  · rw [hv, Option.some_inj] at hsome
    exact ⟨hpresent, hsome.symm⟩

/-- How far the pool is with the job. -/
inductive JobStage.Running (entry : Option (Int × Bool)) (present : Bool) (job : JobStage)
    (produced : Option Int) (op : Int) : Prop
  | queued (work : ℕ) (hentry : entry = some (null, false)) (hjob : job = .queued op work)
      (hvalue : produced = none)
  | finished (value : Int) (hentry : entry = some (null, false)) (hjob : job = .finished op value)
      (hvalue : Carries produced present value)
  | done (value : Int) (hentry : entry = some (value, true)) (hjob : job = .idle)
      (hvalue : Carries produced present value)

/-- The life of a future, from the record in the registry, the result and completion of its
job record, whether the result is registered, and its threads. -/
inductive OffloadTask.Life (record : Option Handle) (entry : Option (Int × Bool)) (present : Bool)
    (t : OffloadTask) : Prop
  | unpolled (work : ℕ) (hrecord : record = some (.asyncOp 0 (some work) 0 null)) (hop : t.op = none)
      (hpoll : t.poll = .idle) (hjob : t.job = .idle) (hvalue : t.value = none)
      (hdrop : t.drop = .idle ∨ t.drop = .removing)
      (hflags : t.returned = false ∧ t.released = false)
  | taken (work : ℕ) (hrecord : record = some (.asyncOp 0 none 0 null)) (hop : t.op = none)
      (hpoll : t.poll = .taken work) (hjob : t.job = .idle) (hvalue : t.value = none)
      (hdrop : t.drop = .idle) (hflags : t.returned = false ∧ t.released = false)
  | reserved (work : ℕ) (op : Int) (hrecord : record = some (.asyncOp 0 none 0 null))
      (hop : t.op = some op) (hentry : entry = some (null, false)) (hpoll : t.poll = .registered work op)
      (hjob : t.job = .idle) (hvalue : t.value = none) (hdrop : t.drop = .idle)
      (hflags : t.returned = false ∧ t.released = false)
  | launching (op : Int) (hrecord : record = some (.asyncOp 0 none 0 null)) (hop : t.op = some op)
      (hpoll : t.poll = .submitted op) (hrun : t.job.Running entry present t.value op) (hdrop : t.drop = .idle)
      (hflags : t.returned = false ∧ t.released = false)
  | launched (op : Int) (hrecord : record = some (.asyncOp 1 none op null)) (hop : t.op = some op)
      (hpoll : t.poll = .idle ∨ t.drop = .idle ∧ (t.poll = .started ∨ t.poll = .sawOp op ∨
        t.poll = .sawDone op ∧ ∃ value, entry = some (value, true)))
      (hrun : t.job.Running entry present t.value op)
      (hdrop : t.drop = .idle ∨ t.drop = .releasing op ∧ ∃ value, entry = some (value, true))
      (hflags : t.returned = false ∧ t.released = false)
  | reaping (op value : Int) (hrecord : record = some (.asyncOp 1 none op null)) (hop : t.op = some op)
      (hentry : entry = none) (hpoll : t.poll = .reaped value) (hjob : t.job = .idle)
      (hvalue : Carries t.value present value) (hdrop : t.drop = .idle)
      (hflags : t.returned = false ∧ t.released = false)
  | settled (op value : Int) (hrecord : record = some (.asyncOp 2 none op value)) (hop : t.op = some op)
      (hentry : entry = none) (hpoll : t.poll = .idle ∨ t.poll = .started ∧ t.drop = .idle)
      (hjob : t.job = .idle)
      (hvalue : Carries t.value present value ∨ t.value = some value ∧ t.returned = true)
      (hdrop : t.drop = .idle ∨ t.drop = .removing ∧ (value = null ∨ t.returned = true))
      (hreleased : t.released = false) (hreturned : t.returned = true → t.value ≠ none)
  | freed (op : Int) (hrecord : record = some (.asyncOp 1 none op null)) (hop : t.op = some op)
      (hentry : entry = none) (hpoll : t.poll = .idle) (hjob : t.job = .idle)
      (hdrop : t.drop = .removing) (hreturned : t.returned = false)
      (hvalue : t.value ≠ none → t.released = true ∧ present = false)
  | gone (hrecord : record = none) (hentry : entry = none)
      (hpoll : t.poll = .idle ∨ t.poll = .started ∧ t.drop = .idle) (hjob : t.job = .idle)
      (hdrop : t.drop = .idle ∨ t.drop = .removing)
      (hvalue : t.value ≠ none → t.returned = true ∧ t.released = false ∨
        t.returned = false ∧ t.released = true ∧ present = false)

namespace Offload

variable (s : Offload)

/-- The result and the completion flag in the record of the future's job. -/
def entry (t : OffloadTask) : Option (Int × Bool) :=
  t.op.bind (fun op => (s.rt.g.ops.lookup op).map (fun e => (e.result, e.done)))

/-- Every future is at one point of its life; ids are drawn from the counters and shared by
nobody; and no goroutine record holds a handle. -/
structure Sound (s : Offload) : Prop where
  life : ∀ f t, s.tasks.lookup f = some t → t.Life (s.rt.reg.lookup f) (s.entry t) (s.registered t)
  issued : s.rt.reg.issued < 2 ^ 64
  known : ∀ id, s.rt.reg.lookup id ≠ none ∨ s.tasks.lookup id ≠ none ∨
    (∃ f t, s.tasks.lookup f = some t ∧ t.value = some id) → ∃ n < s.rt.reg.issued, id = Registry.drawn n
  apart : ∀ f t v, s.tasks.lookup f = some t → t.value = some v → s.tasks.lookup v = none
  values : ∀ f t f' t' v, s.tasks.lookup f = some t → s.tasks.lookup f' = some t' →
    t.value = some v → t'.value = some v → f = f'
  ops : ∀ f t f' t' op, s.tasks.lookup f = some t → s.tasks.lookup f' = some t' →
    t.op = some op → t'.op = some op → f = f'
  cores : ∀ f t op, s.tasks.lookup f = some t → t.op = some op → 1 ≤ op ∧ op < s.rt.g.nextCore
  entries : ∀ op, s.rt.g.ops.lookup op ≠ none → op < s.rt.g.nextCore
  nextCore : 1 ≤ s.rt.g.nextCore
  goroutines : ∀ gid gr, s.rt.g.goroutines.lookup gid = some gr → gr.abandoned = []

variable {s}

/-! ## From the invariant to the property -/

theorem Sound.delivered (h : s.Sound) : s.Delivered := by
  intro f t v ht hv
  have hentry {op : Int} {value : Int} (hop : t.op = some op) (he : s.entry t = some (value, true)) :
      ∃ e, s.rt.g.ops.lookup op = some e ∧ e.done = true ∧ e.result = value := by
    rw [entry, hop, Option.bind_some, Option.map_eq_some_iff] at he
    obtain ⟨e, hl, heq⟩ := he
    exact ⟨e, hl, congrArg Prod.snd heq, congrArg Prod.fst heq⟩
  have hpresent {op : Int} {p : Int × Bool} (hop : t.op = some op) (he : s.entry t = some p) :
      s.rt.g.ops.lookup op ≠ none := by
    intro hnone
    rw [entry, hop, Option.bind_some, hnone] at he
    cases he
  have hlife := h.life f t ht
  cases hlife with
  | unpolled _ _ _ _ _ hvalue => simp [hv] at hvalue
  | taken _ _ _ _ _ hvalue => simp [hv] at hvalue
  | reserved _ _ _ _ _ _ _ hvalue => simp [hv] at hvalue
  | launching op hrecord hop hpoll hrun _ hflags =>
    refine .inl ⟨hflags.1, hflags.2, ?_⟩
    cases hrun with
    | queued _ _ _ hvalue => simp [hv] at hvalue
    | finished value hentry' hjob hcarries =>
      obtain ⟨hreg, rfl⟩ := hcarries.of_value hv
      exact ⟨hreg, .inl ⟨op, hjob, hpresent hop hentry'⟩⟩
    | done value hentry' hjob hcarries =>
      obtain ⟨hreg, rfl⟩ := hcarries.of_value hv
      obtain ⟨e, hl, hd, hres⟩ := hentry hop hentry'
      exact ⟨hreg, .inr (.inl ⟨op, e, hl, hd, hres, .inr ⟨hpoll, by simp [hrecord]⟩⟩)⟩
  | launched op hrecord hop _ hrun _ hflags =>
    refine .inl ⟨hflags.1, hflags.2, ?_⟩
    cases hrun with
    | queued _ _ _ hvalue => simp [hv] at hvalue
    | finished value hentry' hjob hcarries =>
      obtain ⟨hreg, rfl⟩ := hcarries.of_value hv
      exact ⟨hreg, .inl ⟨op, hjob, hpresent hop hentry'⟩⟩
    | done value hentry' hjob hcarries =>
      obtain ⟨hreg, rfl⟩ := hcarries.of_value hv
      obtain ⟨e, hl, hd, hres⟩ := hentry hop hentry'
      exact ⟨hreg, .inr (.inl ⟨op, e, hl, hd, hres, .inl ⟨_, _, hrecord⟩⟩)⟩
  | reaping op value hrecord _ _ hpoll _ hcarries _ hflags =>
    obtain ⟨hreg, rfl⟩ := hcarries.of_value hv
    exact .inl ⟨hflags.1, hflags.2, hreg, .inr (.inr (.inl ⟨hpoll, by simp [hrecord]⟩))⟩
  | settled op value hrecord _ _ _ _ hvalue _ hreleased _ =>
    by_cases hret : t.returned = true
    · exact .inr (.inl ⟨hret, hreleased⟩)
    · obtain ⟨hreg, rfl⟩ := (hvalue.resolve_right (fun hc => hret hc.2)).of_value hv
      exact .inl ⟨Bool.not_eq_true _ ▸ hret, hreleased, hreg, .inr (.inr (.inr ⟨_, _, hrecord⟩))⟩
  | freed _ _ _ _ _ _ _ hreturned hvalue =>
    exact .inr (.inr ⟨hreturned, hvalue (by simp [hv])⟩)
  | gone _ _ _ _ _ hvalue => exact .inr (hvalue (by simp [hv]))

/-! ## Frames -/

/-- What the life of a future says of its job record. -/
def jobView (s : Offload) (op : Int) : Option (Int × Bool) :=
  (s.rt.g.ops.lookup op).map (fun e => (e.result, e.done))

variable {s' : Offload}

theorem entry_eq_of_view {t : OffloadTask}
    (h : ∀ op, t.op = some op → s'.jobView op = s.jobView op) : s'.entry t = s.entry t := by
  unfold entry
  cases hop : t.op with
  | none => rfl
  | some op => exact h op hop

theorem registered_eq_of_lookup {t : OffloadTask}
    (h : ∀ v, t.value = some v → s'.rt.reg.lookup v = s.rt.reg.lookup v) :
    s'.registered t = s.registered t := by
  unfold registered
  cases hv : t.value with
  | none => rfl
  | some v => simp only [Option.any_some, h v hv]

theorem Sound.fresh (h : s.Sound) (hi : s.rt.reg.issued < 2 ^ 64 - 1) {id : Int}
    (hid : s.rt.reg.lookup id ≠ none ∨ s.tasks.lookup id ≠ none ∨
      ∃ f t, s.tasks.lookup f = some t ∧ t.value = some id) : id ≠ Registry.drawn s.rt.reg.issued := by
  intro heq
  obtain ⟨n, hn, hdrawn⟩ := h.known id hid
  have := Registry.drawn_injective (hn.trans hi) hi (hdrawn.symm.trans heq)
  omega

/-- A section of a call on `f`. Its new ids, if any, come from the counters. -/
theorem Sound.update {s' : Offload} (h : s.Sound) {f : Int} {t' : OffloadTask}
    (htasks : ∀ k, s'.tasks.lookup k = if k = f then some t' else s.tasks.lookup k)
    (hf : s.tasks.lookup f ≠ none ∨
      f = Registry.drawn s.rt.reg.issued ∧ s.rt.reg.issued < s'.rt.reg.issued)
    (hop : ∀ op, t'.op = some op → (∃ t, s.tasks.lookup f = some t ∧ t.op = some op) ∨
      op = s.rt.g.nextCore ∧ s.rt.g.nextCore < s'.rt.g.nextCore)
    (hvalue : ∀ v, t'.value = some v → (∃ t, s.tasks.lookup f = some t ∧ t.value = some v) ∨
      s.tasks.lookup f ≠ none ∧ v = Registry.drawn s.rt.reg.issued ∧ s.rt.reg.issued < s'.rt.reg.issued)
    (hissued : s.rt.reg.issued ≤ s'.rt.reg.issued) (hbound : s'.rt.reg.issued < 2 ^ 64)
    (hcore : s.rt.g.nextCore ≤ s'.rt.g.nextCore) (hgor : s'.rt.g.goroutines = s.rt.g.goroutines)
    (hreg : ∀ k, k ≠ f → t'.value ≠ some k → s'.rt.reg.lookup k = s.rt.reg.lookup k)
    (hstored : ∀ k, s'.rt.reg.lookup k ≠ none → s.rt.reg.lookup k ≠ none ∨ k = f ∨ t'.value = some k)
    (hops : ∀ op, t'.op ≠ some op → s'.jobView op = s.jobView op)
    (hentries : ∀ op, s'.rt.g.ops.lookup op ≠ none → s.rt.g.ops.lookup op ≠ none ∨ t'.op = some op)
    (hlife : t'.Life (s'.rt.reg.lookup f) (s'.entry t') (s'.registered t')) : s'.Sound := by
  have hold {k : Int} (hkf : k ≠ f) {u : OffloadTask} (hk : s'.tasks.lookup k = some u) :
      s.tasks.lookup k = some u := by
    rwa [htasks, if_neg hkf] at hk
  have hself {k : Int} (hkf : k = f) {u : OffloadTask} (hk : s'.tasks.lookup k = some u) : u = t' := by
    rw [htasks, if_pos hkf] at hk
    exact (Option.some_inj.mp hk).symm
  -- the ids of another future are none of the ids of this one
  have hvalueApart {k v : Int} (hkf : k ≠ f) {u : OffloadTask} (hk : s.tasks.lookup k = some u)
      (hu : u.value = some v) : t'.value ≠ some v := by
    intro hv
    rcases hvalue v hv with ⟨t, ht, htv⟩ | ⟨-, hdrawn, hlt⟩
    · exact hkf (h.values k u f t v hk ht hu htv)
    · exact h.fresh (by omega) (.inr (.inr ⟨k, u, hk, hu⟩)) hdrawn
  have hkeyApart {k : Int} {u : OffloadTask} (hk : s.tasks.lookup k = some u) : t'.value ≠ some k := by
    intro hv
    rcases hvalue k hv with ⟨t, ht, htv⟩ | ⟨-, hdrawn, hlt⟩
    · rw [h.apart f t k ht htv] at hk
      cases hk
    · exact h.fresh (by omega) (.inr (.inl (by simp [hk]))) hdrawn
  have hopApart {k op : Int} (hkf : k ≠ f) {u : OffloadTask} (hk : s.tasks.lookup k = some u)
      (hu : u.op = some op) : t'.op ≠ some op := by
    intro ho
    rcases hop op ho with ⟨t, ht, hto⟩ | ⟨heq, -⟩
    · exact hkf (h.ops k u f t op hk ht hu hto)
    · exact (h.cores k u op hk hu).2.ne heq
  have hvf {k v : Int} {u : OffloadTask} (hk : s.tasks.lookup k = some u) (hu : u.value = some v) : v ≠ f := by
    rintro rfl
    rcases hf with hf | ⟨hdrawn, hlt⟩
    · exact hf (h.apart k u v hk hu)
    · exact h.fresh (by omega) (.inr (.inr ⟨k, u, hk, hu⟩)) hdrawn
  refine ⟨?_, hbound, ?_, ?_, ?_, ?_, ?_, ?_, h.nextCore.trans hcore, hgor ▸ h.goroutines⟩
  · intro k u hk
    by_cases hkf : k = f
    · rw [hself hkf hk, hkf]
      exact hlife
    · have hk := hold hkf hk
      rw [hreg k hkf (hkeyApart hk), entry_eq_of_view (fun op hu => hops op (hopApart hkf hk hu)),
        registered_eq_of_lookup (fun v hu => hreg v (hvf hk hu) (hvalueApart hkf hk hu))]
      exact h.life k u hk
  · have hnew {id : Int} (hid : ∃ n < s.rt.reg.issued, id = Registry.drawn n) :
        ∃ n < s'.rt.reg.issued, id = Registry.drawn n := by
      obtain ⟨n, hn, hdrawn⟩ := hid
      exact ⟨n, hn.trans_le hissued, hdrawn⟩
    have hfnew : ∃ n < s'.rt.reg.issued, f = Registry.drawn n := by
      rcases hf with hf | ⟨hdrawn, hlt⟩
      · exact hnew (h.known f (.inr (.inl hf)))
      · exact ⟨_, hlt, hdrawn⟩
    have hvnew {v : Int} (hv : t'.value = some v) : ∃ n < s'.rt.reg.issued, v = Registry.drawn n := by
      rcases hvalue v hv with ⟨t, ht, htv⟩ | ⟨-, hdrawn, hlt⟩
      · exact hnew (h.known v (.inr (.inr ⟨f, t, ht, htv⟩)))
      · exact ⟨_, hlt, hdrawn⟩
    intro id hid
    rcases hid with hid | hid | ⟨k, u, hk, hu⟩
    · rcases hstored id hid with hid | rfl | hid
      · exact hnew (h.known id (.inl hid))
      · exact hfnew
      · exact hvnew hid
    · by_cases hif : id = f
      · exact hif ▸ hfnew
      · rw [htasks, if_neg hif] at hid
        exact hnew (h.known id (.inr (.inl hid)))
    · by_cases hkf : k = f
      · rw [hself hkf hk] at hu
        exact hvnew hu
      · exact hnew (h.known id (.inr (.inr ⟨k, u, hold hkf hk, hu⟩)))
  · intro k u v hk hu
    by_cases hkf : k = f
    · rw [hself hkf hk] at hu
      rw [htasks]
      rcases hvalue v hu with ⟨t, ht, htv⟩ | ⟨hne, hdrawn, hlt⟩
      · rw [if_neg (hvf ht htv)]
        exact h.apart f t v ht htv
      · have hnot (x : Int) (hx : s.tasks.lookup x ≠ none) : v ≠ x :=
          fun hvx => h.fresh (by omega) (.inr (.inl hx)) (hvx ▸ hdrawn)
        rw [if_neg (hnot f hne)]
        by_contra hc
        exact hnot v hc rfl
    · have hk := hold hkf hk
      rw [htasks, if_neg (hvf hk hu)]
      exact h.apart k u v hk hu
  · intro k u k' u' v hk hk' hu hu'
    by_cases hkf : k = f <;> by_cases hkf' : k' = f
    · rw [hkf, hkf']
    · rw [hself hkf hk] at hu
      exact absurd hu (hvalueApart hkf' (hold hkf' hk') hu')
    · rw [hself hkf' hk'] at hu'
      exact absurd hu' (hvalueApart hkf (hold hkf hk) hu)
    · exact h.values k u k' u' v (hold hkf hk) (hold hkf' hk') hu hu'
  · intro k u k' u' op hk hk' hu hu'
    by_cases hkf : k = f <;> by_cases hkf' : k' = f
    · rw [hkf, hkf']
    · rw [hself hkf hk] at hu
      exact absurd hu (hopApart hkf' (hold hkf' hk') hu')
    · rw [hself hkf' hk'] at hu'
      exact absurd hu' (hopApart hkf (hold hkf hk) hu)
    · exact h.ops k u k' u' op (hold hkf hk) (hold hkf' hk') hu hu'
  · have hopNew {op : Int} (ho : t'.op = some op) : 1 ≤ op ∧ op < s'.rt.g.nextCore := by
      rcases hop op ho with ⟨t, ht, hto⟩ | ⟨rfl, hlt⟩
      · exact ⟨(h.cores f t op ht hto).1, (h.cores f t op ht hto).2.trans_le hcore⟩
      · exact ⟨h.nextCore, hlt⟩
    intro k u op hk hu
    by_cases hkf : k = f
    · rw [hself hkf hk] at hu
      exact hopNew hu
    · have := h.cores k u op (hold hkf hk) hu
      exact ⟨this.1, this.2.trans_le hcore⟩
  · intro op hl
    rcases hentries op hl with hl | ho
    · exact (h.entries op hl).trans_le hcore
    · rcases hop op ho with ⟨t, ht, hto⟩ | ⟨rfl, hlt⟩
      · exact (h.cores f t op ht hto).2.trans_le hcore
      · exact hlt

/-- A section of a call on a known future that draws no id. -/
theorem Sound.advance (h : s.Sound) {f : Int} {t t' : OffloadTask} (ht : s.tasks.lookup f = some t)
    (htasks : ∀ k, s'.tasks.lookup k = if k = f then some t' else s.tasks.lookup k)
    (hop : t'.op = t.op) (hvalue : t'.value = t.value)
    (hissued : s'.rt.reg.issued = s.rt.reg.issued) (hcore : s'.rt.g.nextCore = s.rt.g.nextCore)
    (hgor : s'.rt.g.goroutines = s.rt.g.goroutines)
    (hreg : ∀ k, k ≠ f → t.value ≠ some k → s'.rt.reg.lookup k = s.rt.reg.lookup k)
    (hnone : ∀ k, s.rt.reg.lookup k = none → s'.rt.reg.lookup k = none)
    (hops : ∀ op, t.op ≠ some op → s'.jobView op = s.jobView op)
    (hgone : ∀ op, s.rt.g.ops.lookup op = none → s'.rt.g.ops.lookup op = none)
    (hlife : t'.Life (s'.rt.reg.lookup f) (s'.entry t') (s'.registered t')) : s'.Sound :=
  h.update htasks (.inl (by simp [ht])) (fun op ho => .inl ⟨t, ht, hop ▸ ho⟩)
    (fun v hv => .inl ⟨t, ht, hvalue ▸ hv⟩) hissued.ge (hissued ▸ h.issued) hcore.ge hgor
    (fun k hk hv => hreg k hk (hvalue ▸ hv)) (fun k hk => .inl (mt (hnone k) hk))
    (fun op ho => hops op (hop ▸ ho)) (fun op ho => .inl (mt (hgone op) ho)) hlife

/-- A section that changes nothing but what the threads remember. -/
theorem Sound.setTask (h : s.Sound) {f : Int} {t t' : OffloadTask} (ht : s.tasks.lookup f = some t)
    (hop : t'.op = t.op) (hvalue : t'.value = t.value)
    (hlife : t'.Life (s.rt.reg.lookup f) (s.entry t) (s.registered t)) : (s.setTask f t').Sound := by
  refine h.advance ht (fun k => AList.lookup_insert_ite f k t' s.tasks) hop hvalue rfl rfl rfl
    (fun _ _ _ => rfl) (fun _ hk => hk) (fun _ _ => rfl) (fun _ hk => hk) ?_
  have hent : (s.setTask f t').entry t' = s.entry t := by
    unfold entry
    rw [hop]
    rfl
  have hpres : (s.setTask f t').registered t' = s.registered t := by
    unfold registered
    rw [hvalue]
    rfl
  rw [hent, hpres]
  exact hlife

/-- A section that rewrites the future's own record. -/
theorem Sound.setRecord (h : s.Sound) {f : Int} {t t' : OffloadTask} (ht : s.tasks.lookup f = some t)
    (change : Handle → Handle) (hop : t'.op = t.op) (hvalue : t'.value = t.value)
    (hlife : t'.Life ((s.rt.reg.lookup f).map change) (s.entry t) (s.registered t)) :
    ((s.onReg (·.modify f change)).setTask f t').Sound := by
  have hother (k : Int) (hk : k ≠ f) : (s.rt.reg.modify f change).lookup k = s.rt.reg.lookup k := by
    rw [Registry.lookup_modify, if_neg hk]
  have hself : (s.rt.reg.modify f change).lookup f = (s.rt.reg.lookup f).map change := by
    rw [Registry.lookup_modify, if_pos rfl]
  refine h.advance ht (fun k => AList.lookup_insert_ite f k t' s.tasks) hop hvalue rfl rfl rfl
    (fun k hk _ => hother k hk) (fun k hk => ?_) (fun _ _ => rfl) (fun _ hk => hk) ?_
  · by_cases hkf : k = f
    · rw [hkf] at hk ⊢
      exact hself.trans (by rw [hk]; rfl)
    · exact (hother k hkf).trans hk
  · have hent : ((s.onReg (·.modify f change)).setTask f t').entry t' = s.entry t := by
      unfold entry
      rw [hop]
      rfl
    have hpres : ((s.onReg (·.modify f change)).setTask f t').registered t' = s.registered t := by
      unfold registered
      rw [hvalue]
      cases hv : t.value with
      | none => rfl
      | some v =>
        have hvf : v ≠ f := by
          rintro rfl
          simp [h.apart v t v ht hv] at ht
        exact congrArg Option.isSome (hother v hvf)
    rw [hent, hpres]
    exact hself ▸ hlife

/-- A step of the scheduler that leaves the results of the jobs alone. -/
theorem Sound.global (h : s.Sound) (htasks : s'.tasks = s.tasks)
    (hreg : s'.rt.reg = s.rt.reg) (hcore : s.rt.g.nextCore ≤ s'.rt.g.nextCore)
    (hops : ∀ op, s'.jobView op = s.jobView op)
    (hgor : ∀ gid gr, s'.rt.g.goroutines.lookup gid = some gr → gr.abandoned = []) : s'.Sound := by
  have hgone (op : Int) : s.rt.g.ops.lookup op = none → s'.rt.g.ops.lookup op = none := by
    intro hl
    have hv := hops op
    rw [jobView, jobView, hl, Option.map_none, Option.map_eq_none_iff] at hv
    exact hv
  refine ⟨?_, hreg ▸ h.issued, ?_, ?_, ?_, ?_, ?_, ?_, h.nextCore.trans hcore, hgor⟩
  · intro k u hk
    rw [htasks] at hk
    have hent : s'.entry u = s.entry u := entry_eq_of_view (fun op _ => hops op)
    have hpres : s'.registered u = s.registered u := registered_eq_of_lookup (fun v _ => by rw [hreg])
    rw [hreg, hent, hpres]
    exact h.life k u hk
  · rw [hreg, htasks]
    exact h.known
  · rw [htasks]
    exact h.apart
  · rw [htasks]
    exact h.values
  · rw [htasks]
    exact h.ops
  · intro k u op hk hu
    rw [htasks] at hk
    have := h.cores k u op hk hu
    exact ⟨this.1, this.2.trans_le hcore⟩
  · intro op hl
    exact (h.entries op (fun hc => hl (hgone op hc))).trans_le hcore

/-! ## One lemma per section -/

variable {f : Int} {t : OffloadTask}

theorem Sound.beginPoll (h : s.Sound) (ht : s.tasks.lookup f = some t) (hidle : t.poll = .idle)
    (hdrop : t.drop = .idle) : (s.beginPoll f t).Sound := by
  have hlife := h.life f t ht
  unfold Offload.beginPoll
  cases hlife with
  | unpolled work hrecord hop hpoll hjob hvalue _ hflags =>
    simp only [hrecord]
    refine h.setRecord ht _ rfl rfl ?_
    exact .taken work (by rw [hrecord]; rfl) hop rfl hjob hvalue hdrop hflags
  | launched op hrecord hop hpoll hrun _ hflags =>
    simp only [hrecord]
    exact h.setTask ht rfl rfl (.launched op hrecord hop (.inr ⟨hdrop, .inl rfl⟩) hrun (.inl hdrop) hflags)
  | settled op value hrecord hop hentry _ hjob hvalue hdrop' hreleased hreturned =>
    simp only [hrecord]
    exact h.setTask ht rfl rfl
      (.settled op value hrecord hop hentry (.inr ⟨rfl, hdrop⟩) hjob hvalue hdrop' hreleased hreturned)
  | gone hrecord hentry _ hjob hdrop' hvalue =>
    simp only [hrecord]
    exact h.setTask ht rfl rfl (.gone hrecord hentry (.inr ⟨rfl, hdrop⟩) hjob hdrop' hvalue)
  | _ => simp_all

theorem view_of_opDone {op : Int} (h : s.rt.g.opDone op = true) :
    ∃ value, s.jobView op = some (value, true) := by
  unfold Global.opDone at h
  unfold jobView
  cases hl : s.rt.g.ops.lookup op with
  | none => simp [hl] at h
  | some e => exact ⟨e.result, by simp_all⟩

theorem entry_of_op {op : Int} (hop : t.op = some op) : s.entry t = s.jobView op := by
  rw [entry, hop]
  rfl

theorem lookup_of_view {op value : Int} {b : Bool} (h : s.jobView op = some (value, b)) :
    ∃ e, s.rt.g.ops.lookup op = some e ∧ e.result = value ∧ e.done = b := by
  unfold jobView at h
  obtain ⟨e, hl, heq⟩ := Option.map_eq_some_iff.mp h
  exact ⟨e, hl, congrArg Prod.fst heq, congrArg Prod.snd heq⟩

/-- A section that takes the record of a completed job out of the table. -/
theorem Sound.eraseJob {t' : OffloadTask} {op : Int} (h : s.Sound)
    (ht : s.tasks.lookup f = some t) (hop : t.op = some op)
    (htasks : s'.tasks = s.tasks.insert f t') (hop' : t'.op = t.op) (hvalue : t'.value = t.value)
    (hglobal : s'.rt.g = { s.rt.g with ops := s.rt.g.ops.erase op })
    (hissued : s'.rt.reg.issued = s.rt.reg.issued)
    (hreg : ∀ k, t.value ≠ some k → s'.rt.reg.lookup k = s.rt.reg.lookup k)
    (hnone : ∀ k, s.rt.reg.lookup k = none → s'.rt.reg.lookup k = none)
    (hlife : t'.Life (s.rt.reg.lookup f) none (s'.registered t')) : s'.Sound := by
  have hlookup (o : Int) : s'.rt.g.ops.lookup o = if o = op then none else s.rt.g.ops.lookup o := by
    rw [hglobal]
    exact AList.lookup_erase_ite op o _
  have hself : s'.rt.reg.lookup f = s.rt.reg.lookup f :=
    hreg f (fun hv => by rw [h.apart f t f ht hv] at ht; cases ht)
  refine h.advance ht (fun k => by rw [htasks]; exact AList.lookup_insert_ite f k t' _) hop' hvalue hissued
    (by rw [hglobal]) (by rw [hglobal]) (fun k _ hk => hreg k hk) hnone (fun o ho => ?_) (fun o ho => ?_) ?_
  · unfold jobView
    rw [hlookup, if_neg]
    rintro rfl
    exact ho hop
  · rw [hlookup, ho, ite_self]
  · have hent : s'.entry t' = none := by
      rw [entry_of_op (hop'.trans hop), jobView, hlookup, if_pos rfl]
      rfl
    rw [hself, hent]
    exact hlife

theorem nextCore_bumpCore {g : Global} (h : g.nextCore < maxI64) : (g.bumpCore 1).nextCore = g.nextCore + 1 := by
  change min (g.nextCore + 1) maxI64 = _
  omega

/-- The section that draws the id of the job. -/
theorem Sound.register (h : s.Sound) {work : ℕ} (ht : s.tasks.lookup f = some t)
    (hp : t.poll = .taken work) (hroom : s.rt.g.nextCore < maxI64) :
    ((s.onGlobal (fun g => g.registerOp.1)).setTask f
      { t with poll := .registered work s.rt.g.registerOp.2, op := some s.rt.g.registerOp.2 }).Sound := by
  have hlt : s.rt.g.nextCore < (s.rt.g.bumpCore 1).nextCore := by
    rw [nextCore_bumpCore hroom]
    omega
  have hlookup (o : Int) : (s.rt.g.registerOp.1).ops.lookup o
      = if o = s.rt.g.nextCore then some ⟨none, null, false⟩ else s.rt.g.ops.lookup o :=
    AList.lookup_insert_ite s.rt.g.nextCore o _ _
  refine h.update (f := f) (fun k => AList.lookup_insert_ite f k _ s.tasks) (.inl (by simp [ht]))
    (fun op ho => .inr ⟨(Option.some_inj.mp ho).symm, hlt⟩) (fun v hv => .inl ⟨t, ht, hv⟩) le_rfl h.issued
    hlt.le rfl (fun _ _ _ => rfl) (fun _ hk => .inl hk) (fun op ho => ?_) (fun op ho => ?_) ?_
  · change Option.map _ ((s.rt.g.registerOp.1).ops.lookup op) = _
    rw [hlookup, if_neg (fun hc => ho (congrArg some hc.symm))]
    rfl
  · by_cases heq : op = s.rt.g.nextCore
    · exact .inr (congrArg some heq.symm)
    · refine .inl (fun hc => ho ?_)
      exact (hlookup op).trans (by rw [if_neg heq, hc])
  · have hlife := h.life f t ht
    cases hlife with
    | taken work' hrecord hop hpoll hjob hvalue hdrop hflags =>
      refine .reserved work s.rt.g.nextCore hrecord rfl ?_ rfl hjob hvalue hdrop hflags
      change Option.map _ ((s.rt.g.registerOp.1).ops.lookup s.rt.g.nextCore) = _
      rw [hlookup, if_pos rfl]
      rfl
    | _ => simp_all

theorem Sound.pollNext (h : s.Sound) (ht : s.tasks.lookup f = some t)
    (hroom : s.rt.g.nextCore < maxI64) : (s.pollNext f t).Sound := by
  have hlife := h.life f t ht
  unfold Offload.pollNext
  cases hp : t.poll with
  | idle => exact h
  | taken work => exact h.register ht hp hroom
  | registered work op =>
    cases hlife with
    | reserved work' op' hrecord hop hentry hpoll hjob hvalue hdrop hflags =>
      cases hp.symm.trans hpoll
      exact h.setTask ht rfl rfl
        (.launching op hrecord hop rfl (.queued work hentry rfl hvalue) hdrop hflags)
    | _ => simp_all
  | submitted op =>
    cases hlife with
    | launching op' hrecord hop hpoll hrun hdrop hflags =>
      cases hp.symm.trans hpoll
      refine h.setRecord ht _ rfl rfl ?_
      exact .launched op (by rw [hrecord]; rfl) hop (.inl rfl) hrun (.inl hdrop) hflags
    | _ => simp_all
  | started =>
    cases hlife with
    | launched op hrecord hop hpoll hrun hdrop hflags =>
      simp only [hrecord]
      refine h.setTask ht rfl rfl (.launched op hrecord hop (.inr ⟨?_, .inr (.inl rfl)⟩) hrun hdrop hflags)
      rcases hpoll with hpoll | hpoll
      · simp [hp] at hpoll
      · exact hpoll.1
    | settled op value hrecord hop hentry hpoll hjob hvalue hdrop hreleased hreturned =>
      simp only [hrecord]
      exact h.setTask ht rfl rfl
        (.settled op value hrecord hop hentry (.inl rfl) hjob hvalue hdrop hreleased hreturned)
    | gone hrecord hentry hpoll hjob hdrop hvalue =>
      simp only [hrecord]
      exact h.setTask ht rfl rfl (.gone hrecord hentry (.inl rfl) hjob hdrop hvalue)
    | _ => simp_all
  | sawOp op =>
    cases hlife with
    | launched op' hrecord hop hpoll hrun hdrop hflags =>
      obtain ⟨hidle, hpoll⟩ := hpoll.resolve_left (by simp [hp])
      obtain rfl : op = op' := by simpa [hp] using hpoll
      refine h.setTask ht rfl rfl (.launched op hrecord hop ?_ hrun hdrop hflags)
      by_cases hdone : s.rt.g.opDone op
      · rw [if_pos hdone, entry_of_op hop]
        exact .inr ⟨hidle, .inr (.inr ⟨rfl, view_of_opDone hdone⟩)⟩
      · exact .inl (if_neg hdone)
    | _ => simp_all
  | sawDone op =>
    cases hlife with
    | launched op' hrecord hop hpoll hrun hdrop hflags =>
      obtain ⟨hidle, hpoll⟩ := hpoll.resolve_left (by simp [hp])
      obtain ⟨rfl, value, hentry⟩ : op = op' ∧ ∃ value, s.entry t = some (value, true) := by
        simpa [hp] using hpoll
      obtain ⟨e, hl, hresult, -⟩ := lookup_of_view ((entry_of_op hop).symm.trans hentry)
      have hout : s.rt.g.opResult op = ({ s.rt.g with ops := s.rt.g.ops.erase op }, value) := by
        unfold Global.opResult
        rw [hl, ← hresult]
      refine h.eraseJob ht hop rfl rfl rfl ?_ rfl (fun _ _ => rfl) (fun _ hk => hk) ?_
      · exact congrArg Prod.fst hout
      · rw [hout]
        cases hrun with
        | done value' hentry' hjob hcarries =>
          cases hentry.symm.trans hentry'
          exact .reaping op value hrecord hop rfl rfl hjob hcarries hidle hflags
        | queued _ hentry' => cases hentry.symm.trans hentry'
        | finished _ hentry' => cases hentry.symm.trans hentry'
    | _ => simp_all
  | reaped value =>
    cases hlife with
    | reaping op value' hrecord hop hentry hpoll hjob hcarries hdrop hflags =>
      cases hp.symm.trans hpoll
      refine h.setRecord ht _ rfl rfl ?_
      exact .settled op value (by rw [hrecord]; rfl) hop hentry (.inl rfl) hjob (.inl hcarries) (.inl hdrop)
        hflags.2 (fun hc => by simp [hflags.1] at hc)
    | _ => simp_all

/-- While the job is in the pool the future neither reaps nor is dropped, so its life goes on
with whatever the pool does next. -/
theorem life_rerun {record : Option Handle} {entry : Option (Int × Bool)} {present : Bool}
    (h : t.Life record entry present) (hjob : t.job ≠ .idle) :
    ∃ op, t.op = some op ∧ entry = some (null, false) ∧ t.job.Running entry present t.value op ∧
      ∀ {t' : OffloadTask} {entry' : Option (Int × Bool)} {present' : Bool}, t'.poll = t.poll →
        t'.drop = t.drop → t'.op = t.op → t'.returned = t.returned ∧ t'.released = t.released →
        t'.job.Running entry' present' t'.value op → t'.Life record entry' present' := by
  have hopen {op : Int} (hrun : t.job.Running entry present t.value op) : entry = some (null, false) := by
    cases hrun with
    | queued _ hentry => exact hentry
    | finished _ hentry => exact hentry
    | done _ _ hidle => exact absurd hidle hjob
  cases h with
  | launching op hrecord hop hpoll hrun hdrop hflags =>
    refine ⟨op, hop, hopen hrun, hrun, fun hp hd ho hf hr => ?_⟩
    exact .launching op hrecord (ho.trans hop) (hp.trans hpoll) hr (hd.trans hdrop)
      ⟨hf.1.trans hflags.1, hf.2.trans hflags.2⟩
  | launched op hrecord hop hpoll hrun hdrop hflags =>
    have hentry := hopen hrun
    have hidle : t.drop = .idle := hdrop.resolve_right (fun hc => by simp [hentry] at hc)
    refine ⟨op, hop, hentry, hrun, fun hp hd ho hf hr => ?_⟩
    refine .launched op hrecord (ho.trans hop) ?_ hr (.inl (hd.trans hidle))
      ⟨hf.1.trans hflags.1, hf.2.trans hflags.2⟩
    rw [hp, hd]
    rcases hpoll with hpoll | ⟨hd', hpoll | hpoll | ⟨-, _, hc⟩⟩
    · exact .inl hpoll
    · exact .inr ⟨hd', .inl hpoll⟩
    · exact .inr ⟨hd', .inr (.inl hpoll)⟩
    · simp [hentry] at hc
  | _ => exact absurd ‹t.job = .idle› hjob

/-- The job's result enters the registry under a fresh handle. -/
theorem Sound.produced (h : s.Sound) (ht : s.tasks.lookup f = some t) {op v : Int} {work : ℕ}
    (hj : t.job = .queued op work) (change : Registry → Registry) (hd : Handle) (hv : v = Registry.drawn s.rt.reg.issued)
    (hissued : (change s.rt.reg).issued = s.rt.reg.issued + 1) (hroom : s.rt.reg.issued + 1 < 2 ^ 64)
    (hlookup : ∀ k, (change s.rt.reg).lookup k = if k = v then some hd else s.rt.reg.lookup k) :
    ((s.onReg change).setTask f { t with job := .finished op v, value := some v }).Sound := by
  obtain ⟨op', hop, hentry, hrun, hnext⟩ := life_rerun (h.life f t ht) (by simp [hj])
  obtain ⟨rfl, hvalue⟩ : op = op' ∧ t.value = none := by cases hrun <;> simp_all
  have hself : f ≠ v := hv ▸ h.fresh (by omega) (.inr (.inl (by simp [ht])))
  have hne : v ≠ null := hv ▸ Registry.drawn_ne_null (by omega)
  have hlt : s.rt.reg.issued < (change s.rt.reg).issued := by omega
  refine h.update (f := f) (fun k => AList.lookup_insert_ite f k _ s.tasks) (.inl (by simp [ht]))
    (fun o ho => .inl ⟨t, ht, ho⟩)
    (fun v' hv' => .inr ⟨by simp [ht], (Option.some_inj.mp hv').symm.trans hv, hlt⟩)
    hlt.le (hissued.trans_lt hroom) le_rfl rfl (fun k hk hkv => ?_) (fun k hk => ?_) (fun _ _ => rfl)
    (fun _ ho => .inl ho) ?_
  · exact (hlookup k).trans (if_neg (fun hc => hkv (congrArg some hc.symm)))
  · by_cases hkv : k = v
    · exact .inr (.inr (congrArg some hkv.symm))
    · exact .inl (fun hc => hk ((hlookup k).trans ((if_neg hkv).trans hc)))
  · have hrecord : (change s.rt.reg).lookup f = s.rt.reg.lookup f := (hlookup f).trans (if_neg hself)
    have hpresent : ((change s.rt.reg).lookup v).isSome = true := by rw [hlookup, if_pos rfl]; rfl
    change OffloadTask.Life ((change s.rt.reg).lookup f) _ ((change s.rt.reg).lookup v).isSome _
    rw [hrecord]
    exact hnext rfl rfl rfl ⟨rfl, rfl⟩ (.finished v hentry rfl (.inr ⟨hne, rfl, hpresent⟩))

theorem Sound.produce (h : s.Sound) (ht : s.tasks.lookup f = some t) (result : Option Handle)
    (hroom : s.rt.reg.issued + 1 < 2 ^ 64) : (s.produce f result t).Sound := by
  unfold Offload.produce
  cases hj : t.job with
  | idle => cases result <;> exact h
  | finished op value => cases result <;> exact h
  | queued op work =>
    cases result with
    | none =>
      obtain ⟨op', hop, hentry, hrun, hnext⟩ := life_rerun (h.life f t ht) (by simp [hj])
      obtain ⟨rfl, hvalue⟩ : op = op' ∧ t.value = none := by cases hrun <;> simp_all
      exact h.setTask ht rfl rfl (hnext rfl rfl rfl ⟨rfl, rfl⟩ (.finished null hentry rfl (.inl ⟨rfl, hvalue⟩)))
    | some hd => exact h.produced ht hj _ hd rfl rfl hroom (Registry.lookup_insert hd)

theorem lookup_completeOp (g : Global) (op value o : Int) :
    (g.completeOp op value).ops.lookup o =
      if o = op then (g.ops.lookup o).map (fun e => { e with result := value, done := true, waiter := none })
      else g.ops.lookup o := by
  unfold Global.completeOp
  cases hl : g.ops.lookup op with
  | none =>
    split_ifs with ho
    · rw [ho, hl]
      rfl
    · rfl
  | some e =>
    rw [← AList.lookup_modify]
    rcases hw : e.waiter with _ | gid
    · simp only [hw]
      rfl
    · simp only [hw]
      rfl

theorem Sound.complete (h : s.Sound) (ht : s.tasks.lookup f = some t) : (s.complete f t).Sound := by
  unfold Offload.complete
  cases hj : t.job with
  | idle => exact h
  | queued op work => exact h
  | finished op value =>
    obtain ⟨op', hop, hentry, hrun, hnext⟩ := life_rerun (h.life f t ht) (by simp [hj])
    obtain ⟨rfl, hvalue⟩ : op = op' ∧ Carries t.value (s.registered t) value := by cases hrun <;> simp_all
    obtain ⟨e, hl, -, -⟩ := lookup_of_view ((entry_of_op hop).symm.trans hentry)
    have hframe : (s.rt.g.completeOp op value).nextCore = s.rt.g.nextCore ∧
        (s.rt.g.completeOp op value).goroutines = s.rt.g.goroutines := by
      unfold Global.completeOp
      rw [hl]
      rcases hw : e.waiter with _ | gid
      · simp only [hw]
        exact ⟨rfl, rfl⟩
      · simp only [hw]
        exact ⟨rfl, rfl⟩
    refine h.advance ht (fun k => AList.lookup_insert_ite f k _ s.tasks) rfl rfl rfl hframe.1 hframe.2
      (fun _ _ _ => rfl) (fun _ hk => hk) (fun o ho => ?_) (fun o ho => ?_) ?_
    · refine congrArg (Option.map _) ((lookup_completeOp _ op value o).trans (if_neg ?_))
      rintro rfl
      exact ho hop
    · refine (lookup_completeOp _ op value o).trans ?_
      rw [ho, Option.map_none, ite_self]
    · refine hnext rfl rfl rfl ⟨rfl, rfl⟩ (.done value ?_ rfl hvalue)
      refine (entry_of_op hop).trans ((congrArg (Option.map _) (lookup_completeOp _ op value op)).trans ?_)
      rw [if_pos rfl, hl]
      rfl

theorem Sound.key_ne_null (h : s.Sound) (ht : s.tasks.lookup f = some t) : f ≠ null := by
  obtain ⟨n, hn, rfl⟩ := h.known f (.inr (.inl (by simp [ht])))
  exact Registry.drawn_ne_null (by have := h.issued; omega)

theorem Sound.result (h : s.Sound) (ht : s.tasks.lookup f = some t) : (s.result f t).Sound := by
  have hlife := h.life f t ht
  have hf := h.key_ne_null ht
  -- only a settled future has something to return
  have hsame (hnull : s.rt.reg.asyncOpResult f = null) : (s.result f t).Sound := by
    refine h.setTask ht rfl rfl ?_
    simpa [hnull] using hlife
  unfold Registry.asyncOpResult at hsame
  rw [if_neg hf] at hsame
  cases hlife with
  | settled op value hrecord hop hentry hpoll hjob hvalue hdrop hreleased hreturned =>
    by_cases hnull : value = null
    · exact hsame (by simp [hrecord, hnull])
    · have hout : s.rt.reg.asyncOpResult f = value := by
        unfold Registry.asyncOpResult
        simp [hf, hrecord]
      have hv : t.value = some value := by
        rcases hvalue with hvalue | hvalue
        · exact (hvalue.resolve_left (fun hc => hnull hc.1)).2.1
        · exact hvalue.1
      have hret : (t.returned || decide (s.rt.reg.asyncOpResult f ≠ null)) = true := by
        simp [hout, hnull]
      refine h.setTask ht rfl rfl (.settled op value hrecord hop hentry hpoll hjob (.inr ⟨hv, hret⟩) ?_
        hreleased (fun _ => by simp [hv]))
      exact hdrop.imp id (fun hd => ⟨hd.1, .inr hret⟩)
  | unpolled _ hrecord => exact hsame (by simp [hrecord])
  | taken _ hrecord => exact hsame (by simp [hrecord])
  | reserved _ _ hrecord => exact hsame (by simp [hrecord])
  | launching _ hrecord => exact hsame (by simp [hrecord])
  | launched _ hrecord => exact hsame (by simp [hrecord])
  | reaping _ _ hrecord => exact hsame (by simp [hrecord])
  | freed _ hrecord => exact hsame (by simp [hrecord])
  | gone hrecord => exact hsame (by simp [hrecord])

variable {r : Registry}

theorem lookup_remove_ne {id k : Int} (hk : k ≠ id) : (r.remove id).1.lookup k = r.lookup k := by
  unfold Registry.remove
  split
  · rfl
  split
  · exact (Registry.lookup_discard id k).trans (if_neg hk)
  · rfl

theorem lookup_remove_self {id : Int} (hid : id ≠ null) : (r.remove id).1.lookup id = none := by
  unfold Registry.remove
  rw [if_neg hid]
  split
  · exact (Registry.lookup_discard id id).trans (if_pos rfl)
  · assumption

theorem issued_remove (id : Int) : (r.remove id).1.issued = r.issued := by
  unfold Registry.remove
  split
  · rfl
  split <;> rfl

theorem lookup_remove_none {id k : Int} (hk : r.lookup k = none) : (r.remove id).1.lookup k = none := by
  by_cases hid : k = id
  · subst hid
    unfold Registry.remove
    simp [hk]
  · rw [lookup_remove_ne hid, hk]

theorem Sound.consume (h : s.Sound) (ht : s.tasks.lookup f = some t) : (s.consume t).Sound := by
  unfold Offload.consume
  cases hret : t.returned with
  | false => exact h
  | true =>
    cases hv : t.value with
    | none => exact h
    | some v =>
      have hvf : f ≠ v := by
        rintro rfl
        simp [h.apart f t f ht hv] at ht
      have htasks (k : Int) : s.tasks.lookup k = if k = f then some t else s.tasks.lookup k := by
        split_ifs with hk
        · rw [hk, ht]
        · rfl
      refine h.advance ht htasks rfl rfl (issued_remove v) rfl rfl
        (fun k _ hk => lookup_remove_ne (fun hc => hk (hc ▸ hv))) (fun _ hk => lookup_remove_none hk)
        (fun _ _ => rfl) (fun _ ho => ho) ?_
      have hrecord : (s.rt.reg.remove v).1.lookup f = s.rt.reg.lookup f := lookup_remove_ne hvf
      change OffloadTask.Life ((s.rt.reg.remove v).1.lookup f) (s.entry t) _ t
      rw [hrecord]
      cases h.life f t ht with
      | settled op value hrecord hop hentry hpoll hjob hvalue hdrop hreleased hreturned =>
        refine .settled op value hrecord hop hentry hpoll hjob (.inr ⟨?_, hret⟩) hdrop hreleased hreturned
        rcases hvalue with hvalue | hvalue
        · rw [(hvalue.of_value hv).2, hv]
        · exact hvalue.1
      | gone hrecord hentry hpoll hjob hdrop hvalue =>
        refine .gone hrecord hentry hpoll hjob hdrop (fun hne => .inl ⟨hret, ?_⟩)
        exact (hvalue hne).elim And.right (fun hc => by simp [hret] at hc)
      | _ => simp_all

theorem Sound.beginDrop (h : s.Sound) (ht : s.tasks.lookup f = some t) (hidle : t.drop = .idle)
    (hpoll : t.poll = .idle) (hdroppable : s.droppable f t = true) : (s.beginDrop f t).Sound := by
  have hlife := h.life f t ht
  unfold Offload.beginDrop Runtime.pendingOp
  unfold Offload.droppable at hdroppable
  cases hlife with
  | unpolled work hrecord hop _ hjob hvalue _ hflags =>
    refine h.setTask ht rfl rfl (.unpolled work hrecord hop hpoll hjob hvalue (.inr ?_) hflags)
    simp [hrecord]
  | launched op hrecord hop _ hrun _ hflags =>
    have hcore := (h.cores f t op ht hop).1
    refine h.setTask ht rfl rfl (.launched op hrecord hop (.inl hpoll) hrun (.inr ⟨?_, ?_⟩) hflags)
    · have : op ≠ 0 := by omega
      simp [hrecord, this]
    · rw [entry_of_op hop]
      exact view_of_opDone (by simpa [hrecord] using hdroppable)
  | settled op value hrecord hop hentry _ hjob hvalue _ hreleased hreturned =>
    refine h.setTask ht rfl rfl
      (.settled op value hrecord hop hentry (.inl hpoll) hjob hvalue (.inr ⟨?_, ?_⟩) hreleased hreturned)
    · simp [hrecord]
    · simpa [hrecord] using hdroppable
  | gone hrecord hentry _ hjob _ hvalue =>
    refine h.setTask ht rfl rfl (.gone hrecord hentry (.inl hpoll) hjob (.inr ?_) hvalue)
    simp [hrecord]
  | _ => simp_all

/-- `drop_op` on a completed job. -/
theorem dropOp_of_done {e : AsyncOp} {op : Int} (hl : s.rt.g.ops.lookup op = some e) (hd : e.done = true) :
    s.rt.dropOp op = { s.rt with
      reg := (s.rt.reg.remove e.result).1
      g := { s.rt.g with ops := s.rt.g.ops.erase op } } := by
  unfold Runtime.dropOp
  rw [hl]
  by_cases hnull : e.result = null
  · simp [hd, hnull, Registry.remove]
  · simp [hd, hnull]

theorem Sound.release (h : s.Sound) (ht : s.tasks.lookup f = some t) {op : Int} (hd : t.drop = .releasing op) :
    (s.dropNext f t).Sound := by
  unfold Offload.dropNext
  rw [hd]
  cases h.life f t ht with
  | launched op' hrecord hop hpoll hrun hdrop hflags =>
    obtain ⟨hop', value, hentry⟩ := hdrop.resolve_left (by simp [hd])
    obtain rfl : op = op' := by simpa [hd] using hop'
    obtain ⟨e, hl, hresult, hdone⟩ := lookup_of_view ((entry_of_op hop).symm.trans hentry)
    have hcarries : Carries t.value (s.registered t) value ∧ t.job = .idle := by
      cases hrun <;> simp_all
    have hpoll : t.poll = .idle := by
      rcases hpoll with hpoll | hpoll
      · exact hpoll
      · simp [hd] at hpoll
    have hout := dropOp_of_done hl hdone
    rw [hresult] at hout
    -- only the result of this job leaves the registry
    have hkeep {k : Int} (hk : t.value ≠ some k) : (s.rt.reg.remove value).1.lookup k = s.rt.reg.lookup k := by
      rcases hcarries.1 with ⟨rfl, -⟩ | ⟨-, hv, -⟩
      · simp [Registry.remove]
      · exact lookup_remove_ne (fun hc => hk (hc ▸ hv))
    dsimp only
    rw [hout]
    refine h.eraseJob ht hop rfl rfl rfl rfl (issued_remove value) (fun k hk => hkeep hk)
      (fun _ hk => lookup_remove_none hk) ?_
    refine .freed op hrecord hop rfl hpoll hcarries.2 rfl hflags.1 (fun hne => ?_)
    rcases hcarries.1 with ⟨-, hnone⟩ | ⟨hnull, hv, hpresent⟩
    · exact absurd hnone hne
    · have hgone : (s.rt.reg.remove value).1.lookup value = none := lookup_remove_self hnull
      simp [registered, hv, hgone, Offload.setTask] at hpresent ⊢
      simp [hpresent]
  | _ => simp_all

theorem lookup_removeKind {id : Int} (hid : id ≠ null)
    (hkind : ∀ h, r.lookup id = some h → h.isAsyncOp = true) (k : Int) :
    (r.removeKind id Handle.isAsyncOp).1.lookup k = if k = id then none else r.lookup k := by
  unfold Registry.removeKind Registry.borrow
  rw [if_neg hid]
  cases hl : r.lookup id with
  | none =>
    split_ifs with hk
    · rw [hk, hl]
    · rfl
  | some h =>
    simp only [hkind h hl, if_true]
    split_ifs with hk
    · rw [hk, lookup_remove_self hid]
    · exact lookup_remove_ne hk

theorem life_isAsyncOp {record : Option Handle} {entry : Option (Int × Bool)} {present : Bool} {hdl : Handle}
    (h : t.Life record entry present) (hl : record = some hdl) : hdl.isAsyncOp = true := by
  subst hl
  cases h <;> simp_all [Handle.isAsyncOp]

theorem Sound.unregister (h : s.Sound) (ht : s.tasks.lookup f = some t) (hd : t.drop = .removing) :
    (s.dropNext f t).Sound := by
  have hf := h.key_ne_null ht
  have hlife := h.life f t ht
  have hlookup := lookup_removeKind hf (fun hdl hl => life_isAsyncOp hlife hl)
  have hissued : (s.rt.reg.removeKind f Handle.isAsyncOp).1.issued = s.rt.reg.issued := by
    unfold Registry.removeKind
    cases s.rt.reg.borrow f with
    | none => rfl
    | some hdl =>
      dsimp only
      split_ifs
      · exact issued_remove f
      · rfl
  unfold Offload.dropNext
  rw [hd]
  refine h.advance ht (fun k => AList.lookup_insert_ite f k _ s.tasks) rfl rfl hissued rfl rfl
    (fun k hk _ => (hlookup k).trans (if_neg hk)) (fun k hk => (hlookup k).trans (by rw [hk, ite_self]))
    (fun _ _ => rfl) (fun _ ho => ho) ?_
  have hrecord : (s.rt.reg.removeKind f Handle.isAsyncOp).1.lookup f = none := (hlookup f).trans (if_pos rfl)
  have hpresent : t.value.any (fun v => ((s.rt.reg.removeKind f Handle.isAsyncOp).1.lookup v).isSome)
      = s.registered t := by
    unfold registered
    cases hv : t.value with
    | none => rfl
    | some v =>
      have hvf : v ≠ f := by
        rintro rfl
        simp [h.apart v t v ht hv] at ht
      exact congrArg Option.isSome ((hlookup v).trans (if_neg hvf))
  change OffloadTask.Life ((s.rt.reg.removeKind f Handle.isAsyncOp).1.lookup f) (s.entry t)
    (t.value.any (fun v => ((s.rt.reg.removeKind f Handle.isAsyncOp).1.lookup v).isSome)) _
  rw [hrecord, hpresent]
  cases hlife with
  | unpolled work _ hop hpoll hjob hvalue _ _ =>
    refine .gone rfl ?_ (.inl hpoll) hjob (.inl rfl) (fun hne => absurd hvalue hne)
    rw [entry, hop]
    rfl
  | settled op value _ hop hentry hpoll hjob hvalue hdrop hreleased hreturned =>
    refine .gone rfl hentry (hpoll.imp_right (fun hc => ⟨hc.1, rfl⟩)) hjob (.inl rfl) (fun hne => .inl ⟨?_, hreleased⟩)
    rcases hdrop with hdrop | ⟨-, hnull | hret⟩
    · simp [hd] at hdrop
    · rcases hvalue with (⟨-, hnone⟩ | ⟨hc, -⟩) | hvalue
      · exact absurd hnone hne
      · exact absurd hnull hc
      · exact hvalue.2
    · exact hret
  | freed op _ hop hentry hpoll hjob _ hreturned hvalue =>
    exact .gone rfl hentry (.inl hpoll) hjob (.inl rfl) (fun hne => .inr ⟨hreturned, hvalue hne⟩)
  | gone _ hentry hpoll hjob _ hvalue =>
    exact .gone rfl hentry (hpoll.imp_right (fun hc => ⟨hc.1, rfl⟩)) hjob (.inl rfl) hvalue
  | _ => simp_all

theorem Sound.dropNext (h : s.Sound) (ht : s.tasks.lookup f = some t) : (s.dropNext f t).Sound := by
  cases hd : t.drop with
  | idle =>
    unfold Offload.dropNext
    rw [hd]
    exact h
  | releasing op => exact h.release ht hd
  | removing => exact h.unregister ht hd

/-- A new future under a fresh handle. -/
theorem Sound.created (h : s.Sound) {v : Int} {work : ℕ} (change : Registry → Registry)
    (hv : v = Registry.drawn s.rt.reg.issued)
    (hissued : (change s.rt.reg).issued = s.rt.reg.issued + 1) (hroom : s.rt.reg.issued + 1 < 2 ^ 64)
    (hlookup : ∀ k, (change s.rt.reg).lookup k =
      if k = v then some (.asyncOp 0 (some work) 0 null) else s.rt.reg.lookup k) :
    ((s.onReg change).setTask v .new).Sound := by
  have hlt : s.rt.reg.issued < (change s.rt.reg).issued := by omega
  refine h.update (fun k => AList.lookup_insert_ite v k _ s.tasks) (.inr ⟨hv, hlt⟩)
    (fun _ ho => by cases ho) (fun _ hc => by cases hc) hlt.le (hissued.trans_lt hroom) le_rfl rfl
    (fun k hk _ => (hlookup k).trans (if_neg hk)) (fun k hk => ?_) (fun _ _ => rfl) (fun _ ho => .inl ho) ?_
  · by_cases hkv : k = v
    · exact .inr (.inl hkv)
    · exact .inl (fun hc => hk ((hlookup k).trans ((if_neg hkv).trans hc)))
  · exact .unpolled work ((hlookup v).trans (if_pos rfl)) rfl rfl rfl rfl (.inl rfl) ⟨rfl, rfl⟩

theorem Sound.spawn (h : s.Sound) (hroom : s.rt.g.nextCore < maxI64) (poll : PollFn) (future : Int)
    (cleanup : Option CleanupFn) : (s.step (.spawn poll future cleanup)).Sound := by
  refine h.global rfl rfl ?_ (fun _ => rfl) (fun gid gr hl => ?_)
  · change s.rt.g.nextCore ≤ (s.rt.g.bumpCore 1).nextCore
    rw [nextCore_bumpCore hroom]
    omega
  · have hl' := (AList.lookup_insert_ite s.rt.g.nextCore gid _ s.rt.g.goroutines).symm.trans hl
    split_ifs at hl'
    · cases hl'
      rfl
    · exact h.goroutines gid gr hl'

theorem Sound.park (h : s.Sound) (gid core : Int) : (s.step (.park gid core)).Sound := by
  have hview (o : Int) : (s.step (.park gid core)).jobView o = s.jobView o := by
    change Option.map _ ((s.rt.g.parkJob gid core).1.ops.lookup o) = Option.map _ (s.rt.g.ops.lookup o)
    unfold Global.parkJob
    cases hl : s.rt.g.ops.lookup core with
    | none => rfl
    | some op =>
      dsimp only
      split_ifs
      · rfl
      · change Option.map _ (AList.lookup o (s.rt.g.ops.modify core _)) = _
        rw [AList.lookup_modify]
        split_ifs
        · rw [Option.map_map]
          rfl
        · rfl
  have hframe : (s.rt.g.parkJob gid core).1.nextCore = s.rt.g.nextCore ∧
      (s.rt.g.parkJob gid core).1.goroutines = s.rt.g.goroutines := by
    unfold Global.parkJob
    cases s.rt.g.ops.lookup core with
    | none => exact ⟨rfl, rfl⟩
    | some op =>
      dsimp only
      split_ifs <;> exact ⟨rfl, rfl⟩
  exact h.global rfl rfl hframe.1.ge hview
    (fun gid' gr hl => h.goroutines gid' gr ((congrArg (AList.lookup gid') hframe.2).symm.trans hl))

theorem Sound.dropGoroutine (h : s.Sound) (gid : Int) : (s.step (.dropGoroutine gid)).Sound := by
  have hstep : s.step (.dropGoroutine gid) = { s with rt := (s.rt.dropGoroutine gid).1 } := rfl
  rw [hstep]
  unfold Runtime.dropGoroutine
  cases hl : s.rt.g.goroutines.lookup gid with
  | none => exact h
  | some removed =>
    refine h.global rfl ?_ le_rfl (fun o => ?_) (fun k gr hk => ?_)
    · change s.rt.reg.removeAll removed.abandoned = s.rt.reg
      rw [h.goroutines gid removed hl]
      rfl
    · change Option.map _ (AList.lookup o (AList.mapWithKey _ s.rt.g.ops)) = _
      rw [AList.lookup_mapWithKey, Option.map_map]
      refine congrArg (fun view => Option.map view (s.rt.g.ops.lookup o)) (funext fun e => ?_)
      simp only [Function.comp_apply]
      split_ifs <;> rfl
    · have hk' := (AList.lookup_erase_ite gid k s.rt.g.goroutines).symm.trans hk
      split_ifs at hk'
      exact h.goroutines k gr hk'

/-- One permitted step keeps every future on its life. -/
theorem Sound.step (h : s.Sound) {a : OffloadAct} (ha : s.Permitted a) : (s.step a).Sound := by
  have hon {f : Int} {k : OffloadTask → Offload}
      (hk : ∀ t, s.tasks.lookup f = some t → (k t).Sound) : (s.onTask f k).Sound := by
    unfold onTask
    cases ht : s.tasks.lookup f with
    | none => exact h
    | some t => exact hk t ht
  cases a with
  | new work => exact h.created _ rfl rfl ha (Registry.lookup_insert _)
  | poll f =>
    refine hon (fun t ht => ?_)
    by_cases hidle : t.poll = .idle
    · rw [if_pos hidle]
      exact h.beginPoll ht hidle (ha t ht)
    · rwa [if_neg hidle]
  | pollNext f => exact hon (fun t ht => h.pollNext ht ha)
  | produce f result => exact hon (fun t ht => h.produce ht result ha)
  | complete f => exact hon (fun t ht => h.complete ht)
  | result f => exact hon (fun t ht => h.result ht)
  | consume f => exact hon (fun t ht => h.consume ht)
  | drop f =>
    refine hon (fun t ht => ?_)
    by_cases hidle : t.drop = .idle
    · rw [if_pos hidle]
      exact h.beginDrop ht hidle (ha t ht).1 (ha t ht).2
    · rwa [if_neg hidle]
  | dropNext f => exact hon (fun t ht => h.dropNext ht)
  | spawn poll future cleanup => exact h.spawn ha poll future cleanup
  | park gid core => exact h.park gid core
  | dropGoroutine gid => exact h.dropGoroutine gid

theorem sound_start : start.Sound := by
  refine ⟨?_, by decide, ?_, ?_, ?_, ?_, ?_, ?_, by decide, ?_⟩
  · intro f t ht
    cases ht
  · rintro id (hid | hid | ⟨_, _, hk, _⟩)
    · exact absurd rfl hid
    · exact absurd rfl hid
    · cases hk
  · intro f t v ht
    cases ht
  · intro f t _ _ _ ht
    cases ht
  · intro f t _ _ _ ht
    cases ht
  · intro f t _ ht
    cases ht
  · intro op hop
    exact absurd rfl hop
  · intro gid gr hl
    cases hl

end Offload

/-- In every run that drops no future between the start of its job and the return of the
result, except after a completed job nobody has looked at, every result is delivered or
released exactly once. -/
theorem job_results_delivered_once (acts : List OffloadAct)
    (hrun : Allowed Offload.step Offload.Permitted .start acts) :
    (execute Offload.step .start acts).Delivered :=
  (hrun.invariant (fun _ _ h ha => h.step ha) Offload.sound_start).delivered

/-- A job that completes between two polls, whose result is then returned to the program. -/
theorem job_results_delivered_once_of_reaped :
    (execute Offload.step .start
      [.new 0, .poll 1, .pollNext 1, .pollNext 1, .pollNext 1, .produce 1 (some (.opaqueValue 0 7)),
        .complete 1, .poll 1, .pollNext 1, .pollNext 1, .pollNext 1, .pollNext 1, .result 1, .drop 1,
        .dropNext 1]).Delivered :=
  job_results_delivered_once _ (by decide +kernel)

/-- The future is dropped while its job runs. -/
def abandonedJob : List OffloadAct :=
  [.new 0, .poll 1, .pollNext 1, .pollNext 1, .pollNext 1, .drop 1, .dropNext 1, .dropNext 1,
    .produce 1 (some (.opaqueValue 0 7)), .complete 1]

/-- `drop_op` finds nothing to release, and `complete_op` then finds no job record to put the
result in. -/
theorem dropped_job_leaks_result : ¬(execute Offload.step .start abandonedJob).Delivered := by
  intro h
  have hops : (execute Offload.step .start abandonedJob).rt.g.ops.keys = [] := by decide +kernel
  have hrecord : (execute Offload.step .start abandonedJob).rt.reg.lookup 1 = none := by decide +kernel
  have htask := h 1 ⟨.idle, .idle, .idle, some 1, some 2, false, false⟩ 2 (by decide +kernel) rfl
  rcases htask with ⟨-, -, -, howned⟩ | ⟨hret, -⟩ | ⟨-, hrel, -⟩
  · rcases howned with ⟨_, hjob, -⟩ | ⟨op, e, hop, -⟩ | ⟨hpoll, -⟩ | ⟨_, _, hsettled⟩
    · cases hjob
    · have hmem := AList.lookup_isSome.mp (by rw [hop]; rfl)
      rw [AList.mem_keys, hops] at hmem
      cases hmem
    · cases hpoll
    · rw [hrecord] at hsettled
      cases hsettled
  · cases hret
  · cases hrel

end Neutron
