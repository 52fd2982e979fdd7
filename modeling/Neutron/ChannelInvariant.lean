import Neutron.Drive
import Neutron.Execution

/-!
# The channel representation invariant

The hand-off paths of a channel rely on an exclusion that no line of them checks:
parked receivers mean an empty buffer and no parked sender, parked senders mean a
full buffer. This module proves the exclusion, together with the bookkeeping of
the wait queues, for every interleaving of the operations that touch a channel.
-/

namespace Neutron

open Execution

structure Chan.WellFormed (c : Chan) : Prop where
  buf_le : c.buf.length ≤ c.cap
  receivers_idle : c.receivers ≠ [] → c.buf = [] ∧ c.senders = []
  senders_full : c.senders ≠ [] → c.buf.length = c.cap
  closed_idle : c.closed = true → c.senders = [] ∧ c.receivers = []

theorem Chan.WellFormed.idle_of_buf {c : Chan} (h : c.WellFormed) {v : Int} {rest : List Int}
    (hb : c.buf = v :: rest) : c.receivers = [] := by
  by_contra hne
  have := (h.receivers_idle hne).1
  simp [hb] at this

theorem Chan.WellFormed.idle_of_senders {c : Chan} (h : c.WellFormed) {s : Int} {senders : List Int}
    (hs : c.senders = s :: senders) : c.receivers = [] ∧ c.closed = false := by
  constructor
  · by_contra hne
    have := (h.receivers_idle hne).2
    simp [hs] at this
  · by_contra hcl
    have := (h.closed_idle (by simpa using hcl)).1
    simp [hs] at this

/-- Occurrences of a goroutine in the two wait queues of a channel. -/
def Chan.waiting (x : Int) (c : Chan) : ℕ := c.senders.count x + c.receivers.count x

namespace Global

/-- Occurrences of a goroutine over the wait queues of all channels. -/
def waits (g : Global) (x : Int) : ℕ := g.chans.total (fun _ c => c.waiting x)

def Unfinished (g : Global) (x : Int) : Prop := ∃ gr, g.goroutines.lookup x = some gr ∧ gr.done = false

instance (g : Global) (x : Int) : Decidable (g.Unfinished x) :=
  decidable_of_iff ((g.goroutines.lookup x).map Goroutine.done = some false) Option.map_eq_some_iff

structure ChannelsOk (g : Global) : Prop where
  wellFormed : ∀ core c, g.chans.lookup core = some c → c.WellFormed
  unfinished : ∀ x, 0 < g.waits x → g.Unfinished x
  once : ∀ x, g.waits x ≤ 1

variable {g : Global}

/-- The invariant survives a step that parks nobody. -/
theorem ChannelsOk.mono {g' : Global} (h : g.ChannelsOk)
    (hwf : ∀ core c, g'.chans.lookup core = some c → c.WellFormed)
    (hle : ∀ x, g'.waits x ≤ g.waits x)
    (hun : ∀ x, 0 < g'.waits x → g.Unfinished x → g'.Unfinished x) : g'.ChannelsOk where
  wellFormed := hwf
  unfinished x hx := hun x hx (h.unfinished x (hx.trans_le (hle x)))
  once x := (hle x).trans (h.once x)

theorem ChannelsOk.of_eq {g' : Global} (h : g.ChannelsOk) (hc : g'.chans = g.chans)
    (hg : ∀ x, 0 < g.waits x → g.Unfinished x → g'.Unfinished x) : g'.ChannelsOk := by
  have hw (x : Int) : g'.waits x = g.waits x := by rw [waits, waits, hc]
  refine h.mono ?_ (fun x => (hw x).le) (fun x hx => hg x (hw x ▸ hx))
  intro core c hl
  exact h.wellFormed core c (hc ▸ hl)

theorem ChannelsOk.pushReady (h : g.ChannelsOk) (gid : Int) : (g.pushReady gid).ChannelsOk :=
  h.of_eq rfl (fun _ _ hx => hx)

theorem ChannelsOk.syncReadyLen (h : g.ChannelsOk) : g.syncReadyLen.ChannelsOk :=
  h.of_eq rfl (fun _ _ hx => hx)

theorem Unfinished.onGoroutine {x : Int} (hx : g.Unfinished x) (gid : Int) {f : Goroutine → Goroutine}
    (hf : ∀ gr, (f gr).done = gr.done) : (g.onGoroutine gid f).Unfinished x := by
  obtain ⟨gr, hl, hd⟩ := hx
  by_cases hxg : x = gid
  · subst hxg
    exact ⟨f gr, by simp [Global.onGoroutine, hl], by rw [hf, hd]⟩
  · exact ⟨gr, by simpa [Global.onGoroutine, AList.lookup_modify, hxg] using hl, hd⟩

theorem ChannelsOk.onGoroutine (h : g.ChannelsOk) (gid : Int) {f : Goroutine → Goroutine}
    (hf : ∀ gr, (f gr).done = gr.done) : (g.onGoroutine gid f).ChannelsOk :=
  h.of_eq rfl (fun _ _ hx => hx.onGoroutine gid hf)

theorem ChannelsOk.releaseSender (h : g.ChannelsOk) (gid : Int) : (g.releaseSender gid).ChannelsOk :=
  (h.onGoroutine (f := Goroutine.clearSend) gid (fun _ => rfl)).pushReady gid

theorem ChannelsOk.receive (h : g.ChannelsOk) (gid value : Int) (owned ok : Bool) :
    (g.onGoroutine gid (Goroutine.receive value owned ok)).ChannelsOk :=
  h.onGoroutine gid (fun _ => rfl)

theorem ChannelsOk.unfinished_of_mem {core x : Int} {c : Chan} (h : g.ChannelsOk)
    (hc : g.chans.lookup core = some c) (hx : x ∈ c.senders ∨ x ∈ c.receivers) : g.Unfinished x := by
  have hpos : 0 < c.waiting x := by
    rcases hx with hx | hx
    · exact Nat.add_pos_left (List.count_pos_iff.mpr hx) _
    · exact Nat.add_pos_right _ (List.count_pos_iff.mpr hx)
  exact h.unfinished x (hpos.trans_le (AList.le_total (f := fun _ c => Chan.waiting x c) hc))

theorem waits_onChan {core : Int} {c : Chan} (hc : g.chans.lookup core = some c) (f : Chan → Chan)
    (x : Int) : (g.onChan core f).waits x + c.waiting x = g.waits x + (f c).waiting x :=
  AList.total_modify f hc

theorem wellFormed_onChan {core : Int} {c : Chan} (h : g.ChannelsOk) (hc : g.chans.lookup core = some c)
    {f : Chan → Chan} (hf : (f c).WellFormed) (k : Int) (d : Chan)
    (hd : (g.onChan core f).chans.lookup k = some d) : d.WellFormed := by
  by_cases hk : k = core
  · subst hk
    have hd' : f c = d := by simpa [Global.onChan, hc] using hd
    exact hd' ▸ hf
  · exact h.wellFormed k d (by simpa [Global.onChan, AList.lookup_modify, hk] using hd)

/-- A change of one channel that only takes goroutines off its queues. -/
theorem ChannelsOk.shrink {core : Int} {c : Chan} (h : g.ChannelsOk) (hc : g.chans.lookup core = some c)
    {f : Chan → Chan} (hf : (f c).WellFormed) (hw : ∀ x, (f c).waiting x ≤ c.waiting x) :
    (g.onChan core f).ChannelsOk := by
  refine h.mono (wellFormed_onChan h hc hf) ?_ (fun _ _ hx => hx)
  intro x
  have := waits_onChan hc f x
  have := hw x
  omega

/-- A change of one channel that parks one goroutine that waits nowhere. -/
theorem ChannelsOk.park {core gid : Int} {c : Chan} (h : g.ChannelsOk)
    (hc : g.chans.lookup core = some c) {f : Chan → Chan} (hf : (f c).WellFormed)
    (hw : ∀ x, (f c).waiting x = c.waiting x + [gid].count x) (hgid : g.Unfinished gid)
    (hfree : g.waits gid = 0) : (g.onChan core f).ChannelsOk where
  wellFormed := wellFormed_onChan h hc hf
  unfinished x hx := by
    by_cases hxg : x = gid
    · exact hxg ▸ hgid
    · have := waits_onChan hc f x
      have := hw x
      have : [gid].count x = 0 := by simp [Ne.symm hxg]
      exact h.unfinished x (by omega)
  once x := by
    have := waits_onChan hc f x
    have := hw x
    by_cases hxg : x = gid
    · subst hxg
      have : [x].count x = 1 := by simp
      omega
    · have : [gid].count x = 0 := by simp [Ne.symm hxg]
      have := h.once x
      omega

@[simp] theorem waits_onGoroutine (gid : Int) (f : Goroutine → Goroutine) (x : Int) :
    (g.onGoroutine gid f).waits x = g.waits x := rfl

theorem chanRecv_channelsOk {gid core : Int} (h : g.ChannelsOk) (hgid : g.Unfinished gid)
    (hfree : g.waits gid = 0) : (g.chanRecv gid core).1.ChannelsOk := by
  apply chanRecv_cases (P := fun t => t.1.ChannelsOk)
  case gone =>
    intro _
    exact (h.receive gid _ _ _).pushReady gid
  case refill =>
    intro c v rest s senders hc hb hs
    have hw := h.wellFormed core c hc
    obtain ⟨hr, hcl⟩ := hw.idle_of_senders hs
    have hfull : rest.length + 1 = c.cap := by simpa [hb] using hw.senders_full (by simp [hs])
    have hk := h.receive gid v c.ownsElements true
    refine ((hk.shrink hc ?_ ?_).releaseSender s).pushReady gid
    · exact ⟨by simp [hfull], by simp [hr], by simp [hfull], by simp [hcl]⟩
    · intro x
      simp only [Chan.waiting, hs, List.count_cons]
      omega
  case buffered =>
    intro c v rest hc hb hs
    have hw := h.wellFormed core c hc
    have hr := hw.idle_of_buf hb
    have hlen : rest.length + 1 ≤ c.cap := by simpa [hb] using hw.buf_le
    have hk := h.receive gid v c.ownsElements true
    refine (hk.shrink hc ?_ (fun x => Nat.le_refl (c.waiting x))).pushReady gid
    exact ⟨by simp only; omega, by simp [hr], by simp [hs], by simp [hs, hr]⟩
  case taken =>
    intro c s senders hc hb hs
    have hw := h.wellFormed core c hc
    obtain ⟨hr, hcl⟩ := hw.idle_of_senders hs
    have hfull : 0 = c.cap := by simpa [hb] using hw.senders_full (by simp [hs])
    have hk : (g.onChan core (fun c => { c with senders := senders })).ChannelsOk := by
      refine h.shrink hc ?_ ?_
      · exact ⟨by simp [hb], by simp [hr], by simp [hb, hfull], by simp [hcl]⟩
      · intro x
        simp only [Chan.waiting, hs, List.count_cons]
        omega
    have hk' := hk.onGoroutine (f := Goroutine.clearSend) s (fun _ => rfl)
    exact ((hk'.receive gid _ c.ownsElements true).pushReady s).pushReady gid
  case closed =>
    intro c _ _ _ _
    exact (h.receive gid _ _ _).pushReady gid
  case parked =>
    intro c hc hb hs hcl
    refine h.park hc ?_ ?_ hgid hfree
    · exact ⟨by simp [hb], by simp [hb, hs], by simp [hs], by simp [hcl]⟩
    · intro x
      simp only [Chan.waiting, List.count_append]
      omega

theorem closeReceiver_channelsOk (owns : Bool) (st : Global × List Int) (p : Int × Option Int)
    (h : st.1.ChannelsOk) : (closeReceiver owns st p).1.ChannelsOk := by
  unfold closeReceiver
  split
  · exact (h.receive _ _ _ _).pushReady _
  · exact h.pushReady _
  · exact (h.receive _ _ _ _).pushReady _
  · exact h.pushReady _

theorem closeSender_channelsOk (st : Global × List Int) (s : Int) (h : st.1.ChannelsOk) :
    (closeSender st s).1.ChannelsOk := by
  unfold closeSender
  split
  · exact h.releaseSender s
  · exact h.pushReady s

end Global

namespace Runtime

variable {s : Runtime}

theorem chanSend_channelsOk {gid core : Int} (h : s.g.ChannelsOk) (hgid : s.g.Unfinished gid)
    (hfree : s.g.waits gid = 0) : (s.chanSend gid core).1.g.ChannelsOk := by
  apply chanSend_cases (P := fun t => t.1.g.ChannelsOk)
  case gone =>
    intro _
    exact h.releaseSender gid
  case closed =>
    intro c _ _
    exact h.releaseSender gid
  case handed =>
    intro c receiver rest hc hcl hr
    obtain ⟨hb, hs⟩ := (h.wellFormed core c hc).receivers_idle (by simp [hr])
    have hk : (s.g.onChan core (fun c => { c with receivers := rest })).ChannelsOk := by
      refine h.shrink hc ?_ ?_
      · exact ⟨by simp [hb], by simp [hb, hs], by simp [hs], by simp [hcl]⟩
      · intro x
        simp only [Chan.waiting, hr, List.count_cons]
        omega
    have hk' := (hk.receive receiver (s.g.pendingSendOf gid) c.ownsElements true).onGoroutine
      (f := Goroutine.clearSend) gid (fun _ => rfl)
    exact (hk'.pushReady receiver).pushReady gid
  case buffered =>
    intro c hc hcl hr _ hroom
    have hs : c.senders = [] := by
      by_contra hne
      have := (h.wellFormed core c hc).senders_full hne
      omega
    refine (h.shrink hc ?_ (fun x => Nat.le_refl (c.waiting x))).releaseSender gid
    exact ⟨by simp only [List.length_append, List.length_singleton]; omega, by simp [hr],
      by simp [hs], by simp [hcl]⟩
  case parked =>
    intro c hc hcl hr hroom
    have hw := h.wellFormed core c hc
    have hfull : c.buf.length = c.cap := by
      have := hw.buf_le
      omega
    have hk := h.onGoroutine (f := fun gr => { gr with pendingSendOwned := c.ownsElements })
      gid (fun _ => rfl)
    refine hk.park hc ?_ ?_ (hgid.onGoroutine gid (fun _ => rfl)) hfree
    · exact ⟨hw.buf_le, by simp [hr], fun _ => hfull, by simp [hcl]⟩
    · intro x
      simp only [Chan.waiting, List.count_append]
      omega

theorem chanClose_channelsOk (core : Int) (h : s.g.ChannelsOk) : (s.chanClose core).g.ChannelsOk := by
  apply chanClose_cases (P := fun t => t.g.ChannelsOk)
  case gone =>
    intro _
    exact h
  case again =>
    intro c _ _
    exact h
  case closing =>
    intro c hc _
    have hk : (s.closeQueues core).ChannelsOk := by
      refine h.shrink hc ?_ ?_
      · have := (h.wellFormed core c hc).buf_le
        exact ⟨by simp only [List.length_drop]; omega, by simp, by simp, by simp⟩
      · intro x
        simp [Chan.waiting]
    have hr := List.foldlRecOn (Global.drainTo c.receivers c.buf) _
      (motive := fun st : Global × List Int => st.1.ChannelsOk) (b := (s.closeQueues core, [])) hk
      (fun st hst p _ => Global.closeReceiver_channelsOk c.ownsElements st p hst)
    have hs := List.foldlRecOn c.senders _ (motive := fun st : Global × List Int => st.1.ChannelsOk) hr
      (fun st hst x _ => Global.closeSender_channelsOk st x hst)
    exact hs.syncReadyLen

theorem dropChan_channelsOk (core : Int) (h : s.g.ChannelsOk) : (s.dropChan core).g.ChannelsOk := by
  unfold dropChan
  cases hc : s.g.chans.lookup core with
  | none => exact h
  | some c =>
    refine h.mono ?_ ?_ (fun _ _ hx => hx)
    · intro k d hd
      rw [AList.lookup_erase_ite] at hd
      split at hd
      · cases hd
      · exact h.wellFormed k d hd
    · intro x
      exact Nat.le.intro (AList.total_erase (f := fun _ c => Chan.waiting x c) hc)

theorem filter_wellFormed {c : Chan} (hw : c.WellFormed) (p : Int → Bool) :
    { c with senders := c.senders.filter p, receivers := c.receivers.filter p }.WellFormed := by
  have hne (l : List Int) (h : l.filter p ≠ []) : l ≠ [] := by
    rintro rfl
    exact h rfl
  refine ⟨hw.buf_le, ?_, fun h => hw.senders_full (hne _ h), ?_⟩
  · intro h
    obtain ⟨hb, hs⟩ := hw.receivers_idle (hne _ h)
    exact ⟨hb, by simp [hs]⟩
  · intro h
    obtain ⟨hs, hr⟩ := hw.closed_idle h
    exact ⟨by simp [hs], by simp [hr]⟩

theorem dropGoroutine_channelsOk (core : Int) (h : s.g.ChannelsOk) :
    (s.dropGoroutine core).1.g.ChannelsOk := by
  unfold dropGoroutine
  cases hg : s.g.goroutines.lookup core with
  | none => exact h
  | some gr =>
    have hw (x : Int) : AList.total (fun _ c => Chan.waiting x c) (s.g.clearChans core).chans =
        if x = core then 0 else s.g.waits x := by
      rw [Global.clearChans, AList.total_mapWithKey]
      by_cases hx : x = core
      · subst hx
        rw [if_pos rfl]
        apply AList.total_eq_zero
        intro k c _
        simp [Chan.waiting, List.count_eq_zero]
      · rw [if_neg hx]
        apply AList.total_congr
        intro k c _
        simp only [Chan.waiting]
        rw [List.count_filter (by simpa using hx), List.count_filter (by simpa using hx)]
    refine h.mono ?_ ?_ ?_
    · intro k d hd
      obtain ⟨c, hc, rfl⟩ : ∃ c, s.g.chans.lookup k = some c ∧ _ = d := by
        simpa [Global.clearTimers, Global.clearChans, Global.clearIos, Global.clearOps] using hd
      exact filter_wellFormed (h.wellFormed k c hc) _
    · intro x
      refine (hw x).le.trans ?_
      split
      · exact Nat.zero_le _
      · exact le_rfl
    · intro x hx hux
      have hne : x ≠ core := by
        rintro rfl
        have := hw x
        rw [if_pos rfl] at this
        exact hx.ne' this
      obtain ⟨d, hd, hdone⟩ := hux
      exact ⟨d, (AList.lookup_erase_ne hne).trans hd, hdone⟩

end Runtime

namespace Global

variable {g : Global}

theorem Unfinished.insert {x gid : Int} (hx : g.Unfinished x) {gr : Goroutine} (hgr : gr.done = false) :
    Unfinished { g with goroutines := g.goroutines.insert gid gr } x := by
  obtain ⟨d, hd, hdone⟩ := hx
  by_cases hxg : x = gid
  · subst hxg
    exact ⟨gr, AList.lookup_insert _, hgr⟩
  · exact ⟨d, (AList.lookup_insert_ne hxg).trans hd, hdone⟩

theorem registerChan_channelsOk (cap : ℕ) (owns : Bool) (h : g.ChannelsOk) :
    (g.registerChan cap owns).1.ChannelsOk := by
  refine h.mono ?_ ?_ (fun _ _ hx => hx)
  · intro k d hd
    change (g.chans.insert g.nextCore (Chan.new cap owns)).lookup k = some d at hd
    rw [AList.lookup_insert_ite] at hd
    split at hd
    · cases hd
      exact ⟨by simp [Chan.new], by simp [Chan.new], by simp [Chan.new], by simp [Chan.new]⟩
    · exact h.wellFormed k d hd
  · intro x
    change AList.total _ (g.chans.insert g.nextCore (Chan.new cap owns)) ≤ g.waits x
    have hnew : (Chan.new cap owns).waiting x = 0 := by simp [Chan.new, Chan.waiting]
    cases hc : g.chans.lookup g.nextCore with
    | none =>
      rw [AList.total_insert _ hc, hnew, Nat.zero_add]
      rfl
    | some c =>
      have := AList.total_insert_replace (f := fun _ c => Chan.waiting x c) (Chan.new cap owns) hc
      rw [waits]
      omega

theorem finish_channelsOk {gid : Int} (thrown : Int) (h : g.ChannelsOk) (hfree : g.waits gid = 0) :
    (g.finish gid thrown).ChannelsOk := by
  unfold finish
  cases hg : g.goroutines.lookup gid with
  | none => exact h
  | some gr =>
    have hne {x : Int} (hx : 0 < g.waits x) : x ≠ gid := by
      rintro rfl
      exact hx.ne' hfree
    dsimp only
    split
    · refine h.of_eq rfl ?_
      rintro x hx ⟨d, hd, hdone⟩
      refine ⟨d, ?_, hdone⟩
      exact (AList.lookup_erase_ne (hne hx)).trans ((AList.lookup_modify_ne (hne hx) _ _).trans hd)
    · refine h.of_eq rfl ?_
      rintro x hx ⟨d, hd, hdone⟩
      exact ⟨d, (AList.lookup_modify_ne (hne hx) _ _).trans hd, hdone⟩

theorem empty_channelsOk : Global.empty.ChannelsOk := by
  refine ⟨?_, ?_, ?_⟩
  · intro core c hc
    cases hc
  · intro x hx
    exact absurd hx (Nat.lt_irrefl 0)
  · intro x
    exact Nat.zero_le 1

end Global

/-! ## Runs of the channel operations -/

/-- The operations that read or write a channel, with the registration and the
completion of the goroutines that use them. A send or a receive comes with the
suspension state its poll left, which is flushed first. Ids are also reserved for
goroutines published later, for interests and for jobs. -/
inductive ChanAction where
  | reserveCoreIds (count : ℕ)
  | registerGoroutine (poll : PollFn) (future : Int) (cleanup : Option CleanupFn) (handle : Int)
  | publish (gid : Int) (poll : PollFn) (future : Int) (cleanup : Option CleanupFn)
  | registerChan (cap : ℕ) (ownsElements : Bool)
  | chanSend (gid core : Int) (st : TaskState)
  | chanRecv (gid core : Int) (st : TaskState)
  | chanClose (core : Int)
  | dropGoroutine (core : Int)
  | dropChan (core : Int)
  | finish (gid thrown : Int)
  deriving DecidableEq

namespace Runtime

def chanStep (s : Runtime) : ChanAction → Runtime
  | .reserveCoreIds count => s.onGlobal (fun g => (g.reserveCoreIds count).1)
  | .registerGoroutine poll future cleanup handle =>
      s.onGlobal (fun g => (g.registerGoroutine (Goroutine.new poll future cleanup handle)).1)
  | .publish gid poll future cleanup =>
      s.onGlobal (fun g =>
        { g with goroutines := g.goroutines.insert gid (Goroutine.new poll future cleanup null) })
  | .registerChan cap owns => s.onGlobal (fun g => (g.registerChan cap owns).1)
  | .chanSend gid core st => ((s.onGlobal (·.onGoroutine gid (Goroutine.flush st))).chanSend gid core).1
  | .chanRecv gid core st => ((s.onGlobal (·.onGoroutine gid (Goroutine.flush st))).chanRecv gid core).1
  | .chanClose core => s.chanClose core
  | .dropGoroutine core => (s.dropGoroutine core).1
  | .dropChan core => s.dropChan core
  | .finish gid thrown => s.onGlobal (·.finish gid thrown)

/-- `drive` performs a channel operation, or completes a goroutine, only for the
goroutine it has just polled: present, unfinished and parked nowhere. -/
def ChanEnabled (s : Runtime) : ChanAction → Prop
  | .chanSend gid _ _ => s.g.Unfinished gid ∧ s.g.waits gid = 0
  | .chanRecv gid _ _ => s.g.Unfinished gid ∧ s.g.waits gid = 0
  | .finish gid _ => s.g.Unfinished gid ∧ s.g.waits gid = 0
  | _ => True

instance (s : Runtime) : ∀ a, Decidable (s.ChanEnabled a)
  | .chanSend .. | .chanRecv .. | .finish .. => inferInstanceAs (Decidable (_ ∧ _))
  | .reserveCoreIds _ | .registerGoroutine .. | .publish .. | .registerChan .. | .chanClose _
  | .dropGoroutine _ | .dropChan _ => .isTrue trivial

theorem chanStep_channelsOk (s : Runtime) (a : ChanAction) (h : s.g.ChannelsOk) (ha : s.ChanEnabled a) :
    (s.chanStep a).g.ChannelsOk := by
  cases a with
  | reserveCoreIds count => exact h.of_eq rfl (fun x _ hx => hx)
  | registerGoroutine poll future cleanup handle =>
    exact h.of_eq rfl (fun x _ hx => hx.insert rfl)
  | publish gid poll future cleanup => exact h.of_eq rfl (fun x _ hx => hx.insert rfl)
  | registerChan cap owns => exact Global.registerChan_channelsOk cap owns h
  | chanSend gid core st =>
    exact chanSend_channelsOk (h.onGoroutine gid (fun _ => rfl)) (ha.1.onGoroutine gid (fun _ => rfl)) ha.2
  | chanRecv gid core st =>
    exact Global.chanRecv_channelsOk (h.onGoroutine gid (fun _ => rfl))
      (ha.1.onGoroutine gid (fun _ => rfl)) ha.2
  | chanClose core => exact chanClose_channelsOk core h
  | dropGoroutine core => exact dropGoroutine_channelsOk core h
  | dropChan core => exact dropChan_channelsOk core h
  | finish gid thrown => exact Global.finish_channelsOk thrown h ha.2

end Runtime

/-- In every state reached from an empty scheduler by any run of the channel
operations, every channel is well formed and every waiter is a live, unfinished
goroutine that waits once. -/
theorem channels_wellFormed_of_run (actions : List ChanAction)
    (hrun : Allowed Runtime.chanStep Runtime.ChanEnabled Runtime.empty actions) :
    let g := (execute Runtime.chanStep Runtime.empty actions).g
    (∀ core c, g.chans.lookup core = some c →
      c.buf.length ≤ c.cap ∧
      (c.receivers ≠ [] → c.buf = [] ∧ c.senders = []) ∧
      (c.senders ≠ [] → c.buf.length = c.cap) ∧
      (c.closed = true → c.senders = [] ∧ c.receivers = []) ∧
      (∀ x, x ∈ c.senders ∨ x ∈ c.receivers →
        ∃ gr, g.goroutines.lookup x = some gr ∧ gr.done = false)) ∧
    ∀ x, g.waits x ≤ 1 := by
  have h : (execute Runtime.chanStep Runtime.empty actions).g.ChannelsOk :=
    hrun.invariant (I := fun s => s.g.ChannelsOk) Runtime.chanStep_channelsOk Global.empty_channelsOk
  refine ⟨fun core c hc => ?_, h.once⟩
  have hw := h.wellFormed core c hc
  exact ⟨hw.buf_le, hw.receivers_idle, hw.senders_full, hw.closed_idle, fun x => h.unfinished_of_mem hc⟩

/-- A sender parked on an unbuffered channel, met by a receiver. -/
theorem channels_wellFormed_of_handoff :
    let actions := [.registerGoroutine 0 0 none null, .registerGoroutine 0 0 none null,
      .registerChan 0 true, .chanSend 1 3 { TaskState.idle with pendingSend := 7 },
      .chanRecv 2 3 TaskState.idle]
    Allowed Runtime.chanStep Runtime.ChanEnabled Runtime.empty actions ∧
      (execute Runtime.chanStep Runtime.empty actions).g.waits 1 ≤ 1 :=
  ⟨by decide, (channels_wellFormed_of_run _ (by decide)).2 1⟩

end Neutron
