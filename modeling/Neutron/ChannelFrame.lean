import Neutron.ChannelInvariant

/-!
# Frame conditions for one channel

An operation on another channel, or on a goroutine that does not send on this one,
leaves the channel and the values held by its parked senders as they are.
-/

namespace Neutron

namespace Global

variable {g : Global}

def sendersOf (g : Global) (core : Int) : List Int := ((g.chans.lookup core).map Chan.senders).getD []

def receiversOf (g : Global) (core : Int) : List Int := ((g.chans.lookup core).map Chan.receivers).getD []

/-- The two states agree on the channel and on the values its parked senders hold. -/
structure SameQueue (core : Int) (g g' : Global) : Prop where
  chan : g'.chans.lookup core = g.chans.lookup core
  pending : ∀ x ∈ g.sendersOf core, g'.pendingSendOf x = g.pendingSendOf x

theorem SameQueue.refl (core : Int) (g : Global) : SameQueue core g g := ⟨rfl, fun _ _ => rfl⟩

theorem pendingSendOf_onGoroutine_ne {x gid : Int} (h : x ≠ gid) (f : Goroutine → Goroutine) :
    (g.onGoroutine gid f).pendingSendOf x = g.pendingSendOf x := by
  rw [pendingSendOf, onGoroutine, AList.lookup_modify_ne h]
  rfl

theorem pendingSendOf_onGoroutine {gid : Int} {f : Goroutine → Goroutine}
    (hf : ∀ gr, (f gr).pendingSend = gr.pendingSend) (x : Int) :
    (g.onGoroutine gid f).pendingSendOf x = g.pendingSendOf x := by
  by_cases h : x = gid
  · subst h
    cases hl : g.goroutines.lookup x with
    | none => simp [pendingSendOf, onGoroutine, hl]
    | some gr => simp [pendingSendOf, onGoroutine, hl, hf]
  · exact pendingSendOf_onGoroutine_ne h f

variable {core : Int} {g' : Global}

theorem SameQueue.receive (h : SameQueue core g g') (gid value : Int) (owned ok : Bool) :
    SameQueue core g (g'.onGoroutine gid (Goroutine.receive value owned ok)) := by
  refine ⟨h.chan, fun x hx => ?_⟩
  rw [pendingSendOf_onGoroutine (f := Goroutine.receive value owned ok) (fun _ => rfl), h.pending x hx]

theorem SameQueue.onGoroutine {gid : Int} (h : SameQueue core g g') (f : Goroutine → Goroutine)
    (hgid : gid ∉ g.sendersOf core) : SameQueue core g (g'.onGoroutine gid f) := by
  refine ⟨h.chan, fun x hx => ?_⟩
  rw [pendingSendOf_onGoroutine_ne, h.pending x hx]
  rintro rfl
  exact hgid hx

theorem SameQueue.pushReady (h : SameQueue core g g') (gid : Int) : SameQueue core g (g'.pushReady gid) :=
  ⟨h.chan, h.pending⟩

theorem SameQueue.syncReadyLen (h : SameQueue core g g') : SameQueue core g g'.syncReadyLen :=
  ⟨h.chan, h.pending⟩

theorem SameQueue.releaseSender {s : Int} (h : SameQueue core g g') (hs : s ∉ g.sendersOf core) :
    SameQueue core g (g'.releaseSender s) :=
  (h.onGoroutine Goroutine.clearSend hs).pushReady s

theorem SameQueue.onChan {k : Int} (h : SameQueue core g g') (f : Chan → Chan) (hk : k ≠ core) :
    SameQueue core g (g'.onChan k f) :=
  ⟨(AList.lookup_modify_ne hk.symm f _).trans h.chan, h.pending⟩

theorem SameQueue.closeReceiver {st : Global × List Int} (h : SameQueue core g st.1) (owns : Bool)
    (p : Int × Option Int) : SameQueue core g (closeReceiver owns st p).1 := by
  unfold Global.closeReceiver
  split
  · exact (h.receive _ _ _ _).pushReady _
  · exact h.pushReady _
  · exact (h.receive _ _ _ _).pushReady _
  · exact h.pushReady _

theorem SameQueue.closeSender {st : Global × List Int} {s : Int} (h : SameQueue core g st.1)
    (hs : s ∉ g.sendersOf core) : SameQueue core g (closeSender st s).1 := by
  unfold Global.closeSender
  split
  · exact h.releaseSender hs
  · exact h.pushReady s

theorem sendersOf_eq {core : Int} {c : Chan} (hc : g.chans.lookup core = some c) :
    g.sendersOf core = c.senders := by simp [sendersOf, hc]

theorem receiversOf_eq {core : Int} {c : Chan} (hc : g.chans.lookup core = some c) :
    g.receiversOf core = c.receivers := by simp [receiversOf, hc]

theorem mem_chan_of_mem_sendersOf {x core : Int} (h : x ∈ g.sendersOf core) :
    ∃ c, g.chans.lookup core = some c ∧ x ∈ c.senders := by
  unfold sendersOf at h
  cases hc : g.chans.lookup core with
  | none => simp [hc] at h
  | some c => exact ⟨c, rfl, by simpa [hc] using h⟩

/-- A goroutine that waits nowhere holds no place in a sender queue. -/
theorem notMem_sendersOf_of_free {x : Int} (core : Int) (h : g.waits x = 0) : x ∉ g.sendersOf core := by
  intro hx
  obtain ⟨c, hc, hxc⟩ := mem_chan_of_mem_sendersOf hx
  have hle := AList.le_total (f := fun _ c => Chan.waiting x c) hc
  have hpos : 0 < c.senders.count x := List.count_pos_iff.mpr hxc
  rw [waits] at h
  simp only [Chan.waiting] at hle h
  omega

/-- A goroutine parked in one sender queue is in no other channel's queues. -/
theorem ChannelsOk.notMem_sendersOf {x core k : Int} (h : g.ChannelsOk) (hk : k ≠ core)
    (hx : x ∈ g.sendersOf k) : x ∉ g.sendersOf core := by
  intro hx'
  obtain ⟨c, hc, hxc⟩ := mem_chan_of_mem_sendersOf hx
  obtain ⟨c', hc', hxc'⟩ := mem_chan_of_mem_sendersOf hx'
  have hle := AList.add_le_total (f := fun _ c => Chan.waiting x c) hk hc' hc
  have h₁ : 0 < c.senders.count x := List.count_pos_iff.mpr hxc
  have h₂ : 0 < c'.senders.count x := List.count_pos_iff.mpr hxc'
  have honce := h.once x
  rw [waits] at honce
  simp only [Chan.waiting] at hle honce
  omega

theorem ChannelsOk.senders_nodup {core : Int} {c : Chan} (h : g.ChannelsOk)
    (hc : g.chans.lookup core = some c) : c.senders.Nodup := by
  rw [List.nodup_iff_count_le_one]
  intro x
  have hle := AList.le_total (f := fun _ c => Chan.waiting x c) hc
  have honce := h.once x
  rw [waits] at honce
  simp only [Chan.waiting] at hle honce
  omega

theorem ChannelsOk.receivers_nodup {core : Int} {c : Chan} (h : g.ChannelsOk)
    (hc : g.chans.lookup core = some c) : c.receivers.Nodup := by
  rw [List.nodup_iff_count_le_one]
  intro x
  have hle := AList.le_total (f := fun _ c => Chan.waiting x c) hc
  have honce := h.once x
  rw [waits] at honce
  simp only [Chan.waiting] at hle honce
  omega

theorem notMem_receivers_of_free {x core : Int} {c : Chan} (hc : g.chans.lookup core = some c)
    (h : g.waits x = 0) : x ∉ c.receivers := by
  intro hx
  have hle := AList.le_total (f := fun _ c => Chan.waiting x c) hc
  have hpos : 0 < c.receivers.count x := List.count_pos_iff.mpr hx
  rw [waits] at h
  simp only [Chan.waiting] at hle h
  omega

/-! ## Operations elsewhere leave the queue alone -/

theorem chanRecv_sameQueue {k : Int} (gid : Int) (h : g.ChannelsOk) (hk : k ≠ core) :
    SameQueue core g (g.chanRecv gid k).1 := by
  have hsender (c : Chan) (s : Int) (senders : List Int) (hc : g.chans.lookup k = some c)
      (hs : c.senders = s :: senders) : s ∉ g.sendersOf core := by
    apply h.notMem_sendersOf hk
    simp [sendersOf_eq hc, hs]
  have h₀ := SameQueue.refl core g
  apply chanRecv_cases (P := fun t => SameQueue core g t.1)
  case gone =>
    intro _
    exact (h₀.receive gid _ _ _).pushReady gid
  case refill =>
    intro c v rest s senders hc _ hs
    have hs' := hsender c s senders hc hs
    exact (((h₀.receive gid _ _ _).onChan _ hk).releaseSender hs').pushReady gid
  case buffered =>
    intro c v rest _ _ _
    exact ((h₀.receive gid _ _ _).onChan _ hk).pushReady gid
  case taken =>
    intro c s senders hc _ hs
    have h₁ := (h₀.onChan (fun c => { c with senders := senders }) hk).onGoroutine
      Goroutine.clearSend (hsender c s senders hc hs)
    exact ((h₁.receive gid _ _ _).pushReady s).pushReady gid
  case closed =>
    intro c _ _ _ _
    exact (h₀.receive gid _ _ _).pushReady gid
  case parked =>
    intro c _ _ _ _
    exact h₀.onChan _ hk

end Global

namespace Runtime

open Global

variable {s : Runtime} {core : Int}

theorem chanSend_sameQueue {gid k : Int} (hk : k ≠ core) (hfree : s.g.waits gid = 0) :
    SameQueue core s.g (s.chanSend gid k).1.g := by
  have hgid := notMem_sendersOf_of_free core hfree
  have h₀ := SameQueue.refl core s.g
  apply chanSend_cases (P := fun t => SameQueue core s.g t.1.g)
  case gone =>
    intro _
    exact h₀.releaseSender hgid
  case closed =>
    intro c _ _
    exact h₀.releaseSender hgid
  case handed =>
    intro c receiver rest _ _ _
    have h₁ := (h₀.onChan (fun c => { c with receivers := rest }) hk).receive receiver
      (s.g.pendingSendOf gid) c.ownsElements true
    exact ((h₁.onGoroutine Goroutine.clearSend hgid).pushReady receiver).pushReady gid
  case buffered =>
    intro c _ _ _ _ _
    exact (h₀.onChan _ hk).releaseSender hgid
  case parked =>
    intro c _ _ _ _
    exact (h₀.onGoroutine _ hgid).onChan _ hk

theorem chanClose_sameQueue {k : Int} (h : s.g.ChannelsOk) (hk : k ≠ core) :
    SameQueue core s.g (s.chanClose k).g := by
  have h₀ := SameQueue.refl core s.g
  apply chanClose_cases (P := fun t => SameQueue core s.g t.g)
  case gone =>
    intro _
    exact h₀
  case again =>
    intro c _ _
    exact h₀
  case closing =>
    intro c hc _
    have h₁ : SameQueue core s.g (s.closeQueues k) := h₀.onChan _ hk
    have h₂ : SameQueue core s.g ((drainTo c.receivers c.buf).foldl (closeReceiver c.ownsElements)
        (s.closeQueues k, [])).1 := by
      refine List.foldlRecOn _ _ (motive := fun st : Global × List Int => SameQueue core s.g st.1) h₁ ?_
      intro st hst p _
      exact hst.closeReceiver c.ownsElements p
    have h₃ : SameQueue core s.g (s.closeRelease k c).1 := by
      refine List.foldlRecOn _ _ (motive := fun st : Global × List Int => SameQueue core s.g st.1) h₂ ?_
      intro st hst sender hsender
      apply hst.closeSender
      apply h.notMem_sendersOf hk
      rwa [sendersOf_eq hc]
    exact h₃.syncReadyLen

end Runtime

end Neutron
