import Neutron.ChannelFrame

/-!
# Sends and receives keep the queue in order

`Fifo` relates a channel to two histories, the values sent and the values delivered.
Each outcome of a send or a receive extends the histories by what it did, whichever
of the three delivery paths it took.
-/

namespace Neutron

namespace Global

variable {g g' : Global} {core : Int}

/-- The values found in the records of the given goroutines with `recv_ok` set. -/
def observed (g : Global) (gids : List Int) : List (Int × Int) :=
  gids.filterMap (fun r => (g.goroutines.lookup r).bind (fun gr =>
    if gr.recvOk then some (r, gr.recvResult) else none))

/-- The receivers that left the queue of the channel between two states. -/
def released (core : Int) (g g' : Global) : List Int :=
  (g.receiversOf core).filter (fun r => r ∉ g'.receiversOf core)

theorem observed_of_received {r : Int} {gr : Goroutine} (h : g.goroutines.lookup r = some gr)
    (hok : gr.recvOk = true) : g.observed [r] = [(r, gr.recvResult)] := by
  simp [observed, h, hok]

theorem observed_of_refused {r : Int} {gr : Goroutine} (h : g.goroutines.lookup r = some gr)
    (hok : gr.recvOk = false) : g.observed [r] = [] := by
  simp [observed, h, hok]

theorem released_eq_nil (h : g'.receiversOf core = g.receiversOf core) : released core g g' = [] := by
  rw [released, h]
  simp

theorem released_head {c c' : Chan} {r : Int} {rest : List Int} (h : g.ChannelsOk)
    (hc : g.chans.lookup core = some c) (hr : c.receivers = r :: rest)
    (hc' : g'.chans.lookup core = some c') (hr' : c'.receivers = rest) : released core g g' = [r] := by
  have hnd := h.receivers_nodup hc
  rw [hr, List.nodup_cons] at hnd
  rw [released, receiversOf_eq hc, receiversOf_eq hc', hr, hr', List.filter_cons]
  simp [hnd.1]

/-- A receive that leaves the receiver queue alone is observed at the receiver only. -/
theorem observed_chanRecv {c c' : Chan} {gid : Int} (hc : g.chans.lookup core = some c)
    (hc' : g'.chans.lookup core = some c') (hr : c'.receivers = c.receivers) (hgid : gid ∉ c.receivers) :
    g'.observed (released core g g' ++ [gid].filter (fun r => r ∉ g'.receiversOf core)) =
      g'.observed [gid] := by
  rw [released_eq_nil (by rw [receiversOf_eq hc', receiversOf_eq hc, hr]), List.nil_append,
    receiversOf_eq hc', hr]
  simp [hgid]

/-- The open channel holds the undelivered end of the sent history: first the
buffer, then the values of the parked senders. -/
def Fifo (core : Int) (g : Global) (sent delivered : List (Int × Int)) : Prop :=
  ∃ c taken, g.chans.lookup core = some c ∧ c.closed = false ∧
    sent = taken ++ c.senders.map (fun s => (s, g.pendingSendOf s)) ∧
    taken.map Prod.snd = delivered.map Prod.snd ++ c.buf

/-- The value of the first parked sender is taken: it joins the taken part. -/
theorem sent_take {taken : List (Int × Int)} {s : Int} {senders : List Int}
    (hnd : (s :: senders).Nodup) (hpend : ∀ x, x ≠ s → g'.pendingSendOf x = g.pendingSendOf x) :
    taken ++ (s :: senders).map (fun x => (x, g.pendingSendOf x)) =
      (taken ++ [(s, g.pendingSendOf s)]) ++ senders.map (fun x => (x, g'.pendingSendOf x)) := by
  rw [List.map_cons, List.append_assoc, List.singleton_append]
  congr 2
  apply List.map_congr_left
  intro x hx
  rw [hpend x]
  rintro rfl
  exact (List.nodup_cons.mp hnd).1 hx

theorem Fifo.congr {sent delivered : List (Int × Int)} (h : Fifo core g sent delivered)
    (hs : SameQueue core g g') : Fifo core g' sent delivered := by
  obtain ⟨c, taken, hc, hcl, hsent, hvals⟩ := h
  refine ⟨c, taken, hs.chan.trans hc, hcl, ?_, hvals⟩
  rw [hsent]
  congr 1
  apply List.map_congr_left
  intro x hx
  rw [hs.pending x (by rwa [sendersOf_eq hc])]

theorem chanRecv_fifo {gid : Int} {sent delivered : List (Int × Int)} (h : g.ChannelsOk)
    (hf : Fifo core g sent delivered) (hgid : g.Unfinished gid) (hfree : g.waits gid = 0) :
    let g' := (g.chanRecv gid core).1
    Fifo core g' sent (delivered ++
      g'.observed (released core g g' ++ [gid].filter (fun r => r ∉ g'.receiversOf core))) := by
  obtain ⟨c, taken, hc, hcl, hsent, hvals⟩ := hf
  obtain ⟨gr, hgr, -⟩ := hgid
  have hnotin := notMem_receivers_of_free hc hfree
  have hnots := notMem_sendersOf_of_free core hfree
  rw [sendersOf_eq hc] at hnots
  apply chanRecv_cases (P := fun t => Fifo core t.1 sent (delivered ++
      t.1.observed (released core g t.1 ++ [gid].filter (fun r => r ∉ t.1.receiversOf core))))
  case gone =>
    intro hn
    simp [hc] at hn
  case closed =>
    intro d hd _ _ hdcl
    obtain rfl : c = d := Option.some_inj.mp (hc.symm.trans hd)
    simp [hcl] at hdcl
  case refill =>
    intro d v rest s senders hd hb hs g₁ g₂
    obtain rfl : c = d := Option.some_inj.mp (hc.symm.trans hd)
    have hsg : s ≠ gid := by
      rintro rfl
      exact hnots (by simp [hs])
    have hnd := h.senders_nodup hc
    rw [hs] at hnd
    have hpend (x : Int) (hx : x ≠ s) :
        ((g₂.releaseSender s).pushReady gid).pendingSendOf x = g.pendingSendOf x :=
      (pendingSendOf_onGoroutine_ne hx Goroutine.clearSend).trans
        (pendingSendOf_onGoroutine (f := Goroutine.receive v c.ownsElements true) (fun _ => rfl) x)
    have hval : g₁.pendingSendOf s = g.pendingSendOf s :=
      pendingSendOf_onGoroutine (f := Goroutine.receive v c.ownsElements true) (fun _ => rfl) s
    have hchan : ((g₂.releaseSender s).pushReady gid).chans.lookup core =
        some { c with buf := rest ++ [g.pendingSendOf s], senders := senders } := by
      simp [g₂, g₁, releaseSender, hc, hval]
    have hrec : ((g₂.releaseSender s).pushReady gid).goroutines.lookup gid =
        some (gr.receive v c.ownsElements true) := by
      simp [g₂, g₁, releaseSender, AList.lookup_modify, hsg.symm, hgr]
    rw [observed_chanRecv hc hchan rfl hnotin, observed_of_received hrec rfl]
    refine ⟨_, taken ++ [(s, g.pendingSendOf s)], hchan, hcl, ?_, ?_⟩
    · rw [hsent, hs]
      exact sent_take hnd hpend
    · simp [hvals, hb, Goroutine.receive]
  case buffered =>
    intro d v rest hd hb hs g₁
    obtain rfl : c = d := Option.some_inj.mp (hc.symm.trans hd)
    have hchan : ((g₁.onChan core (fun c => { c with buf := rest })).pushReady gid).chans.lookup core =
        some { c with buf := rest } := by
      simp [g₁, hc]
    have hrec : ((g₁.onChan core (fun c => { c with buf := rest })).pushReady gid).goroutines.lookup gid =
        some (gr.receive v c.ownsElements true) := by
      simp [g₁, hgr]
    rw [observed_chanRecv hc hchan rfl hnotin, observed_of_received hrec rfl]
    refine ⟨_, taken, hchan, hcl, ?_, ?_⟩
    · simp [hsent, hs]
    · simp [hvals, hb, Goroutine.receive]
  case taken =>
    intro d s senders hd hb hs g₁ g₂
    obtain rfl : c = d := Option.some_inj.mp (hc.symm.trans hd)
    have hsg : s ≠ gid := by
      rintro rfl
      exact hnots (by simp [hs])
    have hnd := h.senders_nodup hc
    rw [hs] at hnd
    have hpend (x : Int) (hx : x ≠ s) :
        ((g₂.pushReady s).pushReady gid).pendingSendOf x = g.pendingSendOf x :=
      (pendingSendOf_onGoroutine (f := Goroutine.receive _ c.ownsElements true) (fun _ => rfl) x).trans
        (pendingSendOf_onGoroutine_ne hx Goroutine.clearSend)
    have hchan : ((g₂.pushReady s).pushReady gid).chans.lookup core =
        some { c with senders := senders } := by
      simp [g₂, g₁, hc]
    have hrec : ((g₂.pushReady s).pushReady gid).goroutines.lookup gid =
        some (gr.receive (g.pendingSendOf s) c.ownsElements true) := by
      simp [g₂, g₁, AList.lookup_modify, hsg.symm, hgr]
    rw [observed_chanRecv hc hchan rfl hnotin, observed_of_received hrec rfl]
    refine ⟨_, taken ++ [(s, g.pendingSendOf s)], hchan, hcl, ?_, ?_⟩
    · rw [hsent, hs]
      exact sent_take hnd hpend
    · simp [hvals, hb, Goroutine.receive]
  case parked =>
    intro d hd hb hs _
    obtain rfl : c = d := Option.some_inj.mp (hc.symm.trans hd)
    have hchan : (g.onChan core (fun c => { c with receivers := c.receivers ++ [gid] })).chans.lookup
        core = some { c with receivers := c.receivers ++ [gid] } := by
      simp [hc]
    have hrel : released core g
        (g.onChan core (fun c => { c with receivers := c.receivers ++ [gid] })) = [] := by
      rw [released, receiversOf_eq hchan, receiversOf_eq hc, List.filter_eq_nil_iff]
      intro x hx
      simp [hx]
    refine ⟨_, taken, hchan, hcl, ?_, ?_⟩
    · simp [hsent, hs]
    · simp [hrel, hvals, hb, observed, receiversOf_eq hchan]

end Global

namespace Runtime

open Global

variable {s : Runtime} {core : Int}

theorem chanSend_fifo {gid : Int} {sent delivered : List (Int × Int)} (h : s.g.ChannelsOk)
    (hf : Fifo core s.g sent delivered) (hfree : s.g.waits gid = 0) :
    let g' := (s.chanSend gid core).1.g
    Fifo core g' (sent ++ [(gid, s.g.pendingSendOf gid)])
      (delivered ++ g'.observed (released core s.g g')) := by
  obtain ⟨c, taken, hc, hcl, hsent, hvals⟩ := hf
  have hw := h.wellFormed core c hc
  have hnots := notMem_sendersOf_of_free core hfree
  rw [sendersOf_eq hc] at hnots
  apply chanSend_cases (P := fun t => Fifo core t.1.g (sent ++ [(gid, s.g.pendingSendOf gid)])
      (delivered ++ t.1.g.observed (released core s.g t.1.g)))
  case gone =>
    intro hn
    simp [hc] at hn
  case closed =>
    intro d hd hdcl
    obtain rfl : c = d := Option.some_inj.mp (hc.symm.trans hd)
    simp [hcl] at hdcl
  case handed =>
    intro d receiver rest hd _ hr g₁ g₂ g₃
    obtain rfl : c = d := Option.some_inj.mp (hc.symm.trans hd)
    obtain ⟨hb, hs⟩ := hw.receivers_idle (by simp [hr])
    have hne : receiver ≠ gid := by
      rintro rfl
      exact notMem_receivers_of_free hc hfree (by simp [hr])
    obtain ⟨gr, hgr, -⟩ := h.unfinished_of_mem hc (x := receiver) (by simp [hr])
    have hchan : ((g₃.pushReady receiver).pushReady gid).chans.lookup core =
        some { c with receivers := rest } := by
      simp [g₃, g₂, g₁, hc]
    have hrec : ((g₃.pushReady receiver).pushReady gid).goroutines.lookup receiver =
        some (gr.receive (s.g.pendingSendOf gid) c.ownsElements true) := by
      simp [g₃, g₂, g₁, AList.lookup_modify, hne, hgr]
    rw [released_head h hc hr hchan rfl, observed_of_received hrec rfl]
    refine ⟨_, taken ++ [(gid, s.g.pendingSendOf gid)], hchan, hcl, ?_, ?_⟩
    · simp [hsent, hs]
    · simp [hvals, hb, Goroutine.receive]
  case buffered =>
    intro d hd _ hr _ hroom g₁
    obtain rfl : c = d := Option.some_inj.mp (hc.symm.trans hd)
    have hs : c.senders = [] := by
      by_contra hne
      have := hw.senders_full hne
      omega
    have hchan : (g₁.releaseSender gid).chans.lookup core =
        some { c with buf := c.buf ++ [s.g.pendingSendOf gid] } := by
      simp [g₁, releaseSender, hc]
    rw [released_eq_nil (by rw [receiversOf_eq hchan, receiversOf_eq hc])]
    refine ⟨_, taken ++ [(gid, s.g.pendingSendOf gid)], hchan, hcl, ?_, ?_⟩
    · simp [hsent, hs]
    · simp [hvals, observed]
  case parked =>
    intro d hd _ hr _ g₁
    obtain rfl : c = d := Option.some_inj.mp (hc.symm.trans hd)
    have hchan : (g₁.onChan core (fun c => { c with senders := c.senders ++ [gid] })).chans.lookup core =
        some { c with senders := c.senders ++ [gid] } := by
      simp [g₁, hc]
    have hpend (x : Int) : (g₁.onChan core (fun c => { c with senders := c.senders ++ [gid] })
        ).pendingSendOf x = s.g.pendingSendOf x :=
      pendingSendOf_onGoroutine (f := fun gr => { gr with pendingSendOwned := c.ownsElements })
        (fun _ => rfl) x
    rw [released_eq_nil (by rw [receiversOf_eq hchan, receiversOf_eq hc])]
    refine ⟨_, taken, hchan, hcl, ?_, ?_⟩
    · simp [hsent, hpend]
    · simp [hvals, observed]

end Runtime

end Neutron
