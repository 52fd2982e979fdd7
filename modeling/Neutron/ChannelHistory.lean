import Neutron.ChannelFifo
import Neutron.PlacementSteps

/-!
# A channel is a first-in first-out queue

The history of a channel is kept beside the run: the values handed to `chan_send`
in call order, and the values observed in the records of the receivers that left
the channel with `recv_ok` set. What has been delivered, what is buffered and what
the parked senders hold is at every moment the sent history; after a close, what was
buffered is still delivered in the same order. Goroutines and other channels come and
go meanwhile; their ids are new as long as the saturating counter has room.
-/

namespace Neutron

open Execution

/-- Forget the most recent entry of a goroutine. -/
def eraseLast (gid : Int) (log : List (Int × Int)) : List (Int × Int) :=
  (log.reverse.eraseP (fun e => e.1 = gid)).reverse

theorem eraseLast_append {gid : Int} {taken held : List (Int × Int)} (h : ∃ e ∈ held, e.1 = gid) :
    eraseLast gid (taken ++ held) = taken ++ eraseLast gid held := by
  obtain ⟨e, he, hgid⟩ := h
  rw [eraseLast, List.reverse_append,
    List.eraseP_append_left (a := e) (by simpa using hgid) _ (by simpa using he),
    List.reverse_append, List.reverse_reverse]
  rfl

theorem eraseLast_map {gid : Int} {senders : List Int} (hnd : senders.Nodup) (f : Int → Int) :
    eraseLast gid (senders.map (fun x => (x, f x))) =
      (senders.filter (· ≠ gid)).map (fun x => (x, f x)) := by
  have he : senders.reverse.eraseP (fun x => x = gid) = senders.reverse.filter (· ≠ gid) := by
    have hp : (fun x : Int => decide (x = gid)) = (fun x => gid == x) := by
      funext x
      rw [Bool.eq_iff_iff, decide_eq_true_iff, beq_iff_eq]
      exact eq_comm
    have hq : (fun x : Int => decide (x ≠ gid)) = (fun x => x != gid) := by
      funext x
      rw [Bool.eq_iff_iff]
      simp
    rw [hp, hq, ← List.erase_eq_eraseP]
    exact (List.nodup_reverse.mpr hnd).erase_eq_filter gid
  rw [eraseLast, ← List.map_reverse, List.eraseP_map]
  change (List.map _ (senders.reverse.eraseP (fun x => x = gid))).reverse = _
  rw [he, List.filter_reverse, List.map_reverse, List.reverse_reverse]

/-! ## New ids -/

namespace Runtime

/-- A batch is published under ids that were reserved and are not registered. -/
def DrawEnabled (s : Runtime) : ChanAction → Prop
  | .publish gid _ _ _ => gid < s.g.nextCore ∧ s.g.goroutines.lookup gid = none
  | a => s.ChanEnabled a

instance (s : Runtime) : ∀ a, Decidable (s.DrawEnabled a)
  | .publish .. | .chanSend .. | .chanRecv .. | .finish .. => inferInstanceAs (Decidable (_ ∧ _))
  | .reserveCoreIds _ | .registerGoroutine .. | .registerChan .. | .chanClose _ | .dropGoroutine _
  | .dropChan _ => .isTrue trivial

theorem DrawEnabled.chanEnabled {s : Runtime} {a : ChanAction} (ha : s.DrawEnabled a) : s.ChanEnabled a := by
  cases a with
  | publish gid poll future cleanup => exact trivial
  | _ => exact ha

end Runtime

namespace Global

/-- Unless the counter is used up, every goroutine has an id drawn before. -/
def Drawn (g : Global) : Prop := g.nextCore < maxI64 → ∀ x, g.status x ≠ none → x < g.nextCore

variable {g g' : Global}

theorem Drawn.of_status (h : g.Drawn) (hs : ∀ x, g'.status x ≠ none → g.status x ≠ none)
    (hn : g'.nextCore = g.nextCore) : g'.Drawn := by
  intro hroom x hx
  rw [hn] at hroom ⊢
  exact h hroom x (hs x hx)

theorem Drawn.of_moves {enter lost : List Int} (h : g.Drawn) (hm : Moves g g' enter lost) : g'.Drawn :=
  h.of_status (fun x hx => hm.status x ▸ hx) hm.nextCore

theorem Drawn.bumpCore (h : g.Drawn) (count : ℕ) : (g.bumpCore count).Drawn := by
  intro hroom x hx
  change min (g.nextCore + count) maxI64 < maxI64 at hroom
  have hlt := h (by omega) x hx
  change x < min (g.nextCore + count) maxI64
  omega

theorem Drawn.insert (h : g.Drawn) {gid : Int} (gr : Goroutine) (hgid : g.nextCore < maxI64 → gid < g.nextCore) :
    Drawn { g with goroutines := g.goroutines.insert gid gr } := by
  intro hroom x hx
  rw [status_insert] at hx
  split at hx
  · rename_i heq
    exact heq ▸ hgid hroom
  · exact h hroom x hx

theorem Drawn.registerGoroutine (h : g.Drawn) (gr : Goroutine) : (g.registerGoroutine gr).1.Drawn := by
  apply (h.bumpCore 1).insert
  intro hroom
  change min (g.nextCore + (1 : ℕ)) maxI64 < maxI64 at hroom
  change g.nextCore < min (g.nextCore + (1 : ℕ)) maxI64
  omega

theorem Drawn.lookup_nextCore (h : g.Drawn) (hroom : g.nextCore < maxI64) :
    g.goroutines.lookup g.nextCore = none := by
  by_contra hne
  have hlt := h hroom g.nextCore (by rw [status, ne_eq, Option.map_eq_none_iff]; exact hne)
  omega

theorem Drawn.finish (h : g.Drawn) {gid : Int} (thrown : Int) (hgid : g.Unfinished gid) :
    (g.finish gid thrown).Drawn := by
  refine h.of_status (fun x hx => ?_) (nextCore_finish gid thrown)
  by_cases hx' : x = gid
  · obtain ⟨gr, hgr, -⟩ := hgid
    rw [hx', status, hgr]
    exact Option.some_ne_none _
  · rw [status_finish thrown hx'] at hx
    exact hx

/-- A goroutine under a new id is no sender of the channel. -/
theorem SameQueue.insert {core gid : Int} (h : g.ChannelsOk) (hnew : g.goroutines.lookup gid = none)
    (gr : Goroutine) : SameQueue core g { g with goroutines := g.goroutines.insert gid gr } := by
  refine ⟨rfl, fun x hx => ?_⟩
  obtain ⟨c, hc, hmem⟩ := mem_chan_of_mem_sendersOf hx
  obtain ⟨old, hold, -⟩ := h.unfinished_of_mem hc (.inl hmem)
  have hne : x ≠ gid := by
    rintro rfl
    rw [hnew] at hold
    cases hold
  exact congrArg (fun o : Option Goroutine => (o.map Goroutine.pendingSend).getD null)
    (AList.lookup_insert_ne hne)

end Global

namespace Runtime

theorem chanStep_drawn (s : Runtime) (a : ChanAction) (h : s.g.Drawn) (ha : s.DrawEnabled a) :
    (s.chanStep a).g.Drawn := by
  cases a with
  | reserveCoreIds count => exact h.bumpCore (max count 1)
  | registerGoroutine poll future cleanup handle => exact h.registerGoroutine _
  | publish gid poll future cleanup => exact h.insert _ fun _ => ha.1
  | registerChan cap owns => exact h.bumpCore 1
  | chanSend gid k st =>
    apply Global.Drawn.of_moves _ (chanSend_moves gid k)
    exact h.of_moves ((Global.Moves.refl s.g).onGoroutine gid (fun _ => rfl) (fun _ => rfl))
  | chanRecv gid k st =>
    apply Global.Drawn.of_moves _ (Global.chanRecv_moves gid k)
    exact h.of_moves ((Global.Moves.refl s.g).onGoroutine gid (fun _ => rfl) (fun _ => rfl))
  | chanClose k => exact h.of_moves (chanClose_moves k)
  | dropGoroutine gid =>
    refine h.of_status (fun x hx => ?_) (nextCore_dropGoroutine gid)
    have hx' : (s.dropGoroutine gid).1.g.status x ≠ none := hx
    rw [status_dropGoroutine] at hx'
    split at hx'
    · exact absurd rfl hx'
    · exact hx'
  | dropChan k => exact h.of_moves (dropChan_moves k)
  | finish gid thrown => exact h.finish thrown ha.1

theorem nextCore_chanStep (s : Runtime) (a : ChanAction) :
    ∃ count : ℕ, (s.chanStep a).g.nextCore = s.g.nextCore ∨
      (s.chanStep a).g.nextCore = min (s.g.nextCore + count) maxI64 := by
  cases a with
  | reserveCoreIds count => exact ⟨max count 1, .inr rfl⟩
  | registerGoroutine poll future cleanup handle => exact ⟨1, .inr rfl⟩
  | publish gid poll future cleanup => exact ⟨0, .inl rfl⟩
  | registerChan cap owns => exact ⟨1, .inr rfl⟩
  | chanSend gid k st => exact ⟨0, .inl (chanSend_moves gid k).nextCore⟩
  | chanRecv gid k st => exact ⟨0, .inl (Global.chanRecv_moves gid k).nextCore⟩
  | chanClose k => exact ⟨0, .inl (chanClose_moves k).nextCore⟩
  | dropGoroutine gid => exact ⟨0, .inl (nextCore_dropGoroutine gid)⟩
  | dropChan k => exact ⟨0, .inl (dropChan_moves k).nextCore⟩
  | finish gid thrown => exact ⟨0, .inl (Global.nextCore_finish gid thrown)⟩

end Runtime

/-! ## The history of a channel -/

/-- A run with the history of one channel beside it. -/
structure Traced where
  rt : Runtime
  sent : List (Int × Int)
  delivered : List (Int × Int)

namespace Traced

open Global

variable (core : Int) (t : Traced)

/-- The sent history after a step: a send on the open channel is recorded when it is
called, and forgotten when its goroutine is dropped while still parked. -/
def sentAfter : ChanAction → List (Int × Int)
  | .chanSend gid k st =>
      if k = core ∧ (t.rt.g.chans.lookup core).map Chan.closed = some false
      then t.sent ++ [(gid, st.pendingSend)] else t.sent
  | .dropGoroutine gid => if gid ∈ t.rt.g.sendersOf core then eraseLast gid t.sent else t.sent
  | _ => t.sent

/-- What a step delivers: the values seen in the records of the receivers it
released, and of the goroutine that received if it did not park. -/
def deliveries (a : ChanAction) : List (Int × Int) :=
  let g' := (t.rt.chanStep a).g
  match a with
  | .chanSend _ k _ => if k = core then g'.observed (released core t.rt.g g') else []
  | .chanRecv gid k _ =>
      if k = core then
        g'.observed (released core t.rt.g g' ++ [gid].filter (fun r => r ∉ g'.receiversOf core))
      else []
  | .chanClose k => if k = core then g'.observed (released core t.rt.g g') else []
  | _ => []

def step (a : ChanAction) : Traced :=
  ⟨t.rt.chanStep a, t.sentAfter core a, t.delivered ++ t.deliveries core a⟩

/-- The operations of a run during the life of the channel. -/
def LifeEnabled (a : ChanAction) : Prop := t.rt.DrawEnabled a ∧ a ≠ .dropChan core

/-- What is registered gets an id of its own: the counter is not used up. -/
def HasRoom : ChanAction → Prop
  | .registerGoroutine .. | .registerChan .. => t.rt.g.nextCore < maxI64
  | _ => True

def QueueEnabled (a : ChanAction) : Prop := t.LifeEnabled core a ∧ t.HasRoom a

/-- The same before the channel is closed. -/
def OpenEnabled (a : ChanAction) : Prop := t.QueueEnabled core a ∧ a ≠ .chanClose core

instance (a : ChanAction) : Decidable (t.LifeEnabled core a) := inferInstanceAs (Decidable (_ ∧ _))

instance : ∀ a, Decidable (t.HasRoom a)
  | .registerGoroutine .. | .registerChan .. => inferInstanceAs (Decidable (_ < _))
  | .reserveCoreIds _ | .publish .. | .chanSend .. | .chanRecv .. | .chanClose _ | .dropGoroutine _
  | .dropChan _ | .finish .. => .isTrue trivial

instance (a : ChanAction) : Decidable (t.QueueEnabled core a) := inferInstanceAs (Decidable (_ ∧ _))

instance (a : ChanAction) : Decidable (t.OpenEnabled core a) :=
  inferInstanceAs (Decidable (_ ∧ _))

variable {core : Int} {t : Traced}

/-- What holds beside the history: the channels are well formed and the ids are drawn before. -/
structure Sound (core : Int) (t : Traced) : Prop where
  channels : t.rt.g.ChannelsOk
  drawn : t.rt.g.Drawn
  core_lt : t.rt.g.nextCore < maxI64 → core < t.rt.g.nextCore

theorem Sound.step (h : t.Sound core) {a : ChanAction} (ha : t.QueueEnabled core a) :
    (t.step core a).Sound core where
  channels := Runtime.chanStep_channelsOk t.rt a h.channels ha.1.1.chanEnabled
  drawn := Runtime.chanStep_drawn t.rt a h.drawn ha.1.1
  core_lt := by
    intro hroom
    change (t.rt.chanStep a).g.nextCore < maxI64 at hroom
    change core < (t.rt.chanStep a).g.nextCore
    have hlt := h.core_lt
    rcases Runtime.nextCore_chanStep t.rt a with ⟨count, heq | heq⟩
    · rw [heq] at hroom ⊢
      exact hlt hroom
    · rw [heq] at hroom ⊢
      omega

/-- A registration leaves the channel and its senders as they are. -/
theorem Sound.register (h : t.Sound core) {a : ChanAction} (ha : t.QueueEnabled core a)
    (hkind : a matches .reserveCoreIds .. | .registerGoroutine .. | .publish .. | .registerChan ..) :
    SameQueue core t.rt.g (t.rt.chanStep a).g := by
  cases a with
  | reserveCoreIds count => exact ⟨rfl, fun _ _ => rfl⟩
  | registerGoroutine poll future cleanup handle =>
    obtain ⟨hchan, hpending⟩ : SameQueue core t.rt.g { t.rt.g with goroutines := _ } :=
      SameQueue.insert h.channels (h.drawn.lookup_nextCore ha.2) (Goroutine.new poll future cleanup handle)
    exact ⟨hchan, hpending⟩
  | publish gid poll future cleanup => exact SameQueue.insert h.channels ha.1.1.2 _
  | registerChan cap owns => exact ⟨AList.lookup_insert_ne (h.core_lt ha.2).ne, fun _ _ => rfl⟩
  | _ => cases hkind

theorem dropGoroutine_fifo (s : Runtime) (gid : Int) {sent delivered : List (Int × Int)}
    (h : s.g.ChannelsOk) (hf : Fifo core s.g sent delivered) :
    Fifo core (s.dropGoroutine gid).1.g
      (if gid ∈ s.g.sendersOf core then eraseLast gid sent else sent) delivered := by
  obtain ⟨c, taken, hc, hcl, hsent, hvals⟩ := hf
  rw [sendersOf_eq hc]
  unfold Runtime.dropGoroutine
  cases hg : s.g.goroutines.lookup gid with
  | none =>
    have hn : gid ∉ c.senders := by
      intro hmem
      obtain ⟨gr, hgr, -⟩ := h.unfinished_of_mem hc (.inl hmem)
      simp [hg] at hgr
    rw [if_neg hn]
    exact ⟨c, taken, hc, hcl, hsent, hvals⟩
  | some gr =>
    have hpend (x : Int) (hx : x ≠ gid) :
        Global.pendingSendOf { s.g with goroutines := s.g.goroutines.erase gid } x =
          s.g.pendingSendOf x := by
      rw [Global.pendingSendOf, AList.lookup_erase_ne hx]
      rfl
    have hmap : (c.senders.filter (· ≠ gid)).map (fun x =>
        (x, Global.pendingSendOf { s.g with goroutines := s.g.goroutines.erase gid } x)) =
          (c.senders.filter (· ≠ gid)).map (fun x => (x, s.g.pendingSendOf x)) := by
      apply List.map_congr_left
      intro x hx
      rw [hpend x (by simpa using (List.mem_filter.mp hx).2)]
    refine ⟨{ c with senders := c.senders.filter (· ≠ gid), receivers := c.receivers.filter (· ≠ gid) },
      taken, ?_, hcl, ?_, hvals⟩
    · simp [Global.clearTimers, Global.clearChans, Global.clearIos, Global.clearOps, hc]
    · change _ = taken ++ (c.senders.filter (· ≠ gid)).map (fun x =>
        (x, Global.pendingSendOf { s.g with goroutines := s.g.goroutines.erase gid } x))
      rw [hmap]
      split
      · rename_i hmem
        have hheld : ∃ e ∈ c.senders.map (fun x => (x, s.g.pendingSendOf x)), e.1 = gid :=
          ⟨(gid, s.g.pendingSendOf gid), List.mem_map_of_mem hmem, rfl⟩
        rw [hsent, eraseLast_append hheld, eraseLast_map (h.senders_nodup hc)]
      · rename_i hmem
        rw [hsent, List.filter_eq_self.mpr]
        intro x hx
        have hne : x ≠ gid := by
          rintro rfl
          exact hmem hx
        simpa using hne

theorem dropChan_sameQueue (s : Runtime) {k : Int} (hk : k ≠ core) :
    SameQueue core s.g (s.dropChan k).g := by
  unfold Runtime.dropChan
  cases hc : s.g.chans.lookup k with
  | none => exact .refl core s.g
  | some c => exact ⟨AList.lookup_erase_ne hk.symm, fun _ _ => rfl⟩

theorem finish_sameQueue {g : Global} {gid : Int} (thrown : Int) (hfree : g.waits gid = 0) :
    SameQueue core g (g.finish gid thrown) := by
  have hgid := notMem_sendersOf_of_free core hfree
  unfold Global.finish
  cases hg : g.goroutines.lookup gid with
  | none => exact .refl core g
  | some gr =>
    have hne {x : Int} (hx : x ∈ g.sendersOf core) : x ≠ gid := by
      rintro rfl
      exact hgid hx
    dsimp only
    split
    · refine ⟨rfl, fun x hx => ?_⟩
      have hl : ((g.goroutines.modify gid (Goroutine.finished thrown)).erase gid).lookup x =
          g.goroutines.lookup x :=
        (AList.lookup_erase_ne (hne hx)).trans (AList.lookup_modify_ne (hne hx) _ _)
      exact congrArg (fun o => (o.map Goroutine.pendingSend).getD null) hl
    · exact ⟨rfl, fun x hx => pendingSendOf_onGoroutine_ne (hne hx) _⟩

/-- Before the channel is closed every step keeps the history and the queue in step. -/
theorem step_fifo {a : ChanAction} (hsound : t.Sound core) (hf : Fifo core t.rt.g t.sent t.delivered)
    (ha : t.OpenEnabled core a) :
    Fifo core (t.step core a).rt.g (t.step core a).sent (t.step core a).delivered := by
  have hopen : (t.rt.g.chans.lookup core).map Chan.closed = some false := by
    obtain ⟨c, taken, hc, hcl, -⟩ := hf
    simp [hc, hcl]
  have h := hsound.channels
  have hregister := hsound.register ha.1
  cases a with
  | reserveCoreIds | registerGoroutine | publish | registerChan =>
    simp only [step, sentAfter, deliveries, List.append_nil]
    exact hf.congr (hregister rfl)
  | chanSend gid k st =>
    obtain ⟨hgid, hfree⟩ : t.rt.g.Unfinished gid ∧ t.rt.g.waits gid = 0 := ha.1.1.1
    have hflush := (SameQueue.refl core t.rt.g).onGoroutine (Goroutine.flush st)
      (notMem_sendersOf_of_free core hfree)
    have hok := h.onGoroutine (f := Goroutine.flush st) gid (fun _ => rfl)
    by_cases hk : k = core
    · subst hk
      obtain ⟨gr, hgr, -⟩ := hgid
      have hval : (t.rt.g.onGoroutine gid (Goroutine.flush st)).pendingSendOf gid = st.pendingSend := by
        simp [Global.pendingSendOf, hgr, Goroutine.flush]
      have hsent : t.sentAfter k (.chanSend gid k st) = t.sent ++ [(gid, st.pendingSend)] := by
        simp [sentAfter, hopen]
      have := Runtime.chanSend_fifo (s := t.rt.onGlobal (·.onGoroutine gid (Goroutine.flush st))) hok
        (hf.congr hflush) hfree
      simp only [step, hsent, deliveries, if_true, ← hval]
      exact this
    · have hs := Runtime.chanSend_sameQueue (s := t.rt.onGlobal (·.onGoroutine gid (Goroutine.flush st)))
        hk hfree
      simp only [step, sentAfter, deliveries, hk, false_and, if_false, List.append_nil]
      exact (hf.congr hflush).congr hs
  | chanRecv gid k st =>
    obtain ⟨hgid, hfree⟩ : t.rt.g.Unfinished gid ∧ t.rt.g.waits gid = 0 := ha.1.1.1
    have hflush := (SameQueue.refl core t.rt.g).onGoroutine (Goroutine.flush st)
      (notMem_sendersOf_of_free core hfree)
    have hok := h.onGoroutine (f := Goroutine.flush st) gid (fun _ => rfl)
    by_cases hk : k = core
    · subst hk
      have := chanRecv_fifo hok (hf.congr hflush) (hgid.onGoroutine gid (fun _ => rfl)) hfree
      simp only [step, sentAfter, deliveries, if_true]
      exact this
    · have hs := chanRecv_sameQueue gid hok hk
      simp only [step, sentAfter, deliveries, hk, if_false, List.append_nil]
      exact (hf.congr hflush).congr hs
  | chanClose k =>
    have hk : k ≠ core := by
      rintro rfl
      exact ha.2 rfl
    simp only [step, sentAfter, deliveries, hk, if_false, List.append_nil]
    exact hf.congr (Runtime.chanClose_sameQueue h hk)
  | dropGoroutine gid =>
    simp only [step, deliveries, List.append_nil]
    exact dropGoroutine_fifo t.rt gid h hf
  | dropChan k =>
    simp only [step, sentAfter, deliveries, List.append_nil]
    have hk : k ≠ core := by
      rintro rfl
      exact ha.1.1.2 rfl
    exact hf.congr (dropChan_sameQueue t.rt hk)
  | finish gid thrown =>
    simp only [step, sentAfter, deliveries, List.append_nil]
    exact hf.congr (finish_sameQueue thrown ha.1.1.1.2)

/-! ## After the close -/

/-- The closed channel still holds the undelivered end of `pending`. -/
def Draining (core : Int) (g : Global) (pending : List Int) (delivered : List (Int × Int)) : Prop :=
  ∃ c, g.chans.lookup core = some c ∧ c.closed = true ∧ delivered.map Prod.snd ++ c.buf = pending

theorem chanClose_closed (s : Runtime) {c : Chan} (h : s.g.ChannelsOk)
    (hc : s.g.chans.lookup core = some c) :
    ∃ d, (s.chanClose core).g.chans.lookup core = some d ∧ d.closed = true ∧ d.buf = c.buf := by
  apply Runtime.chanClose_cases (P := fun s' => ∃ d, s'.g.chans.lookup core = some d ∧
    d.closed = true ∧ d.buf = c.buf)
  case gone =>
    intro hn
    simp [hc] at hn
  case again =>
    intro d hd hdcl
    obtain rfl : c = d := Option.some_inj.mp (hc.symm.trans hd)
    exact ⟨c, hc, hdcl, rfl⟩
  case closing =>
    intro d hd _
    obtain rfl : c = d := Option.some_inj.mp (hc.symm.trans hd)
    refine ⟨{ c with closed := true, receivers := [], senders := [], buf := c.buf.drop c.receivers.length },
      ?_, rfl, ?_⟩
    · rw [chans_syncReadyLen, (s.closeRelease_kept core c).1]
      simp [Runtime.closeQueues, hc]
    · cases hrc : c.receivers with
      | nil => rfl
      | cons r rest => simp [((h.wellFormed core c hc).receivers_idle (by simp [hrc])).1]

/-- The outcome of a receive on a closed channel. -/
theorem chanRecv_closed {g : Global} {gid : Int} {c : Chan} (h : g.ChannelsOk)
    (hc : g.chans.lookup core = some c) (hcl : c.closed = true) (hgid : g.Unfinished gid) :
    ∃ gr, (g.chanRecv gid core).1.goroutines.lookup gid = some gr ∧
      gr.recvOk = !c.buf.isEmpty ∧ gr.recvResult = c.buf.headD null ∧
      (g.chanRecv gid core).1.chans.lookup core = some { c with buf := c.buf.tail } := by
  obtain ⟨gr, hgr, -⟩ := hgid
  obtain ⟨hs, -⟩ := (h.wellFormed core c hc).closed_idle hcl
  apply chanRecv_cases (P := fun st => ∃ gr, st.1.goroutines.lookup gid = some gr ∧
    gr.recvOk = !c.buf.isEmpty ∧ gr.recvResult = c.buf.headD null ∧
    st.1.chans.lookup core = some { c with buf := c.buf.tail })
  case gone =>
    intro hn
    simp [hc] at hn
  case refill =>
    intro d v rest x senders hd _ hxs
    obtain rfl : c = d := Option.some_inj.mp (hc.symm.trans hd)
    simp [hs] at hxs
  case buffered =>
    intro d v rest hd hb _
    obtain rfl : c = d := Option.some_inj.mp (hc.symm.trans hd)
    exact ⟨gr.receive v c.ownsElements true, by simp [hgr], by simp [hb, Goroutine.receive],
      by simp [hb, Goroutine.receive], by simp [hb, hc]⟩
  case taken =>
    intro d x senders hd _ hxs
    obtain rfl : c = d := Option.some_inj.mp (hc.symm.trans hd)
    simp [hs] at hxs
  case closed =>
    intro d hd hb _ _
    obtain rfl : c = d := Option.some_inj.mp (hc.symm.trans hd)
    have htail : c.buf.tail = c.buf := by rw [hb, List.tail_nil]
    exact ⟨gr.receive null false false, by simp [hgr], by simp [hb, Goroutine.receive],
      by simp [hb, Goroutine.receive], by simp [hc, htail]⟩
  case parked =>
    intro d hd _ _ hdcl
    obtain rfl : c = d := Option.some_inj.mp (hc.symm.trans hd)
    simp [hcl] at hdcl

theorem Draining.congr {g g' : Global} {pending : List Int} {delivered : List (Int × Int)}
    (h : Draining core g pending delivered) (hs : SameQueue core g g') :
    Draining core g' pending delivered := by
  obtain ⟨c, hc, hcl, hvals⟩ := h
  exact ⟨c, hs.chan.trans hc, hcl, hvals⟩

/-- A send on a closed channel changes nothing but the sender. -/
theorem chanSend_closed (s : Runtime) (gid : Int) {c : Chan} (hc : s.g.chans.lookup core = some c)
    (hcl : c.closed = true) : (s.chanSend gid core).1.g.chans = s.g.chans := by
  apply Runtime.chanSend_cases (P := fun st => st.1.g.chans = s.g.chans)
  case gone =>
    intro _
    rfl
  case closed =>
    intro d _ _
    rfl
  case handed =>
    intro d receiver rest hd hdcl
    obtain rfl : c = d := Option.some_inj.mp (hc.symm.trans hd)
    simp [hcl] at hdcl
  case buffered =>
    intro d hd hdcl
    obtain rfl : c = d := Option.some_inj.mp (hc.symm.trans hd)
    simp [hcl] at hdcl
  case parked =>
    intro d hd hdcl
    obtain rfl : c = d := Option.some_inj.mp (hc.symm.trans hd)
    simp [hcl] at hdcl

theorem step_draining {a : ChanAction} {pending : List Int} (hsound : t.Sound core)
    (hf : Draining core t.rt.g pending t.delivered) (ha : t.QueueEnabled core a) :
    Draining core (t.step core a).rt.g pending (t.step core a).delivered := by
  have h := hsound.channels
  have hregister := hsound.register ha
  have hf' := hf
  obtain ⟨c, hc, hcl, hvals⟩ := hf
  obtain ⟨hsenders, hreceivers⟩ := (h.wellFormed core c hc).closed_idle hcl
  have hnone : released core t.rt.g = fun _ => [] := by
    funext g'
    simp [released, receiversOf_eq hc, hreceivers]
  cases a with
  | reserveCoreIds | registerGoroutine | publish | registerChan =>
    simp only [step, deliveries, List.append_nil]
    exact hf'.congr (hregister rfl)
  | chanSend gid k st =>
    obtain ⟨hgid, hfree⟩ : t.rt.g.Unfinished gid ∧ t.rt.g.waits gid = 0 := ha.1.1
    by_cases hk : k = core
    · subst hk
      refine ⟨c, ?_, hcl, ?_⟩
      · have := chanSend_closed (t.rt.onGlobal (·.onGoroutine gid (Goroutine.flush st))) gid hc hcl
        exact (congrArg (AList.lookup k) this).trans hc
      · simp [step, deliveries, hnone, observed, hvals]
    · have hflush := (SameQueue.refl core t.rt.g).onGoroutine (Goroutine.flush st)
        (notMem_sendersOf_of_free core hfree)
      have hs := Runtime.chanSend_sameQueue (s := t.rt.onGlobal (·.onGoroutine gid (Goroutine.flush st)))
        hk hfree
      simp only [step, deliveries, hk, if_false, List.append_nil]
      exact (hf'.congr hflush).congr hs
  | chanRecv gid k st =>
    obtain ⟨hgid, hfree⟩ : t.rt.g.Unfinished gid ∧ t.rt.g.waits gid = 0 := ha.1.1
    have hok := h.onGoroutine (f := Goroutine.flush st) gid (fun _ => rfl)
    by_cases hk : k = core
    · subst hk
      obtain ⟨gr, hgr, hrok, hres, hch⟩ := chanRecv_closed hok (g := t.rt.g.onGoroutine gid (Goroutine.flush st))
        hc hcl (hgid.onGoroutine gid (fun _ => rfl))
      refine ⟨_, hch, hcl, ?_⟩
      have hstep : (t.rt.chanStep (.chanRecv gid k st)).g =
        ((t.rt.g.onGoroutine gid (Goroutine.flush st)).chanRecv gid k).1 := rfl
      rw [← hstep] at hgr hch
      simp only [step, deliveries, if_true]
      rw [observed_chanRecv hc hch rfl (by simp [hreceivers])]
      cases hb : c.buf with
      | nil =>
        rw [observed_of_refused hgr (by simp [hrok, hb])]
        simpa [hb] using hvals
      | cons v rest =>
        rw [observed_of_received hgr (by simp [hrok, hb]), hres]
        simpa [hb] using hvals
    · have hflush := (SameQueue.refl core t.rt.g).onGoroutine (Goroutine.flush st)
        (notMem_sendersOf_of_free core hfree)
      have hs := chanRecv_sameQueue gid hok hk
      simp only [step, deliveries, hk, if_false, List.append_nil]
      exact (hf'.congr hflush).congr hs
  | chanClose k =>
    by_cases hk : k = core
    · subst hk
      obtain ⟨d, hd, hdcl, hdb⟩ := chanClose_closed t.rt h hc
      refine ⟨d, hd, hdcl, ?_⟩
      simp [step, deliveries, hnone, observed, hvals, hdb]
    · simp only [step, deliveries, hk, if_false, List.append_nil]
      exact hf'.congr (Runtime.chanClose_sameQueue h hk)
  | dropGoroutine gid =>
    simp only [step, deliveries, List.append_nil]
    change Draining core (t.rt.dropGoroutine gid).1.g pending t.delivered
    unfold Runtime.dropGoroutine
    cases hg : t.rt.g.goroutines.lookup gid with
    | none => exact hf'
    | some gr =>
      refine ⟨{ c with senders := c.senders.filter (· ≠ gid), receivers := c.receivers.filter (· ≠ gid) },
        ?_, hcl, hvals⟩
      simp [Global.clearTimers, Global.clearChans, Global.clearIos, Global.clearOps, hc]
  | dropChan k =>
    simp only [step, deliveries, List.append_nil]
    have hk : k ≠ core := by
      rintro rfl
      exact ha.1.2 rfl
    exact hf'.congr (dropChan_sameQueue t.rt hk)
  | finish gid thrown =>
    simp only [step, deliveries, List.append_nil]
    exact hf'.congr (finish_sameQueue thrown ha.1.1.2)

/-- A channel just registered. -/
def opened (s : Runtime) (cap : ℕ) (ownsElements : Bool) : Traced :=
  ⟨s.chanStep (.registerChan cap ownsElements), [], []⟩

/-- The channel closed, with an empty record of what is delivered from here on. -/
def closed (core : Int) (t : Traced) : Traced := ⟨t.rt.chanClose core, t.sent, []⟩

end Traced

/-- For every reachable scheduler, a channel registered with any capacity delivers what
was sent in the order it was sent, and keeps delivering its buffer after a close. -/
theorem chan_refines_fifo (before : List ChanAction)
    (hbefore : Allowed Runtime.chanStep Runtime.DrawEnabled Runtime.empty before)
    (cap : ℕ) (ownsElements : Bool) (actions : List ChanAction) :
    let s := execute Runtime.chanStep Runtime.empty before
    let core := s.g.nextCore
    Allowed (Traced.step core) (Traced.OpenEnabled core) (Traced.opened s cap ownsElements) actions →
    let t := execute (Traced.step core) (Traced.opened s cap ownsElements) actions
    ∃ c, t.rt.g.chans.lookup core = some c ∧ c.closed = false ∧
      t.delivered.map Prod.snd ++ c.buf ++ c.senders.map t.rt.g.pendingSendOf = t.sent.map Prod.snd ∧
      ∀ later, Allowed (Traced.step core) (Traced.QueueEnabled core) (t.closed core) later →
        let u := execute (Traced.step core) (t.closed core) later
        ∃ d, u.rt.g.chans.lookup core = some d ∧ d.closed = true ∧
          u.delivered.map Prod.snd ++ d.buf = c.buf ∧
          ∀ gid st, u.rt.ChanEnabled (.chanRecv gid core st) →
            ∃ gr, (u.rt.chanStep (.chanRecv gid core st)).g.goroutines.lookup gid = some gr ∧
              gr.recvOk = !d.buf.isEmpty ∧ gr.recvResult = d.buf.headD null := by
  intro s core hactions t
  have hs : s.g.ChannelsOk ∧ s.g.Drawn :=
    hbefore.invariant (I := fun s => s.g.ChannelsOk ∧ s.g.Drawn)
      (fun u a hu ha => ⟨Runtime.chanStep_channelsOk u a hu.1 ha.chanEnabled, Runtime.chanStep_drawn u a hu.2 ha⟩)
      ⟨Global.empty_channelsOk, fun _ x hx => absurd rfl hx⟩
  have hnew : (s.chanStep (.registerChan cap ownsElements)).g.chans.lookup core =
      some (Chan.new cap ownsElements) := AList.lookup_insert _
  have hopened : Global.Fifo core (Traced.opened s cap ownsElements).rt.g [] [] :=
    ⟨_, [], hnew, rfl, rfl, rfl⟩
  have hstart : (Traced.opened s cap ownsElements).Sound core :=
    { channels := Global.registerChan_channelsOk cap ownsElements hs.1
      drawn := hs.2.bumpCore 1
      core_lt := by
        change min (core + (1 : ℕ)) maxI64 < maxI64 → core < min (core + (1 : ℕ)) maxI64
        omega }
  have ht : t.Sound core ∧ Global.Fifo core t.rt.g t.sent t.delivered :=
    hactions.invariant (I := fun t : Traced => t.Sound core ∧ Global.Fifo core t.rt.g t.sent t.delivered)
      (fun u a hu ha => ⟨hu.1.step ha.1, Traced.step_fifo hu.1 hu.2 ha⟩) ⟨hstart, hopened⟩
  obtain ⟨htok, c, taken, hc, hcl, hsent, hvals⟩ := ht
  refine ⟨c, hc, hcl, ?_, ?_⟩
  · rw [hsent, List.map_append, hvals, List.map_map]
    rfl
  intro later hlater u
  obtain ⟨d₀, hd₀, hd₀cl, hd₀b⟩ := Traced.chanClose_closed t.rt htok.channels hc
  have hclosed : (t.closed core).Sound core :=
    { channels := Runtime.chanClose_channelsOk core htok.channels
      drawn := htok.drawn.of_moves (Runtime.chanClose_moves core)
      core_lt := by
        change (t.rt.chanClose core).g.nextCore < maxI64 → core < (t.rt.chanClose core).g.nextCore
        rw [(Runtime.chanClose_moves core).nextCore]
        exact htok.core_lt }
  have hu : u.Sound core ∧ Traced.Draining core u.rt.g c.buf u.delivered :=
    hlater.invariant (I := fun u : Traced => u.Sound core ∧ Traced.Draining core u.rt.g c.buf u.delivered)
      (fun v a hv ha => ⟨hv.1.step ha, Traced.step_draining hv.1 hv.2 ha⟩)
      ⟨hclosed, d₀, hd₀, hd₀cl, by simpa [Traced.closed] using hd₀b⟩
  obtain ⟨huok, d, hd, hdcl, hdvals⟩ := hu
  refine ⟨d, hd, hdcl, hdvals, ?_⟩
  intro gid st hgid
  obtain ⟨gr, hgr, hrok, hres, -⟩ := Traced.chanRecv_closed
    (huok.channels.onGoroutine (f := Goroutine.flush st) gid (fun _ => rfl)) hd hdcl
    (hgid.1.onGoroutine gid (fun _ => rfl))
  exact ⟨gr, hgr, hrok, hres⟩

/-- Two senders on a channel of capacity one, the second registered after the channel and a further
channel, then a receive that refills the buffer. -/
theorem chan_refines_fifo_refill :
    let before := [.registerGoroutine 0 0 none null]
    let actions := [.registerGoroutine 0 0 none null, .registerChan 0 false,
      .chanSend 1 2 { TaskState.idle with pendingSend := 7 },
      .chanSend 3 2 { TaskState.idle with pendingSend := 8 }, .chanRecv 1 2 TaskState.idle]
    let s := execute Runtime.chanStep Runtime.empty before
    let t := execute (Traced.step 2) (Traced.opened s 1 true) actions
    Allowed Runtime.chanStep Runtime.DrawEnabled Runtime.empty before ∧
      Allowed (Traced.step 2) (Traced.OpenEnabled 2) (Traced.opened s 1 true) actions ∧
      t.delivered = [(1, 7)] ∧ ∃ c, t.rt.g.chans.lookup 2 = some c ∧
        t.delivered.map Prod.snd ++ c.buf ++ c.senders.map t.rt.g.pendingSendOf = t.sent.map Prod.snd := by
  intro before actions s t
  have hbefore : Allowed Runtime.chanStep Runtime.DrawEnabled Runtime.empty before := by decide
  have hactions : Allowed (Traced.step 2) (Traced.OpenEnabled 2) (Traced.opened s 1 true) actions := by
    decide
  obtain ⟨c, hc, -, hvals, -⟩ := chan_refines_fifo before hbefore 1 true actions hactions
  exact ⟨hbefore, hactions, by decide, c, hc, hvals⟩

/-- Reservations of 64 ids each, as long as one likes, move the counter and nothing else. -/
theorem execute_reserveCoreIds (n : ℕ) {s : Runtime} (h : s.g.nextCore ≤ maxI64) :
    execute Runtime.chanStep s (List.replicate n (.reserveCoreIds detachedBatchCap)) =
      { s with g := { s.g with nextCore := min (s.g.nextCore + 64 * n) maxI64 } } := by
  induction n generalizing s with
  | zero =>
    have hsame : min (s.g.nextCore + 64 * (0 : ℕ)) maxI64 = s.g.nextCore := by omega
    rw [hsame]
    rfl
  | succ n ih =>
    rw [List.replicate_succ, execute_cons, ih (min_le_right _ _)]
    have hcap : ((max detachedBatchCap 1 : ℕ) : Int) = 64 := rfl
    have hsum : min (min (s.g.nextCore + 64) maxI64 + 64 * (n : Int)) maxI64 =
        min (s.g.nextCore + 64 * ((n + 1 : ℕ) : Int)) maxI64 := by omega
    rw [← hsum]
    rfl

theorem allowed_reserveCoreIds (n : ℕ) (s : Runtime) : Allowed Runtime.chanStep Runtime.DrawEnabled s
    (List.replicate n (.reserveCoreIds detachedBatchCap)) := by
  induction n generalizing s with
  | zero => trivial
  | succ n ih => exact ⟨trivial, ih _⟩

/-- One goroutine, and a counter that has no id left. -/
def usedUp : Runtime :=
  { Runtime.empty with g :=
    { (Runtime.empty.chanStep (.registerGoroutine 0 0 none null)).g with nextCore := maxI64 } }

theorem usedUp_reachable : ∃ before, Allowed Runtime.chanStep Runtime.DrawEnabled Runtime.empty before ∧
    execute Runtime.chanStep Runtime.empty before = usedUp := by
  refine ⟨.registerGoroutine 0 0 none null :: List.replicate (2 ^ 57) (.reserveCoreIds detachedBatchCap),
    ⟨trivial, allowed_reserveCoreIds _ _⟩, ?_⟩
  rw [execute_cons, execute_reserveCoreIds _ (by decide)]
  have hlast : min ((Runtime.empty.chanStep (.registerGoroutine 0 0 none null)).g.nextCore +
      64 * ((2 ^ 57 : ℕ) : Int)) maxI64 = maxI64 := by decide
  rw [hlast]
  rfl

/-- With the counter used up, a channel made later takes the id and the place of the one at hand. -/
theorem channel_replaced_at_last_id :
    ¬ ∀ (before : List ChanAction), Allowed Runtime.chanStep Runtime.DrawEnabled Runtime.empty before →
      ∀ (cap : ℕ) (ownsElements : Bool) (actions : List ChanAction),
        let s := execute Runtime.chanStep Runtime.empty before
        let core := s.g.nextCore
        Allowed (Traced.step core) (fun t a => t.LifeEnabled core a ∧ a ≠ .chanClose core)
          (Traced.opened s cap ownsElements) actions →
        let t := execute (Traced.step core) (Traced.opened s cap ownsElements) actions
        ∃ c, t.rt.g.chans.lookup core = some c ∧
          t.delivered.map Prod.snd ++ c.buf ++ c.senders.map t.rt.g.pendingSendOf = t.sent.map Prod.snd := by
  intro hclaim
  obtain ⟨before, hbefore, hend⟩ := usedUp_reachable
  have h := hclaim before hbefore 1 true
    [.chanSend 1 maxI64 { TaskState.idle with pendingSend := 7 }, .registerChan 1 true]
  rw [hend] at h
  obtain ⟨c, hc, hvals⟩ := h (by decide)
  have hnew : c = Chan.new 1 true := by
    have hlookup : (execute (Traced.step maxI64) (Traced.opened usedUp 1 true)
      [.chanSend 1 maxI64 { TaskState.idle with pendingSend := 7 }, .registerChan 1 true]).rt.g.chans.lookup
        maxI64 = some (Chan.new 1 true) := by decide
    exact Option.some_inj.mp (hc.symm.trans hlookup)
  subst hnew
  exact absurd hvals (by decide)

end Neutron
