import Neutron.Placement
import Neutron.RegistryRun
import Neutron.Workers

/-!
# Effects of the pool

What a step of the pool does to the rest of the runtime: registry entries are only
removed, and channels appear only under core ids that the step draws. Spawning a joinable
goroutine registers a wrapper as well and is treated apart.
-/

namespace Neutron

open Registry

/-- Channels are registered under ids that were not drawn before. -/
structure Global.Continues (g g' : Global) : Prop where
  nextCore_le : g.nextCore ≤ g'.nextCore
  chans : ∀ core, g.chans.lookup core = none → core < g.nextCore ∨ g'.nextCore ≤ core →
    g'.chans.lookup core = none

namespace Global

variable {g g' g'' : Global}

theorem Continues.refl (g : Global) : g.Continues g := ⟨le_rfl, fun _ h _ => h⟩

theorem Continues.trans (h : g.Continues g') (h' : g'.Continues g'') : g.Continues g'' := by
  refine ⟨h.nextCore_le.trans h'.nextCore_le, fun core hn hb => ?_⟩
  have h₁ := h.nextCore_le
  have h₂ := h'.nextCore_le
  rcases hb with hb | hb
  · exact h'.chans core (h.chans core hn (.inl hb)) (.inl (by omega))
  · exact h'.chans core (h.chans core hn (.inr (by omega))) (.inr hb)

/-- Steps that draw no core id and only take channels away or update them. -/
theorem Continues.of_chans (hc : g'.nextCore = g.nextCore)
    (h : ∀ core, g.chans.lookup core = none → g'.chans.lookup core = none) : g.Continues g' :=
  ⟨hc.ge, fun core hn _ => h core hn⟩

theorem Continues.of_eq (hc : g'.nextCore = g.nextCore) (h : g'.chans = g.chans) : g.Continues g' :=
  .of_chans hc (fun _ hn => h ▸ hn)

/-- Steps that draw ids, the first of which may name a new channel. -/
theorem Continues.draws {n : ℕ} (hcore : g'.nextCore = min (g.nextCore + n) maxI64)
    (hn : g'.nextCore < maxI64) (hpos : 0 < n)
    (h : ∀ core, core ≠ g.nextCore → g.chans.lookup core = none → g'.chans.lookup core = none) :
    g.Continues g' := by
  have hne : g'.nextCore = g.nextCore + n := by omega
  refine ⟨by omega, fun core hnone hb => h core ?_ hnone⟩
  omega

theorem Continues.registerChan (cap : ℕ) (owns : Bool)
    (hn : (g.registerChan cap owns).1.nextCore < maxI64) : g.Continues (g.registerChan cap owns).1 := by
  refine .draws (n := 1) rfl hn one_pos (fun core hne hnone => ?_)
  change (g.chans.insert g.nextCore _).lookup core = none
  rw [AList.lookup_insert_ite, if_neg hne]
  exact hnone

theorem Continues.pushReady (h : g.Continues g') (gid : Int) : g.Continues (g'.pushReady gid) :=
  h.trans (.of_eq rfl rfl)

theorem Continues.onGoroutine (h : g.Continues g') (gid : Int) (f : Goroutine → Goroutine) :
    g.Continues (g'.onGoroutine gid f) :=
  h.trans (.of_eq rfl rfl)

theorem Continues.releaseSender (h : g.Continues g') (gid : Int) : g.Continues (g'.releaseSender gid) :=
  h.trans (.of_eq rfl rfl)

theorem Continues.onChan (h : g.Continues g') (core : Int) (f : Chan → Chan) :
    g.Continues (g'.onChan core f) := by
  refine h.trans (.of_chans rfl (fun k hk => ?_))
  rw [chans_onChan, AList.lookup_modify, hk]
  split
  · rfl
  · rfl

theorem continues_pushReadyBatch (ids : List Int) : g.Continues (g.pushReadyBatch ids) := by
  unfold pushReadyBatch
  split
  · exact .refl g
  · exact .of_eq rfl rfl

theorem continues_chanRecv (gid core : Int) : g.Continues (g.chanRecv gid core).1 := by
  apply chanRecv_cases g (P := fun out => g.Continues out.1)
  case gone => exact fun _ => .of_eq rfl rfl
  case refill =>
    intro c v rest s senders _ _ _
    exact ((((Continues.refl g).onGoroutine gid _).onChan core _).releaseSender s).pushReady gid
  case buffered =>
    intro c v rest _ _ _
    exact (((Continues.refl g).onGoroutine gid _).onChan core _).pushReady gid
  case taken =>
    intro c s senders _ _ _
    exact (((((Continues.refl g).onChan core _).onGoroutine s _).onGoroutine gid _).pushReady s).pushReady gid
  case closed => exact fun _ _ _ _ _ => .of_eq rfl rfl
  case parked => exact fun _ _ _ _ _ => (Continues.refl g).onChan core _

theorem continues_joinPark (gid target : Int) : g.Continues (g.joinPark gid target) := by
  unfold joinPark
  split
  · exact .of_eq rfl rfl
  · split
    · exact .of_eq rfl rfl
    · exact .of_eq rfl rfl

theorem continues_parkJob (gid core : Int) : g.Continues (g.parkJob gid core).1 := by
  unfold parkJob
  split
  · exact .refl g
  · split
    · exact .refl g
    · exact .of_eq rfl rfl

theorem continues_finish (gid thrown : Int) : g.Continues (g.finish gid thrown) := by
  unfold finish
  split
  · exact .refl g
  · dsimp only
    split
    · exact .of_eq rfl rfl
    · exact .of_eq rfl rfl

theorem continues_completeOp (core result : Int) : g.Continues (g.completeOp core result) := by
  unfold completeOp
  split
  · exact .refl g
  · dsimp only
    split
    · exact .of_eq rfl rfl
    · exact .of_eq rfl rfl

theorem continues_wakeReadyIos (ios : List Int) : g.Continues (g.wakeReadyIos ios) := by
  refine List.foldlRecOn ios wakeReadyIo (motive := g.Continues) (.refl g) (fun g' h core _ => h.trans ?_)
  unfold wakeReadyIo
  split
  · exact .refl g'
  · exact .of_eq rfl rfl

end Global

/-- Entries leave the registry, and the scheduler continues. -/
structure Runtime.Follows (s s' : Runtime) : Prop where
  reaches : Reaches (fun _ => True) s.reg s'.reg
  continues : s.g.Continues s'.g

namespace Runtime

variable {s s' s'' : Runtime}

open Global

theorem Follows.refl (s : Runtime) : s.Follows s := ⟨.refl, .refl _⟩

theorem Follows.trans (h : s.Follows s') (h' : s'.Follows s'') : s.Follows s'' :=
  ⟨h.reaches.trans h'.reaches, h.continues.trans h'.continues⟩

theorem Follows.scheduler (hreg : s'.reg = s.reg) (h : s.g.Continues s'.g) : s.Follows s' :=
  ⟨hreg ▸ .refl, h⟩

theorem Follows.of_eq (hreg : s'.reg = s.reg) (hc : s'.g.nextCore = s.g.nextCore)
    (h : s'.g.chans = s.g.chans) : s.Follows s' :=
  .scheduler hreg (.of_eq hc h)

theorem follows_dropGoroutine (core : Int) : s.Follows (s.dropGoroutine core).1 := by
  refine ⟨reaches_dropGoroutine (fun _ => trivial) core, ?_⟩
  unfold dropGoroutine
  cases s.g.goroutines.lookup core with
  | none => exact .refl _
  | some gr =>
    refine .of_chans rfl (fun k hk => ?_)
    change (s.g.chans.mapWithKey _).lookup k = none
    rw [AList.lookup_mapWithKey, hk, Option.map_none]

theorem follows_dropChan (core : Int) : s.Follows (s.dropChan core) := by
  refine ⟨reaches_dropChan (fun _ => trivial) core, ?_⟩
  unfold dropChan
  cases s.g.chans.lookup core with
  | none => exact .refl _
  | some c =>
    refine .of_chans rfl (fun k hk => ?_)
    change (s.g.chans.erase core).lookup k = none
    rw [AList.lookup_erase_ite]
    split
    · rfl
    · exact hk

theorem follows_dropOp (core : Int) : s.Follows (s.dropOp core) := by
  refine ⟨reaches_dropOp (fun _ => trivial) core, ?_⟩
  unfold dropOp
  cases s.g.ops.lookup core with
  | none => exact .refl _
  | some op => exact .of_eq rfl rfl

theorem follows_chanClose (core : Int) : s.Follows (s.chanClose core) := by
  apply chanClose_cases (P := fun s' => s.Follows s')
  case gone => exact fun _ => .refl s
  case again => exact fun _ _ _ => .refl s
  case closing =>
    intro c _ _
    obtain ⟨hchans, hcore⟩ := s.closeRelease_kept core c
    constructor
    · dsimp only
      split
      · exact reaches_removeAll _ (fun _ _ => trivial)
      · exact .refl
    · exact ((Continues.refl s.g).onChan core _).trans (.of_eq hcore hchans)

theorem follows_chanSend (gid core : Int) : s.Follows (s.chanSend gid core).1 := by
  apply chanSend_cases s (P := fun out => s.Follows out.1)
  case gone => exact fun _ => .of_eq rfl rfl rfl
  case closed =>
    intro c _ _
    refine ⟨?_, .of_eq rfl rfl⟩
    dsimp only
    split
    · exact reaches_remove trivial
    · exact .refl
  case handed =>
    intro c receiver rest _ _ _
    exact .scheduler rfl
      (((((Continues.refl s.g).onChan core _).onGoroutine receiver _).onGoroutine gid _).pushReady receiver
        |>.pushReady gid)
  case buffered =>
    intro c _ _ _ _ _
    exact .scheduler rfl (((Continues.refl s.g).onChan core _).releaseSender gid)
  case parked =>
    intro c _ _ _ _
    exact .scheduler rfl (((Continues.refl s.g).onGoroutine gid _).onChan core _)

theorem follows_parkOn (gid : Int) (park : Park) : s.Follows (s.parkOn gid park).1 := by
  cases park with
  | none => exact .refl s
  | chan core op =>
    cases op with
    | send => exact (follows_chanSend gid core).trans (.of_eq rfl rfl rfl)
    | recv => exact .scheduler rfl ((continues_chanRecv gid core).trans (.of_eq rfl rfl))
  | timer deadline => exact .of_eq rfl rfl rfl
  | fd io read =>
    unfold parkOn
    have hfd (s : Runtime) (fd : Int) : s.Follows (s.registerFd io fd read) := by
      unfold registerFd
      split
      · exact .refl s
      · exact .of_eq rfl rfl rfl
    dsimp only
    split
    · exact hfd s 0
    · rename_i slot _
      have hio : s.Follows (s.onGlobal (·.onIo io (fun slot =>
          { slot with parked := true, waiters := slot.waiters ++ [gid] }))) := .of_eq rfl rfl rfl
      exact hio.trans (hfd _ slot.fd)
  | join target => exact .scheduler rfl ((continues_joinPark gid target).trans (.of_eq rfl rfl))
  | job core => exact .scheduler rfl ((continues_parkJob gid core).trans (.of_eq rfl rfl))

/-! ## Handles of scheduler objects -/

theorem follows_dropWrapper (kind : Handle → Bool) (id : Int) {release : Runtime → Int → Runtime}
    (hr : ∀ (s : Runtime) core, s.Follows (release s core)) : s.Follows (s.dropWrapper kind id release) := by
  refine ⟨reaches_dropWrapper (fun _ => trivial) kind id (fun s core => (hr s core).reaches), ?_⟩
  unfold dropWrapper
  dsimp only
  cases (s.reg.removeKind id kind).2.bind Handle.core? with
  | none => exact .refl _
  | some core => exact (hr { s with reg := (s.reg.removeKind id kind).1 } core).continues

theorem follows_chanDrop (id : Int) : s.Follows (s.chanDrop id) := by
  refine ⟨reaches_chanDrop (fun _ => trivial) id, ?_⟩
  unfold chanDrop
  split
  · exact .refl _
  cases s.reg.lookup id with
  | none => exact .refl _
  | some hd =>
    cases hd with
    | chan core count =>
      dsimp only
      split
      · exact .refl _
      · exact (follows_dropChan (s := { s with reg := s.reg.retire id }) core).continues
    | _ => exact .refl _

theorem follows_asyncOpDrop (id : Int) : s.Follows (s.asyncOpDrop id) := by
  refine ⟨reaches_asyncOpDrop (fun _ => trivial) id, ?_⟩
  unfold asyncOpDrop
  split
  · exact .refl _
  dsimp only
  cases s.pendingOp id with
  | none => exact .refl _
  | some op => exact (follows_dropOp op).continues

theorem follows_dropIo (core : Int) : s.Follows ((s.detachFd core).dropIo core) := .of_eq rfl rfl rfl

/-- The scheduler continues through every operation on handles. -/
theorem continues_registryStep {op : RegistryOp} (hop : ∀ g, op ≠ .schedule g)
    (hn : (s.registryStep op).1.g.nextCore < maxI64) : s.g.Continues (s.registryStep op).1.g := by
  cases op with
  | chanNew capacity owns => exact .registerChan _ owns hn
  | chanDrop id => exact (follows_chanDrop id).continues
  | asyncOpDrop id => exact (follows_asyncOpDrop id).continues
  | goroutineDrop id => exact (follows_dropWrapper _ id (fun s core => follows_dropGoroutine core)).continues
  | reactorRegDrop id => exact (follows_dropWrapper _ id (fun s core => follows_dropIo core)).continues
  | asyncIoDrop id => exact (follows_dropWrapper _ id (fun s core => follows_dropIo core)).continues
  | schedule g => exact absurd rfl (hop g)
  | _ => exact .refl _

end Runtime

/-! ## Steps of the pool -/

namespace Registry

theorem reaches_releaseGoroutine (r : Registry) (gr : Goroutine) :
    Reaches (fun _ => True) r (r.releaseGoroutine gr) := by
  have hif {r₁ : Registry} {c : Prop} [Decidable c] (h : Reaches (fun _ => True) r r₁) (id : Int) :
      Reaches (fun _ => True) r (if c then (r₁.remove id).1 else r₁) := by
    split
    · exact h.trans (reaches_remove trivial)
    · exact h
  exact hif (hif (reaches_removeGoroutineHandle trivial) gr.pendingException) gr.result

end Registry

namespace System

variable {σ : System}

open Global Neutron.Runtime

theorem follows_carryOn (w : ℕ) : σ.rt.Follows (σ.carryOn w).rt := by
  unfold carryOn
  split
  · exact .scheduler rfl (continues_pushReadyBatch _)
  · exact .refl _

theorem follows_pushOutside (gid : Int) : σ.rt.Follows (σ.pushOutside gid).rt := by
  unfold pushOutside
  split
  · exact .of_eq rfl rfl rfl
  · exact .refl _

theorem follows_onPolling (w : ℕ) (f : Worker → Worker) : σ.rt.Follows (σ.onPolling w f).rt := by
  unfold onPolling
  split
  · exact .refl _
  · exact .refl _

theorem follows_popShared (w : ℕ) : σ.rt.Follows (σ.popShared w).rt := by
  unfold popShared
  split
  · rename_i _ g gid _ hpop
    refine .scheduler rfl ?_
    change σ.rt.g.Continues g
    obtain rfl : σ.rt.g.popReady.1 = g := by rw [hpop]
    unfold popReady
    split
    · exact .refl _
    · exact .of_eq rfl rfl
  · exact .refl _

theorem follows_popLocal (w : ℕ) : σ.rt.Follows (σ.popLocal w).rt := by
  unfold popLocal
  split
  · split
    · exact .refl _
    · exact .refl _
  · exact .refl _

theorem follows_refill (w : ℕ) : σ.rt.Follows (σ.refill w).rt := by
  have hpop : σ.rt.g.Continues (σ.rt.g.popReadyBatch σ.workers.size).1 := by
    unfold popReadyBatch
    split
    · exact .refl _
    · exact .of_eq rfl rfl
  unfold refill
  split
  · dsimp only
    split
    · exact .scheduler rfl hpop
    · exact .refl _
  · exact .refl _

theorem follows_steal (w victim : ℕ) : σ.rt.Follows (σ.steal w victim).rt := by
  unfold steal
  split
  · split
    · exact .refl _
    · split
      · exact .refl _
      · exact .refl _
  · exact .refl _

theorem follows_flushBatch (w : ℕ) : σ.rt.Follows (σ.flushBatch w).rt := by
  unfold flushBatch
  split
  · split
    · exact .of_eq rfl rfl rfl
    · exact .refl _
  · exact .refl _

theorem follows_drawDetached (w : ℕ) (wk : Worker) (gr : Goroutine)
    (hn : (σ.drawDetached w wk gr).rt.g.nextCore < maxI64) :
    σ.rt.Follows (σ.drawDetached w wk gr).rt := by
  by_cases hleft : 0 < wk.range.2
  · have hg : (σ.drawDetached w wk gr).rt.g = σ.rt.g := by
      change (if 0 < wk.range.2 then _ else _ : Global × Int).1 = _
      rw [if_pos hleft]
    exact .of_eq rfl (congrArg Global.nextCore hg) (congrArg Global.chans hg)
  · have hg : (σ.drawDetached w wk gr).rt.g = σ.rt.g.bumpCore detachedBatchCap := by
      change (if 0 < wk.range.2 then _ else _ : Global × Int).1 = _
      rw [if_neg hleft]
      rfl
    refine .scheduler rfl (.draws (n := detachedBatchCap) ?_ hn (by decide) (fun core _ hnone => ?_))
    · rw [hg]
      rfl
    · rw [hg]
      exact hnone

theorem follows_goDetached (site : Option ℕ) (poll : PollFn) (future : Int) (cleanup : CleanupFn)
    (hn : (σ.goDetached site poll future cleanup).rt.g.nextCore < maxI64) :
    σ.rt.Follows (σ.goDetached site poll future cleanup).rt := by
  unfold goDetached at hn ⊢
  cases site with
  | none => exact .scheduler rfl (.draws (n := 1) rfl hn one_pos (fun _ _ hnone => hnone))
  | some w =>
    dsimp only at hn ⊢
    cases hf : σ.free? w with
    | none => exact .refl _
    | some wk =>
      rw [hf] at hn
      exact follows_drawDetached w wk _ hn

theorem follows_fireTimers (now : Int) : σ.rt.Follows (σ.fireTimers now).rt := by
  unfold fireTimers
  split
  · exact .refl _
  · exact .of_eq rfl rfl rfl

theorem follows_beginPoll (w : ℕ) : σ.rt.Follows (σ.beginPoll w).rt := by
  unfold beginPoll
  split
  · split
    · split
      · exact .of_eq rfl rfl rfl
      · exact .refl _
    · exact .refl _
    · exact .refl _
  · exact .refl _

theorem follows_endPoll (w : ℕ) : σ.rt.Follows (σ.endPoll w).rt := by
  unfold endPoll
  split
  · exact .refl _
  · rename_i wk gid _
    split
    · exact .refl _
    · split
      · exact .refl _
      · split
        · exact .scheduler rfl (continues_finish gid wk.exception)
        · have hflush : σ.rt.Follows (σ.rt.onGlobal (·.onGoroutine gid
              (fun gr => { gr.flush wk.state with tasks := wk.tasks }))) := .of_eq rfl rfl rfl
          exact hflush.trans (follows_parkOn gid wk.state.park)

theorem follows_shutdown : σ.rt.Follows σ.shutdown.rt := by
  refine ⟨?_, .of_eq rfl rfl⟩
  exact List.foldlRecOn _ Registry.releaseGoroutine (motive := Reaches (fun _ => True) σ.rt.reg) .refl
    (fun r h gr _ => h.trans (reaches_releaseGoroutine r gr))

/-- Every step but the spawn of a joinable goroutine. Allocations by the program make no
wrappers. -/
theorem follows_step (a : Act) (hn : (σ.step a).rt.g.nextCore < maxI64)
    (hgo : ∀ site poll future cleanup, a ≠ .go site poll future cleanup)
    (halloc : ∀ hd, a = .alloc hd → hd.core? = none) : σ.rt.Follows (σ.step a).rt := by
  cases a with
  | go site poll future cleanup => exact absurd rfl (hgo site poll future cleanup)
  | goDetached site poll future cleanup => exact follows_goDetached site poll future cleanup hn
  | popShared w => exact follows_popShared w
  | popLocal w => exact follows_popLocal w
  | refill w => exact follows_refill w
  | steal w victim => exact follows_steal w victim
  | beginPoll w => exact follows_beginPoll w
  | flushBatch w => exact follows_flushBatch w
  | endPoll w => exact follows_endPoll w
  | carryOn w => exact follows_carryOn w
  | pushOutside gid => exact follows_pushOutside gid
  | registerChan cap owns => exact .scheduler rfl (.registerChan cap owns hn)
  | registerIo => exact .scheduler rfl (.draws (n := 1) rfl hn one_pos (fun _ _ hnone => hnone))
  | registerOp => exact .scheduler rfl (.draws (n := 1) rfl hn one_pos (fun _ _ hnone => hnone))
  | chanClose core => exact follows_chanClose core
  | dropChan core => exact follows_dropChan core
  | dropGoroutine core => exact follows_dropGoroutine core
  | dropIo core => exact follows_dropIo core
  | dropOp core => exact follows_dropOp core
  | attachFd io fd read => exact .of_eq rfl rfl rfl
  | ioReady core =>
    refine .scheduler rfl ?_
    change σ.rt.g.Continues (σ.rt.g.ioReady core).1
    unfold ioReady
    split
    · exact .refl _
    · exact .of_eq rfl rfl
  | opResult core =>
    refine .scheduler rfl ?_
    change σ.rt.g.Continues (σ.rt.g.opResult core).1
    unfold opResult
    split
    · exact .refl _
    · exact .of_eq rfl rfl
  | completeOp core result => exact .scheduler rfl (continues_completeOp core result)
  | fireTimers now => exact follows_fireTimers now
  | wakeReadyIos ios => exact .scheduler rfl (continues_wakeReadyIos ios)
  | join site gid =>
    have hrearm : ((σ.onGlobal (fun g => (g.takeException gid).1)).rearm site
        (σ.rt.g.takeException gid).2).rt = σ.rt.onGlobal (fun g => (g.takeException gid).1) := by
      unfold rearm
      split
      · split
        · rfl
        · rfl
      · rfl
    change σ.rt.Follows ((σ.onGlobal _).rearm site _).rt
    rw [hrearm]
    refine .scheduler rfl ?_
    change σ.rt.g.Continues (σ.rt.g.takeException gid).1
    unfold takeException
    split
    · exact .refl _
    · split
      · exact .of_eq rfl rfl
      · exact .refl _
  | alloc hd => exact ⟨Reaches.refl.insert hd (halloc hd rfl), .refl _⟩
  | free id => exact ⟨reaches_remove trivial, .refl _⟩
  | shutdown => exact follows_shutdown
  | _ => exact follows_onPolling _ _

end System
end Neutron
