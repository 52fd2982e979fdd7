import Neutron.SchedulerCore

/-!
# Channel operations

`chan_send` and `chan_recv` run under the global lock for the goroutine that has
just parked on the channel; `chan_close` may be called by any thread. The three
delivery paths are a direct hand-off to a parked receiver, the ring buffer, and the
take-over of a parked sender's value.
-/

namespace Neutron

namespace Global

variable (g : Global)

def pendingSendOf (gid : Int) : Int := ((g.goroutines.lookup gid).map Goroutine.pendingSend).getD null

/-- Release a parked sender: its value has been taken. -/
def releaseSender (gid : Int) : Global := (g.onGoroutine gid Goroutine.clearSend).pushReady gid

def chanRecv (gid core : Int) : Global × Bool :=
  match g.chans.lookup core with
  | none => ((g.onGoroutine gid (Goroutine.receive null false false)).pushReady gid, false)
  | some chan =>
      match chan.buf with
      | v :: rest =>
          let g := g.onGoroutine gid (Goroutine.receive v chan.ownsElements true)
          match chan.senders with
          | s :: senders =>
              let g := g.onChan core (fun c =>
                { c with buf := rest ++ [g.pendingSendOf s], senders := senders })
              ((g.releaseSender s).pushReady gid, true)
          | [] => ((g.onChan core (fun c => { c with buf := rest })).pushReady gid, false)
      | [] =>
          match chan.senders with
          | s :: senders =>
              let value := g.pendingSendOf s
              let g := g.onChan core (fun c => { c with senders := senders })
              let g := g.onGoroutine s Goroutine.clearSend
              let g := g.onGoroutine gid (Goroutine.receive value chan.ownsElements true)
              ((g.pushReady s).pushReady gid, true)
          | [] =>
              if chan.closed then
                ((g.onGoroutine gid (Goroutine.receive null false false)).pushReady gid, false)
              else (g.onChan core (fun c => { c with receivers := c.receivers ++ [gid] }), false)

/-- The six outcomes of a receive. -/
theorem chanRecv_cases {P : Global × Bool → Prop} {gid core : Int}
    (gone : g.chans.lookup core = none →
      P ((g.onGoroutine gid (Goroutine.receive null false false)).pushReady gid, false))
    (refill : ∀ c v rest s senders, g.chans.lookup core = some c → c.buf = v :: rest →
      c.senders = s :: senders →
      let g₁ := g.onGoroutine gid (Goroutine.receive v c.ownsElements true)
      let g₂ := g₁.onChan core
        (fun c => { c with buf := rest ++ [g₁.pendingSendOf s], senders := senders })
      P ((g₂.releaseSender s).pushReady gid, true))
    (buffered : ∀ c v rest, g.chans.lookup core = some c → c.buf = v :: rest → c.senders = [] →
      let g₁ := g.onGoroutine gid (Goroutine.receive v c.ownsElements true)
      P ((g₁.onChan core (fun c => { c with buf := rest })).pushReady gid, false))
    (taken : ∀ c s senders, g.chans.lookup core = some c → c.buf = [] → c.senders = s :: senders →
      let g₁ := (g.onChan core (fun c => { c with senders := senders })).onGoroutine s
        Goroutine.clearSend
      let g₂ := g₁.onGoroutine gid (Goroutine.receive (g.pendingSendOf s) c.ownsElements true)
      P ((g₂.pushReady s).pushReady gid, true))
    (closed : ∀ c, g.chans.lookup core = some c → c.buf = [] → c.senders = [] → c.closed = true →
      P ((g.onGoroutine gid (Goroutine.receive null false false)).pushReady gid, false))
    (parked : ∀ c, g.chans.lookup core = some c → c.buf = [] → c.senders = [] → c.closed = false →
      P (g.onChan core (fun c => { c with receivers := c.receivers ++ [gid] }), false)) :
    P (g.chanRecv gid core) := by
  rw [chanRecv]
  cases hc : g.chans.lookup core with
  | none => exact gone hc
  | some c =>
    dsimp only
    cases hb : c.buf with
    | cons v rest =>
      cases hs : c.senders with
      | cons s senders => exact refill c v rest s senders hc hb hs
      | nil => exact buffered c v rest hc hb hs
    | nil =>
      cases hs : c.senders with
      | cons s senders => exact taken c s senders hc hb hs
      | nil =>
        dsimp only
        by_cases hcl : c.closed = true
        · rw [if_pos hcl]
          exact closed c hc hb hs hcl
        · rw [if_neg hcl]
          exact parked c hc hb hs (Bool.not_eq_true _ ▸ hcl)

/-- Hand the buffered values to the drained receivers, in order. -/
def drainTo : List Int → List Int → List (Int × Option Int)
  | [], _ => []
  | r :: rs, buf => (r, buf.head?) :: drainTo rs buf.tail

/-- One receiver released by a close, with the value it drained if any. -/
def closeReceiver (owns : Bool) (st : Global × List Int) (p : Int × Option Int) : Global × List Int :=
  match p.2, st.1.goroutines.lookup p.1 with
  | some value, some _ =>
      ((st.1.onGoroutine p.1 (Goroutine.receive value owns true)).pushReady p.1, st.2)
  | some value, none => (st.1.pushReady p.1, if owns then st.2 ++ [value] else st.2)
  | none, some _ =>
      ((st.1.onGoroutine p.1 (Goroutine.receive null false false)).pushReady p.1, st.2)
  | none, none => (st.1.pushReady p.1, st.2)

/-- One sender released by a close; its value is abandoned. -/
def closeSender (st : Global × List Int) (s : Int) : Global × List Int :=
  match st.1.goroutines.lookup s with
  | some gr =>
      ((st.1.onGoroutine s Goroutine.clearSend).pushReady s,
        if gr.pendingSend ≠ null then st.2 ++ [gr.pendingSend] else st.2)
  | none => (st.1.pushReady s, st.2)

end Global

namespace Runtime

variable (s : Runtime)

def chanSend (gid core : Int) : Runtime × Bool :=
  let value := s.g.pendingSendOf gid
  match s.g.chans.lookup core with
  | none => (s.onGlobal (·.releaseSender gid), false)
  | some chan =>
      if chan.closed then
        let reg := if chan.ownsElements then (s.reg.remove value).1 else s.reg
        ({ s with reg := reg, g := s.g.releaseSender gid }, false)
      else
        match chan.receivers with
        | receiver :: rest =>
            let g := s.g.onChan core (fun c => { c with receivers := rest })
            let g := g.onGoroutine receiver (Goroutine.receive value chan.ownsElements true)
            let g := g.onGoroutine gid Goroutine.clearSend
            ({ s with g := (g.pushReady receiver).pushReady gid }, true)
        | [] =>
            if 0 < chan.cap ∧ chan.buf.length < chan.cap then
              let g := s.g.onChan core (fun c => { c with buf := c.buf ++ [value] })
              ({ s with g := g.releaseSender gid }, false)
            else
              let g := s.g.onGoroutine gid (fun gr => { gr with pendingSendOwned := chan.ownsElements })
              ({ s with g := g.onChan core (fun c => { c with senders := c.senders ++ [gid] }) }, false)

/-- The five outcomes of a send. -/
theorem chanSend_cases {P : Runtime × Bool → Prop} {gid core : Int}
    (gone : s.g.chans.lookup core = none → P (s.onGlobal (·.releaseSender gid), false))
    (closed : ∀ c, s.g.chans.lookup core = some c → c.closed = true →
      P ({ s with
        reg := if c.ownsElements then (s.reg.remove (s.g.pendingSendOf gid)).1 else s.reg,
        g := s.g.releaseSender gid }, false))
    (handed : ∀ c receiver rest, s.g.chans.lookup core = some c → c.closed = false →
      c.receivers = receiver :: rest →
      let g₁ := s.g.onChan core (fun c => { c with receivers := rest })
      let g₂ := g₁.onGoroutine receiver
        (Goroutine.receive (s.g.pendingSendOf gid) c.ownsElements true)
      let g₃ := g₂.onGoroutine gid Goroutine.clearSend
      P ({ s with g := (g₃.pushReady receiver).pushReady gid }, true))
    (buffered : ∀ c, s.g.chans.lookup core = some c → c.closed = false → c.receivers = [] →
      0 < c.cap → c.buf.length < c.cap →
      let g₁ := s.g.onChan core (fun c => { c with buf := c.buf ++ [s.g.pendingSendOf gid] })
      P ({ s with g := g₁.releaseSender gid }, false))
    (parked : ∀ c, s.g.chans.lookup core = some c → c.closed = false → c.receivers = [] →
      ¬(0 < c.cap ∧ c.buf.length < c.cap) →
      let g₁ := s.g.onGoroutine gid (fun gr => { gr with pendingSendOwned := c.ownsElements })
      P ({ s with g := g₁.onChan core (fun c => { c with senders := c.senders ++ [gid] }) }, false)) :
    P (s.chanSend gid core) := by
  rw [chanSend]
  cases hc : s.g.chans.lookup core with
  | none => exact gone hc
  | some c =>
    dsimp only
    by_cases hcl : c.closed = true
    · rw [if_pos hcl]
      exact closed c hc hcl
    rw [if_neg hcl]
    have hopen : c.closed = false := Bool.not_eq_true _ ▸ hcl
    cases hr : c.receivers with
    | cons receiver rest => exact handed c receiver rest hc hopen hr
    | nil =>
      dsimp only
      by_cases hroom : 0 < c.cap ∧ c.buf.length < c.cap
      · rw [if_pos hroom]
        exact buffered c hc hopen hr hroom.1 hroom.2
      · rw [if_neg hroom]
        exact parked c hc hopen hr hroom

def chanRecv (gid core : Int) : Runtime × Bool :=
  ({ s with g := (s.g.chanRecv gid core).1 }, (s.g.chanRecv gid core).2)

def chanOp (gid core : Int) : ChanOp → Runtime × Bool
  | .send => s.chanSend gid core
  | .recv => s.chanRecv gid core

def chanClose (core : Int) : Runtime :=
  match s.g.chans.lookup core with
  | none => s
  | some chan =>
      if chan.closed then s else
        let g := s.g.onChan core (fun c =>
          { c with
            closed := true
            receivers := []
            senders := []
            buf := c.buf.drop c.receivers.length })
        let st := (Global.drainTo chan.receivers chan.buf).foldl
          (Global.closeReceiver chan.ownsElements) (g, [])
        let st := chan.senders.foldl Global.closeSender st
        { s with
          reg := if chan.ownsElements then s.reg.removeAll st.2 else s.reg
          g := st.1.syncReadyLen }

/-- The channel after a close: queues emptied, buffer drained by the receivers. -/
def closeQueues (core : Int) : Global :=
  s.g.onChan core (fun c =>
    { c with closed := true, receivers := [], senders := [], buf := c.buf.drop c.receivers.length })

/-- The scheduler state and the abandoned values after releasing every waiter. -/
def closeRelease (core : Int) (c : Chan) : Global × List Int :=
  c.senders.foldl Global.closeSender
    ((Global.drainTo c.receivers c.buf).foldl (Global.closeReceiver c.ownsElements)
      (s.closeQueues core, []))

/-- Releasing the waiters touches neither the channels nor the id counter. -/
theorem closeRelease_kept (core : Int) (c : Chan) :
    (s.closeRelease core c).1.chans = (s.closeQueues core).chans ∧
      (s.closeRelease core c).1.nextCore = s.g.nextCore := by
  let Kept (st : Global × List Int) : Prop :=
    st.1.chans = (s.closeQueues core).chans ∧ st.1.nextCore = s.g.nextCore
  have hr := List.foldlRecOn (Global.drainTo c.receivers c.buf) (Global.closeReceiver c.ownsElements)
    (motive := Kept) (b := (s.closeQueues core, [])) ⟨rfl, rfl⟩ (fun st hst p _ => by
      unfold Global.closeReceiver
      split <;> exact hst)
  exact List.foldlRecOn c.senders Global.closeSender (motive := Kept) hr (fun st hst x _ => by
    unfold Global.closeSender
    split <;> exact hst)

theorem chanClose_cases {P : Runtime → Prop} {core : Int} (gone : s.g.chans.lookup core = none → P s)
    (again : ∀ c, s.g.chans.lookup core = some c → c.closed = true → P s)
    (closing : ∀ c, s.g.chans.lookup core = some c → c.closed = false →
      P { s with
        reg := if c.ownsElements then s.reg.removeAll (s.closeRelease core c).2 else s.reg,
        g := (s.closeRelease core c).1.syncReadyLen }) : P (s.chanClose core) := by
  rw [chanClose]
  cases hc : s.g.chans.lookup core with
  | none => exact gone hc
  | some c =>
    dsimp only
    by_cases hcl : c.closed = true
    · rw [if_pos hcl]
      exact again c hc hcl
    · rw [if_neg hcl]
      exact closing c hc (Bool.not_eq_true _ ▸ hcl)

end Runtime
end Neutron
