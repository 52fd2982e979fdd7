import Mathlib.Data.List.Infix
import Neutron.Mirrors

/-!
# The shared queue is served

A worker runs its own queue first and looks at the shared one only when that is dry, or on every
`GLOBAL_CHECK_INTERVAL`-th turn of its loop. The turns counted are those of one worker; whatever the other
workers, the reactor and the goroutines do in between are critical sections in any order.
-/

namespace Neutron

open Execution

/-! ## What a section takes from the front of the shared queue -/

namespace Runtime

variable (s : Runtime)

/-- How many goroutines the section takes from the shared queue. -/
def taken : LockedSection → ℕ
  | .popReady => min 1 s.g.ready.length
  | .popReadyBatch workers => min (min (s.g.ready.length / max workers 1 + 1) s.g.ready.length) readyBatchCap
  | .shutdown => s.g.ready.length
  | _ => 0

variable {s}

theorem ready_chanSend (gid core : Int) : s.g.ready <+: (s.chanSend gid core).1.g.ready := by
  apply chanSend_cases s (P := fun out => s.g.ready <+: out.1.g.ready)
  case gone => exact fun _ => List.prefix_append _ _
  case closed => exact fun _ _ _ => List.prefix_append _ _
  case handed => exact fun _ _ _ _ _ _ => (List.prefix_append _ _).trans (List.prefix_append _ _)
  case buffered => exact fun _ _ _ _ _ _ => List.prefix_append _ _
  case parked => exact fun _ _ _ _ _ => List.prefix_rfl

theorem ready_chanRecv {g : Global} (gid core : Int) : g.ready <+: (g.chanRecv gid core).1.ready := by
  apply Global.chanRecv_cases g (P := fun out => g.ready <+: out.1.ready)
  case gone => exact fun _ => List.prefix_append _ _
  case refill => exact fun _ _ _ _ _ _ _ _ => (List.prefix_append _ _).trans (List.prefix_append _ _)
  case buffered => exact fun _ _ _ _ _ _ => List.prefix_append _ _
  case taken => exact fun _ _ _ _ _ _ => (List.prefix_append _ _).trans (List.prefix_append _ _)
  case closed => exact fun _ _ _ _ _ => List.prefix_append _ _
  case parked => exact fun _ _ _ _ _ => List.prefix_rfl

theorem ready_closeRelease (core : Int) (c : Chan) : s.g.ready <+: (s.closeRelease core c).1.ready := by
  have hr := List.foldlRecOn (Global.drainTo c.receivers c.buf) (Global.closeReceiver c.ownsElements)
    (motive := fun st => s.g.ready <+: st.1.ready) (b := (s.closeQueues core, [])) List.prefix_rfl
    (fun st hst p _ => by
      unfold Global.closeReceiver
      split <;> exact hst.trans (List.prefix_append _ _))
  exact List.foldlRecOn c.senders Global.closeSender (motive := fun st => s.g.ready <+: st.1.ready) hr
    (fun st hst x _ => by
      unfold Global.closeSender
      split <;> exact hst.trans (List.prefix_append _ _))

theorem ready_parkOn (gid : Int) (park : Park) : s.g.ready <+: (s.parkOn gid park).1.g.ready := by
  cases park with
  | none => exact List.prefix_rfl
  | chan core op =>
    cases op with
    | send => exact ready_chanSend gid core
    | recv => exact ready_chanRecv gid core
  | timer deadline => exact List.prefix_rfl
  | fd io read =>
    unfold parkOn
    dsimp only
    split
    · rw [registerFd_g]
    · rw [registerFd_g]
      exact List.prefix_rfl
  | join target =>
    change _ <+: (s.g.joinPark gid target).ready
    unfold Global.joinPark
    split
    · exact List.prefix_append _ _
    · split
      · exact List.prefix_append _ _
      · exact List.prefix_rfl
  | job core =>
    change _ <+: (s.g.parkJob gid core).1.ready
    unfold Global.parkJob
    split
    · exact List.prefix_rfl
    · split <;> exact List.prefix_rfl

/-- A section takes from the front of the shared queue and adds to its end. -/
theorem ready_locked (a : LockedSection) : s.g.ready.drop (s.taken a) <+: (s.locked a).g.ready := by
  cases a with
  | pushReady gid => exact List.prefix_append _ _
  | pushReadyBatch ids =>
    change _ <+: (s.g.pushReadyBatch ids).ready
    unfold Global.pushReadyBatch
    split
    · exact List.prefix_rfl
    · exact List.prefix_append _ _
  | popReady =>
    change s.g.ready.drop (min 1 s.g.ready.length) <+: s.g.ready.tail
    cases s.g.ready with
    | nil => exact List.prefix_rfl
    | cons gid rest =>
      rw [List.length_cons, Nat.min_eq_left (Nat.le_add_left 1 rest.length)]
      exact List.prefix_rfl
  | registerGoroutineRunnable gr => exact List.prefix_append _ _
  | driveDone gid thrown =>
    change _ <+: (s.g.finish gid thrown).ready
    unfold Global.finish
    split
    · exact List.prefix_rfl
    · dsimp only
      split <;> exact List.prefix_append _ _
  | drivePark gid state tasks =>
    unfold locked
    dsimp only
    split
    · exact List.prefix_rfl
    · exact ready_parkOn (s := s.flushTask gid state tasks) gid state.park
  | chanClose core =>
    change _ <+: (s.chanClose core).g.ready
    apply chanClose_cases (P := fun s' => s.g.ready <+: s'.g.ready)
    case gone => exact fun _ => List.prefix_rfl
    case again => exact fun _ _ _ => List.prefix_rfl
    case closing => exact fun c _ _ => ready_closeRelease core c
  | dropGoroutine core =>
    change _ <+: (s.dropGoroutine core).1.g.ready
    unfold dropGoroutine
    split <;> exact List.prefix_rfl
  | dropChan core =>
    unfold locked dropChan
    dsimp only
    split <;> exact List.prefix_rfl
  | dropOp core =>
    unfold locked dropOp
    dsimp only
    split <;> exact List.prefix_rfl
  | ioReady core =>
    change _ <+: (s.g.ioReady core).1.ready
    unfold Global.ioReady
    split <;> exact List.prefix_rfl
  | completeOp core result =>
    change _ <+: (s.g.completeOp core result).ready
    unfold Global.completeOp
    cases s.g.ops.lookup core with
    | none => exact List.prefix_rfl
    | some op =>
      dsimp only
      cases op.waiter with
      | none => exact List.prefix_rfl
      | some gid => exact List.prefix_append _ _
  | opResult core =>
    change _ <+: (s.g.opResult core).1.ready
    unfold Global.opResult
    split <;> exact List.prefix_rfl
  | joinBlocking gid =>
    change _ <+: (s.g.takeException gid).1.ready
    unfold Global.takeException
    split
    · exact List.prefix_rfl
    · split <;> exact List.prefix_rfl
  | wakeReadyIos ios =>
    change _ <+: (s.g.wakeReadyIos ios).ready
    refine List.foldlRecOn ios Global.wakeReadyIo (motive := fun g => s.g.ready <+: g.ready) List.prefix_rfl
      fun g hg io _ => ?_
    unfold Global.wakeReadyIo
    split
    · exact hg
    · exact hg.trans (List.prefix_append _ _)
  | shutdown => exact (List.drop_length (l := s.g.ready)).symm ▸ List.nil_prefix
  | _ => exact List.prefix_rfl

end Runtime

/-! ## One worker among the sections -/

namespace SharedQueue

def globalCheckInterval : ℕ := 61

structure State where
  rt : Runtime
  /-- The worker's turn counter. -/
  tick : UInt32
  /-- The worker found the shared queue filled on a turn that looks at it first. -/
  popping : Bool
  /-- Goroutines taken from the shared queue so far, by anyone. -/
  served : ℕ
  /-- Turns of the worker's loop so far. -/
  turns : ℕ

inductive Act where
  | section (a : LockedSection)
  | turn
  | pop

namespace State

variable (s : State)

def start (rt : Runtime) (tick : UInt32) : State := ⟨rt, tick, false, 0, 0⟩

def locked (a : LockedSection) : State := { s with rt := s.rt.locked a, served := s.served + s.rt.taken a }

/-- The rest of a turn that does not pop the shared queue at once is among the sections. -/
def step : Act → State
  | .section a => s.locked a
  | .turn =>
      let tick := s.tick + 1
      { s with
        tick := tick
        popping := tick.toNat % globalCheckInterval = 0 ∧ s.rt.g.readyLen ≠ 0
        turns := s.turns + 1 }
  | .pop => { s.locked .popReady with popping := false }

def stops : LockedSection → Bool
  | .shutdown => true
  | _ => false

/-- The workers leave their loops at a shutdown. -/
def Enabled : Act → Prop
  | .section a => stops a = false
  | .turn => s.popping = false
  | .pop => s.popping = true

instance (s : State) : DecidablePred s.Enabled
  | .section _ => inferInstanceAs (Decidable (_ = _))
  | .turn => inferInstanceAs (Decidable (_ = _))
  | .pop => inferInstanceAs (Decidable (_ = _))

/-- Turns until the next one that looks at the shared queue first; the counter wraps around to such a turn. -/
def untilCheck : ℕ :=
  min (globalCheckInterval - s.tick.toNat % globalCheckInterval) (UInt32.size - s.tick.toNat)

/-- Every taken goroutine of the first `p + 1` allows for as many turns as there are between two looks. -/
structure Served (queue : List Int) (p : ℕ) (s : State) : Prop where
  mirrored : s.rt.g.Mirrored
  rest : queue.drop s.served <+: s.rt.g.ready
  due : s.served ≤ p →
    s.turns + (if s.popping then 0 else s.untilCheck) + globalCheckInterval * (p - s.served) ≤
      globalCheckInterval * (p + 1)

variable {s} {queue : List Int} {p : ℕ}

theorem untilCheck_le : s.untilCheck ≤ globalCheckInterval :=
  (Nat.min_le_left _ _).trans (Nat.sub_le _ _)

theorem served_start (rt : Runtime) (tick : UInt32) (h : rt.g.Mirrored) :
    Served rt.g.ready p (start rt tick) where
  mirrored := h
  rest := List.prefix_rfl
  due _ := by
    have hle := untilCheck_le (s := start rt tick)
    have hmul := Nat.mul_succ globalCheckInterval p
    change 0 + (start rt tick).untilCheck + globalCheckInterval * p ≤ globalCheckInterval * p.succ
    omega

/-- What is taken before the turn of a goroutine only brings that turn nearer. -/
theorem Served.locked (h : Served queue p s) (a : LockedSection) : Served queue p (s.locked a) where
  mirrored := Runtime.mirrored_locked h.mirrored a
  rest := by
    have hdrop := h.rest.drop (s.rt.taken a)
    rw [List.drop_drop] at hdrop
    exact hdrop.trans (Runtime.ready_locked a)
  due hp := by
    have hle : s.served + s.rt.taken a ≤ p := hp
    have hdue := h.due (by omega)
    have hnearer : p - (s.served + s.rt.taken a) ≤ p - s.served := by omega
    have hmul := Nat.mul_le_mul_left globalCheckInterval hnearer
    exact le_trans (Nat.add_le_add_left hmul _) hdue

theorem untilCheck_turn (h : (s.tick + 1).toNat % globalCheckInterval ≠ 0) :
    (s.step .turn).untilCheck + 1 = s.untilCheck := by
  have hlt := s.tick.toNat_lt
  have hnext : (s.step .turn).tick.toNat = (s.tick.toNat + 1) % 2 ^ 32 := UInt32.toNat_add _ _
  have hmod : (s.tick + 1).toNat = (s.tick.toNat + 1) % 2 ^ 32 := UInt32.toNat_add _ _
  rw [hmod] at h
  have hwrap : s.tick.toNat + 1 < 2 ^ 32 := by
    by_contra hge
    exact h (by rw [show s.tick.toNat + 1 = 2 ^ 32 by omega, Nat.mod_self, Nat.zero_mod])
  unfold untilCheck UInt32.size
  rw [hnext, Nat.mod_eq_of_lt hwrap]
  rw [Nat.mod_eq_of_lt hwrap] at h
  unfold globalCheckInterval at h ⊢
  omega

theorem untilCheck_pos : 0 < s.untilCheck := by
  have hlt := s.tick.toNat_lt
  unfold untilCheck globalCheckInterval UInt32.size
  omega

theorem Served.turn (h : Served queue p s) (hturn : s.popping = false) (hp : p < queue.length) :
    Served queue p (s.step .turn) where
  mirrored := h.mirrored
  rest := h.rest
  due hle := by
    have hserved : s.served ≤ p := hle
    have hdue := h.due hserved
    rw [hturn, if_neg Bool.false_ne_true] at hdue
    change s.turns + 1 + _ + globalCheckInterval * (p - s.served) ≤ _
    by_cases hcheck : (s.tick + 1).toNat % globalCheckInterval = 0
    · -- the goroutine at `p` is still there, so the worker goes on to pop
      have hlen := h.rest.length_le
      rw [List.length_drop] at hlen
      have hready : s.rt.g.readyLen ≠ 0 := by
        rw [h.mirrored.ready]
        omega
      have hpop : (s.step .turn).popping = true := decide_eq_true ⟨hcheck, hready⟩
      rw [hpop, if_pos rfl]
      have hpos := untilCheck_pos (s := s)
      omega
    · have hpop : (s.step .turn).popping = false := decide_eq_false fun hboth => hcheck hboth.1
      rw [hpop, if_neg Bool.false_ne_true]
      have hnext := untilCheck_turn hcheck
      omega

theorem Served.pop (h : Served queue p s) (hpop : s.popping = true) (hp : p < queue.length) :
    Served queue p (s.step .pop) where
  mirrored := (h.locked .popReady).mirrored
  rest := (h.locked .popReady).rest
  due hle := by
    have htaken : s.served + min 1 s.rt.g.ready.length ≤ p := hle
    have hlen := h.rest.length_le
    rw [List.length_drop] at hlen
    have hone : min 1 s.rt.g.ready.length = 1 := by omega
    have hdue := h.due (by omega)
    rw [hpop, if_pos rfl] at hdue
    have hmul := Nat.mul_succ globalCheckInterval (p - (s.served + 1))
    rw [show (p - (s.served + 1)).succ = p - s.served by omega] at hmul
    have huntil := untilCheck_le (s := s.step .pop)
    change s.turns + (s.step .pop).untilCheck +
      globalCheckInterval * (p - (s.served + min 1 s.rt.g.ready.length)) ≤ _
    rw [hone]
    omega

/-- What one step preserves. -/
theorem Served.step (hp : p < queue.length) (h : Served queue p s) {a : Act} (ha : s.Enabled a) :
    Served queue p (s.step a) := by
  cases a with
  | «section» a => exact h.locked a
  | turn => exact h.turn ha hp
  | pop => exact h.pop ha hp

/-- No goroutine is left waiting in the shared queue: one that is at `p` is taken by the time any one worker has
gone through 61 turns for each goroutine up to it, however busy its own queue is kept meanwhile. -/
theorem taken_by_turn {sections : List LockedSection} {tick : UInt32} {acts : List Act} {p : ℕ}
    (hrun : Allowed step Enabled (start (execute Runtime.locked Runtime.empty sections) tick) acts)
    (hp : p < (execute Runtime.locked Runtime.empty sections).g.ready.length)
    (hturns : globalCheckInterval * (p + 1) <
      (execute step (start (execute Runtime.locked Runtime.empty sections) tick) acts).turns) :
    let rt := execute Runtime.locked Runtime.empty sections
    let s := execute step (start rt tick) acts
    p < s.served ∧ rt.g.ready.drop s.served <+: s.rt.g.ready := by
  intro rt s
  have hreach : rt.g.Mirrored := by
    refine List.foldlRecOn sections Runtime.locked (motive := fun rt => rt.g.Mirrored) ?_
      fun rt h a _ => Runtime.mirrored_locked h a
    exact ⟨rfl, rfl, fun deadline gids hl => absurd hl (Option.some_ne_none gids).symm⟩
  have h : Served rt.g.ready p s :=
    hrun.invariant (fun _ _ h ha => Served.step hp h ha) (served_start rt tick hreach)
  refine ⟨?_, h.rest⟩
  by_contra hle
  have hdue := h.due (by omega)
  change globalCheckInterval * (p + 1) < s.turns at hturns
  omega

theorem taken_by_turn_pushed :
    let rt := execute Runtime.locked Runtime.empty [.pushReady 5]
    let s := execute step (start rt 60) (.turn :: .pop :: List.replicate 61 .turn)
    0 < s.served ∧ rt.g.ready.drop s.served <+: s.rt.g.ready :=
  taken_by_turn (by decide +kernel) (by decide) (by decide +kernel)

end State
end SharedQueue
end Neutron
