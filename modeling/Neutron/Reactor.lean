import Mathlib.Data.List.MinMax
import Neutron.Mirrors

/-!
# What the reactor waits for

The reactor waits for descriptors and for the next timer outside every lock, with a copy of the interest table
and a timeout it worked out before. A thread that changes the table marks it as changed and then writes a byte to
the wake pipe; one that parks a timer writes the byte. These are steps of their own, and any number of threads
and the reactor run between them.
-/

namespace Neutron

open Execution

/-! ## Sections and timers -/

namespace Runtime

variable (s : Runtime)

/-- The section ends with a goroutine parked on a timer, and `drive` goes on to wake the reactor. -/
def parksTimer : LockedSection → Bool
  | .drivePark gid state _ =>
      match state.park with
      | .timer _ => (s.g.goroutines.lookup gid).isSome
      | _ => false
  | _ => false

variable {s}

/-- A section that adds a deadline parks a timer. -/
theorem timers_parkOn {gid : Int} {park : Park} (hpark : ∀ deadline, park ≠ .timer deadline) :
    (s.parkOn gid park).1.g.timers = s.g.timers := by
  cases park with
  | none => rfl
  | chan core op =>
    cases op with
    | send => exact (sameTimers_chanSend gid core).timers
    | recv => exact (Global.sameTimers_chanRecv gid core).timers
  | timer deadline => exact absurd rfl (hpark deadline)
  | fd io read =>
    unfold parkOn
    dsimp only
    split
    · rw [registerFd_g]
    · rw [registerFd_g]
      rfl
  | join target => exact (Global.sameTimers_joinPark gid target).timers
  | job core => exact (Global.sameTimers_parkJob gid core).timers

theorem mem_timers_clearTimers {g : Global} {gid deadline : Int} (h : deadline ∈ (g.clearTimers gid).timers) :
    deadline ∈ g.timers := by
  obtain ⟨gids, hgids⟩ := Option.isSome_iff_exists.mp (AList.lookup_isSome.mpr h)
  change (AList.filterVals _ (AList.mapWithKey _ g.timers)).lookup deadline = some gids at hgids
  rw [AList.lookup_filterVals, Option.filter_eq_some_iff, AList.lookup_mapWithKey] at hgids
  obtain ⟨old, hold, -⟩ := Option.map_eq_some_iff.mp hgids.1
  exact AList.lookup_isSome.mp (by rw [hold]; rfl)

theorem mem_timers_filterKeys {g : Global} {p : Int → Prop} [DecidablePred p] {deadline : Int}
    (h : deadline ∈ g.timers.filterKeys fun k => p k) : deadline ∈ g.timers ∧ p deadline := by
  obtain ⟨gids, hgids⟩ := Option.isSome_iff_exists.mp (AList.lookup_isSome.mpr h)
  have hmem := List.mem_filter.mp (AList.mem_lookup_iff.mp hgids)
  exact ⟨AList.lookup_isSome.mp (by rw [AList.mem_lookup_iff.mpr hmem.1]; rfl), by simpa using hmem.2⟩

theorem mem_timers_locked {a : LockedSection} {deadline : Int} (h : deadline ∈ (s.locked a).g.timers) :
    deadline ∈ s.g.timers ∨ s.parksTimer a = true := by
  have hsame : (s.locked a).g.timers = s.g.timers → deadline ∈ s.g.timers := fun heq => heq ▸ h
  cases a with
  | pushReadyBatch ids =>
    refine .inl (hsame ?_)
    change (s.g.pushReadyBatch ids).timers = _
    unfold Global.pushReadyBatch
    split <;> rfl
  | driveDone gid thrown =>
    refine .inl (hsame ?_)
    change (s.g.finish gid thrown).timers = _
    unfold Global.finish
    split
    · rfl
    · dsimp only
      split <;> rfl
  | drivePark gid state tasks =>
    cases hgr : s.g.goroutines.lookup gid with
    | none => exact .inl (hsame (by unfold locked; simp only [hgr]))
    | some gr =>
      cases hpark : state.park with
      | timer due => exact .inr (by simp only [parksTimer, hpark, hgr, Option.isSome_some])
      | _ =>
        refine .inl (hsame ?_)
        unfold locked
        simp only [hgr]
        exact timers_parkOn (s := s.flushTask gid state tasks) (by simp [hpark])
  | chanClose core =>
    refine .inl (hsame ?_)
    apply chanClose_cases (P := fun s' => s'.g.timers = s.g.timers)
    case gone => exact fun _ => rfl
    case again => exact fun _ _ _ => rfl
    case closing => exact fun c _ _ => (sameTimers_closeRelease core c).timers
  | dropGoroutine core =>
    refine .inl ?_
    change deadline ∈ (s.dropGoroutine core).1.g.timers at h
    unfold dropGoroutine at h
    cases hgr : s.g.goroutines.lookup core with
    | none =>
      rw [hgr] at h
      exact h
    | some gr =>
      rw [hgr] at h
      exact mem_timers_clearTimers (g := { s.g with goroutines := s.g.goroutines.erase core }) h
  | dropChan core =>
    refine .inl (hsame ?_)
    unfold locked dropChan
    dsimp only
    split <;> rfl
  | dropOp core =>
    refine .inl (hsame ?_)
    unfold locked dropOp
    dsimp only
    split <;> rfl
  | ioReady core =>
    refine .inl (hsame ?_)
    change (s.g.ioReady core).1.timers = _
    unfold Global.ioReady
    split <;> rfl
  | completeOp core result =>
    refine .inl (hsame ?_)
    change (s.g.completeOp core result).timers = _
    unfold Global.completeOp
    cases s.g.ops.lookup core with
    | none => rfl
    | some op =>
      dsimp only
      cases op.waiter <;> rfl
  | opResult core =>
    refine .inl (hsame ?_)
    change (s.g.opResult core).1.timers = _
    unfold Global.opResult
    split <;> rfl
  | joinBlocking gid =>
    refine .inl (hsame ?_)
    change (s.g.takeException gid).1.timers = _
    unfold Global.takeException
    split
    · rfl
    · split <;> rfl
  | fireTimers now => exact .inl (mem_timers_filterKeys (g := s.g) (p := fun k => now < k) h).1
  | wakeReadyIos ios =>
    refine .inl (hsame ?_)
    change (s.g.wakeReadyIos ios).timers = _
    refine List.foldlRecOn ios Global.wakeReadyIo (motive := fun g => g.timers = s.g.timers) rfl
      fun g hg io _ => ?_
    unfold Global.wakeReadyIo
    split
    · exact hg
    · exact hg
  | shutdown => cases h
  | _ => exact .inl h

end Runtime

/-! ## The reactor and the threads around it -/

namespace Reactor

/-- Where a thread is in a call: it has changed the interest table and not marked it yet, or it has the wake byte
still to write. -/
inductive Call where
  | idle
  | mark
  | wake
  deriving DecidableEq

/-- Where the reactor is in its loop. Once due timers are fired it keeps the time it fired them at and the first
deadline left. -/
inductive Loop where
  | scan
  | fire (now : Int)
  | rebuild (now : Int) (next : Option Int)
  | copy (now : Int) (next : Option Int)
  | polling (now : Int) (next : Option Int)
  | drain
  | stopped
  deriving DecidableEq

/-- The timeout of the wait, negative for a wait without one. -/
def timeoutMs (now : Int) (next : Option Int) : Int :=
  match next with
  | some deadline => max (deadline - now) 1
  | none => -1

structure State (ι : Type) where
  rt : Runtime
  /-- `FD_INTERESTS` -/
  table : IdMap (Int × Bool)
  /-- `INTERESTS_DIRTY` -/
  dirty : Bool
  /-- `SHUTDOWN` -/
  stop : Bool
  /-- The bytes in the wake pipe. -/
  bytes : ℕ
  /-- The interests the wait set was built from. -/
  fds : IdMap (Int × Bool)
  loop : Loop
  call : ι → Call

inductive Act (ι : Type) where
  | section (t : ι) (a : LockedSection)
  | registerFd (t : ι) (io fd : Int) (read : Bool)
  | attachFd (t : ι) (io fd : Int) (read : Bool)
  | detachFd (t : ι) (io : Int)
  | shutdown (t : ι)
  | mark (t : ι)
  | wake (t : ι)
  | scan (now : Int)
  | fire
  | rebuild
  | copy
  | ready (woken : Bool)
  | drain

namespace State

variable {ι : Type} [DecidableEq ι] (s : State ι)

def start : State ι := ⟨Runtime.empty, ∅, true, false, 0, ∅, .scan, fun _ => .idle⟩

def calls (t : ι) (c : Call) : State ι := { s with call := Function.update s.call t c }

/-- A byte is in the pipe or about to be written to it. -/
def Waking : Prop := 0 < s.bytes ∨ ∃ t, s.call t = .wake

/-- A changed table is about to be marked. -/
def Marking : Prop := ∃ t, s.call t = .mark

def step : Act ι → State ι
  | .section t a =>
      if s.rt.parksTimer a then { s with rt := s.rt.locked a }.calls t .wake else { s with rt := s.rt.locked a }
  | .registerFd t io fd read =>
      if fd ≤ 0 then s.calls t .wake
      else if s.table.lookup io = some (fd, read) then s
      else { s with table := s.table.insert io (fd, read) }.calls t .mark
  | .attachFd t io fd read =>
      { s with table := if fd ≤ 0 then s.table.erase io else s.table.insert io (fd, read) }.calls t .mark
  | .detachFd t io =>
      if (s.table.lookup io).isSome then { s with table := s.table.erase io }.calls t .mark else s
  | .shutdown t => { s with stop := true }.calls t .wake
  | .mark t => { s with dirty := true }.calls t .wake
  | .wake t => { s with bytes := s.bytes + 1 }.calls t .idle
  | .scan now =>
      if s.stop then { s with loop := .stopped }
      else if s.rt.g.timerPending ≤ 0 then { s with loop := .rebuild now none }
      else { s with loop := .fire now }
  | .fire =>
      match s.loop with
      | .fire now =>
          let rt := s.rt.locked (.fireTimers now)
          { s with rt := rt, loop := .rebuild now rt.g.timers.keys.min? }
      | _ => s
  | .rebuild =>
      match s.loop with
      | .rebuild now next =>
          { s with dirty := false, loop := if s.dirty then .copy now next else .polling now next }
      | _ => s
  | .copy =>
      match s.loop with
      | .copy now next => { s with fds := s.table, loop := .polling now next }
      | _ => s
  | .ready woken => { s with loop := if woken then .drain else .scan }
  -- one read of the pipe takes up to 64 bytes, and the drain ends on an empty pipe
  | .drain => if s.bytes = 0 then { s with loop := .scan } else { s with bytes := s.bytes - 64 }

/-- Each step is taken by a thread that is there in its call, or by the reactor there in its loop. -/
def Enabled : Act ι → Prop
  | .section t _ | .registerFd t _ _ _ | .attachFd t _ _ _ | .detachFd t _ | .shutdown t => s.call t = .idle
  | .mark t => s.call t = .mark
  | .wake t => s.call t = .wake
  | .scan _ => s.loop = .scan
  | .fire => ∃ now, s.loop = .fire now
  | .rebuild => ∃ now next, s.loop = .rebuild now next
  | .copy => ∃ now next, s.loop = .copy now next
  | .ready _ => ∃ now next, s.loop = .polling now next
  | .drain => s.loop = .drain

/-! ## Nothing is missed -/

/-- The deadline the reactor is going to wait for, in the part of the loop between the timers and the wait. -/
def waitsFor : Loop → Option (Option Int)
  | .rebuild _ next | .copy _ next | .polling _ next => some next
  | _ => none

/-- The wait comes after a test of the mark. -/
def rebuilt : Loop → Bool
  | .copy _ _ | .polling _ _ => true
  | _ => false

def pastStop : Loop → Bool
  | .fire _ | .rebuild _ _ | .copy _ _ | .polling _ _ => true
  | _ => false

def isCopy : Loop → Bool
  | .copy _ _ => true
  | _ => false

/-- What the reactor does not know of yet is marked, or it is going to be woken. -/
structure Armed : Prop where
  mirrored : s.rt.g.Mirrored
  watched : isCopy s.loop = false → s.Marking ∨ s.dirty = true ∨ s.fds = s.table
  marked : rebuilt s.loop = true → s.dirty = true → s.Waking
  timers : ∀ next, waitsFor s.loop = some next →
    s.Waking ∨ ∀ deadline ∈ s.rt.g.timers, ∃ first, next = some first ∧ first ≤ deadline
  stopping : pastStop s.loop = true → s.stop = true → s.Waking

variable {s} {t : ι} {c : Call}

theorem waking_calls (ht : s.call t ≠ .wake) (h : s.Waking) : (s.calls t c).Waking := by
  rcases h with hbytes | ⟨u, hu⟩
  · exact .inl hbytes
  · refine .inr ⟨u, ?_⟩
    have hne : u ≠ t := fun heq => ht (heq ▸ hu)
    exact (Function.update_of_ne hne _ _).trans hu

theorem waking_wake : (s.calls t .wake).Waking := .inr ⟨t, Function.update_self _ _ _⟩

theorem marking_calls (ht : s.call t ≠ .mark) (h : s.Marking) : (s.calls t c).Marking := by
  obtain ⟨u, hu⟩ := h
  have hne : u ≠ t := fun heq => ht (heq ▸ hu)
  exact ⟨u, (Function.update_of_ne hne _ _).trans hu⟩

theorem marking_mark : (s.calls t .mark).Marking := ⟨t, Function.update_self _ _ _⟩

omit [DecidableEq ι] in
theorem armed_start : (start : State ι).Armed where
  mirrored := ⟨rfl, rfl, fun deadline gids hl => by cases hl⟩
  watched _ := .inr (.inl rfl)
  marked h := by cases h
  timers next h := by cases h
  stopping h := by cases h

/-- A thread that changes no table goes on to wake the reactor. -/
theorem Armed.toWake (h : s.Armed) (ht : s.call t = .idle) {rt : Runtime} (hrt : rt.g.Mirrored) (stop : Bool) :
    ({ s with rt := rt, stop := stop }.calls t .wake).Armed where
  mirrored := hrt
  watched hcopy := (h.watched hcopy).imp_left (marking_calls (by rw [ht]; exact Call.noConfusion))
  marked _ _ := waking_wake
  timers _ _ := .inl waking_wake
  stopping _ _ := waking_wake

/-- A thread that changed the table goes on to mark it. -/
theorem Armed.toMark (h : s.Armed) (ht : s.call t = .idle) (table : IdMap (Int × Bool)) :
    ({ s with table := table }.calls t .mark).Armed where
  mirrored := h.mirrored
  watched _ := .inl marking_mark
  marked hloop hdirty := waking_calls (s := { s with table := table }) (by rw [ht]; exact Call.noConfusion)
    (h.marked hloop hdirty)
  timers next hnext := (h.timers next hnext).imp_left
    (waking_calls (s := { s with table := table }) (by rw [ht]; exact Call.noConfusion))
  stopping hloop hstop := waking_calls (s := { s with table := table }) (by rw [ht]; exact Call.noConfusion)
    (h.stopping hloop hstop)

theorem Armed.section (h : s.Armed) (ht : s.call t = .idle) (a : LockedSection) : (s.step (.section t a)).Armed := by
  have hmirrored := Runtime.mirrored_locked h.mirrored a
  simp only [State.step]
  by_cases hpark : s.rt.parksTimer a = true
  · rw [if_pos hpark]
    exact h.toWake ht hmirrored s.stop
  · rw [if_neg hpark]
    refine ⟨hmirrored, h.watched, h.marked, fun next hnext => ?_, h.stopping⟩
    rcases h.timers next hnext with hwaking | hfirst
    · exact .inl hwaking
    · exact .inr fun deadline hd => hfirst deadline ((Runtime.mem_timers_locked hd).resolve_right hpark)

omit [DecidableEq ι] in
theorem no_timers (h : s.rt.g.Mirrored) (hpending : s.rt.g.timerPending ≤ 0) (deadline : Int) :
    deadline ∉ s.rt.g.timers := by
  intro hmem
  obtain ⟨gids, hgids⟩ := Option.isSome_iff_exists.mp (AList.lookup_isSome.mpr hmem)
  have hpos := List.length_pos_iff.mpr (h.buckets deadline gids hgids)
  have htotal := AList.total_erase (f := fun _ (gids : List Int) => gids.length) hgids
  have hcount := h.pending
  unfold Global.timersLen at hcount
  omega

omit [DecidableEq ι] in
/-- Outside of the part of the loop that ends in the wait, only the mark counts. -/
theorem Armed.outside (h : s.Armed) (hcopy : isCopy s.loop = false) {loop : Loop}
    (hloop : loop = .scan ∨ loop = .drain ∨ loop = .stopped) (bytes : ℕ) :
    ({ s with loop := loop, bytes := bytes } : State ι).Armed := by
  have hwatched := h.watched hcopy
  rcases hloop with rfl | rfl | rfl
  all_goals
    refine ⟨h.mirrored, fun _ => hwatched, ?_, ?_, ?_⟩
    · exact fun hrebuilt => absurd hrebuilt Bool.false_ne_true
    · exact fun next hnext => absurd hnext.symm (Option.some_ne_none next)
    · exact fun hpast => absurd hpast Bool.false_ne_true

theorem Armed.scan (h : s.Armed) (hloop : s.loop = .scan) (now : Int) : (s.step (.scan now)).Armed := by
  have hcopy : isCopy s.loop = false := by rw [hloop]; rfl
  have hwatched := h.watched hcopy
  simp only [State.step]
  split_ifs with hstop hpending
  · exact h.outside hcopy (.inr (.inr rfl)) s.bytes
  · refine ⟨h.mirrored, fun _ => hwatched, ?_, ?_, ?_⟩
    · exact fun hrebuilt => absurd hrebuilt Bool.false_ne_true
    · exact fun _ _ => .inr fun deadline hd => absurd hd (no_timers h.mirrored hpending deadline)
    · exact fun _ hs => absurd hs hstop
  · refine ⟨h.mirrored, fun _ => hwatched, ?_, ?_, ?_⟩
    · exact fun hrebuilt => absurd hrebuilt Bool.false_ne_true
    · exact fun next hnext => absurd hnext.symm (Option.some_ne_none next)
    · exact fun _ hs => absurd hs hstop

/-- The first deadline left is no later than any other, and every timer parked meanwhile wakes the reactor. -/
theorem Armed.fire (h : s.Armed) {now : Int} (hloop : s.loop = .fire now) : (s.step .fire).Armed := by
  have hwatched := h.watched (by rw [hloop]; rfl)
  have hstopping := h.stopping (by rw [hloop]; rfl)
  simp only [State.step, hloop]
  refine ⟨Runtime.mirrored_locked h.mirrored _, fun _ => hwatched, ?_, ?_, fun _ => hstopping⟩
  · exact fun hrebuilt => absurd hrebuilt Bool.false_ne_true
  · intro next hnext
    refine .inr fun deadline hd => ?_
    have hkeys : deadline ∈ (s.rt.locked (.fireTimers now)).g.timers.keys := hd
    obtain ⟨first, hfirst⟩ := Option.isSome_iff_exists.mp (List.isSome_min?_of_mem hkeys)
    exact ⟨first, (Option.some.inj hnext).symm.trans hfirst, (List.min?_eq_some_iff.mp hfirst).2 deadline hkeys⟩

/-- A mark that is set after its test comes with a byte that is still to be written. -/
theorem Armed.rebuild (h : s.Armed) {now : Int} {next : Option Int} (hloop : s.loop = .rebuild now next) :
    (s.step .rebuild).Armed := by
  have hwatched := h.watched (by rw [hloop]; rfl)
  have htimers := h.timers
  have hstopping := h.stopping (by rw [hloop]; rfl)
  rw [hloop] at htimers
  simp only [State.step, hloop]
  cases hdirty : s.dirty with
  | true =>
    refine ⟨h.mirrored, ?_, ?_, htimers, fun _ => hstopping⟩
    · exact fun hcopy => absurd hcopy.symm Bool.false_ne_true
    · exact fun _ hmarked => absurd hmarked Bool.false_ne_true
  | false =>
    rw [hdirty] at hwatched
    exact ⟨h.mirrored, fun _ => hwatched, fun _ hmarked => absurd hmarked Bool.false_ne_true, htimers,
      fun _ => hstopping⟩

theorem Armed.copy (h : s.Armed) {now : Int} {next : Option Int} (hloop : s.loop = .copy now next) :
    (s.step .copy).Armed := by
  have hmarked := h.marked (by rw [hloop]; rfl)
  have htimers := h.timers
  have hstopping := h.stopping (by rw [hloop]; rfl)
  rw [hloop] at htimers
  simp only [State.step, hloop]
  exact ⟨h.mirrored, fun _ => .inr (.inr rfl), fun _ => hmarked, htimers, fun _ => hstopping⟩

/-- What one step of a thread or of the reactor preserves. -/
theorem Armed.step (h : s.Armed) {a : Act ι} (ha : s.Enabled a) : (s.step a).Armed := by
  cases a with
  | «section» t a => exact h.section ha a
  | registerFd t io fd read =>
    simp only [State.step]
    split_ifs with hfd hsame
    · exact h.toWake ha h.mirrored s.stop
    · exact h
    · exact h.toMark ha _
  | attachFd t io fd read => exact h.toMark ha _
  | detachFd t io =>
    simp only [State.step]
    split_ifs with hfound
    · exact h.toMark ha _
    · exact h
  | shutdown t => exact h.toWake ha h.mirrored true
  | mark t => exact ⟨h.mirrored, fun _ => .inr (.inl rfl), fun _ _ => waking_wake, fun _ _ => .inl waking_wake,
      fun _ _ => waking_wake⟩
  | wake t =>
    have hbytes : (s.step (.wake t)).Waking := .inl (Nat.succ_pos _)
    have hcall : s.call t ≠ .mark := by rw [show s.call t = .wake from ha]; exact Call.noConfusion
    exact ⟨h.mirrored, fun hcopy => (h.watched hcopy).imp_left (marking_calls hcall), fun _ _ => hbytes,
      fun _ _ => .inl hbytes, fun _ _ => hbytes⟩
  | scan now => exact h.scan ha now
  | fire =>
    obtain ⟨now, hloop⟩ := ha
    exact h.fire hloop
  | rebuild =>
    obtain ⟨now, next, hloop⟩ := ha
    exact h.rebuild hloop
  | copy =>
    obtain ⟨now, next, hloop⟩ := ha
    exact h.copy hloop
  | ready woken =>
    obtain ⟨now, next, hloop⟩ := ha
    have hcopy : isCopy s.loop = false := by rw [hloop]; rfl
    cases woken with
    | true => exact h.outside hcopy (.inr (.inl rfl)) s.bytes
    | false => exact h.outside hcopy (.inl rfl) s.bytes
  | drain =>
    have hloop : s.loop = .drain := ha
    have hcopy : isCopy s.loop = false := by rw [hloop]; rfl
    simp only [State.step]
    split_ifs with hempty
    · exact h.outside hcopy (.inl rfl) s.bytes
    · exact h.outside hcopy (.inr (.inl hloop)) (s.bytes - 64)

/-- What a whole run preserves. -/
theorem armed_execute {acts : List (Act ι)} (hrun : Allowed State.step Enabled start acts) :
    (execute State.step (start : State ι) acts).Armed :=
  hrun.invariant (fun _ _ h ha => h.step ha) armed_start

/-- While the reactor waits, its wait set is the interest table, or a thread is about to say that it is not. -/
theorem waits_on_the_table {acts : List (Act ι)} (hrun : Allowed State.step Enabled start acts) {now : Int}
    {next : Option Int} (hloop : (execute State.step (start : State ι) acts).loop = .polling now next) :
    let s := execute State.step (start : State ι) acts
    (s.fds = s.table ∨ s.Marking ∨ s.Waking) ∧ (s.stop = true → s.Waking) := by
  intro s
  have h : s.Armed := armed_execute hrun
  have hwatched := h.watched (by rw [hloop]; rfl)
  refine ⟨?_, h.stopping (by rw [hloop]; rfl)⟩
  rcases hwatched with hmarking | hdirty | hfds
  · exact .inr (.inl hmarking)
  · exact .inr (.inr (h.marked (by rw [hloop]; rfl) hdirty))
  · exact .inl hfds

theorem waits_on_the_table_registered :
    let s := execute State.step (start : State Bool) [.registerFd true 5 7 true, .mark true, .scan 0, .rebuild, .copy]
    (s.fds = s.table ∨ s.Marking ∨ s.Waking) ∧ (s.stop = true → s.Waking) :=
  waits_on_the_table ⟨rfl, rfl, rfl, ⟨0, none, rfl⟩, ⟨0, none, rfl⟩, trivial⟩
    (rfl : _ = Loop.polling 0 none)

/-- While the reactor waits, its timeout runs out by the time any timer is due, or it is about to be woken. -/
theorem waits_for_every_timer {acts : List (Act ι)} (hrun : Allowed State.step Enabled start acts) {now : Int}
    {next : Option Int} (hloop : (execute State.step (start : State ι) acts).loop = .polling now next) :
    let s := execute State.step (start : State ι) acts
    s.Waking ∨ ∀ deadline ∈ s.rt.g.timers,
      0 < timeoutMs now next ∧ timeoutMs now next ≤ max (deadline - now) 1 := by
  intro s
  have h : s.Armed := armed_execute hrun
  rcases h.timers next (by rw [hloop]; rfl) with hwaking | hfirst
  · exact .inl hwaking
  · refine .inr fun deadline hd => ?_
    obtain ⟨first, rfl, hle⟩ := hfirst deadline hd
    simp only [timeoutMs]
    omega

theorem waits_for_every_timer_parked :
    let s := execute State.step (start : State Bool) [.section true (.registerGoroutine (.new 0 7 none 0)),
      .section true (.drivePark 1 { TaskState.idle with park := .timer 50 } [(0, 7)]), .wake true, .scan 10, .fire,
      .rebuild, .copy]
    s.Waking ∨ ∀ deadline ∈ s.rt.g.timers,
      0 < timeoutMs 10 (some 50) ∧ timeoutMs 10 (some 50) ≤ max (deadline - 10) 1 := by
  refine waits_for_every_timer ?_ (by decide +kernel : _ = Loop.polling 10 (some 50))
  exact ⟨rfl, rfl, rfl, rfl, ⟨10, by decide +kernel⟩, ⟨10, some 50, by decide +kernel⟩,
    ⟨10, some 50, by decide +kernel⟩, trivial⟩

end State
end Reactor
end Neutron
